import Grmdb.CondMeaning
import Grmdb.RunMerge

namespace Grmdb

open RunMerge

section Merge

variable {orderBy : ColMeta} {left right : List Bytes} {runs : List (List Bytes)}

theorem judgeOrder_keys {l r : Bytes} (hl : (orderBy.key? l).isSome) (hr : (orderBy.key? r).isSome) :
    judgeOrder orderBy l r =
      if orderBy.key r < orderBy.key l then .gt
      else if orderBy.key l < orderBy.key r then .lt else .eq := by
  obtain ⟨v, w, hv, hw, hcomp⟩ := comp_keys hl hr
  unfold judgeOrder
  simp only [hv, hw, hcomp, CompOp.holds, Option.some.injEq, decide_eq_true_eq]

/-- Blocks without a common key are merged as they should be. -/
theorem mergeBlocks_eq {fuel : Nat} (hleft : ∀ l ∈ left, (orderBy.key? l).isSome)
    (hright : ∀ r ∈ right, (orderBy.key? r).isSome)
    (hne : ∀ l ∈ left, ∀ r ∈ right, orderBy.key l ≠ orderBy.key r)
    (hfuel : left.length + right.length < fuel) :
    mergeBlocks orderBy fuel left right = merge orderBy.key left right := by
  induction fuel generalizing left right with
  | zero => omega
  | succ fuel ih =>
    cases left with
    | nil => simp [mergeBlocks, merge]
    | cons l left =>
      cases right with
      | nil => simp [mergeBlocks, merge]
      | cons r right =>
        simp only [List.length_cons] at hfuel
        obtain ⟨hl, hleft'⟩ := List.forall_mem_cons.mp hleft
        obtain ⟨hr, hright'⟩ := List.forall_mem_cons.mp hright
        have hlr := hne l List.mem_cons_self r List.mem_cons_self
        rw [mergeBlocks, judgeOrder_keys hl hr, merge]
        rcases lt_or_gt_of_ne hlr with hlt | hgt
        · rw [if_neg hlt.not_gt, if_pos hlt, List.cons_merge_cons_pos _ _ _ (by simpa using hlt.le)]
          dsimp only
          rw [ih hleft' hright (fun x hx => hne x (List.mem_cons_of_mem _ hx))
            (by simp only [List.length_cons]; omega), merge]
        · rw [if_pos hgt, List.cons_merge_cons_neg _ _ _ (by simpa using hgt)]
          dsimp only
          rw [ih hleft hright' (fun x hx y hy => hne x hx y (List.mem_cons_of_mem _ hy))
            (by simp only [List.length_cons]; omega), merge]

theorem mergeBlocks_length (orderBy : ColMeta) (fuel : Nat) (left right : List Bytes) :
    (mergeBlocks orderBy fuel left right).length ≤ left.length + right.length := by
  induction fuel generalizing left right with
  | zero => simp [mergeBlocks]
  | succ fuel ih =>
    cases left with
    | nil => simp [mergeBlocks]
    | cons l left =>
      cases right with
      | nil => simp [mergeBlocks]
      | cons r right =>
        rw [mergeBlocks]
        split
        next =>
          have := ih left (r :: right)
          simp only [List.length_cons] at this ⊢
          omega
        next =>
          have := ih (l :: left) right
          simp only [List.length_cons] at this ⊢
          omega
        next =>
          have := ih left right
          simp only [List.length_cons]
          omega

/-- A merge that writes as many tuples as it reads has written all of them. -/
theorem mergeBlocks_full {fuel : Nat}
    (hlen : left.length + right.length ≤ (mergeBlocks orderBy fuel left right).length) :
    (mergeBlocks orderBy fuel left right).Perm (left ++ right) := by
  induction fuel generalizing left right with
  | zero =>
    simp only [mergeBlocks, List.length_nil, Nat.le_zero, Nat.add_eq_zero_iff,
      List.length_eq_zero_iff] at hlen
    rw [hlen.1, hlen.2]
    exact List.Perm.refl _
  | succ fuel ih =>
    cases left with
    | nil => simp [mergeBlocks]
    | cons l left =>
      cases right with
      | nil => simp [mergeBlocks]
      | cons r right =>
        rw [mergeBlocks] at hlen ⊢
        split at hlen
        next =>
          simp only [List.length_cons] at hlen
          exact (ih (by simp only [List.length_cons]; omega)).cons l
        next =>
          simp only [List.length_cons] at hlen
          exact ((ih (by simp only [List.length_cons]; omega)).cons r).trans
            List.perm_middle.symm
        next =>
          have hle := mergeBlocks_length orderBy fuel left right
          simp only [List.length_cons] at hlen
          omega

/-- Two heads with one key leave one tuple out. -/
theorem mergeBlocks_full_apart {fuel : Nat} (hleft : ∀ l ∈ left, (orderBy.key? l).isSome)
    (hright : ∀ r ∈ right, (orderBy.key? r).isSome)
    (hsortedL : left.Pairwise fun x y => orderBy.key x ≤ orderBy.key y)
    (hsortedR : right.Pairwise fun x y => orderBy.key x ≤ orderBy.key y)
    (hlen : left.length + right.length ≤ (mergeBlocks orderBy fuel left right).length) :
    ∀ l ∈ left, ∀ r ∈ right, orderBy.key l ≠ orderBy.key r := by
  induction fuel generalizing left right with
  | zero =>
    simp only [mergeBlocks, List.length_nil, Nat.le_zero, Nat.add_eq_zero_iff,
      List.length_eq_zero_iff] at hlen
    rw [hlen.1]
    simp
  | succ fuel ih =>
    cases left with
    | nil => simp
    | cons l left =>
      cases right with
      | nil => simp
      | cons r right =>
        obtain ⟨hl, hleft'⟩ := List.forall_mem_cons.mp hleft
        obtain ⟨hr, hright'⟩ := List.forall_mem_cons.mp hright
        obtain ⟨hheadL, htailL⟩ := List.pairwise_cons.mp hsortedL
        obtain ⟨hheadR, htailR⟩ := List.pairwise_cons.mp hsortedR
        rw [mergeBlocks, judgeOrder_keys hl hr] at hlen
        rcases lt_trichotomy (orderBy.key l) (orderBy.key r) with hlt | heq | hgt
        · rw [if_neg hlt.not_gt, if_pos hlt] at hlen
          simp only [List.length_cons] at hlen
          have hrest := ih hleft' hright htailL hsortedR (by simp only [List.length_cons]; omega)
          refine List.forall_mem_cons.mpr ⟨List.forall_mem_cons.mpr ⟨hlt.ne, fun y hy => ?_⟩, hrest⟩
          exact (hlt.trans_le (hheadR y hy)).ne
        · rw [heq, if_neg (lt_irrefl _), if_neg (lt_irrefl _)] at hlen
          have hle := mergeBlocks_length orderBy fuel left right
          simp only [List.length_cons] at hlen
          omega
        · rw [if_pos hgt] at hlen
          simp only [List.length_cons] at hlen
          have hrest := ih hleft hright' hsortedL htailR (by simp only [List.length_cons]; omega)
          refine fun x hx => List.forall_mem_cons.mpr ⟨?_, hrest x hx⟩
          rcases List.mem_cons.mp hx with rfl | hx
          · exact hgt.ne'
          · exact (hgt.trans_le (hheadL x hx)).ne'

/-- Blocks that come downwards are not put together downwards. -/
theorem mergeBlocks_not_desc {fuel : Nat} (hleft : ∀ l ∈ left, (orderBy.key? l).isSome)
    (hright : ∀ r ∈ right, (orderBy.key? r).isSome) (hl : left ≠ []) (hr : right ≠ [])
    (hlen : left.length + right.length ≤ (mergeBlocks orderBy fuel left right).length) :
    ¬(mergeBlocks orderBy fuel left right).Pairwise fun x y => orderBy.key y ≤ orderBy.key x := by
  intro hpair
  obtain ⟨l, left, rfl⟩ := List.exists_cons_of_ne_nil hl
  obtain ⟨r, right, rfl⟩ := List.exists_cons_of_ne_nil hr
  cases fuel with
  | zero => simp [mergeBlocks] at hlen
  | succ fuel =>
    rw [mergeBlocks, judgeOrder_keys (hleft l List.mem_cons_self)
      (hright r List.mem_cons_self)] at hlen hpair
    rcases lt_trichotomy (orderBy.key l) (orderBy.key r) with hlt | heq | hgt
    · rw [if_neg hlt.not_gt, if_pos hlt] at hlen hpair
      simp only [List.length_cons] at hlen
      have hperm := @mergeBlocks_full orderBy left (r :: right) fuel
        (by simp only [List.length_cons]; omega)
      have hmem : r ∈ mergeBlocks orderBy fuel left (r :: right) := hperm.mem_iff.mpr (by simp)
      exact absurd ((List.pairwise_cons.mp hpair).1 r hmem) hlt.not_ge
    · rw [heq, if_neg (lt_irrefl _), if_neg (lt_irrefl _)] at hlen
      have hle := mergeBlocks_length orderBy fuel left right
      simp only [List.length_cons] at hlen
      omega
    · rw [if_pos hgt] at hlen hpair
      simp only [List.length_cons] at hlen
      have hperm := @mergeBlocks_full orderBy (l :: left) right fuel
        (by simp only [List.length_cons]; omega)
      have hmem : l ∈ mergeBlocks orderBy fuel (l :: left) right := hperm.mem_iff.mpr (by simp)
      exact absurd ((List.pairwise_cons.mp hpair).1 l hmem) hgt.not_ge

/-- A pass over runs that have no key in common merges neighbours. -/
theorem mergePass_eq {b n bid fuel : Nat} {done written : List Bytes} (hb : 0 < b)
    (hruns : Filled b runs)
    (hapart : runs.Pairwise fun run run' => ∀ x ∈ run, ∀ y ∈ run', orderBy.key x ≠ orderBy.key y)
    (hkeys : ∀ run ∈ runs, ∀ row ∈ run, (orderBy.key? row).isSome)
    (hdone : runs ≠ [] → done.length = bid * b ∧ written.length = bid * b)
    (hn : (done ++ runs.flatten).length = n) (hfuel : runs.length ≤ fuel) :
    mergePass orderBy b n (bid + runs.length) (done ++ runs.flatten) fuel bid written =
      written ++ (mergePairs orderBy.key runs).flatten := by
  induction runs using mergePairs.induct generalizing bid fuel done written with
  | case1 left right runs ih =>
    obtain ⟨hdoneLen, hwritten⟩ := hdone (List.cons_ne_nil _ _)
    have hleft := hruns.head (List.cons_ne_nil _ _)
    have hright := hruns.tail.short hb
    obtain ⟨hleftApart, hrest⟩ := List.pairwise_cons.mp hapart
    obtain ⟨hleftKeys, hrestKeys⟩ := List.forall_mem_cons.mp hkeys
    obtain ⟨hrightKeys, hrunsKeys⟩ := List.forall_mem_cons.mp hrestKeys
    simp only [List.flatten_cons, List.length_append, List.length_cons] at hn hfuel ⊢
    obtain ⟨fuel, rfl⟩ : ∃ k, fuel = k + 1 := ⟨fuel - 1, by omega⟩
    have hbid : (bid + 1) * b = bid * b + b := by ring
    have hbid2 : (bid + 2) * b = bid * b + b + b := by ring
    have hleftEnd : min n ((bid + 1) * b) = bid * b + b := by omega
    have hrightEnd : min n ((bid + 2) * b) = bid * b + b + right.length := by
      by_cases hnil : runs = []
      · subst hnil
        simp only [List.flatten_nil, List.length_nil] at hn
        omega
      · have := hruns.tail.head hnil
        omega
    have htakeL : ((done ++ (left ++ (right ++ runs.flatten))).take (bid * b + b)).drop (bid * b) =
        left := by
      rw [← hdoneLen, ← hleft, ← List.length_append, ← List.append_assoc, List.take_left,
        List.drop_left]
    have htakeR : ((done ++ (left ++ (right ++ runs.flatten))).take
        (bid * b + b + right.length)).drop (bid * b + b) = right := by
      rw [← hdoneLen, ← hleft, ← List.length_append, ← List.length_append, ← List.append_assoc,
        ← List.append_assoc, List.take_left, List.drop_left]
    have hmerge := mergeBlocks_eq hleftKeys hrightKeys
      (hleftApart right List.mem_cons_self) (Nat.lt_succ_self (left.length + right.length))
    have hmergeLen : (merge orderBy.key left right).length = left.length + right.length := by
      rw [(merge_perm left right).length_eq, List.length_append]
    rw [mergePass, if_neg (by omega)]
    simp only [hleftEnd, hrightEnd]
    rw [if_neg (by omega), htakeL, hbid, htakeR, hmerge, mergePairs, List.flatten_cons]
    have hnext := @ih (bid + 2) fuel (done ++ left ++ right)
      (written ++ merge orderBy.key left right) hruns.tail.tail (List.pairwise_cons.mp hrest).2
      hrunsKeys (fun hne => ?_) ?_ (by omega)
    · have hblocks : bid + (runs.length + 1 + 1) = bid + 2 + runs.length := by omega
      have htuples : done ++ (left ++ (right ++ runs.flatten)) =
          done ++ left ++ right ++ runs.flatten := by simp
      rw [hblocks, htuples, hnext, List.append_assoc]
    · have hfull := hruns.tail.head hne
      simp only [List.length_append]
      omega
    · simp only [List.length_append]
      omega
  | case2 runs hshort =>
    rw [mergePairs]
    · cases runs with
      | nil =>
        cases fuel with
        | zero => simp [mergePass]
        | succ fuel => simp [mergePass]
      | cons run runs =>
        cases runs with
        | nil =>
          obtain ⟨hdoneLen, hwritten⟩ := hdone (List.cons_ne_nil _ _)
          obtain ⟨hpos, hle⟩ := hruns
          simp only [List.flatten_cons, List.flatten_nil, List.append_nil, List.length_append,
            List.length_cons, List.length_nil] at hn hfuel ⊢
          obtain ⟨fuel, rfl⟩ : ∃ k, fuel = k + 1 := ⟨fuel - 1, by omega⟩
          have hbid : (bid + 1) * b = bid * b + b := by ring
          have hbid2 : (bid + 2) * b = bid * b + b + b := by ring
          have hleftEnd : min n ((bid + 1) * b) = n := by omega
          have hrightEnd : min n ((bid + 2) * b) = n := by omega
          rw [mergePass, if_neg (by omega)]
          simp only [hleftEnd, hrightEnd, if_true]
          rw [← hn, ← List.length_append, List.take_length, hwritten, ← hdoneLen, List.drop_left]
        | cons run' runs => exact absurd rfl (hshort run run' runs)
    · exact hshort

end Merge

section Passes

variable {orderBy : ColMeta} {t n : Nat} {pages : SortPages} {rows : List Bytes}

/-- Writing one district leaves it with what was written and the other one as it was. -/
theorem district_modifyTuples {d d' : Nat} (hlen : rows.length = n) (hd : d ≠ d') :
    (SortPages.modifyTuples t (d * n) rows pages).district t n d = rows ∧
      (SortPages.modifyTuples t (d * n) rows pages).district t n d' = pages.district t n d' := by
  constructor
  · refine List.ext_getElem (by simp [SortPages.district, hlen]) fun i hi hi' => ?_
    have hidx : i + d * n - d * n = i := by omega
    simp only [SortPages.district, List.getElem_map, List.getElem_range]
    rw [SortPages.getTuple_modifyTuples, if_pos (by omega), hidx, List.getD_eq_getElem _ _ hi']
  · refine List.map_congr_left fun i hi => ?_
    rw [List.mem_range] at hi
    rw [SortPages.getTuple_modifyTuples]
    split
    next hle =>
      refine List.getD_eq_default _ _ ?_
      -- the place lies in a later district
      rcases Nat.lt_or_gt_of_ne hd with hlt | hgt
      · have hmul : (d + 1) * n ≤ d' * n := Nat.mul_le_mul_right n hlt
        rw [Nat.succ_mul] at hmul
        omega
      · have hmul : (d' + 1) * n ≤ d * n := Nat.mul_le_mul_right n hgt
        rw [Nat.succ_mul] at hmul
        omega
    next => rfl

/-- The number of blocks is the number of runs. -/
theorem numBlock_eq {size : Nat} {runs : List (List Bytes)} (ht : 0 < t) (hsize : 0 < size)
    (hruns : Filled (size * t) runs) (hne : runs ≠ []) (hn : runs.flatten.length = n) :
    ((n + t - 1) / t + size - 1) / size = runs.length := by
  obtain ⟨hlow, hhigh⟩ := hruns.bounds hne
  have hlen : 0 < runs.length := List.length_pos_iff.mpr hne
  rw [hn] at hlow hhigh
  have hupper : (n + t - 1) / t ≤ runs.length * size := by
    refine Nat.le_of_lt_succ ((Nat.div_lt_iff_lt_mul ht).mpr ?_)
    rw [Nat.succ_mul, Nat.mul_assoc]
    omega
  have hlower : (runs.length - 1) * size < (n + t - 1) / t := by
    rw [Nat.lt_div_iff_mul_lt ht]
    rw [← Nat.mul_assoc] at hlow
    omega
  have hsucc : runs.length * size = (runs.length - 1) * size + size := by
    rw [← Nat.succ_mul]
    congr 1
    omega
  rw [Nat.div_eq_iff hsize]
  omega

/-- The passes end with one run, which holds all records in order. -/
theorem mergePasses_sorts {numPages fuel size prev curr : Nat} {runs : List (List Bytes)}
    (ht : 0 < t) (hsize : 0 < size) (hd : prev ≠ curr)
    (hpages : numPages = (n + t - 1) / t) (hfuel : numPages ≤ size * 2 ^ fuel)
    (hdistrict : pages.district t n prev = runs.flatten)
    (hruns : Runs orderBy.key (size * t) runs)
    (hkeys : ∀ run ∈ runs, ∀ row ∈ run, (orderBy.key? row).isSome) :
    ∃ sorted, sorted.Perm runs.flatten ∧
      (sorted.Pairwise fun r r' => orderBy.key r ≤ orderBy.key r') ∧
      (mergePasses orderBy t n numPages fuel size prev curr pages).1.district t n
        (mergePasses orderBy t n numPages fuel size prev curr pages).2 = sorted := by
  have hlen : runs.flatten.length = n := by
    rw [← hdistrict, SortPages.district, List.length_map, List.length_range]
  have hone : ¬size < numPages →
      runs.flatten.Pairwise fun r r' => orderBy.key r ≤ orderBy.key r' := by
    intro hle
    refine hruns.sorted_flatten ?_
    rw [hlen]
    have hdiv := (Nat.div_le_iff_le_mul ht).mp (hpages ▸ Nat.le_of_not_lt hle)
    omega
  induction fuel generalizing size prev curr pages runs with
  | zero =>
    refine ⟨_, List.Perm.refl _, hone (by rw [Nat.pow_zero, Nat.mul_one] at hfuel; omega), hdistrict⟩
  | succ fuel ih =>
    rw [mergePasses]
    split
    next hlt =>
      have hne : runs ≠ [] := by
        rintro rfl
        rw [List.flatten_nil, List.length_nil] at hlen
        have hzero : (n + t - 1) / t = 0 := Nat.div_eq_of_lt (by omega)
        omega
      have hpass := @mergePass_eq orderBy runs (size * t) n 0 runs.length [] []
        (Nat.mul_pos hsize ht) hruns.filled hruns.apart hkeys (fun _ => by simp)
        (by simpa using hlen) le_rfl
      rw [Nat.zero_add, List.nil_append, List.nil_append] at hpass
      have hblocks := numBlock_eq ht hsize hruns.filled hne hlen
      rw [← hpages] at hblocks
      have hperm := @mergePairs_perm _ _ _ orderBy.key runs
      have hwritten : (mergePairs orderBy.key runs).flatten.length = n :=
        hperm.length_eq.trans hlen
      have hnew := (@district_modifyTuples t n pages _ curr prev hwritten hd.symm).1
      have hkeys' : ∀ run ∈ mergePairs orderBy.key runs, ∀ row ∈ run,
          (orderBy.key? row).isSome := by
        intro run hrun row hrow
        obtain ⟨run', hrun', hrow'⟩ := mem_mergePairs hrun hrow
        exact hkeys run' hrun' row hrow'
      have hdouble : 2 * (size * t) = size * 2 * t := by ring
      have hruns' := hruns.mergePairs (Nat.mul_pos hsize ht)
      rw [hdouble] at hruns'
      have hpow : size * 2 ^ (fuel + 1) = size * 2 * 2 ^ fuel := by ring
      rw [hdistrict, hblocks]
      dsimp only
      rw [hpass]
      have hone' : ¬size * 2 < numPages → (mergePairs orderBy.key runs).flatten.Pairwise
          fun r r' => orderBy.key r ≤ orderBy.key r' := by
        intro hle
        refine hruns'.sorted_flatten ?_
        rw [hwritten]
        have hdiv := (Nat.div_le_iff_le_mul ht).mp (hpages ▸ Nat.le_of_not_lt hle)
        omega
      obtain ⟨sorted, hsortedPerm, hpair, hresult⟩ := @ih _ (size * 2) curr prev _ (by omega)
        hd.symm (hpow ▸ hfuel) hnew hruns' hkeys' hwritten hone'
      exact ⟨sorted, hsortedPerm.trans hperm, hpair, hresult⟩
    next hle => exact ⟨_, List.Perm.refl _, hone hle, hdistrict⟩

end Passes

section Blocks

variable {orderBy : ColMeta} {isDesc : Bool} {size fuel : Nat} {rows : List Bytes}

/-- Two records in the order that is asked for. -/
def ordered (orderBy : ColMeta) (isDesc : Bool) (r r' : Bytes) : Prop :=
  if isDesc then orderBy.key r' ≤ orderBy.key r else orderBy.key r ≤ orderBy.key r'

theorem ColMeta.Plain.key_isSome {row : Bytes} (h : orderBy.Plain row.length) :
    (orderBy.key? row).isSome := by
  obtain ⟨v, hv, htype⟩ := h.read
  rw [ColMeta.key?, hv, Option.bind_some]
  have hv' := htype ▸ h.int_or_string
  cases v with
  | int i => rfl
  | float x => simp [Value.type] at hv'
  | string s => rfl

theorem sortsBefore_ordered {r r' : Bytes} (h : (orderBy.key? r).isSome)
    (h' : (orderBy.key? r').isSome) :
    sortsBefore orderBy isDesc r' r = false ↔ ordered orderBy isDesc r r' := by
  obtain ⟨v, w, hv, hw, hcomp⟩ := comp_keys h' h
  unfold sortsBefore ordered
  simp only [hv, hw, hcomp]
  cases isDesc with
  | true => simp [CompOp.holds]
  | false => simp [CompOp.holds]

/-- A block comes out in order, upwards and downwards. -/
theorem sortBlock_ordered (hkeys : ∀ row ∈ rows, (orderBy.key? row).isSome) :
    ∃ sorted, sortBlock orderBy isDesc rows = some sorted ∧ sorted.Perm rows ∧
      sorted.Pairwise (ordered orderBy isDesc) := by
  have hread : rows.all fun row => (orderBy.read row).isSome := by
    rw [List.all_eq_true]
    intro row hrow
    obtain ⟨v, hv, -⟩ := ColMeta.read_of_key (hkeys row hrow)
    rw [hv]
    rfl
  refine ⟨_, if_pos (Or.inr hread), List.perm_insertionSort _ rows, ?_⟩
  cases isDesc with
  | true =>
    have hmap := List.map_insertionSort (fun r r' => sortsBefore orderBy true r' r = false) (· ≥ ·)
      orderBy.key rows fun r hr r' hr' =>
        (sortsBefore_ordered (hkeys r hr) (hkeys r' hr')).trans (by simp [ordered])
    have hkey := List.pairwise_insertionSort (· ≥ ·) (rows.map orderBy.key)
    rw [← hmap] at hkey
    exact (List.pairwise_map.mp hkey).imp fun hle => by simpa [ordered] using hle
  | false =>
    have hmap := List.map_insertionSort (fun r r' => sortsBefore orderBy false r' r = false) (· ≤ ·)
      orderBy.key rows fun r hr r' hr' =>
        (sortsBefore_ordered (hkeys r hr) (hkeys r' hr')).trans (by simp [ordered])
    have hkey := List.pairwise_insertionSort (· ≤ ·) (rows.map orderBy.key)
    rw [← hmap] at hkey
    exact (List.pairwise_map.mp hkey).imp fun hle => by simpa [ordered] using hle

theorem blocks_filled (hsize : 0 < size) (hfuel : rows.length ≤ fuel) :
    Filled size (blocks size fuel rows) := by
  induction fuel generalizing rows with
  | zero => trivial
  | succ fuel ih =>
    rw [blocks]
    split
    next => trivial
    next hne =>
      have hpos : 0 < rows.length := List.length_pos_of_ne_nil fun h => hne (by simp [h])
      have hrest : (rows.drop size).length ≤ fuel := by
        rw [List.length_drop]
        omega
      refine (ih hrest).cons ?_ fun hmore => ?_
      · rw [List.length_take]
        omega
      · -- there is a block behind this one
        have hdrop : rows.drop size ≠ [] := by
          intro hnil
          rw [hnil] at hmore
          cases fuel with
          | zero => exact hmore rfl
          | succ fuel => exact hmore rfl
        have := List.length_pos_of_ne_nil hdrop
        rw [List.length_drop] at this
        rw [List.length_take]
        omega

theorem filled_of_perm {runs runs' : List (List Bytes)} (h : Filled size runs)
    (hall : List.Forall₂ (fun run run' => run'.Perm run) runs runs') : Filled size runs' := by
  induction hall with
  | nil => trivial
  | @cons run run' runs runs' hrun hruns ih =>
    cases hruns with
    | nil =>
      obtain ⟨hpos, hle⟩ := h
      exact ⟨hrun.length_eq ▸ hpos, hrun.length_eq ▸ hle⟩
    | cons hrun₂ hruns₂ => exact ⟨hrun.length_eq.trans h.1, ih h.2⟩

theorem apart_of_perm {runs runs' : List (List Bytes)}
    (hall : List.Forall₂ (fun run run' => run'.Perm run) runs runs')
    (h : runs.Pairwise fun run run' => ∀ x ∈ run, ∀ y ∈ run', orderBy.key x ≠ orderBy.key y) :
    runs'.Pairwise fun run run' => ∀ x ∈ run, ∀ y ∈ run', orderBy.key x ≠ orderBy.key y := by
  induction hall with
  | nil => exact List.Pairwise.nil
  | @cons run run' runs runs' hrun hruns ih =>
    obtain ⟨hhead, htail⟩ := List.pairwise_cons.mp h
    refine List.pairwise_cons.mpr ⟨fun other hother x hx y hy => ?_, ih htail⟩
    obtain ⟨block, hblock, hperm⟩ := MapM.forall₂_mem_right hruns hother
    exact hhead block hblock x (hrun.mem_iff.mp hx) y (hperm.mem_iff.mp hy)

/-- No sort value stands in two of the blocks that are sorted on their own. -/
def BlocksApart (orderBy : ColMeta) (size : Nat) (rows : List Bytes) : Prop :=
  (blocks size rows.length rows).Pairwise fun block block' =>
    ∀ r ∈ block, ∀ r' ∈ block', orderBy.key r ≠ orderBy.key r'

theorem sortBlocks_runs (hsize : 0 < size) (hkeys : ∀ row ∈ rows, (orderBy.key? row).isSome)
    (hapart : BlocksApart orderBy size rows) :
    ∃ runs, sortBlocks orderBy false size rows = some runs.flatten ∧
      Runs orderBy.key size runs ∧ runs.flatten.Perm rows := by
  have hmem : ∀ block ∈ blocks size rows.length rows, ∀ row ∈ block,
      (orderBy.key? row).isSome := by
    intro block hblock row hrow
    have hrows := flatten_blocks hsize (Nat.le_refl rows.length)
    exact hkeys row (hrows ▸ List.mem_flatten.mpr ⟨block, hblock, hrow⟩)
  have hsort : ∀ block ∈ blocks size rows.length rows, ∃ run,
      sortBlock orderBy false block = some run ∧ run.Perm block ∧
        run.Pairwise (ordered orderBy false) :=
    fun block hblock => sortBlock_ordered (hmem block hblock)
  obtain ⟨runs, hall⟩ := MapM.exists_forall₂ hsort
  have hmap := MapM.mapM_of_forall₂ (hall.imp fun _ _ h => h.1)
  have hperm := hall.imp fun _ _ h => h.2.1
  refine ⟨runs, by rw [sortBlocks, hmap, Option.map_some], ⟨?_, ?_, ?_⟩, ?_⟩
  · exact filled_of_perm (blocks_filled hsize le_rfl) hperm
  · intro run hrun
    obtain ⟨block, -, -, -, hpair⟩ := MapM.forall₂_mem_right hall hrun
    exact hpair.imp fun hle => by simpa [ordered] using hle
  · exact apart_of_perm hperm hapart
  · have hflat := List.Perm.flatten_congr (hperm.imp fun _ _ h => h.symm)
    rw [flatten_blocks hsize le_rfl] at hflat
    exact hflat.symm

end Blocks

section Executor

variable {prev : Cursor Bytes} {orderBy : ColMeta} {isDesc : Bool} {t tupleLen fuel : Nat}
  {rows sorted : List Bytes} {tmpFd : Nat → Nat} {otherPages : Nat → Option (Nat → Option Bytes)}

/-- What a sort on its own pages delivers is the district it ends in. -/
theorem sortCursor_delivers {s : SortState prev.State} (hnum : s.tupleNum = rows.length)
    (hrows : s.pages.district t s.tupleNum s.currDistrict = rows) (hown : s.other = none)
    (hcur : s.curTup ≤ rows.length) :
    (sortCursor fuel orderBy isDesc t tupleLen tmpFd otherPages prev).Delivers s
      (rows.drop s.curTup) := by
  obtain ⟨k, hk⟩ : ∃ k, rows.length - s.curTup = k := ⟨_, rfl⟩
  induction k generalizing s with
  | zero =>
    have hend : s.curTup = rows.length := by omega
    rw [hend, List.drop_length]
    refine .nil ?_
    simp [sortCursor, hnum, hend]
  | succ k ih =>
    have hlt : s.curTup < rows.length := by omega
    rw [List.drop_eq_getElem_cons hlt]
    refine .cons ?_ ?_ rfl (@ih { s with curTup := s.curTup + 1 } hnum hrows hown
      (by dsimp only; omega) (by dsimp only; omega))
    · simp only [sortCursor, hnum]
      exact decide_eq_false (by omega)
    · have hget : s.pages.getTuple t (s.curTup + s.currDistrict * s.tupleNum) =
          rows[s.curTup] := by
        simp only [← hrows, SortPages.district, List.getElem_map, List.getElem_range]
      simp only [sortCursor, hown, hget, Option.map_some]

/-- What a first run loads: blocks that are in order on their own, or one block. -/
theorem loadSorted_sorts {blank : Bytes} (ht : 0 < t) (cell : Nat → Nat → Bytes)
    (h : (sortNumPages t sorted ≤ BLOCK_SIZE_MIN ∧ sorted.Pairwise (ordered orderBy isDesc)) ∨
      (isDesc = false ∧ (∀ row ∈ sorted, (orderBy.key? row).isSome) ∧
        ∃ runs, sorted = runs.flatten ∧ Runs orderBy.key (BLOCK_SIZE_MIN * t) runs)) :
    ∃ result, result.Perm sorted ∧ result.Pairwise (ordered orderBy isDesc) ∧
      (loadSorted orderBy t blank sorted ⟨0, cell⟩).1.district t sorted.length
        (loadSorted orderBy t blank sorted ⟨0, cell⟩).2 = result := by
  have hfresh : (SortPages.mk 0 cell).Fresh t 0 := by
    rw [SortPages.Fresh]
    exact (Nat.div_eq_of_lt (by omega)).symm
  obtain ⟨hfresh₁, hget₁⟩ := @SortPages.insertTuples_fresh t _ blank 0 sorted ht hfresh
  rw [Nat.zero_add] at hfresh₁ hget₁
  obtain ⟨-, hget₂⟩ := @SortPages.insertTuples_fresh t _ blank sorted.length
    (List.replicate sorted.length blank) ht hfresh₁
  have hfirst : ∀ idx < sorted.length,
      (SortPages.insertTuples t blank 0 sorted ⟨0, cell⟩).getTuple t idx = sorted.getD idx [] := by
    intro idx hidx
    rw [hget₁ idx hidx, if_pos (Nat.zero_le idx), Nat.sub_zero]
  have hboth : ∀ idx < sorted.length,
      (SortPages.insertTuples t blank sorted.length (List.replicate sorted.length blank)
        (SortPages.insertTuples t blank 0 sorted ⟨0, cell⟩)).getTuple t idx =
        sorted.getD idx [] := by
    intro idx hidx
    rw [hget₂ idx (by omega), if_neg (by omega), hfirst idx hidx]
  rw [loadSorted_eq]
  rcases h with ⟨hpages, hpair⟩ | ⟨rfl, hkeys, runs, hruns, hsplit⟩
  · refine ⟨sorted, List.Perm.refl _, hpair, ?_⟩
    split
    next => exact SortPages.district_eq hfirst
    next =>
      rw [mergePasses_one_block hpages]
      exact SortPages.district_eq hboth
  · have hsorted : ∀ {l : List Bytes}, l.Pairwise (fun r r' => orderBy.key r ≤ orderBy.key r') →
        l.Pairwise (ordered orderBy false) :=
      fun hl => hl.imp fun hle => by simpa [ordered] using hle
    split
    next hone =>
      refine ⟨sorted, List.Perm.refl _, hsorted ?_, SortPages.district_eq hfirst⟩
      rw [hruns] at hone ⊢
      refine hsplit.sorted_flatten ?_
      have hdiv := (Nat.div_le_iff_le_mul ht).mp (show sortNumPages t runs.flatten ≤ 1 by omega)
      have hmin : 1 * t ≤ BLOCK_SIZE_MIN * t := Nat.mul_le_mul_right t (by decide)
      omega
    next =>
      have hfuel : sortNumPages t sorted ≤ BLOCK_SIZE_MIN * 2 ^ sortNumPages t sorted := by
        have hpow := Nat.lt_two_pow_self (n := sortNumPages t sorted)
        have hmul : 1 * 2 ^ sortNumPages t sorted ≤ BLOCK_SIZE_MIN * 2 ^ sortNumPages t sorted :=
          Nat.mul_le_mul_right _ (by decide)
        omega
      have hdistrict := SortPages.district_eq hboth
      obtain ⟨result, hperm, hpair, hresult⟩ := mergePasses_sorts ht (by decide) Nat.zero_ne_one rfl
        hfuel (hdistrict.trans hruns) hsplit (fun run hrun row hrow =>
          hkeys row (hruns ▸ List.mem_flatten.mpr ⟨run, hrun, hrow⟩))
      exact ⟨result, hruns ▸ hperm, hsorted hpair, hresult⟩

end Executor

/-- Inputs that the sort is made for: the blocks of an input of more than one block are put together
upwards, and a value that stands in two of them is lost once. -/
def SortFits (orderBy : ColMeta) (isDesc : Bool) (t : Nat) (rows : List Bytes) : Prop :=
  sortNumPages t rows ≤ BLOCK_SIZE_MIN ∨
    (isDesc = false ∧ BlocksApart orderBy (BLOCK_SIZE_MIN * t) rows)

/-- What is asked of ORDER BY, for every number of loop rounds that is large enough and whatever
descriptor the temporary file gets. -/
def Sorts (prev : Executor) (rows : List Bytes) (selCol : TabCol) (orderBy : ColMeta)
    (isDesc : Bool) : Prop :=
  ∃ n, ∀ fuel, n ≤ fuel → ∀ tmpFd otherPages, ∃ exec sorted,
    sortExecutor fuel prev selCol isDesc tmpFd otherPages = some exec ∧ exec.FirstPass sorted ∧
      sorted.Perm rows ∧ sorted.Pairwise (ordered orderBy isDesc)

section Sorts

variable {prev : Executor} {rows sorted : List Bytes} {selCol : TabCol} {orderBy : ColMeta}
  {isDesc : Bool} {fuel t : Nat} {tmpFd : Nat → Nat} {otherPages : Nat → Option (Nat → Option Bytes)}

/-- The records of a sort, from the district that its first run ends in. -/
theorem sortExecutor_firstPass (hprev : prev.FirstPass rows)
    (hcol : findCol prev.cols selCol = some orderBy) (hpage : 0 < PAGE_SIZE / prev.tupleLen)
    (hfuel : rows.length ≤ fuel)
    (hsort : sortBlocks orderBy isDesc (BLOCK_SIZE_MIN * (PAGE_SIZE / prev.tupleLen)) rows =
      some sorted) :
    ∃ exec, sortExecutor fuel prev selCol isDesc tmpFd otherPages = some exec ∧
      exec.FirstPass ((loadSorted orderBy (PAGE_SIZE / prev.tupleLen)
        (List.replicate prev.tupleLen 0) sorted ⟨0, fun _ _ => []⟩).1.district
          (PAGE_SIZE / prev.tupleLen) sorted.length
          (loadSorted orderBy (PAGE_SIZE / prev.tupleLen) (List.replicate prev.tupleLen 0) sorted
            ⟨0, fun _ _ => []⟩).2) := by
  obtain ⟨s₀, hstart, hdelivers⟩ := hprev
  obtain ⟨p, hcollect⟩ := hdelivers.collect hfuel
  refine ⟨⟨prev.cols, prev.tupleLen, sortCursor fuel orderBy isDesc (PAGE_SIZE / prev.tupleLen)
    prev.tupleLen tmpFd otherPages prev.cursor, .first prev.init⟩, ?_, ?_⟩
  · rw [sortExecutor, hcol, Option.bind_some]
    exact if_neg (by omega)
  · -- the first run has the descriptor that its own pages are made under
    have hfd : ∀ n < (SortState.first prev.init).runs + 1, tmpFd n = tmpFd 0 := by
      intro n hn
      rw [Nat.lt_one_iff.mp hn]
    exact ⟨_, sortCursor_start hstart hcollect hsort hfd, sortCursor_delivers (by simp) rfl rfl
      (Nat.zero_le _)⟩

theorem blocks_one {size : Nat} (hlen : rows.length ≤ size) (hne : rows ≠ []) :
    blocks size rows.length rows = [rows] := by
  obtain ⟨row, rest, rfl⟩ := List.exists_cons_of_ne_nil hne
  have hrest : blocks size rest.length [] = [] := by
    cases rest.length with
    | zero => rfl
    | succ n => rfl
  rw [List.length_cons, blocks, if_neg (by simp), List.take_of_length_le hlen,
    List.drop_of_length_le hlen, hrest]

/-- The blocks of an input that fits, in order on their own. -/
theorem sortBlocks_fits (ht : 0 < t) (hkeys : ∀ row ∈ rows, (orderBy.key? row).isSome)
    (hfits : SortFits orderBy isDesc t rows) :
    ∃ sorted, sortBlocks orderBy isDesc (BLOCK_SIZE_MIN * t) rows = some sorted ∧
      sorted.Perm rows ∧
      ((sortNumPages t sorted ≤ BLOCK_SIZE_MIN ∧ sorted.Pairwise (ordered orderBy isDesc)) ∨
        (isDesc = false ∧ (∀ row ∈ sorted, (orderBy.key? row).isSome) ∧
          ∃ runs, sorted = runs.flatten ∧ Runs orderBy.key (BLOCK_SIZE_MIN * t) runs)) := by
  rcases hfits with hone | ⟨rfl, hapart⟩
  · have hlen : rows.length ≤ BLOCK_SIZE_MIN * t := by
      have hdiv := (Nat.div_le_iff_le_mul ht).mp hone
      omega
    obtain ⟨sorted, hsort, hperm, hpair⟩ := @sortBlock_ordered orderBy isDesc rows hkeys
    have hpages : sortNumPages t sorted ≤ BLOCK_SIZE_MIN := by
      rw [sortNumPages, hperm.length_eq]
      exact hone
    refine ⟨sorted, ?_, hperm, Or.inl ⟨hpages, hpair⟩⟩
    by_cases hne : rows = []
    · subst hne
      rw [List.Perm.eq_nil hperm]
      rfl
    · rw [sortBlocks, blocks_one hlen hne, List.mapM_cons, hsort]
      simp
  · obtain ⟨runs, hsort, hruns, hperm⟩ :=
      sortBlocks_runs (Nat.mul_pos (by decide) ht) hkeys hapart
    exact ⟨runs.flatten, hsort, hperm, Or.inr ⟨rfl,
      fun row hrow => hkeys row (hperm.mem_iff.mp hrow), runs, rfl, hruns⟩⟩

theorem sorts_of_fits (hprev : prev.FirstPass rows)
    (hcol : findCol prev.cols selCol = some orderBy) (hpage : 0 < PAGE_SIZE / prev.tupleLen)
    (hkeys : ∀ row ∈ rows, (orderBy.key? row).isSome)
    (hfits : SortFits orderBy isDesc (PAGE_SIZE / prev.tupleLen) rows) :
    Sorts prev rows selCol orderBy isDesc := by
  obtain ⟨sorted, hsort, hperm, hcase⟩ := sortBlocks_fits hpage hkeys hfits
  refine ⟨rows.length, fun fuel hfuel tmpFd otherPages => ?_⟩
  obtain ⟨exec, hexec, hpass⟩ := sortExecutor_firstPass hprev hcol hpage hfuel hsort
  obtain ⟨result, hresult, hpair, hdistrict⟩ := loadSorted_sorts hpage (fun _ _ => []) hcase
  exact ⟨exec, _, hexec, hpass, hdistrict ▸ hresult.trans hperm, hdistrict ▸ hpair⟩

/-- Up to two blocks of pages, a run ends with what one merge writes. -/
theorem loadSorted_district {blank : Bytes} (ht : 0 < t)
    (hpages : sortNumPages t sorted ≤ 2 * BLOCK_SIZE_MIN) (cell : Nat → Nat → Bytes) :
    (loadSorted orderBy t blank sorted ⟨0, cell⟩).1.district t sorted.length
      (loadSorted orderBy t blank sorted ⟨0, cell⟩).2 = sortedRows orderBy t blank sorted := by
  obtain ⟨hloaded, hd⟩ := @loadSorted_loaded orderBy t blank sorted ⟨0, cell⟩ ht hpages (Or.inl rfl)
  refine List.ext_getElem (by simp [SortPages.district]) fun i hi hi' => ?_
  simp only [SortPages.district, List.getElem_map, List.getElem_range]
  rw [hd]
  exact hloaded.getTuple_eq hi'

/-- One merge of two blocks. -/
theorem mergedOnce_two {left right : List Bytes} (ht : 0 < t)
    (hleft : left.length = BLOCK_SIZE_MIN * t) (hright : 0 < right.length)
    (hle : right.length ≤ BLOCK_SIZE_MIN * t) :
    mergedOnce orderBy t (left ++ right) =
      mergeBlocks orderBy (left.length + right.length + 1) left right := by
  have hlow : BLOCK_SIZE_MIN < sortNumPages t (left ++ right) := by
    rw [sortNumPages, Nat.lt_div_iff_mul_lt ht, List.length_append]
    omega
  have hhigh : sortNumPages t (left ++ right) ≤ 2 * BLOCK_SIZE_MIN := by
    rw [sortNumPages, Nat.div_le_iff_le_mul ht, List.length_append, Nat.mul_assoc]
    omega
  have hblocks : (sortNumPages t (left ++ right) + BLOCK_SIZE_MIN - 1) / BLOCK_SIZE_MIN = 2 := by
    unfold BLOCK_SIZE_MIN at hlow hhigh ⊢
    omega
  rw [mergedOnce, if_neg (by omega), hblocks, List.length_append, mergePass, if_neg (by omega)]
  have hleftEnd : min (left.length + right.length) ((0 + 1) * (BLOCK_SIZE_MIN * t)) =
      left.length := by omega
  have hrightEnd : min (left.length + right.length) ((0 + 2) * (BLOCK_SIZE_MIN * t)) =
      left.length + right.length := by omega
  have htake : (left ++ right).take (left.length + right.length) = left ++ right := by
    rw [← List.length_append, List.take_length]
  dsimp only
  rw [hleftEnd, hrightEnd, if_neg (by omega), mergePass, if_pos (by omega), List.take_left,
    Nat.zero_mul, List.drop_zero, Nat.zero_add, Nat.one_mul, ← hleft, htake, List.drop_left,
    List.nil_append]

theorem blocks_two {size : Nat} (hlow : size < rows.length) (hhigh : rows.length ≤ size + size)
    (hsize : 0 < size) :
    blocks size rows.length rows = [rows.take size, rows.drop size] := by
  obtain ⟨n, hn⟩ : ∃ n, rows.length = n + 1 := ⟨rows.length - 1, by omega⟩
  have hne : rows ≠ [] := List.ne_nil_of_length_pos (by omega)
  have hdrop : (rows.drop size).length = n + 1 - size := by rw [List.length_drop, hn]
  have hrest : blocks size n (rows.drop size) = [rows.drop size] := by
    obtain ⟨m, rfl⟩ : ∃ m, n = m + 1 := ⟨n - 1, by omega⟩
    have hne' : rows.drop size ≠ [] := List.ne_nil_of_length_pos (by omega)
    have hnil : blocks size m [] = [] := by
      cases m with
      | zero => rfl
      | succ m => rfl
    have hle : (rows.drop size).length ≤ size := by omega
    rw [blocks, if_neg (by simpa using hne'), List.take_of_length_le hle,
      List.drop_of_length_le hle, hnil]
  rw [hn, blocks, if_neg (by simpa using hne), hrest]

/-- The two blocks of an input of more than one, each in order on its own. -/
theorem sortBlocks_two {size : Nat} (hlow : size < rows.length)
    (hhigh : rows.length ≤ size + size) (hsize : 0 < size)
    (hkeys : ∀ row ∈ rows, (orderBy.key? row).isSome) :
    ∃ left right, sortBlocks orderBy isDesc size rows = some (left ++ right) ∧
      left.Perm (rows.take size) ∧ right.Perm (rows.drop size) ∧
      left.Pairwise (ordered orderBy isDesc) ∧ right.Pairwise (ordered orderBy isDesc) := by
  obtain ⟨left, hleft, hpermL, hpairL⟩ := @sortBlock_ordered orderBy isDesc (rows.take size)
    fun row hrow => hkeys row (List.mem_of_mem_take hrow)
  obtain ⟨right, hright, hpermR, hpairR⟩ := @sortBlock_ordered orderBy isDesc (rows.drop size)
    fun row hrow => hkeys row (List.mem_of_mem_drop hrow)
  refine ⟨left, right, ?_, hpermL, hpermR, hpairL, hpairR⟩
  rw [sortBlocks, blocks_two hlow hhigh hsize, List.mapM_cons, hleft, List.mapM_cons, hright]
  simp

theorem range_getD_eq {blank : Bytes} {n : Nat} (h : n = rows.length) :
    ((List.range n).map fun i => rows.getD i blank) = rows := by
  subst h
  refine List.ext_getElem (by simp) fun i hi hi' => ?_
  rw [List.getElem_map, List.getElem_range, List.getD_eq_getElem _ _ hi']

/-- A tuple that the merge does not write is read as the blank one. -/
theorem mergedOnce_length_of_perm {blank : Bytes} (hblock : ¬sortNumPages t sorted ≤ BLOCK_SIZE_MIN)
    (hblank : blank ∉ rows) (hperm : (sortedRows orderBy t blank sorted).Perm rows) :
    sorted.length ≤ (mergedOnce orderBy t sorted).length := by
  by_contra hlt
  refine hblank (hperm.mem_iff.mp ?_)
  rw [sortedRows, if_neg hblock, List.mem_map]
  exact ⟨_, List.mem_range.mpr (by omega), List.getD_eq_default _ _ le_rfl⟩

/-- Where one pass merges the blocks and no record is blank, only inputs that fit are sorted. -/
theorem fits_of_sorts (hprev : prev.FirstPass rows)
    (hcol : findCol prev.cols selCol = some orderBy) (hpage : 0 < PAGE_SIZE / prev.tupleLen)
    (hkeys : ∀ row ∈ rows, (orderBy.key? row).isSome)
    (hpages : sortNumPages (PAGE_SIZE / prev.tupleLen) rows ≤ 2 * BLOCK_SIZE_MIN)
    (hblank : List.replicate prev.tupleLen 0 ∉ rows)
    (hsorts : Sorts prev rows selCol orderBy isDesc) :
    SortFits orderBy isDesc (PAGE_SIZE / prev.tupleLen) rows := by
  obtain ⟨n, hsorts⟩ := hsorts
  obtain ⟨exec, result, hexec, hpass, hperm, hpair⟩ :=
    hsorts (max n rows.length) (le_max_left _ _) (fun _ => 0) fun _ => none
  by_cases hone : sortNumPages (PAGE_SIZE / prev.tupleLen) rows ≤ BLOCK_SIZE_MIN
  · exact Or.inl hone
  generalize ht : PAGE_SIZE / prev.tupleLen = t at hpage hpages hone ⊢
  have hlow : BLOCK_SIZE_MIN * t < rows.length := by
    have := (Nat.lt_div_iff_mul_lt hpage).mp (Nat.lt_of_not_le hone)
    omega
  have hhigh : rows.length ≤ BLOCK_SIZE_MIN * t + BLOCK_SIZE_MIN * t := by
    have := (Nat.div_le_iff_le_mul hpage).mp hpages
    rw [Nat.mul_assoc] at this
    omega
  have hsize : 0 < BLOCK_SIZE_MIN * t := Nat.mul_pos (by decide) hpage
  obtain ⟨left, right, hsort, hpermL, hpermR, hpairL, hpairR⟩ :=
    @sortBlocks_two rows orderBy isDesc _ hlow hhigh hsize hkeys
  have hlenL : left.length = BLOCK_SIZE_MIN * t := by
    rw [hpermL.length_eq, List.length_take]
    omega
  have hlenR : right.length = rows.length - BLOCK_SIZE_MIN * t := by
    rw [hpermR.length_eq, List.length_drop]
  have hlen : (left ++ right).length = rows.length := by
    rw [List.length_append]
    omega
  have hpages' : sortNumPages t (left ++ right) ≤ 2 * BLOCK_SIZE_MIN := by
    rw [sortNumPages, hlen]
    exact hpages
  have hblock : ¬sortNumPages t (left ++ right) ≤ BLOCK_SIZE_MIN := by
    rw [sortNumPages, hlen]
    exact hone
  -- what the run delivers is what one merge has written
  subst ht
  obtain ⟨exec', hexec', hpass'⟩ :=
    sortExecutor_firstPass hprev hcol hpage (le_max_right n rows.length) hsort
  obtain rfl : exec = exec' := Option.some.inj (hexec.symm.trans hexec')
  rw [loadSorted_district hpage hpages'] at hpass'
  obtain ⟨s₀, hstart, hdelivers⟩ := hpass
  obtain ⟨s₁, hstart', hdelivers'⟩ := hpass'
  obtain rfl : s₀ = s₁ := Option.some.inj (hstart.symm.trans hstart')
  rw [hdelivers.unique hdelivers'] at hperm hpair
  have hfull := mergedOnce_length_of_perm hblock hblank hperm
  have hmerged := @mergedOnce_two orderBy _ left right hpage hlenL (by omega) (by omega)
  rw [hmerged, List.length_append] at hfull
  rw [sortedRows, if_neg hblock, hmerged, List.length_append,
    range_getD_eq (hfull.antisymm (mergeBlocks_length orderBy _ left right))] at hpair
  have hkeysL : ∀ row ∈ left, (orderBy.key? row).isSome :=
    fun row hrow => hkeys row (List.mem_of_mem_take (hpermL.mem_iff.mp hrow))
  have hkeysR : ∀ row ∈ right, (orderBy.key? row).isSome :=
    fun row hrow => hkeys row (List.mem_of_mem_drop (hpermR.mem_iff.mp hrow))
  cases isDesc with
  | true =>
    have hneL : left ≠ [] := List.ne_nil_of_length_pos (by omega)
    have hneR : right ≠ [] := List.ne_nil_of_length_pos (by omega)
    exact absurd (hpair.imp fun h => by simpa [ordered] using h)
      (mergeBlocks_not_desc hkeysL hkeysR hneL hneR hfull)
  | false =>
    have hapart := mergeBlocks_full_apart hkeysL hkeysR
      (hpairL.imp fun h => by simpa [ordered] using h)
      (hpairR.imp fun h => by simpa [ordered] using h) hfull
    refine Or.inr ⟨rfl, ?_⟩
    rw [BlocksApart, blocks_two hlow hhigh hsize]
    refine List.pairwise_pair.mpr fun r hr r' hr' => ?_
    exact hapart r (hpermL.mem_iff.mpr hr) r' (hpermR.mem_iff.mpr hr')

end Sorts

/-- ORDER BY delivers the records in order for every input that fits. Among the inputs that one pass
merges, with no record of zeros only, it does so for no other. -/
theorem sortExecutor_sorts (prev : Executor) (rows : List Bytes) (selCol : TabCol)
    (orderBy : ColMeta) (isDesc : Bool) (hprev : prev.FirstPass rows)
    (hcol : findCol prev.cols selCol = some orderBy) (hplain : orderBy.Plain prev.tupleLen)
    (hlen : ∀ row ∈ rows, row.length = prev.tupleLen) :
    (0 < PAGE_SIZE / prev.tupleLen ∧ SortFits orderBy isDesc (PAGE_SIZE / prev.tupleLen) rows →
      Sorts prev rows selCol orderBy isDesc) ∧
    (sortNumPages (PAGE_SIZE / prev.tupleLen) rows ≤ 2 * BLOCK_SIZE_MIN →
      List.replicate prev.tupleLen 0 ∉ rows →
      (Sorts prev rows selCol orderBy isDesc ↔
        0 < PAGE_SIZE / prev.tupleLen ∧
          SortFits orderBy isDesc (PAGE_SIZE / prev.tupleLen) rows)) := by
  have hkeys : ∀ row ∈ rows, (orderBy.key? row).isSome := by
    intro row hrow
    exact ColMeta.Plain.key_isSome (hlen row hrow ▸ hplain)
  have hfits : 0 < PAGE_SIZE / prev.tupleLen ∧
      SortFits orderBy isDesc (PAGE_SIZE / prev.tupleLen) rows →
        Sorts prev rows selCol orderBy isDesc :=
    fun h => sorts_of_fits hprev hcol h.1 hkeys h.2
  refine ⟨hfits, fun hpages hblank => ⟨fun hsorts => ?_, hfits⟩⟩
  have hpage : 0 < PAGE_SIZE / prev.tupleLen := by
    by_contra hzero
    obtain ⟨n, hsorts⟩ := hsorts
    obtain ⟨exec, sorted, hexec, -⟩ := hsorts n le_rfl (fun _ => 0) fun _ => none
    rw [sortExecutor, hcol, Option.bind_some] at hexec
    dsimp only at hexec
    rw [if_pos (Nat.eq_zero_of_not_pos hzero)] at hexec
    cases hexec
  exact ⟨hpage, fits_of_sorts hprev hcol hpage hkeys hpages hblank hsorts⟩

theorem sortExecutor_sorts_twoRows :
    ∃ prev : Executor, prev.FirstPass [[2, 0, 0, 0, 5, 0, 0, 0], [1, 0, 0, 0, 7, 0, 0, 0]] ∧
      Sorts prev [[2, 0, 0, 0, 5, 0, 0, 0], [1, 0, 0, 0, 7, 0, 0, 0]] ⟨"a", "x"⟩
        ⟨"a", "x", .int, 4, 0⟩ true := by
  have hscan : ∃ prev, (Plan.scan ⟨false, "a", [], []⟩).Yields twoRowsDatabase 2 prev
      [[2, 0, 0, 0, 5, 0, 0, 0], [1, 0, 0, 0, 7, 0, 0, 0]] ∧
      findCol prev.cols ⟨"a", "x"⟩ = some ⟨"a", "x", .int, 4, 0⟩ ∧ prev.tupleLen = 8 :=
    ⟨_, ⟨rfl, _, rfl, .cons rfl rfl rfl (.cons rfl rfl rfl (.nil rfl))⟩, rfl, rfl⟩
  obtain ⟨prev, ⟨-, hprev⟩, hcol, hlen⟩ := hscan
  have hsorts := sortExecutor_sorts prev _ ⟨"a", "x"⟩ _ true hprev hcol
    (by rw [hlen]; exact ⟨Or.inl ⟨rfl, rfl⟩, by decide⟩) (by rw [hlen]; decide)
  rw [hlen] at hsorts
  exact ⟨prev, hprev, (hsorts.2 (by decide) (by decide)).mpr ⟨by decide, Or.inl (by decide)⟩⟩

/-- `n` times the same record, on `n` pages. -/
def equalRows (n : Nat) : TableFile where
  rows := (List.range n).map fun (i : Nat) => (⟨i + 1, 0⟩, [2, 0, 0, 0, 5, 0, 0, 0])
  nodup := by
    rw [List.map_map]
    refine List.nodup_range.map fun i j hij => ?_
    simp only [Function.comp_apply, Rid.mk.injEq, and_true] at hij
    exact Int.ofNat_inj.mp (add_right_cancel hij)

/-- A scan of the table delivers the record as often as it is there. -/
theorem equalRows_scan (n : Nat) :
    ∃ prev, (Plan.scan ⟨false, "b", [], []⟩).Yields (joinDatabase (equalRows n)) 0 prev
      (List.replicate n [2, 0, 0, 0, 5, 0, 0, 0]) ∧
      findCol prev.cols ⟨"b", "x"⟩ = some ⟨"b", "x", .int, 4, 0⟩ ∧ prev.tupleLen = 8 := by
  have hexec : ∃ tab : TabMeta, convertPlanExecutor (joinDatabase (equalRows n)) 0
      (.scan ⟨false, "b", [], []⟩) = some ⟨tab.cols, tab.tupleLen,
        scanCursor (evalConds tab.cols []) (equalRows n), ⟨[], none, false, none⟩⟩ ∧
      findCol tab.cols ⟨"b", "x"⟩ = some ⟨"b", "x", .int, 4, 0⟩ ∧ tab.tupleLen = 8 :=
    ⟨_, rfl, rfl, rfl⟩
  obtain ⟨tab, hexec, hcol, hlen⟩ := hexec
  have hwalks := @scanCursor_walks (evalConds tab.cols []) (fun _ => true) (equalRows n)
    (fun row hrow => rfl) ⟨[], none, false, none⟩
  have hrows : ((equalRows n).rows.filter fun _ => true).map Prod.snd =
      List.replicate n [2, 0, 0, 0, 5, 0, 0, 0] := by
    refine List.eq_replicate_iff.mpr ⟨by simp [equalRows], fun row hrow => ?_⟩
    obtain ⟨pair, hpair, rfl⟩ := List.mem_map.mp hrow
    obtain ⟨i, -, rfl⟩ := List.mem_map.mp (List.mem_filter.mp hpair).1
    rfl
  rw [hrows] at hwalks
  obtain ⟨s, hstart, hat⟩ := hwalks.start _ (Or.inl rfl)
  exact ⟨_, ⟨hexec, s, hstart, hwalks.delivers hat⟩, hcol, hlen⟩

/-- One page more than a block of a single record, and the result is not a permutation. -/
theorem sortExecutor_loses_tuple :
    ∃ (prev : Executor) (rows : List Bytes),
      (Plan.scan ⟨false, "b", [], []⟩).Yields (joinDatabase (equalRows 51201)) 0 prev rows ∧
      findCol prev.cols ⟨"b", "x"⟩ = some ⟨"b", "x", .int, 4, 0⟩ ∧
      (∀ row ∈ rows, row.length = prev.tupleLen) ∧ 0 < PAGE_SIZE / prev.tupleLen ∧
      ¬Sorts prev rows ⟨"b", "x"⟩ ⟨"b", "x", .int, 4, 0⟩ false := by
  obtain ⟨prev, hyields, hcol, hlen⟩ := equalRows_scan 51201
  have hrows : ∀ row ∈ List.replicate 51201 ([2, 0, 0, 0, 5, 0, 0, 0] : Bytes),
      row.length = prev.tupleLen := by
    intro row hrow
    rw [List.eq_of_mem_replicate hrow, hlen]
    rfl
  have hpage : 0 < PAGE_SIZE / prev.tupleLen := by
    rw [hlen]
    decide
  refine ⟨prev, _, hyields, hcol, hrows, hpage, fun hsorts => ?_⟩
  have hfits := fits_of_sorts hyields.2 hcol hpage (fun row hrow => ?_) ?_ ?_ hsorts
  · rw [hlen] at hfits
    rcases hfits with hone | ⟨-, hapart⟩
    · rw [sortNumPages, List.length_replicate] at hone
      exact absurd hone (by decide)
    · have hsize : BLOCK_SIZE_MIN * (PAGE_SIZE / 8) = 51200 := by decide
      rw [BlocksApart, hsize, blocks_two (by rw [List.length_replicate]; decide)
        (by rw [List.length_replicate]; decide) (by decide), List.take_replicate,
        List.drop_replicate] at hapart
      -- the record stands in both blocks
      exact List.pairwise_pair.mp hapart _ (List.mem_replicate.mpr ⟨by decide, rfl⟩) _
        (List.mem_replicate.mpr ⟨by decide, rfl⟩) rfl
  · rw [List.eq_of_mem_replicate hrow]
    decide
  · rw [hlen, sortNumPages, List.length_replicate]
    decide
  · rw [hlen]
    exact fun hmem => absurd (List.eq_of_mem_replicate hmem) (by decide)

end Grmdb
