import Grmdb.GapCover

namespace Grmdb

open PagedTree Tiling BTree

/-- No more than one column has bytes. -/
def OneFilled (cols : List IxCol) : Prop := (cols.filter fun col => 0 < col.len).length ≤ 1

instance (cols : List IxCol) : Decidable (OneFilled cols) := inferInstanceAs (Decidable (_ ≤ _))

/-- When the lock manager computes the same gap as the scan. `ls` are the leaves in key order. -/
structure IndexMeta.GapsAgree (index : IndexMeta) (s : IxFile (IxKey index.ixCols))
    (ls : List PageNo) (conds : List Condition) : Prop where
  single : conds = [] → OneFilled index.ixCols
  covered : (conds = [] ∨ ∀ e ∈ s.pairs ls, index.Within conds e.1) →
    Covers (fun _ len => len) index.ixCols
  low : conds ≠ [] → (∀ e ∈ s.pairs ls, index.Below conds e.1) →
    (∀ key, index.lowKey conds ≤ endKey index.ixCols key) ∧
      (Covers (fun _ len => len) index.ixCols ∨ (∃ e ∈ s.pairs ls, e.1 = index.lowKey conds) ∨
        ∀ key, endKey index.ixCols key ≠ index.lowKey conds)

section Copies

variable {cols cs : List IxCol} {vals : List Value} {key : IxKey cols} {next : Nat → Nat → Nat}
  {offset i : Nat}

theorem IxKey.write_nil (key : IxKey cols) (off : Nat) : key.write off [] = key := by
  refine IxKey.ext_get fun i hi => ?_
  rw [key.write_get _ _ hi]
  exact if_neg fun h => by simp at h; omega

theorem copyValues_empty (hvals : List.Forall₂ IxCol.Holds cs vals)
    (h : ∀ col ∈ cs, col.len = 0) (offset : Nat) (key : IxKey cols) :
    copyValues next offset cs vals key = key := by
  induction hvals generalizing offset key with
  | nil => rfl
  | @cons col v cs vals hv hvals ih =>
    obtain ⟨hcol, hcs⟩ := List.forall_mem_cons.mp h
    have hraw : v.raw col.len = [] := List.length_eq_zero_iff.mp (hv.length_raw.trans hcol)
    rw [copyValues, hraw, key.write_nil, ih hcs]

/-- With one column it makes no difference that the offset is not moved. -/
theorem copyValues_oneFilled (hvals : List.Forall₂ IxCol.Holds cs vals) (h : OneFilled cs)
    (key : IxKey cols) :
    copyValues (fun offset _ => offset) 0 cs vals key = copyValues (· + ·) 0 cs vals key := by
  induction hvals generalizing key with
  | nil => rfl
  | @cons col v cs vals hv hvals ih =>
    by_cases hcol : col.len = 0
    · have hrest : OneFilled cs := by
        rwa [OneFilled, List.filter_cons_of_neg (by simp [hcol])] at h
      rw [copyValues, copyValues, ih hrest, hcol]
    · have hempty : ∀ col ∈ cs, col.len = 0 := by
        rw [OneFilled, List.filter_cons_of_pos (by simp; omega), List.length_cons] at h
        have hnil := List.length_eq_zero_iff.mp (show
          (cs.filter fun col => decide (0 < col.len)).length = 0 by omega)
        intro col' hcol'
        have hzero := List.filter_eq_nil_iff.mp hnil col' hcol'
        rw [decide_eq_true_eq] at hzero
        omega
      rw [copyValues, copyValues, copyValues_empty hvals hempty, copyValues_empty hvals hempty]

theorem written_same (h : written (fun offset _ => offset) 0 cs i = true) :
    ∃ col ∈ cs, i < col.len := by
  induction cs with
  | nil => cases h
  | cons col cs ih =>
    rw [written, Bool.or_eq_true, Bool.and_eq_true, decide_eq_true_eq, decide_eq_true_eq] at h
    rcases h with ⟨-, hlt⟩ | h
    · exact ⟨col, List.mem_cons_self, by omega⟩
    · obtain ⟨col', hcol', hlt⟩ := ih h
      exact ⟨col', List.mem_cons_of_mem _ hcol', hlt⟩

theorem oneFilled_of_covers (h : Covers (fun offset _ => offset) cols) : OneFilled cols := by
  have hsum : ∀ {cs : List IxCol}, colTotLen cs = 0 →
      (cs.filter fun col => decide (0 < col.len)) = [] := by
    intro cs hzero
    refine List.filter_eq_nil_iff.mpr fun col hcol => ?_
    rw [decide_eq_true_eq]
    have hle := List.single_le_sum (fun _ _ => Nat.zero_le _) _
      (List.mem_map_of_mem (f := IxCol.len) hcol)
    rw [colTotLen] at hzero
    omega
  by_cases htot : colTotLen cols = 0
  · rw [OneFilled, hsum htot]
    exact Nat.zero_le 1
  · obtain ⟨col, hcol, hlt⟩ := written_same (h (colTotLen cols - 1) (by omega))
    obtain ⟨front, back, hcols⟩ := List.append_of_mem hcol
    have hparts : colTotLen cols = colTotLen front + (col.len + colTotLen back) := by
      rw [hcols]
      simp [colTotLen]
    have hfront := @hsum front (by omega)
    have hback := @hsum back (by omega)
    rw [OneFilled, hcols, List.filter_append, List.filter_cons, hfront, hback]
    split
    next => exact Nat.le_refl 1
    next => exact Nat.zero_le 1

/-- A key whose every byte is written is one key; else its byte can be any. -/
theorem endKey_differs (h : ¬Covers (fun _ len => len) cols) (k : IxKey cols) :
    ∃ key, endKey cols key ≠ k := by
  obtain ⟨i, -, hbyte⟩ := copyValues_not_covers (holds_map IxCol.holds_generateMax cols) h
  by_cases hzero : endKey cols (IxKey.filled cols 0) = k
  · refine ⟨IxKey.filled cols 1, fun hone => ?_⟩
    have hsame := hbyte 0
    rw [show copyValues (fun _ len => len) 0 cols (cols.map IxCol.generateMax)
      (IxKey.filled cols 0) = endKey cols (IxKey.filled cols 1) from hzero.trans hone.symm] at hsame
    exact absurd (hsame.symm.trans (hbyte 1)) (by decide)
  · exact ⟨_, hzero⟩

end Copies

section Agreement

variable {index : IndexMeta} {conds : List Condition} {s : IxFile (IxKey index.ixCols)}
  {g : Labels PageNo (IxKey index.ixCols)} {ls : List PageNo} {L : IxLayout (IxKey index.ixCols)}
  {front rest front' rest' : List (IxKey index.ixCols × Rid)} {iids : Iid × Iid}

theorem BTree.pairs_ne_nil (h : BTree s g ls) : s.pairs ls ≠ [] := by
  obtain ⟨front, back, hls⟩ := List.append_of_mem h.chain.first_mem
  have hne := h.entriesOf_ne_nil h.chain.first_mem
  intro hnil
  rw [hls, IxFile.pairs_append, IxFile.pairs_cons, List.append_eq_nil_iff,
    List.append_eq_nil_iff] at hnil
  exact hne hnil.2.1

/-- The stored keys are keys of rows. -/
theorem pairs_ofRows (h : BTree s g ls) (hrows : s.OfRows) {e : IxKey index.ixCols × Rid}
    (he : e ∈ s.pairs ls) :
    ∃ us, List.Forall₂ IxCol.Holds index.ixCols us ∧ e.1 = IxKey.ofValues index.ixCols us := by
  obtain ⟨p, hp, he⟩ := List.mem_flatMap.mp he
  obtain ⟨n, hn, -⟩ := h.mem_leaves.mp hp
  rw [entriesOf_eq hn] at he
  exact hrows hn e he

/-- In front of the first place there is no key to move to. -/
theorem gapAt_first {K : IxKey index.ixCols} {bufs : GapBuffers index.ixCols}
    {r : GapRange index.ixCols} (h : gapAt (iids, K) [] rest rest' bufs = some r) :
    r = (iids, K, keyAfter rest' (endKey index.ixCols bufs.upperBound)) := by
  obtain ⟨key, hkey, rfl⟩ := Option.map_eq_some_iff.mp h
  split at hkey
  next => rw [← Option.some.inj hkey]; rfl
  next =>
    split at hkey
    next => rw [← Option.some.inj hkey]
    next => cases hkey

/-- The copies for an empty list. -/
theorem agree_nil_iff (h : BTree s g ls) (hrows : s.OfRows) :
    (∀ bufs bufs', ∃ r, IndexScanExecutor.gap L s [] bufs = some r ∧
        LockManager.gap L s [] bufs' = some r) ↔
      OneFilled index.ixCols ∧ Covers (fun _ len => len) index.ixCols := by
  have hmin := holds_map IxCol.holds_generateMin index.ixCols
  have hmax := holds_map IxCol.holds_generateMax index.ixCols
  obtain ⟨last, -, hgap⟩ := gap_nil h L
  constructor
  · intro hagree
    -- what both copies return does not depend on the buffers of either
    have hboth : ∀ bufs bufs' : GapBuffers index.ixCols,
        copyValues (fun offset _ => offset) 0 index.ixCols
            (index.ixCols.map IxCol.generateMin) bufs'.lowerKey =
          IxKey.ofValues index.ixCols (index.ixCols.map IxCol.generateMin) ∧
        endKey index.ixCols bufs'.upperBound = endKey index.ixCols bufs.upperBound := by
      intro bufs bufs'
      obtain ⟨r, hscan, hlock⟩ := hagree bufs bufs'
      rw [(hgap bufs).1, copyValues_add hmin] at hscan
      rw [(hgap bufs').2] at hlock
      have hsame := (gapAt_first hlock).symm.trans (gapAt_first hscan)
      exact Prod.mk.inj (Prod.mk.inj hsame).2
    constructor
    · by_contra hmany
      obtain ⟨i, -, hbyte⟩ := copyValues_not_covers hmin (mt oneFilled_of_covers hmany)
      have hfill := fun b => (hboth ⟨.filled _ b, .filled _ b, .filled _ b, .filled _ b⟩
        ⟨.filled _ b, .filled _ b, .filled _ b, .filled _ b⟩).1
      have hzero := hbyte 0
      have hone := hbyte 1
      rw [hfill 0] at hzero
      rw [hfill 1] at hone
      exact absurd (hzero.symm.trans hone) (by decide)
    · by_contra hopen
      obtain ⟨key, hkey⟩ := endKey_differs hopen (endKey index.ixCols (.filled _ 0))
      exact hkey (hboth ⟨.filled _ 0, .filled _ 0, .filled _ 0, .filled _ 0⟩
        ⟨key, key, key, key⟩).2
  · rintro ⟨hfilled, hcovers⟩ bufs bufs'
    have hle : ∀ bufs : GapBuffers index.ixCols,
        IxKey.ofValues index.ixCols (index.ixCols.map IxCol.generateMin) ≤
          keyAfter (s.pairs ls) (endKey index.ixCols bufs.lowerBound) := by
      intro bufs
      rcases keyAfter_cases h.pairs_sorted (endKey index.ixCols bufs.lowerBound) with
        ⟨hnil, -⟩ | ⟨e, he, hkey, -⟩
      · exact absurd hnil h.pairs_ne_nil
      · obtain ⟨us, hus, heq⟩ := pairs_ofRows h hrows he
        rw [hkey, heq]
        exact ofValues_min_le hus
    have hreturns := fun bufs => @gapAt_returns index ((s.leafBegin, last),
      IxKey.ofValues index.ixCols (index.ixCols.map IxCol.generateMin)) [] (s.pairs ls) [] bufs
      (hle bufs)
    obtain ⟨r, hscan⟩ := hreturns bufs
    obtain ⟨r', hlock⟩ := hreturns bufs'
    refine ⟨r, by rw [(hgap bufs).1, copyValues_add hmin, hscan], ?_⟩
    rw [(hgap bufs').2, copyValues_oneFilled hmin hfilled, copyValues_add hmin, hlock,
      gapAt_first hlock, gapAt_first hscan]
    exact congrArg (fun key => some ((s.leafBegin, last), _, key))
      (copyValues_covers hmax hcovers _ _)

theorem keyBefore_greatest {κ : Type} [LinearOrder κ] {front : List (κ × Rid)} {e : κ × Rid}
    (hsorted : (front.map Prod.fst).Pairwise (· < ·)) (he : e ∈ front) (first : κ) :
    e.1 ≤ keyBefore front first := by
  rcases List.eq_nil_or_concat front with rfl | ⟨front, e', rfl⟩
  · cases he
  · rw [List.concat_eq_append, List.map_append, List.pairwise_append] at hsorted
    rw [List.concat_eq_append, List.mem_append, List.mem_singleton] at he
    rw [show keyBefore (front.concat e') first = e'.1 by simp [keyBefore]]
    rcases he with he | rfl
    · exact (hsorted.2.2 e.1 (List.mem_map_of_mem he) e'.1 (by simp)).le
    · exact le_refl _

/-- The copies for conditions, where they differ in nothing but their buffers. -/
theorem agree_cons_iff (h : BTree s g ls) (hpairs : s.pairs ls = front ++ rest)
    (hpairs' : s.pairs ls = front' ++ rest') (hne : conds ≠ [])
    (hcut : (∀ e ∈ front, index.Below conds e.1) ∧ ∀ e ∈ rest, ¬index.Below conds e.1)
    (hcut' : (∀ e ∈ front', index.Within conds e.1) ∧ ∀ e ∈ rest', ¬index.Within conds e.1) :
    (∀ bufs bufs', ∃ r, gapAt (iids, index.lowKey conds) front rest rest' bufs = some r ∧
        gapAt (iids, index.lowKey conds) front rest rest' bufs' = some r) ↔
      index.GapsAgree s ls conds := by
  have hmax := holds_map IxCol.holds_generateMax index.ixCols
  have hsorted := h.pairs_sorted
  have hnil : (∀ e ∈ s.pairs ls, index.Below conds e.1) → rest = [] := fun hall =>
    List.eq_nil_iff_forall_not_mem.mpr fun e he =>
      hcut.2 e he (hall e (by rw [hpairs]; exact List.mem_append_right _ he))
  have hnil' : (∀ e ∈ s.pairs ls, index.Within conds e.1) → rest' = [] := fun hall =>
    List.eq_nil_iff_forall_not_mem.mpr fun e he =>
      hcut'.2 e he (hall e (by rw [hpairs']; exact List.mem_append_right _ he))
  constructor
  · intro hagree
    refine ⟨fun heq => absurd heq hne, ?_, fun _ hall => ⟨?_, ?_⟩⟩
    · rintro (heq | hall)
      · exact absurd heq hne
      · have hrest := hnil' hall
        subst hrest
        by_contra hopen
        obtain ⟨key, hkey⟩ := endKey_differs hopen (endKey index.ixCols (.filled _ 0))
        obtain ⟨r, hr, hr'⟩ := hagree ⟨key, key, key, key⟩
          ⟨.filled _ 0, .filled _ 0, .filled _ 0, .filled _ 0⟩
        exact hkey ((gapAt_some hr).1.symm.trans (gapAt_some hr').1)
    · intro key
      have hrest := hnil hall
      subst hrest
      obtain ⟨r, hr, -⟩ := hagree ⟨key, key, key, key⟩ ⟨key, key, key, key⟩
      rcases (gapAt_some hr).2 with ⟨hlt, -⟩ | ⟨heq, -⟩
      · exact le_of_lt hlt
      · exact le_of_eq heq
    · have hrest := hnil hall
      subst hrest
      rw [List.append_nil] at hpairs
      by_contra hcontra
      simp only [not_or, not_forall, not_not, not_exists, not_and] at hcontra
      obtain ⟨hopen, hnew, key, hkey⟩ := hcontra
      -- with one buffer the lower key stays, with another it moves to a stored key
      obtain ⟨key', hkey'⟩ := endKey_differs hopen (index.lowKey conds)
      obtain ⟨r, hr, hr'⟩ := hagree ⟨key, key, key, key⟩ ⟨key', key', key', key'⟩
      have hstays : r.2.1 = index.lowKey conds := by
        rcases (gapAt_some hr).2 with ⟨hlt, -⟩ | ⟨-, hsame⟩
        · exact absurd hlt (by rw [show keyAfter [] _ = _ from rfl, hkey]; exact lt_irrefl _)
        · exact hsame
      rcases (gapAt_some hr').2 with ⟨-, hmoves⟩ | ⟨heq, -⟩
      · rcases keyBefore_cases front (index.lowKey conds) with ⟨hempty, -⟩ | ⟨e, he, hbefore⟩
        · exact h.pairs_ne_nil (hpairs.trans hempty)
        · exact hnew e (hpairs ▸ he) (hbefore.symm.trans (hmoves.symm.trans hstays))
      · exact hkey' heq.symm
  · intro hcond bufs bufs'
    have hle : ∀ bufs : GapBuffers index.ixCols, index.lowKey conds ≤
        keyAfter rest (endKey index.ixCols bufs.lowerBound) := by
      intro bufs
      cases hrest : rest with
      | nil =>
        rw [hrest, List.append_nil] at hpairs
        exact (hcond.low hne fun e he => hcut.1 e (hpairs ▸ he)).1 _
      | cons e rest =>
        exact le_of_not_below (hcut.2 e (by rw [hrest]; exact List.mem_cons_self))
    obtain ⟨r, hr⟩ := @gapAt_returns index (iids, index.lowKey conds) front rest rest' bufs
      (hle bufs)
    refine ⟨r, hr, ?_⟩
    -- where one buffer lets the lower key stay and another does not, it stays at a stored key
    have hstays : ∀ {bufs bufs' : GapBuffers index.ixCols},
        index.lowKey conds < keyAfter rest (endKey index.ixCols bufs.lowerBound) →
        index.lowKey conds = keyAfter rest (endKey index.ixCols bufs'.lowerBound) →
        keyBefore front (index.lowKey conds) = index.lowKey conds := by
      intro bufs bufs' hlt heq
      cases hrest : rest with
      | cons e rest =>
        rw [hrest] at hlt heq
        exact absurd heq hlt.ne
      | nil =>
        rw [hrest, List.append_nil] at hpairs
        rw [hrest] at hlt heq
        rcases (hcond.low hne fun e he => hcut.1 e (hpairs ▸ he)).2 with hcovers | hstored | hnever
        · rw [heq] at hlt
          exact absurd (copyValues_covers hmax hcovers _ _) hlt.ne
        · obtain ⟨e, he, hkey⟩ := hstored
          rw [hpairs] at he hsorted
          refine le_antisymm ?_ (hkey ▸ keyBefore_greatest hsorted he _)
          rcases keyBefore_cases front (index.lowKey conds) with ⟨-, hsame⟩ | ⟨e', he', hsame⟩
          · exact hsame.le
          · rw [hsame]
            exact Below.le (hcut.1 e' he')
        · exact absurd heq.symm (hnever _)
    obtain ⟨r', hr'⟩ := @gapAt_returns index (iids, index.lowKey conds) front rest rest' bufs'
      (hle bufs')
    have hlow : r'.2.1 = r.2.1 := by
      rcases (gapAt_some hr).2 with ⟨hlt, hkey⟩ | ⟨heq, hkey⟩
      · rcases (gapAt_some hr').2 with ⟨-, hkey'⟩ | ⟨heq', hkey'⟩
        · rw [hkey, hkey']
        · rw [hkey, hkey']
          exact (hstays hlt heq').symm
      · rcases (gapAt_some hr').2 with ⟨hlt', hkey'⟩ | ⟨-, hkey'⟩
        · rw [hkey, hkey']
          exact hstays hlt' heq
        · rw [hkey, hkey']
    have hhigh : r'.2.2 = r.2.2 := by
      rw [(gapAt_some hr').1, (gapAt_some hr).1]
      cases hrest' : rest' with
      | nil =>
        rw [hrest', List.append_nil] at hpairs'
        exact copyValues_covers hmax
          (hcond.covered (Or.inr fun e he => hcut'.1 e (hpairs' ▸ he))) _ _
      | cons e rest' => rfl
    have hiids : r'.1 = r.1 := by
      obtain ⟨key, -, rfl⟩ := Option.map_eq_some_iff.mp hr
      obtain ⟨key', -, rfl⟩ := Option.map_eq_some_iff.mp hr'
      rfl
    rw [hr', Prod.ext hiids (Prod.ext hlow hhigh)]

end Agreement

/-- Exactly when the lock manager's copy of the gap computation returns what the scan's does,
whatever the bytes of the fresh buffers are. -/
theorem lockManager_gap_agrees_iff (index : IndexMeta) (conds : List Condition)
    (hchosen : index.Chosen conds) (L : IxLayout (IxKey index.ixCols))
    (s : IxFile (IxKey index.ixCols)) (g : Labels PageNo (IxKey index.ixCols)) (ls : List PageNo)
    (h : BTree s g ls) (hrows : s.OfRows) :
    (∀ bufs bufs', ∃ r, IndexScanExecutor.gap L s conds bufs = some r ∧
      LockManager.gap L s conds bufs' = some r) ↔ index.GapsAgree s ls conds := by
  by_cases hne : conds = []
  · subst hne
    rw [agree_nil_iff h hrows]
    constructor
    · intro hboth
      exact ⟨fun _ => hboth.1, fun _ => hboth.2, fun hne => absurd rfl hne⟩
    · intro hcond
      exact ⟨hcond.single rfl, hcond.covered (Or.inl rfl)⟩
  · obtain ⟨lower, upper, front, rest, front', rest', hlower, hupper, hcut, hcut', hgap⟩ :=
      gap_eq h L hrows hchosen.ranged hchosen.distinct hne
    rw [← @agree_cons_iff index conds s g ls front rest front' rest' (lower, upper) h hlower.pairs_eq
      hupper.pairs_eq hne hcut hcut']
    refine forall_congr' fun bufs => forall_congr' fun bufs' => exists_congr fun r => ?_
    rw [(hgap bufs).1, (hgap bufs').2]

/-- `a = 1` in a tree that holds 1 and 2. -/
theorem lockManager_gap_agrees_point :
    indexOnA.GapsAgree twoLeaves [3, 4] [onA .eq 1] ∧
      ∀ bufs bufs', ∃ r, IndexScanExecutor.gap (IxLayout.ofCols indexOnA.ixCols (by decide))
          twoLeaves [onA .eq 1] bufs = some r ∧
        LockManager.gap (IxLayout.ofCols indexOnA.ixCols (by decide)) twoLeaves [onA .eq 1] bufs' =
          some r := by
  have hchosen : indexOnA.Chosen [onA .eq 1] := by
    refine chosen_onA (by decide +kernel) fun cond hcond => ?_
    rw [List.mem_singleton.mp hcond]
    exact ⟨1, rfl, by decide⟩
  have hcond : indexOnA.GapsAgree twoLeaves [3, 4] [onA .eq 1] := by
    refine ⟨fun heq => absurd heq (by decide), fun _ => by decide +kernel, fun _ hall => ?_⟩
    have hbelow := hall (smallKey 2, ⟨1, 1⟩) (by decide)
    unfold IndexMeta.Below at hbelow
    rw [if_neg (by decide)] at hbelow
    exact absurd hbelow (not_lt.mpr
      (le_of_lt ((ixCompare_neg_iff _ _).mp (by decide +kernel))))
  exact ⟨hcond, (lockManager_gap_agrees_iff indexOnA _ hchosen _ twoLeaves twoLeavesLabels [3, 4]
    twoLeaves_btree twoLeaves_ofRows).mpr hcond⟩

/-- A file with one leaf. -/
def oneLeaf {κ : Type} (es : List (κ × Rid)) : IxFile κ where
  rootPage := 2
  firstLeaf := 2
  lastLeaf := 2
  nextPageNo := 3
  pages := fun p => if p = 2 then some ⟨IX_NO_PAGE, true, 2, 2, es, []⟩ else none
  peak := 1

theorem oneLeaf_btree {κ : Type} [LinearOrder κ] {es : List (κ × Rid)} (hne : es ≠ [])
    (hsorted : (es.map Prod.fst).Pairwise (· < ·)) :
    BTree (oneLeaf es) ⟨fun _ => 0, fun _ => ⊥, fun _ => ⊤⟩ [2] := by
  have hpage : ∀ {p n}, (oneLeaf es).pages p = some n →
      p = 2 ∧ n = ⟨IX_NO_PAGE, true, 2, 2, es, []⟩ := by
    intro p n hp
    simp only [oneLeaf] at hp
    split_ifs at hp with heq
    exact ⟨heq, (Option.some.inj hp).symm⟩
  have htree : (oneLeaf es).tree =
      Function.update (fun _ => none) 2 (some (.leaf IX_NO_PAGE 2 2 es)) := by
    funext p
    by_cases hp : p = 2
    · subst hp
      rfl
    · simp [IxFile.tree, oneLeaf, hp]
  have hsingle := @ChainedTree.single PageNo κ Rid _ _ (2 : PageNo) IX_NO_PAGE es (by decide) hsorted
  rw [← htree] at hsingle
  refine ⟨hsingle.shape, hsingle.chain, ?_, ?_, ?_⟩
  · intro p n hp _
    rw [(hpage hp).2]
    exact hne
  · intro p n hp hleaf
    rw [(hpage hp).2] at hleaf
    cases hleaf
  · intro p n hp
    rw [(hpage hp).1]
    exact ⟨by decide, show (2 : Int) < 3 by decide⟩

/-- The index on `a` and `b` of `CREATE TABLE t (a INT, b INT)`. -/
def indexOnAB : IndexMeta := ⟨"t", 8, 2, [⟨"t", "a", .int, 4, 0⟩, ⟨"t", "b", .int, 4, 4⟩]⟩

/-- The key of the row (1, 1). -/
def keyOnAB : IxKey indexOnAB.ixCols := IxKey.ofValues [.int, .int] [.int 1, .int 1]

/-- Without conditions the lock manager leaves the second column of its lower key as it finds it. -/
theorem lockManager_gap_differs :
    indexOnAB.Chosen [] ∧
      BTree (oneLeaf [(keyOnAB, ⟨1, 0⟩)]) ⟨fun _ => 0, fun _ => ⊥, fun _ => ⊤⟩ [2] ∧
      (oneLeaf [(keyOnAB, ⟨1, 0⟩)]).OfRows ∧
      ¬∀ bufs bufs', ∃ r, IndexScanExecutor.gap (IxLayout.ofCols indexOnAB.ixCols (by decide))
          (oneLeaf [(keyOnAB, ⟨1, 0⟩)]) [] bufs = some r ∧
        LockManager.gap (IxLayout.ofCols indexOnAB.ixCols (by decide))
          (oneLeaf [(keyOnAB, ⟨1, 0⟩)]) [] bufs' = some r := by
  refine ⟨⟨⟨_, "t", _, [], ["a", "b"], indexedTable_made ["a", "b"], rfl, by decide +kernel, rfl⟩,
    ?_, by decide, fun cond hcond => absurd hcond List.not_mem_nil⟩,
    oneLeaf_btree (by simp) (by simp), ?_, fun hagree => ?_⟩
  · intro col hcol
    rcases List.mem_cons.mp hcol with rfl | hcol
    · exact Or.inl ⟨rfl, rfl⟩
    · rw [List.mem_singleton.mp hcol]
      exact Or.inl ⟨rfl, rfl⟩
  · intro p n hp e he
    simp only [oneLeaf] at hp
    split_ifs at hp
    cases hp
    rw [List.mem_singleton.mp he]
    exact ⟨[.int 1, .int 1], .cons (show IsInt32 1 by decide) (.cons (show IsInt32 1 by decide) .nil),
      rfl⟩
  · obtain ⟨r, hscan, hlock⟩ := hagree ⟨.filled _ 0, .filled _ 0, .filled _ 0, .filled _ 0⟩
      ⟨.filled _ 127, .filled _ 127, .filled _ 127, .filled _ 127⟩
    have hbytes := congrArg (Option.map fun r => r.2.1.1) (hscan.trans hlock.symm)
    revert hbytes
    decide +kernel

end Grmdb
