import Grmdb.PointLookup

namespace Grmdb

variable {κ : Type}

namespace IxNode

/-- Every slot of the page that something was written to has such a key. -/
def KeysIn (K : κ → Prop) (n : IxNode κ) : Prop := ∀ e ∈ n.entries ++ n.dead, K e.1

variable {K : κ → Prop} {L : IxLayout κ} {n m : IxNode κ} {key : κ} {value : Rid} {pos : Nat}

namespace KeysIn

theorem congr (h : n.KeysIn K) (hslots : m.entries ++ m.dead = n.entries ++ n.dead) :
    m.KeysIn K := by
  unfold KeysIn
  rw [hslots]
  exact h

theorem entries (h : n.KeysIn K) : ∀ e ∈ n.entries, K e.1 :=
  fun e he => h e (List.mem_append_left _ he)

theorem dead (h : n.KeysIn K) : ∀ e ∈ n.dead, K e.1 :=
  fun e he => h e (List.mem_append_right _ he)

theorem of_parts (hentries : ∀ e ∈ n.entries, K e.1) (hdead : ∀ e ∈ n.dead, K e.1) :
    n.KeysIn K := by
  intro e he
  rcases List.mem_append.mp he with he | he
  · exact hentries e he
  · exact hdead e he

/-- A slot behind those is zero. -/
theorem getKey (h : n.KeysIn K) (hzero : K L.zeroKey) (i : Nat) : K (n.getKey L i) := by
  unfold IxNode.getKey slot
  rw [List.getD_eq_getElem?_getD]
  cases hget : (n.entries ++ n.dead)[i]? with
  | none => exact hzero
  | some e => exact h e (List.mem_of_getElem? hget)

theorem modify {f : κ × Rid → κ × Rid} (h : ∀ e ∈ n.entries, K e.1)
    (hf : ∀ e ∈ n.entries, K (f e).1) (i : Nat) : ∀ e ∈ n.entries.modify i f, K e.1 := by
  intro e he
  obtain ⟨j, hj⟩ := List.mem_iff_getElem?.mp he
  rw [List.getElem?_modify] at hj
  cases hget : n.entries[j]? with
  | none =>
    rw [hget] at hj
    cases hj
  | some e' =>
    rw [hget] at hj
    have hmem := List.mem_of_getElem? hget
    simp only [Option.map_eq_map, Option.map_some, Option.some.injEq] at hj
    rw [← hj]
    split
    next => exact hf e' hmem
    next => exact h e' hmem

theorem setKey (h : n.KeysIn K) (hkey : K key) (i : Nat) : (n.setKey i key).KeysIn K :=
  of_parts (modify h.entries (fun _ _ => hkey) i) h.dead

theorem setRid (h : n.KeysIn K) (i : Nat) (rid : Rid) : (n.setRid i rid).KeysIn K :=
  of_parts (@modify _ K n (fun e => (e.1, rid)) h.entries h.entries i) h.dead

theorem insertAt (h : n.KeysIn K) (hkey : K key) (pos : Nat) :
    (n.insertAt pos key value).KeysIn K := by
  refine of_parts (fun e he => ?_) fun e he => h.dead e (List.mem_of_mem_tail he)
  rcases List.eq_or_mem_of_mem_insertIdx he with rfl | he
  · exact hkey
  · exact h.entries e he

theorem insert [LinearOrder κ] (h : n.KeysIn K) (hkey : K key)
    (hrun : n.insert L key value = some m) : m.KeysIn K := by
  unfold IxNode.insert at hrun
  split at hrun
  next => exact Option.some.inj hrun ▸ h.insertAt hkey 0
  next =>
    split at hrun
    next => exact Option.some.inj hrun ▸ h.insertAt hkey n.size
    next pos _ =>
      split at hrun
      next => cases hrun
      next => exact Option.some.inj hrun ▸ h.insertAt hkey pos

theorem erasePair (h : n.KeysIn K) (pos : Nat) : (n.erasePair pos).KeysIn K := by
  refine of_parts (fun e he => h.entries e (List.eraseIdx_subset he)) fun e he => ?_
  rcases List.mem_append.mp he with he | he
  · exact h.entries e (List.mem_of_getLast? (Option.mem_toList.mp he))
  · exact h.dead e he

theorem blit {slots xs : List (κ × Rid)} (hzero : K L.zeroKey) (hslots : ∀ e ∈ slots, K e.1)
    (hxs : ∀ e ∈ xs, K e.1) (pos : Nat) : ∀ e ∈ IxNode.blit L slots pos xs, K e.1 := by
  intro e he
  unfold IxNode.blit at he
  rcases List.mem_append.mp he with he | he
  · rcases List.mem_append.mp he with he | he
    · rcases List.mem_append.mp (List.mem_of_mem_take he) with he | he
      · exact hslots e he
      · rw [List.eq_of_mem_replicate he]
        exact hzero
    · exact hxs e he
  · exact hslots e (List.mem_of_mem_drop he)

theorem insertPairs {pairs : List (κ × Rid)} (h : n.KeysIn K) (hzero : K L.zeroKey)
    (hpairs : ∀ e ∈ pairs, K e.1) (pos : Nat) : (n.insertPairs L pos pairs).KeysIn K := by
  refine congr (n := ⟨n.parent, n.isLeaf, n.prevLeaf, n.nextLeaf, IxNode.blit L
    (IxNode.blit L (n.entries ++ n.dead) (pos + pos) (n.entries.drop pos)) pos pairs, []⟩) ?_ ?_
  · refine of_parts (blit hzero (blit hzero h (fun e he => ?_) _) hpairs _)
      fun e he => absurd he List.not_mem_nil
    exact h.entries e (List.mem_of_mem_drop he)
  · rw [List.append_nil]
    exact List.take_append_drop _ _

end KeysIn

end IxNode

namespace IxFile

def KeysIn (K : κ → Prop) (s : IxFile κ) : Prop := ∀ p n, s.pages p = some n → n.KeysIn K

variable {K : κ → Prop} {L : IxLayout κ} {s s' : IxFile κ} {n nb nd pr ln rn : IxNode κ}
  {p q old new child parent neighbor : PageNo} {key : κ} {value : Rid} {fuel index : Nat}

namespace KeysIn

theorem write (h : s.KeysIn K) (hn : n.KeysIn K) (p : PageNo) : (s.write p n).KeysIn K := by
  intro q m hm
  change Function.update s.pages p (some n) q = some m at hm
  by_cases hq : q = p
  · rw [hq, Function.update_self] at hm
    exact Option.some.inj hm ▸ hn
  · rw [Function.update_of_ne hq] at hm
    exact h q m hm

theorem release (h : s.KeysIn K) (p : PageNo) : (s.release p).KeysIn K := by
  intro q m hm
  change Function.update s.pages p none q = some m at hm
  by_cases hq : q = p
  · rw [hq, Function.update_self] at hm
    cases hm
  · rw [Function.update_of_ne hq] at hm
    exact h q m hm

theorem createNode (h : s.KeysIn K) : s.createNode.KeysIn K :=
  h.write (n := IxNode.fresh κ) (fun _ he => absurd he List.not_mem_nil) s.nextPageNo

theorem setParent (h : s.KeysIn K) (hrun : s.setParent child parent = some s') : s'.KeysIn K := by
  obtain ⟨n, hn, rfl⟩ := Option.map_eq_some_iff.mp hrun
  exact h.write ((h child n hn).congr (m := { n with parent := parent }) rfl) child

theorem maintainChildren {children : List PageNo} (h : s.KeysIn K)
    (hrun : s.maintainChildren p children = some s') : s'.KeysIn K := by
  induction children generalizing s with
  | nil => exact Option.some.inj hrun ▸ h
  | cons child children ih =>
    rw [IxFile.maintainChildren, List.foldlM_cons] at hrun
    obtain ⟨s₁, hs₁, hrun⟩ := Option.bind_eq_some_iff.mp hrun
    exact ih (h.setParent hs₁) hrun

theorem setPrevLeaf (h : s.KeysIn K) (hrun : s.setPrevLeaf p q = some s') : s'.KeysIn K := by
  obtain ⟨n, hn, rfl⟩ := Option.map_eq_some_iff.mp hrun
  exact h.write ((h p n hn).congr (m := { n with prevLeaf := q }) rfl) p

theorem split (h : s.KeysIn K) (hzero : K L.zeroKey) (hrun : s.split L p = some s') :
    s'.KeysIn K := by
  obtain ⟨node, hnode, hrun⟩ := Option.bind_eq_some_iff.mp hrun
  have hkeys := h p node hnode
  have hmoved : ∀ e ∈ node.entries.drop (node.size / 2), K e.1 :=
    fun e he => hkeys.entries e (List.mem_of_mem_drop he)
  have hdead : ∀ e ∈ List.replicate (node.entries.drop (node.size / 2)).length
      ((L.zeroKey, ⟨0, 0⟩) : κ × Rid) ++ node.dead, K e.1 := by
    intro e he
    rcases List.mem_append.mp he with he | he
    · rw [List.eq_of_mem_replicate he]
      exact hzero
    · exact hkeys.dead e he
  have hleft : ∀ e ∈ node.entries.take (node.size / 2), K e.1 :=
    fun e he => hkeys.entries e (List.mem_of_mem_take he)
  have hnone : ∀ e ∈ ([] : List (κ × Rid)), K e.1 := fun e he => absurd he List.not_mem_nil
  dsimp only at hrun
  split at hrun
  next =>
    obtain ⟨s₁, hs₁, hrun⟩ := Option.bind_eq_some_iff.mp hrun
    have hkeys₁ := setPrevLeaf (write (write h.createNode (.of_parts hleft hdead) p)
      (.of_parts hmoved hnone) s.nextPageNo) hs₁
    cases hrun
    split
    next => exact hkeys₁
    next => exact hkeys₁
  next =>
    exact maintainChildren (write (write h.createNode (.of_parts hleft hdead) p)
      (.of_parts hmoved hnone) s.nextPageNo) hrun

theorem newRoot (hzero : K L.zeroKey) (child : PageNo) :
    (IxFile.newRoot L child).KeysIn K := by
  intro e he
  rw [List.mem_singleton.mp (show e ∈ [(L.zeroKey, (⟨child, 0⟩ : Rid))] from he)]
  exact hzero

theorem adjustRoot (h : s.KeysIn K) (hrun : s.adjustRoot L p = some s') : s'.KeysIn K := by
  obtain ⟨node, -, hrun⟩ := Option.bind_eq_some_iff.mp hrun
  split at hrun
  next =>
    obtain ⟨s₁, hs₁, rfl⟩ := Option.map_eq_some_iff.mp hrun
    exact (setParent (s := { s with rootPage := node.valueAt L 0 }) h hs₁).release p
  next =>
    split at hrun
    next =>
      cases hrun
      exact release (s := { s with
        rootPage := IX_NO_PAGE, firstLeaf := IX_NO_PAGE, lastLeaf := IX_NO_PAGE }) h p
    next => exact Option.some.inj hrun ▸ h

theorem coalesce (h : s.KeysIn K) (hzero : K L.zeroKey) (hln : ln.KeysIn K) (hrn : rn.KeysIn K)
    (hpr : pr.KeysIn K) (hrun : s.coalesce L p q parent ln rn pr index = some s') :
    s'.KeysIn K := by
  unfold IxFile.coalesce at hrun
  dsimp only at hrun
  split at hrun
  next =>
    have hmerged := hln.insertPairs hzero hrn.entries ln.size
    have hkeys := (h.write hmerged p).write (hpr.erasePair index) parent
    obtain ⟨s₁, hs₁, rfl⟩ := Option.map_eq_some_iff.mp hrun
    have hkeys₁ := setPrevLeaf (hkeys.write (hmerged.congr
      (m := { ln.insertPairs L ln.size rn.entries with nextLeaf := rn.nextLeaf }) rfl) p) hs₁
    refine release ?_ q
    split
    next => exact hkeys₁
    next => exact hkeys₁
  next =>
    have hmoved := hrn.setKey (hpr.getKey hzero index) 0
    have hmerged := hln.insertPairs hzero hmoved.entries ln.size
    have hkeys := (h.write hmerged p).write (hpr.erasePair index) parent
    obtain ⟨s₁, hs₁, rfl⟩ := Option.map_eq_some_iff.mp hrun
    exact (hkeys.maintainChildren hs₁).release q

variable [LinearOrder κ]

theorem growRoot (h : s.KeysIn K) (hzero : K L.zeroKey) (hkey : K key)
    (hrun : s.growRoot L old key new = .returned s') : s'.KeysIn K := by
  unfold IxFile.growRoot at hrun
  dsimp only at hrun
  split at hrun
  next => cases hrun
  next s₁ hs₁ =>
    obtain ⟨s₀, hs₀, hs₁⟩ := Option.bind_eq_some_iff.mp hs₁
    have hkeys₀ := @setParent _ K { s.createNode with rootPage := s.nextPageNo } _ _ _ h.createNode hs₀
    split at hrun
    next => cases hrun
    next node hnode =>
      cases hrun
      exact (hkeys₀.setParent hs₁).write ((newRoot hzero old).insert hkey hnode) s.nextPageNo

theorem insertIntoParent (h : s.KeysIn K) (hzero : K L.zeroKey) (hkey : K key)
    (hrun : IxFile.insertIntoParent L fuel s old key new = .returned s') : s'.KeysIn K := by
  induction fuel generalizing s old key new with
  | zero => cases hrun
  | succ fuel ih =>
    unfold IxFile.insertIntoParent at hrun
    split at hrun
    next => cases hrun
    next oldNode _ =>
      split at hrun
      next => exact h.growRoot hzero hkey hrun
      next =>
        split at hrun
        next => cases hrun
        next node hnode =>
          split at hrun
          next => cases hrun
          next node' hinsert =>
            have hkeys := h.write ((h _ node hnode).insert hkey hinsert) oldNode.parent
            dsimp only at hrun
            split at hrun
            next =>
              split at hrun
              next => cases hrun
              next s₁ hs₁ =>
                have hkeys₁ := hkeys.split hzero hs₁
                split at hrun
                next => cases hrun
                next rightNode hright =>
                  exact ih hkeys₁ ((hkeys₁ _ rightNode hright).getKey hzero 0) hrun
            next => exact IxResult.returned.inj hrun ▸ hkeys

theorem plantRoot (h : s.KeysIn K) (hkey : K key)
    (hrun : s.plantRoot L key value = .returned s') : s'.KeysIn K := by
  unfold IxFile.plantRoot at hrun
  dsimp only at hrun
  split at hrun
  next => cases hrun
  next node hnode =>
    cases hrun
    refine write (s := { s.createNode with
      rootPage := s.nextPageNo, firstLeaf := s.nextPageNo, lastLeaf := s.nextPageNo })
      h.createNode (IxNode.KeysIn.insert (fun e he => ?_) hkey hnode) s.nextPageNo
    cases he

theorem insertEntry (h : s.KeysIn K) (hzero : K L.zeroKey) (hkey : K key)
    (hrun : s.insertEntry L key value = .returned s') : s'.KeysIn K := by
  unfold IxFile.insertEntry at hrun
  split at hrun
  next => exact h.plantRoot hkey hrun
  next =>
    split at hrun
    next => cases hrun
    next p _ =>
      split at hrun
      next => cases hrun
      next leaf hleaf =>
        split at hrun
        next => cases hrun
        next node hinsert =>
          have hkeys := h.write ((h p leaf hleaf).insert hkey hinsert) p
          dsimp only at hrun
          split at hrun
          next =>
            split at hrun
            next => cases hrun
            next s₁ hs₁ =>
              have hkeys₁ := hkeys.split hzero hs₁
              split at hrun
              next => cases hrun
              next rightNode hright =>
                exact hkeys₁.insertIntoParent hzero ((hkeys₁ _ rightNode hright).getKey hzero 0) hrun
          next => exact IxResult.returned.inj hrun ▸ hkeys

theorem redistribute (h : s.KeysIn K) (hzero : K L.zeroKey) (hnb : nb.KeysIn K)
    (hnd : nd.KeysIn K) (hpr : pr.KeysIn K)
    (hrun : s.redistribute L neighbor p parent nb nd pr index = some s') : s'.KeysIn K := by
  unfold IxFile.redistribute at hrun
  dsimp only at hrun
  split at hrun
  next =>
    split at hrun
    next =>
      obtain ⟨nd', hnd', hrun⟩ := Option.bind_eq_some_iff.mp hrun
      obtain ⟨s₁, hs₁, rfl⟩ := Option.map_eq_some_iff.mp hrun
      have hnb' := hnb.erasePair 0
      have hkeys := (h.write (hnd.insert (hpr.getKey hzero 1) hnd') p).write hnb' neighbor
      exact (hkeys.setParent hs₁).write (hpr.setKey (hnb'.getKey hzero 0) 1) parent
    next =>
      obtain ⟨s₁, hs₁, rfl⟩ := Option.map_eq_some_iff.mp hrun
      have hnb' := hnb.erasePair (nb.size - 1)
      have hnd' : (nd.insertPairs L 1 [(pr.getKey L index, nd.getRid L 0)]).KeysIn K :=
        hnd.insertPairs hzero (fun e he => by
          rw [List.mem_singleton.mp he]
          exact hpr.getKey hzero index) 1
      have hkeys := (h.write (hnd'.setRid 0 (nb.getRid L (nb.size - 1))) p).write hnb' neighbor
      exact (hkeys.setParent hs₁).write (hpr.setKey (hnb'.getKey hzero _) index) parent
  next =>
    split at hrun
    next =>
      obtain ⟨nd', hnd', rfl⟩ := Option.map_eq_some_iff.mp hrun
      have hnb' := hnb.erasePair 0
      have hkeys := (h.write (hnd.insert (hnb.getKey hzero 0) hnd') p).write hnb' neighbor
      exact hkeys.write (hpr.setKey (hnb'.getKey hzero 0) 1) parent
    next =>
      obtain ⟨nd', hnd', rfl⟩ := Option.map_eq_some_iff.mp hrun
      have hnb' := hnb.erasePair (nb.size - 1)
      have hkeys := (h.write (hnd.insert (hnb'.getKey hzero _) hnd') p).write hnb' neighbor
      exact hkeys.write (hpr.setKey (hnb'.getKey hzero _) index) parent

theorem coalesceOrRedistribute (h : s.KeysIn K) (hzero : K L.zeroKey)
    (hrun : s.coalesceOrRedistribute L fuel p = some s') : s'.KeysIn K := by
  induction fuel generalizing s p with
  | zero => cases hrun
  | succ fuel ih =>
    obtain ⟨node, hnode, hrun⟩ := Option.bind_eq_some_iff.mp hrun
    split at hrun
    next => exact h.adjustRoot hrun
    next =>
      split at hrun
      next => exact Option.some.inj hrun ▸ h
      next =>
        obtain ⟨pr, hpr, hrun⟩ := Option.bind_eq_some_iff.mp hrun
        obtain ⟨nb, hnb, hrun⟩ := Option.bind_eq_some_iff.mp hrun
        obtain ⟨s₁, hs₁, hrun⟩ := Option.bind_eq_some_iff.mp hrun
        refine ih ?_ hrun
        split at hs₁
        next => exact h.redistribute hzero (h _ nb hnb) (h p node hnode) (h _ pr hpr) hs₁
        next =>
          split at hs₁
          next => exact h.coalesce hzero (h p node hnode) (h _ nb hnb) (h _ pr hpr) hs₁
          next => exact h.coalesce hzero (h _ nb hnb) (h p node hnode) (h _ pr hpr) hs₁

theorem deleteEntry (h : s.KeysIn K) (hzero : K L.zeroKey)
    (hrun : s.deleteEntry L key = some s') : s'.KeysIn K := by
  obtain ⟨p, -, hrun⟩ := Option.bind_eq_some_iff.mp hrun
  obtain ⟨leaf, hleaf, hrun⟩ := Option.bind_eq_some_iff.mp hrun
  obtain ⟨pos, -, hrun⟩ := Option.bind_eq_some_iff.mp hrun
  split at hrun
  next => exact (h.write ((h p leaf hleaf).erasePair pos) p).coalesceOrRedistribute hzero hrun
  next => exact Option.some.inj hrun ▸ h

end KeysIn

end IxFile

/-- The indexes that calls of `insert_entry` for keys of a kind and calls of `delete_entry` build
from the one that `create_index` makes. -/
inductive KeyRun [LinearOrder κ] (K : κ → Prop) (L : IxLayout κ) : IxFile κ → Prop
  | create : KeyRun K L (IxFile.create κ)
  | insert {s s' : IxFile κ} {key : κ} {value : Rid} (h : KeyRun K L s) (hkey : K key)
      (hrun : IxFile.insertEntry L s key value = .returned s') : KeyRun K L s'
  | delete {s s' : IxFile κ} {key : κ} (h : KeyRun K L s)
      (hrun : IxFile.deleteEntry L s key = some s') : KeyRun K L s'

namespace KeyRun

variable [LinearOrder κ] {K : κ → Prop} {L : IxLayout κ} {s : IxFile κ}

theorem indexRun (h : KeyRun K L s) : IndexRun L s := by
  induction h with
  | create => exact .create
  | insert _ _ hrun ih => exact .insert ih hrun
  | delete _ hrun ih => exact .delete ih hrun

/-- The keys of a run stay of their kind, in the inner nodes as well. -/
theorem keysIn (h : KeyRun K L s) (hzero : K L.zeroKey) : s.KeysIn K := by
  induction h with
  | create => exact fun p n hn => by cases hn
  | insert _ hkey hrun ih => exact ih.insertEntry hzero hkey hrun
  | delete _ hrun ih => exact ih.deleteEntry hzero hrun

end KeyRun

end Grmdb
