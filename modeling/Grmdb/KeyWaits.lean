import Grmdb.GapQueue

namespace Grmdb

variable {κ : Type}

/-- `l'` is `l` with some requests granted that meet `P`. -/
def GrantsIf (P : LockRequest κ → Prop) (l l' : List (LockRequest κ)) : Prop :=
  List.Forall₂ (fun r r' => r' = r ∨ P r ∧ r' = { r with granted := true }) l l'

section GrantsIf

variable {P Q : LockRequest κ → Prop} {l l' : List (LockRequest κ)}

theorem GrantsIf.refl (l : List (LockRequest κ)) : GrantsIf P l l :=
  List.forall₂_same.mpr fun _ _ => Or.inl rfl

theorem GrantsIf.filter (h : GrantsIf P l l') (t : TxnId) :
    GrantsIf P (l.filter fun r => decide (r.txnId = t))
      (l'.filter fun r => decide (r.txnId = t)) := by
  refine List.rel_filter ?_ h
  rintro r r' (rfl | ⟨_, rfl⟩) <;> exact Iff.rfl

theorem GrantsIf.head {r : LockRequest κ} {rest : List (LockRequest κ)}
    (h : GrantsIf P (r :: rest) l') : ∃ r' rest', l' = r' :: rest' ∧
      (r' = r ∨ P r ∧ r' = { r with granted := true }) ∧ (rest = [] → rest' = []) := by
  cases h with
  | @cons _ r' _ rest' hr hrest =>
    refine ⟨r', rest', rfl, hr, ?_⟩
    rintro rfl
    cases hrest
    rfl

theorem GrantsIf.mem (h : GrantsIf P l l') {r' : LockRequest κ} (hr' : r' ∈ l') :
    ∃ r ∈ l, r' = r ∨ P r ∧ r' = { r with granted := true } := by
  induction h with
  | nil => simp at hr'
  | @cons a b l l' hab _ ih =>
    rcases List.mem_cons.mp hr' with rfl | hr'
    · exact ⟨a, List.mem_cons_self, hab⟩
    · obtain ⟨r, hr, h⟩ := ih hr'
      exact ⟨r, List.mem_cons_of_mem a hr, h⟩

theorem GrantsIf.mem_left (h : GrantsIf P l l') : GrantsIf (fun r => r ∈ l ∧ P r) l l' := by
  have key : ∀ m m' : List (LockRequest κ), GrantsIf P m m' → (∀ r ∈ m, r ∈ l) →
      GrantsIf (fun r => r ∈ l ∧ P r) m m' := by
    intro m m' h
    induction h with
    | nil => exact fun _ => .nil
    | @cons r r' _ _ hr _ ih =>
      intro hsub
      refine .cons ?_ (ih fun o ho => hsub o (List.mem_cons_of_mem r ho))
      exact hr.imp_right fun hr => ⟨⟨hsub r List.mem_cons_self, hr.1⟩, hr.2⟩
  exact key l l' h fun _ hr => hr

theorem GrantsIf.trans {l'' : List (LockRequest κ)} (h : GrantsIf P l l')
    (h' : GrantsIf Q l' l'') (hQ : ∀ r, Q r → r.granted = false) :
    GrantsIf (fun r => P r ∨ Q r) l l'' := by
  induction h generalizing l'' with
  | nil => cases h'; exact .nil
  | @cons r r' l l' hr _ ih =>
    cases h' with
    | @cons _ r'' _ l'' hr' hl' =>
      refine .cons ?_ (ih hl')
      rcases hr with rfl | ⟨hP, rfl⟩
      · exact hr'.imp_right fun hr' => ⟨Or.inr hr'.1, hr'.2⟩
      · rcases hr' with rfl | ⟨hq, _⟩
        · exact Or.inr ⟨Or.inl hP, rfl⟩
        · cases hQ _ hq

theorem grantRecord_grantsIf (l : List (LockRequest κ)) (group : GroupMode) :
    GrantsIf (fun r => r.lockMode = .shared) l (grantRecord l group).1 := by
  induction l generalizing group with
  | nil => exact .nil
  | cons r l ih =>
    unfold grantRecord
    split
    next hs => exact .cons (Or.inr ⟨hs.2.1, rfl⟩) (ih .s)
    next => exact .cons (Or.inl rfl) (ih group)

end GrantsIf

/-- The exclusive request that the last loop of `unlock` on a record grants: the first one, if
nothing is granted, or else the upgrading one. -/
def LockRequestQueue.Regrants (q : LockRequestQueue κ) (r : LockRequest κ) : Prop :=
  r.granted = false ∧
    (q.groupMode = .noLock ∧ (q.requestQueue.find? fun r =>
      !r.granted && decide (r.lockMode = .exlucsive)) = some r ∨
    q.upgrading = some r.txnId ∧ q.otherGranted r.txnId = false)

/-- In group mode NO_LOCK nothing before the current request has been granted by the loop. -/
theorem regrantRecord_grantsIf {q : LockRequestQueue κ}
    {before before' after : List (LockRequest κ)} {group : GroupMode}
    (hq : q.requestQueue = before ++ after) (hold : ∀ r ∈ before, r.granted = true →
      ∃ r' ∈ before', r'.txnId = r.txnId ∧ r'.granted = true)
    (hgroup : group = .noLock → q.groupMode = .noLock ∧ ∀ r ∈ before,
      (!r.granted && decide (r.lockMode = .exlucsive)) = false) :
    ∃ l, (regrantRecord q.upgrading before' after group).1 = before' ++ l ∧
      GrantsIf q.Regrants after l := by
  induction after generalizing before before' group with
  | nil => exact ⟨[], by simp [regrantRecord], .nil⟩
  | cons r after ih =>
    rw [regrantRecord]
    generalize hone : regrantRecordOne q.upgrading before' after r group = one
    have hrel : (one.1 = r ∨ q.Regrants r ∧ one.1 = { r with granted := true }) ∧
        (one.2 = .noLock → group = .noLock ∧
          (!r.granted && decide (r.lockMode = .exlucsive)) = false) := by
      rw [← hone]
      unfold regrantRecordOne
      split
      next hg => exact ⟨Or.inl rfl, by simp [hg]⟩
      next hg =>
        have hg' : r.granted = false := by simpa using hg
        split
        next hn =>
          refine ⟨Or.inr ⟨⟨hg', Or.inl ⟨(hgroup hn.1).1, ?_⟩⟩, rfl⟩, by simp⟩
          rw [hq, List.find?_append, List.find?_eq_none.mpr ?_, Option.none_or]
          · simp [hg', hn.2]
          · intro o ho
            simpa using (hgroup hn.1).2 o ho
        next hn =>
          split
          next hu =>
            refine ⟨Or.inr ⟨⟨hg', Or.inr ⟨hu.1, ?_⟩⟩, rfl⟩, by simp⟩
            rw [LockRequestQueue.otherGranted, hq, List.any_eq_false]
            intro o ho
            have hnot := List.any_eq_false.mp hu.2
            rcases List.mem_append.mp ho with ho | ho
            · by_contra hcon
              simp only [Bool.and_eq_true, decide_eq_true_eq] at hcon
              obtain ⟨o', ho', hid, hgo⟩ := hold o ho hcon.2
              have := hnot o' (by simp [ho'])
              simp [hid, hgo, hcon.1] at this
            · exact hnot o (by simp [List.mem_cons.mp ho])
          next =>
            refine ⟨Or.inl rfl, fun hgn => ⟨hgn, ?_⟩⟩
            have : r.lockMode ≠ .exlucsive := fun hm => hn ⟨hgn, hm⟩
            simp [this]
    obtain ⟨hr, hgn⟩ := hrel
    have hold' : ∀ o ∈ before ++ [r], o.granted = true →
        ∃ o' ∈ before' ++ [one.1], o'.txnId = o.txnId ∧ o'.granted = true := by
      intro o ho hgo
      rcases List.mem_append.mp ho with ho | ho
      · obtain ⟨o', ho', h⟩ := hold o ho hgo
        exact ⟨o', by simp [ho'], h⟩
      · rw [List.mem_singleton.mp ho] at hgo ⊢
        refine ⟨one.1, by simp, ?_⟩
        rcases hr with hr | ⟨_, hr⟩ <;> rw [hr]
        · exact ⟨rfl, hgo⟩
        · exact ⟨rfl, rfl⟩
    have hgroup' : one.2 = .noLock → q.groupMode = .noLock ∧ ∀ o ∈ before ++ [r],
        (!o.granted && decide (o.lockMode = .exlucsive)) = false := by
      intro hn
      obtain ⟨hn', hr'⟩ := hgn hn
      refine ⟨(hgroup hn').1, fun o ho => ?_⟩
      rcases List.mem_append.mp ho with ho | ho
      · exact (hgroup hn').2 o ho
      · rw [List.mem_singleton.mp ho]
        exact hr'
    obtain ⟨l, hl, hrest⟩ := ih (by simp [hq]) hold' hgroup'
    exact ⟨one.1 :: l, by simp [hl], .cons hr hrest⟩

theorem regrant_grantsIf (q : LockRequestQueue κ) :
    GrantsIf q.Regrants q.requestQueue q.regrant.requestQueue := by
  obtain ⟨l, hl, hrel⟩ : ∃ l, q.regrant.requestQueue = [] ++ l ∧
      GrantsIf q.Regrants q.requestQueue l :=
    @regrantRecord_grantsIf κ q [] [] q.requestQueue q.groupMode rfl (by simp) (by simp)
  have hnew : q.regrant.requestQueue = l := hl
  rw [hnew]
  exact hrel

/-- A key entry is kept or stops to wait. -/
def KeyStep (k k' : InsertKey κ) : Prop := k' = k ∨ k' = { k with isWaited := false }

/-- The insert keys of one transaction that is not over, by table, with its requests on records,
its phase and the keys it was given. A key that waits is the one its call waits for; the call
goes on only when no key waits any more. -/
structure KeyOk (keys : Fd → List (InsertKey κ)) (own : Fd → Rid → List (LockRequest κ))
    (p : TxnPhase κ) (held : List (HeldKey κ)) : Prop where
  waited : ∀ fd, ∀ k ∈ keys fd, k.isWaited = true →
    ∃ isNew, p = .waiting (.exclusiveGap fd k.rid k.index k.insertKey isNew)
  given : ∀ h ∈ held, ∃ k ∈ keys h.fd, k.index = h.index ∧ k.insertKey = h.key ∧
    k.isWaited = false
  waits : ∀ fd rid index key isNew, p = .waiting (.exclusiveGap fd rid index key isNew) →
    ∃ r rest, own fd rid = r :: rest ∧ r.lockMode = .exlucsive ∧ (isNew = true → rest = []) ∧
      (∃ k ∈ keys fd, k.index = index ∧ k.insertKey = key) ∧
      (r.granted = true → ∀ k ∈ keys fd, k.isWaited = false)

section KeyOk

variable {keys keys' : Fd → List (InsertKey κ)} {own own' : Fd → Rid → List (LockRequest κ)}
  {p p' : TxnPhase κ} {held : List (HeldKey κ)}

theorem KeyOk.running_none (h : KeyOk keys own .running held) :
    ∀ fd, ∀ k ∈ keys fd, k.isWaited = false := by
  intro fd k hk
  by_contra hw
  obtain ⟨isNew, hp⟩ := h.waited fd k hk (by simpa using hw)
  cases hp

/-- Another call than `lock_exclusive_on_record_gap`, by a running transaction. -/
theorem KeyOk.leave (h : KeyOk keys own .running held)
    (hp : ∀ fd rid index key isNew, p' ≠ .waiting (.exclusiveGap fd rid index key isNew)) :
    KeyOk keys own' p' held := by
  refine ⟨fun fd k hk hw => ?_, h.given, fun fd rid index key isNew hw => ?_⟩
  · simp [h.running_none fd k hk] at hw
  · exact absurd hw (hp fd rid index key isNew)

/-- The transaction goes on after a wait for something else. -/
theorem KeyOk.resume (h : KeyOk keys own p held)
    (hp : ∀ fd rid index key isNew, p ≠ .waiting (.exclusiveGap fd rid index key isNew)) :
    KeyOk keys own .running held := by
  refine ⟨fun fd k hk hw => ?_, h.given, by simp⟩
  obtain ⟨isNew, habs⟩ := h.waited fd k hk hw
  exact absurd habs (hp fd k.rid k.index k.insertKey isNew)

theorem KeyOk.resumeKey {fd : Fd} {rid : Rid} {index : IndexId} {key : κ} {isNew : Bool}
    {t : TxnId} (h : KeyOk keys own (.waiting (.exclusiveGap fd rid index key isNew)) held)
    (hg : ∀ r rest, own fd rid = r :: rest → (isNew = true → rest = []) → r.granted = true) :
    KeyOk keys own .running (held ++ [⟨t, fd, index, key⟩]) := by
  obtain ⟨r, rest, hown, _, hnew, ⟨k, hk, hindex, hkey⟩, hfree⟩ := h.waits _ _ _ _ _ rfl
  have hnone := hfree (hg r rest hown hnew)
  refine ⟨fun fd' k' hk' hw => ?_, fun e he => ?_, by simp⟩
  · obtain ⟨isNew', hp⟩ := h.waited fd' k' hk' hw
    cases hp
    simp [hnone k' hk'] at hw
  · rcases List.mem_append.mp he with he | he
    · exact h.given e he
    · rw [List.mem_singleton.mp he]
      exact ⟨k, hk, hindex, hkey, hnone k hk⟩

section NewKey

variable {fd : Fd} {rid : Rid} {index : IndexId} {key : κ} {t : TxnId} {isWaited : Bool}

/-- A running transaction asks for a key and has to wait for the record. -/
theorem KeyOk.asks (h : KeyOk keys own .running held) {isNew : Bool} {r : LockRequest κ}
    {rest : List (LockRequest κ)} (hkeys : ∀ fd' k, k ∈ keys' fd' ↔ k ∈ keys fd' ∨ fd' = fd ∧
      k = ⟨key, index, t, rid, isWaited⟩)
    (hown : own' fd rid = r :: rest) (hm : r.lockMode = .exlucsive) (hg : r.granted = false)
    (hnew : isNew = true → rest = []) :
    KeyOk keys' own' (.waiting (.exclusiveGap fd rid index key isNew)) held := by
  refine ⟨fun fd' k hk hw => ?_, fun e he => ?_, ?_⟩
  · rcases (hkeys fd' k).mp hk with hk | ⟨rfl, rfl⟩
    · simp [h.running_none fd' k hk] at hw
    · exact ⟨isNew, rfl⟩
  · obtain ⟨k, hk, hrest⟩ := h.given e he
    exact ⟨k, (hkeys _ k).mpr (Or.inl hk), hrest⟩
  · intro fd' rid' index' key' isNew' hp
    cases hp
    refine ⟨r, rest, hown, hm, hnew, ⟨_, (hkeys fd _).mpr (Or.inr ⟨rfl, rfl⟩), rfl, rfl⟩, ?_⟩
    simp [hg]

/-- A running transaction gets a key at once. -/
theorem KeyOk.gets (h : KeyOk keys own .running held)
    (hkeys : ∀ fd' k, k ∈ keys' fd' ↔ k ∈ keys fd' ∨ fd' = fd ∧ k = ⟨key, index, t, rid, false⟩) :
    KeyOk keys' own' .running (held ++ [⟨t, fd, index, key⟩]) := by
  refine ⟨fun fd' k hk hw => ?_, fun e he => ?_, by simp⟩
  · rcases (hkeys fd' k).mp hk with hk | ⟨rfl, rfl⟩
    · simp [h.running_none fd' k hk] at hw
    · cases hw
  · rcases List.mem_append.mp he with he | he
    · obtain ⟨k, hk, hrest⟩ := h.given e he
      exact ⟨k, (hkeys _ k).mpr (Or.inl hk), hrest⟩
    · rw [List.mem_singleton.mp he]
      exact ⟨_, (hkeys fd _).mpr (Or.inr ⟨rfl, rfl⟩), rfl, rfl, rfl⟩

end NewKey

theorem keyStep_mem {l l' : List (InsertKey κ)} (h : List.Forall₂ KeyStep l l') {k' : InsertKey κ}
    (hk' : k' ∈ l') : ∃ k ∈ l, KeyStep k k' := by
  induction h with
  | nil => simp at hk'
  | @cons a b l l' hab _ ih =>
    rcases List.mem_cons.mp hk' with rfl | hk'
    · exact ⟨a, List.mem_cons_self, hab⟩
    · obtain ⟨k, hk, hs⟩ := ih hk'
      exact ⟨k, List.mem_cons_of_mem a hk, hs⟩

theorem keyStep_mem_left {l l' : List (InsertKey κ)} (h : List.Forall₂ KeyStep l l')
    {k : InsertKey κ} (hk : k ∈ l) : ∃ k' ∈ l', KeyStep k k' := by
  induction h with
  | nil => simp at hk
  | @cons a b l l' hab _ ih =>
    rcases List.mem_cons.mp hk with rfl | hk
    · exact ⟨b, List.mem_cons_self, hab⟩
    · obtain ⟨k', hk', hs⟩ := ih hk
      exact ⟨k', List.mem_cons_of_mem b hk', hs⟩

/-- Another transaction's `unlock` gives keys and grants requests. -/
theorem KeyOk.unlock {P : Fd → Rid → LockRequest κ → Prop} (h : KeyOk keys own p held)
    (hkeys : ∀ fd, List.Forall₂ KeyStep (keys fd) (keys' fd))
    (hown : ∀ fd rid, GrantsIf (P fd rid) (own fd rid) (own' fd rid))
    (hgive : ∀ fd rid index key isNew, p = .waiting (.exclusiveGap fd rid index key isNew) →
      ∀ r rest, own fd rid = r :: rest → r.lockMode = .exlucsive → P fd rid r →
        ∀ k ∈ keys' fd, k.isWaited = false) :
    KeyOk keys' own' p held := by
  refine ⟨fun fd k' hk' hw => ?_, fun e he => ?_, fun fd rid index key isNew hp => ?_⟩
  · obtain ⟨k, hk, rfl | rfl⟩ := keyStep_mem (hkeys fd) hk'
    · exact h.waited fd k' hk hw
    · cases hw
  · obtain ⟨k, hk, hindex, hkey, hw⟩ := h.given e he
    obtain ⟨k', hk', rfl | rfl⟩ := keyStep_mem_left (hkeys e.fd) hk
    · exact ⟨k', hk', hindex, hkey, hw⟩
    · exact ⟨_, hk', hindex, hkey, rfl⟩
  · obtain ⟨r, rest, hr, hm, hnew, ⟨k, hk, hindex, hkey⟩, hfree⟩ :=
      h.waits fd rid index key isNew hp
    have hgrant := hown fd rid
    rw [hr] at hgrant
    obtain ⟨r', rest', hr', hrel, hrest⟩ := hgrant.head
    have hentry : ∃ k ∈ keys' fd, k.index = index ∧ k.insertKey = key := by
      obtain ⟨k', hk', rfl | rfl⟩ := keyStep_mem_left (hkeys fd) hk
      · exact ⟨k', hk', hindex, hkey⟩
      · exact ⟨_, hk', hindex, hkey⟩
    refine ⟨r', rest', hr', ?_, fun hn => hrest (hnew hn), hentry, ?_⟩
    · rcases hrel with rfl | ⟨_, rfl⟩ <;> exact hm
    · intro hg
      rcases hrel with rfl | ⟨hP, rfl⟩
      · intro k' hk'
        obtain ⟨k, hk, rfl | rfl⟩ := keyStep_mem (hkeys fd) hk'
        · exact hfree hg k' hk
        · rfl
      · exact hgive fd rid index key isNew hp r rest hr hm hP

end KeyOk

end Grmdb
