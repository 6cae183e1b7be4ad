import Grmdb.InsertExecutor
import Grmdb.ByteLayout

namespace Grmdb

/-- A set clause with the place of its column and the bytes that `init_raw` makes of its value. -/
structure SetClause where
  offset : Nat
  raw : Bytes
  deriving DecidableEq, Repr

def setClauses (clauses : List SetClause) (rec : Bytes) : Bytes :=
  clauses.foldl (fun rec clause => ByteLayout.memcpy rec clause.offset clause.raw) rec

/-- The repair loop of the handler in `UpdateExecutor::Next`. Nothing catches an
`IndexEntryExistsError` in it. -/
def reinsertKeys (old : Bytes) (rid : Rid) : List TabIndex → List TabIndex × Ended
  | [] => ([], .constraintViolation)
  | ix :: rest =>
    match ix.insertEntry (ix.key old) rid with
    | none => (ix :: rest, .indexEntryExists)
    | some ix' =>
      let r := reinsertKeys old rid rest
      (ix' :: r.1, r.2)

/-- The index loop of `UpdateExecutor::Next` behind the indexes `done`. -/
def updateKeys (old new : Bytes) (rid : Rid) :
    List TabIndex → List TabIndex → List TabIndex × Ended
  | done, [] => (done, .returned)
  | done, ix :: rest =>
    let ix := ix.deleteEntry (ix.key old)
    match ix.insertEntry (ix.key new) rid with
    | some ix' => updateKeys old new rid (done ++ [ix']) rest
    | none =>
      let r := reinsertKeys old rid (done ++ [ix])
      (r.1 ++ rest, r.2)

namespace TxnRun

/-- `UpdateExecutor::Next` over the rids it was given, each with the LSN at its `update_record`. -/
def updateNext (evalCondition : Bytes → Bool) (clauses : List SetClause) (s : TxnRun) :
    List (Rid × Lsn) → Option (TxnRun × Ended)
  | [] => some (s, .returned)
  | (rid, lsn) :: rest =>
    (s.tab.file.getRecord rid).bind fun old =>
      if evalCondition old then
        let new := setClauses clauses old
        let (indexes, ended) := updateKeys old new rid [] s.tab.indexes
        match ended with
        | .returned =>
          (s.tab.file.updateRecord rid new (some lsn)).bind fun file =>
            updateNext evalCondition clauses
              ⟨⟨file, indexes⟩, .updateTuple rid new old :: s.writeSet⟩ rest
        | _ => some (⟨⟨s.tab.file, indexes⟩, s.writeSet⟩, ended)
      else updateNext evalCondition clauses s rest

end TxnRun

/-- The new key of the row is that of another row. -/
def TabIndex.Refuses (ix : TabIndex) (old new : Bytes) : Prop :=
  ix.key new ≠ ix.key old ∧ ix.map (ix.key new) ≠ none

section Keys

variable {ix ix' : TabIndex} {ixs ixs' done : List TabIndex} {old new : Bytes} {rid : Rid}

theorem TabIndex.moveEntry_eq_none :
    ix.moveEntry old new rid = none ↔ ix.Refuses old new := by
  unfold moveEntry insertEntry Refuses
  by_cases hkey : ix.key new = ix.key old
  · simp [deleteEntry, hkey]
  · have hmap : (ix.deleteEntry (ix.key old)).map (ix.key new) = ix.map (ix.key new) :=
      Function.update_of_ne hkey _ _
    rw [hmap]
    cases ix.map (ix.key new) <;> simp [hkey]

theorem updateKeys_cons_some (h : ix.moveEntry old new rid = some ix') :
    updateKeys old new rid done (ix :: ixs) = updateKeys old new rid (done ++ [ix']) ixs := by
  have h' : (ix.deleteEntry (ix.key old)).insertEntry
      ((ix.deleteEntry (ix.key old)).key new) rid = some ix' := h
  simp only [updateKeys, h']

theorem updateKeys_cons_none (h : ix.moveEntry old new rid = none) :
    updateKeys old new rid done (ix :: ixs) =
      ((reinsertKeys old rid (done ++ [ix.deleteEntry (ix.key old)])).1 ++ ixs,
        (reinsertKeys old rid (done ++ [ix.deleteEntry (ix.key old)])).2) := by
  have h' : (ix.deleteEntry (ix.key old)).insertEntry
      ((ix.deleteEntry (ix.key old)).key new) rid = none := h
  simp only [updateKeys, h']

theorem reinsertKeys_ne_returned : (reinsertKeys old rid ixs).2 ≠ .returned := by
  induction ixs with
  | nil => simp [reinsertKeys]
  | cons ix ixs ih =>
    unfold reinsertKeys
    split
    next => simp
    next => exact ih

/-- The loop runs through exactly when every index takes the new key. -/
theorem updateKeys_returned (h : updateKeys old new rid done ixs = (ixs', .returned)) :
    ∃ moved, ixs' = done ++ moved ∧
      List.Forall₂ (fun ix ix' : TabIndex => ix.moveEntry old new rid = some ix') ixs moved := by
  induction ixs generalizing done with
  | nil =>
    cases h
    exact ⟨[], by simp, List.Forall₂.nil⟩
  | cons ix ixs ih =>
    cases hmove : ix.moveEntry old new rid with
    | some ix' =>
      rw [updateKeys_cons_some hmove] at h
      obtain ⟨moved, rfl, hall⟩ := ih h
      exact ⟨ix' :: moved, by simp, List.Forall₂.cons hmove hall⟩
    | none =>
      rw [updateKeys_cons_none hmove] at h
      exact absurd (congrArg Prod.snd h) reinsertKeys_ne_returned

theorem updateKeys_ne_returned (h : ∃ ix ∈ ixs, ix.Refuses old new) :
    (updateKeys old new rid done ixs).2 ≠ .returned := by
  intro hended
  obtain ⟨moved, -, hall⟩ := updateKeys_returned (Prod.ext rfl hended)
  obtain ⟨ix, hix, hrefuses⟩ := h
  have hnone : ix.moveEntry old new rid = none := TabIndex.moveEntry_eq_none.mpr hrefuses
  clear hended
  induction hall with
  | nil => simp at hix
  | cons hmove _ ih =>
    rcases List.mem_cons.mp hix with rfl | hix
    · rw [hnone] at hmove
      cases hmove
    · exact ih hix

/-- Where the first index refuses, the repair puts its entry back. -/
theorem updateKeys_first (hrefuses : ix.Refuses old new) (hrow : ix.map (ix.key old) = some rid) :
    updateKeys old new rid [] (ix :: ixs) = (ix :: ixs, .constraintViolation) := by
  rw [updateKeys_cons_none (TabIndex.moveEntry_eq_none.mpr hrefuses)]
  have hback : (ix.deleteEntry (ix.key old)).insertEntry
      ((ix.deleteEntry (ix.key old)).key old) rid = some ix := by
    show (ix.deleteEntry (ix.key old)).insertEntry (ix.key old) rid = some ix
    rw [TabIndex.insertEntry_of_none (by simp [TabIndex.deleteEntry])]
    simp only [TabIndex.deleteEntry, Function.update_idem]
    rw [← hrow, Function.update_eq_self]
  simp [reinsertKeys, hback]

/-- `ix'` has one entry that `ix` does not have. -/
structure TabIndex.Extra (ix ix' : TabIndex) (key : Bytes) (rid : Rid) : Prop where
  cols : ix'.cols = ix.cols
  map : ix'.map = Function.update ix.map key (some rid)
  absent : ix.map key = none

theorem TabIndex.Extra.ne {key : Bytes} (h : ix.Extra ix' key rid) : ix' ≠ ix := by
  rintro rfl
  have hmap := congrFun h.map key
  rw [h.absent, Function.update_self] at hmap
  cases hmap

/-- Where a later index refuses, the repair starts with the first one, which has been moved. -/
theorem updateKeys_behind (h : ∃ q ∈ ixs, q.Refuses old new) :
    (updateKeys old new rid (ix :: done) ixs).2 = .indexEntryExists ∨
      ∃ ix' rest, ix.insertEntry (ix.key old) rid = some ix' ∧
        (updateKeys old new rid (ix :: done) ixs).1 = ix' :: rest := by
  induction ixs generalizing done with
  | nil => simp at h
  | cons q ixs ih =>
    cases hmove : q.moveEntry old new rid with
    | some q' =>
      rw [updateKeys_cons_some hmove, List.cons_append]
      refine ih ?_
      obtain ⟨p, hp, hrefuses⟩ := h
      rcases List.mem_cons.mp hp with rfl | hp
      · rw [TabIndex.moveEntry_eq_none.mpr hrefuses] at hmove
        cases hmove
      · exact ⟨p, hp, hrefuses⟩
    | none =>
      rw [updateKeys_cons_none hmove, List.cons_append]
      unfold reinsertKeys
      split
      next => exact Or.inl rfl
      next ix' hins => exact Or.inr ⟨ix', _, hins, rfl⟩

/-- A first index that has been moved is not put back: its repair meets the entry of an unchanged
key, or leaves the new key behind. -/
theorem updateKeys_later (hmove : ix.moveEntry old new rid = some ix')
    (hrow : ix.map (ix.key old) = some rid) (h : ∃ q ∈ ixs, q.Refuses old new) :
    (updateKeys old new rid [] (ix :: ixs)).2 = .indexEntryExists ∨
      ∃ ix'' rest, (updateKeys old new rid [] (ix :: ixs)).1 = ix'' :: rest ∧
        ix.Extra ix'' (ix.key new) rid := by
  rw [updateKeys_cons_some hmove, List.nil_append]
  rcases @updateKeys_behind ix' ixs [] old new rid h with hended | ⟨ix'', rest, hins, hhead⟩
  · exact Or.inl hended
  · right
    refine ⟨ix'', rest, hhead, ?_⟩
    obtain ⟨hnew, rfl⟩ := TabIndex.insertEntry_eq_some hmove
    obtain ⟨hold, rfl⟩ := TabIndex.insertEntry_eq_some hins
    have hkey : ix.key old ≠ ix.key new := by
      intro hkey
      have hheld : Function.update (ix.deleteEntry (ix.key old)).map (ix.key new) (some rid)
        (ix.key old) = none := hold
      rw [hkey, Function.update_self] at hheld
      cases hheld
    have hself : Function.update ix.map (ix.key old) (some rid) = ix.map :=
      Function.update_eq_self_iff.mpr hrow.symm
    refine ⟨rfl, ?_, ?_⟩
    · show Function.update (Function.update (Function.update ix.map (ix.key old) none)
        (ix.key new) (some rid)) (ix.key old) (some rid) = _
      rw [Function.update_comm hkey.symm, Function.update_idem, hself]
    · exact (Function.update_of_ne hkey.symm _ _).symm.trans hnew

/-- Undoing the move of another row keeps the extra entry, if it does not throw. -/
theorem TabIndex.Extra.undo {ix₁ u u' : TabIndex} {key : Bytes} {rid' : Rid}
    (hrow : ix.map (ix.key old) = some rid) (hmove : ix.moveEntry old new rid = some ix₁)
    (h : ix₁.Extra u key rid') (hundo : u.moveEntry new old rid = some u') :
    ix.Extra u' key rid' := by
  obtain ⟨hnew, rfl⟩ := insertEntry_eq_some hmove
  obtain ⟨hold, rfl⟩ := insertEntry_eq_some hundo
  have hkeys : ∀ rec, u.key rec = ix.key rec := fun rec => congrArg (makeKey · rec) h.cols
  have habsent : Function.update (Function.update ix.map (ix.key old) none) (ix.key new)
      (some rid) key = none := h.absent
  have hnewKey : key ≠ ix.key new := by
    rintro rfl
    rw [Function.update_self] at habsent
    cases habsent
  have hfree : Function.update (Function.update ix.map (ix.key old) none) (ix.key new) none =
      Function.update ix.map (ix.key old) none := Function.update_eq_self_iff.mpr hnew.symm
  have hmap : (u.deleteEntry (u.key new)).map =
      Function.update (Function.update ix.map (ix.key old) none) key (some rid') := by
    show Function.update u.map (u.key new) none = _
    rw [hkeys, h.map]
    show Function.update (Function.update (Function.update (Function.update ix.map (ix.key old)
      none) (ix.key new) (some rid)) key (some rid')) (ix.key new) none = _
    rw [Function.update_comm hnewKey, Function.update_idem, hfree]
  have holdKey : key ≠ ix.key old := by
    rintro rfl
    rw [hmap, hkeys, Function.update_self] at hold
    cases hold
  refine ⟨h.cols, ?_, ?_⟩
  · show Function.update (u.deleteEntry (u.key new)).map (u.key old) (some rid) = _
    rw [hmap, hkeys, Function.update_comm holdKey, Function.update_idem, ← hrow,
      Function.update_eq_self]
  · rw [Function.update_of_ne hnewKey, Function.update_of_ne holdKey] at habsent
    exact habsent

end Keys

namespace TabState

/-- `t'` comes from `t` by row updates with the write records `own`, the last one first. -/
inductive UpdatesTo : TabState → List WriteRecord → TabState → Prop where
  | refl (t : TabState) : UpdatesTo t [] t
  | step {t t₁ t' : TabState} {rid : Rid} {new : Bytes} {lsn : Lsn} {w : WriteRecord}
      {own : List WriteRecord} (hrow : t.updateRow rid new lsn = some (t₁, w))
      (hrest : UpdatesTo t₁ own t') : UpdatesTo t (own ++ [w]) t'

variable {t t' u u' : TabState} {own : List WriteRecord}

theorem UpdatesTo.sound (h : UpdatesTo t own t') (ht : t.Sound) : t'.Sound := by
  induction h with
  | refl => exact ht
  | step hrow _ ih => exact ih (ht.updateRow hrow)

theorem UpdatesTo.undo (h : UpdatesTo t own t') (ht : t.Sound) (hu : u.Shows t') :
    ∃ u', own.foldlM undoWrite u = some u' ∧ u'.Shows t := by
  induction h with
  | refl => exact ⟨u, rfl, hu⟩
  | step hrow _ ih =>
    obtain ⟨mid, hmid, hshows⟩ := ih (ht.updateRow hrow) hu
    obtain ⟨u', hu', hback⟩ := ht.undo_updateRow hrow hshows
    exact ⟨u', by simp [List.foldlM_append, hmid, hu'], hback⟩

/-- The first index of `u` has one entry more than that of `t`. -/
def HeadExtra (t u : TabState) (key : Bytes) (rid : Rid) : Prop :=
  ∃ ix rest ix' rest', t.indexes = ix :: rest ∧ u.indexes = ix' :: rest' ∧ ix.Extra ix' key rid

theorem HeadExtra.ne {key : Bytes} {rid : Rid} (h : t.HeadExtra u key rid) :
    u.indexes ≠ t.indexes := by
  obtain ⟨ix, rest, ix', rest', ht, hu, hextra⟩ := h
  rw [ht, hu]
  intro heq
  exact hextra.ne (List.cons.inj heq).1

theorem HeadExtra.undo_updateRow {t₁ : TabState} {key new : Bytes} {rid rid' : Rid} {lsn : Lsn}
    {w : WriteRecord} (ht : t.Sound) (hrow : t.updateRow rid new lsn = some (t₁, w))
    (h : t₁.HeadExtra u key rid') (hundo : u.undoWrite w = some u') :
    t.HeadExtra u' key rid' := by
  obtain ⟨old, hold, hrow⟩ := Option.bind_eq_some_iff.mp hrow
  obtain ⟨indexes, hixs, hrow⟩ := Option.bind_eq_some_iff.mp hrow
  obtain ⟨file, -, heq⟩ := Option.map_eq_some_iff.mp hrow
  cases heq
  obtain ⟨indexes', hixs', hundo⟩ := Option.bind_eq_some_iff.mp hundo
  obtain ⟨file', -, rfl⟩ := Option.map_eq_some_iff.mp hundo
  obtain ⟨ix₁, rest₁, v, vs, ht₁, hu, hextra⟩ := h
  simp only at ht₁
  cases htix : t.indexes with
  | nil =>
    rw [htix] at hixs
    cases Option.some.inj hixs
    cases ht₁
  | cons ix rest =>
    rw [htix, List.mapM_cons] at hixs
    obtain ⟨moved, hmoved, hixs⟩ := Option.bind_eq_some_iff.mp hixs
    obtain ⟨restMoved, -, hixs⟩ := Option.bind_eq_some_iff.mp hixs
    cases ht₁.symm.trans (Option.some.inj hixs).symm
    rw [hu, List.mapM_cons] at hixs'
    obtain ⟨back, hback, hixs'⟩ := Option.bind_eq_some_iff.mp hixs'
    obtain ⟨restBack, -, hixs'⟩ := Option.bind_eq_some_iff.mp hixs'
    cases Option.some.inj hixs'
    have hkey := ht.indexed rid old hold ix (by simp [htix])
    exact ⟨ix, rest, back, restBack, htix, rfl, hextra.undo hkey hmoved hback⟩

/-- The abort does not take the extra entry away. -/
theorem UpdatesTo.undo_extra {key : Bytes} {rid : Rid} (h : UpdatesTo t own t') (ht : t.Sound)
    (hu : t'.HeadExtra u key rid) (hundo : own.foldlM undoWrite u = some u') :
    t.HeadExtra u' key rid := by
  induction h generalizing u' with
  | refl =>
    cases Option.some.inj hundo
    exact hu
  | @step _ _ _ _ _ _ w _ hrow _ ih =>
    rw [List.foldlM_append] at hundo
    obtain ⟨mid, hmid, hlast⟩ := Option.bind_eq_some_iff.mp hundo
    have hlast : mid.undoWrite w = some u' := by simpa using hlast
    exact (ih (ht.updateRow hrow) hu hmid).undo_updateRow ht hrow hlast

end TabState

namespace TxnRun

open TabState

variable {evalCondition : Bytes → Bool} {clauses : List SetClause}

theorem updateNext_cons_skip {s : TxnRun} {rid : Rid} {lsn : Lsn} {rest : List (Rid × Lsn)}
    {old : Bytes} (hold : s.tab.file.getRecord rid = some old) (hcond : ¬ evalCondition old) :
    updateNext evalCondition clauses s ((rid, lsn) :: rest) =
      updateNext evalCondition clauses s rest := by
  simp [updateNext, hold, hcond]

theorem updateNext_cons_row {s : TxnRun} {rid : Rid} {lsn : Lsn} {rest : List (Rid × Lsn)}
    {old : Bytes} {indexes : List TabIndex} {ended : Ended}
    (hold : s.tab.file.getRecord rid = some old) (hcond : evalCondition old)
    (hkeys : updateKeys old (setClauses clauses old) rid [] s.tab.indexes = (indexes, ended)) :
    updateNext evalCondition clauses s ((rid, lsn) :: rest) =
      if ended = .returned then
        (s.tab.file.updateRecord rid (setClauses clauses old) (some lsn)).bind fun file =>
          updateNext evalCondition clauses
            ⟨⟨file, indexes⟩, .updateTuple rid (setClauses clauses old) old :: s.writeSet⟩ rest
      else some (⟨⟨s.tab.file, indexes⟩, s.writeSet⟩, ended) := by
  cases ended <;> simp [updateNext, hold, hcond, hkeys]

/-- The rows that the statement has updated without an error are row updates of the rollback
model. -/
theorem updateNext_updatesTo {s mid : TxnRun} {rids : List (Rid × Lsn)}
    (hrows : ∀ p ∈ rids, s.tab.file.record p.1 ≠ none)
    (h : updateNext evalCondition clauses s rids = some (mid, .returned)) :
    ∃ own, UpdatesTo s.tab own mid.tab ∧ mid.writeSet = own ++ s.writeSet := by
  induction rids generalizing s with
  | nil =>
    cases Option.some.inj h
    exact ⟨[], UpdatesTo.refl _, rfl⟩
  | cons p rest ih =>
    obtain ⟨rid, lsn⟩ := p
    obtain ⟨old, hold⟩ := Option.ne_none_iff_exists'.mp (hrows (rid, lsn) (by simp))
    have hrest : ∀ p ∈ rest, s.tab.file.record p.1 ≠ none :=
      fun p hp => hrows p (List.mem_cons_of_mem _ hp)
    have hget := RmFile.getRecord_of_record hold
    by_cases hcond : evalCondition old
    · obtain ⟨file, hfile, hputs⟩ :=
        RmFile.updateRecord_of_record hold (setClauses clauses old) (some lsn)
      generalize hkeys : updateKeys old (setClauses clauses old) rid [] s.tab.indexes = r
      obtain ⟨indexes, ended⟩ := r
      rw [updateNext_cons_row hget hcond hkeys] at h
      split at h
      next hended =>
        subst hended
        obtain ⟨_, rfl, hall⟩ := updateKeys_returned hkeys
        have hmap := MapM.mapM_of_forall₂ hall
        have hrow : s.tab.updateRow rid (setClauses clauses old) lsn =
            some (⟨file, indexes⟩, .updateTuple rid (setClauses clauses old) old) := by
          simp only [updateRow, hold, Option.bind_some, hmap, hfile, Option.map_some]
        have hlive : ∀ p ∈ rest, file.record p.1 ≠ none := by
          intro p hp
          rw [hputs.record]
          by_cases hp' : p.1 = rid
          · simp [hp']
          · rw [Function.update_of_ne hp']
            exact hrest p hp
        rw [hfile, Option.bind_some] at h
        obtain ⟨own, hown, hws⟩ := ih hlive h
        exact ⟨_, UpdatesTo.step hrow hown, by simp [hws]⟩
      next hended =>
        cases Option.some.inj h
        exact absurd rfl hended
    · rw [updateNext_cons_skip hget hcond] at h
      exact ih hrest h

theorem updateNext_append {s mid : TxnRun} {rids rest : List (Rid × Lsn)}
    (h : updateNext evalCondition clauses s rids = some (mid, .returned)) :
    updateNext evalCondition clauses s (rids ++ rest) =
      updateNext evalCondition clauses mid rest := by
  induction rids generalizing s with
  | nil =>
    cases Option.some.inj h
    rfl
  | cons p rids ih =>
    obtain ⟨rid, lsn⟩ := p
    obtain ⟨old, hget, -⟩ := Option.bind_eq_some_iff.mp h
    rw [List.cons_append]
    by_cases hcond : evalCondition old
    · generalize hkeys : updateKeys old (setClauses clauses old) rid [] s.tab.indexes = r
      obtain ⟨indexes, ended⟩ := r
      rw [updateNext_cons_row hget hcond hkeys] at h ⊢
      split at h
      next hended =>
        obtain ⟨file, hfile, h⟩ := Option.bind_eq_some_iff.mp h
        rw [if_pos hended, hfile, Option.bind_some, ih h]
      next hended =>
        cases Option.some.inj h
        exact absurd rfl hended
    · rw [updateNext_cons_skip hget hcond] at h ⊢
      exact ih h

def twoRows : Table := afterInsert oneRow [2, 2] 2 oneRow_reached (by decide +kernel)

instance decidableRefuses (ix : TabIndex) (old new : Bytes) : Decidable (ix.Refuses old new) :=
  inferInstanceAs (Decidable (_ ∧ _))

end TxnRun

end Grmdb
