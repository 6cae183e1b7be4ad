import Grmdb.FootprintUnlock
import Grmdb.LockAccount
import Grmdb.LockSteps

namespace Grmdb

variable {κ : Type}

namespace LockRequestQueue

/-- `t` has a request in the queue. -/
def Asks (q : LockRequestQueue κ) (t : TxnId) : Prop := ∃ r ∈ q.requestQueue, r.txnId = t

instance (q : LockRequestQueue κ) (t : TxnId) : Decidable (q.Asks t) :=
  inferInstanceAs (Decidable (∃ r ∈ q.requestQueue, r.txnId = t))

/-- `wait_die` does not take the request of `t` out of the queue of a record: there is no request
of an older transaction, or `t` has its exclusive request and no other one is granted. -/
def Spares (q : LockRequestQueue κ) (t : TxnId) : Prop :=
  q.dies t = false ∨ (q.find t).map LockRequest.lockMode = some .exlucsive ∧ q.otherHoldsX t = false

instance (q : LockRequestQueue κ) (t : TxnId) : Decidable (q.Spares t) :=
  inferInstanceAs (Decidable (_ ∨ _))

variable {q queueTable : LockRequestQueue κ} {t u : TxnId}

theorem asks_iff_own : q.Asks t ↔ q.own t ≠ [] := by
  simp [Asks, own, List.filter_eq_nil_iff]

theorem asks_iff_modes : q.Asks t ↔ (q.footprint t).modes ≠ [] := by
  rw [asks_iff_own]
  simp [footprint]

theorem asks_of_find {r : LockRequest κ} (h : q.find t = some r) : q.Asks t :=
  ⟨r, (find_mem h).1, (find_mem h).2⟩

theorem asks_push {m : LockMode} {granted : Bool} {gaps : List (Gap κ)} :
    (q.push ⟨t, m, granted, gaps⟩).Asks t :=
  ⟨⟨t, m, granted, gaps⟩, by simp [push], rfl⟩

theorem asks_update {f : LockRequest κ → LockRequest κ} (hf : ∀ r, (f r).txnId = r.txnId)
    (h : q.Asks t) : (q.update t f).Asks t := by
  rw [asks_iff_modes, footprint_update_self hf]
  rw [asks_iff_own] at h
  simpa using h

theorem asks_orDieBoth {isNew : Bool} (h : q.Asks t) (hd : q.dies t = false) :
    (q.orDieBoth queueTable t isNew).1.Asks t := by
  unfold orDieBoth
  rw [hd, if_neg (by simp)]
  split
  · exact h
  · exact h

theorem asks_orDieTableFirst {isNew : Bool} (h : q.Asks t) (hd : q.dies t = false) :
    (q.orDieTableFirst queueTable t isNew).1.Asks t := by
  unfold orDieTableFirst
  rw [hd]
  split
  · exact h
  · rw [if_neg (by simp)]
    exact h

/-- A shared request, when the call does not abort. -/
theorem asks_sharedNew (h : (q.sharedNew t).2 ≠ .aborts) : (q.sharedNew t).1.Asks t := by
  unfold sharedNew at h ⊢
  split at h
  next hx =>
    rw [if_pos hx]
    exact @asks_push κ { q with groupMode := .s } t _ _ _
  next hx =>
    rw [if_neg hx]
    unfold orDie at h ⊢
    split at h
    · exact absurd rfl h
    next hd =>
      rw [if_neg hd]
      exact asks_push

theorem asks_lockSharedOnRecord (h : (q.lockSharedOnRecord t).2 ≠ .aborts) :
    (q.lockSharedOnRecord t).1.Asks t := by
  unfold lockSharedOnRecord at h ⊢
  split at h
  next hfind => exact asks_sharedNew h
  next r hfind =>
    have hask := asks_of_find hfind
    split at h
    next hx =>
      rw [if_pos hx]
      split at h
      next ho =>
        rw [if_pos ho]
        unfold orDie at h ⊢
        split at h
        · exact absurd rfl h
        next hd =>
          rw [if_neg hd]
          exact asks_update (by simp) hask
      next ho =>
        rw [if_neg ho]
        exact asks_update (by simp) hask
    next hx =>
      rw [if_neg hx]
      split at h
      next hs =>
        rw [if_pos hs]
        exact asks_update (by simp) hask
      next hs =>
        rw [if_neg hs]
        exact asks_sharedNew h

/-- A shared call of a transaction that has its request keeps it. -/
theorem Spares.shared (h : q.Spares t) (hask : q.Asks t) : (q.lockSharedOnRecord t).1.Asks t := by
  refine asks_lockSharedOnRecord fun ha => ?_
  obtain ⟨r, hr, hrt⟩ := hask
  obtain ⟨first, hfind⟩ : ∃ first, q.find t = some first := by
    cases hf : q.find t with
    | none => exact absurd hrt (by simpa using List.find?_eq_none.mp hf r hr)
    | some first => exact ⟨first, rfl⟩
  simp only [lockSharedOnRecord, hfind] at ha
  split at ha
  next hx =>
    split at ha
    next ho =>
      unfold orDie at ha
      split at ha
      next hd =>
        rw [dies_update (by simp)] at hd
        rcases h with h | ⟨-, h⟩
        · rw [hd] at h
          cases h
        · rw [ho] at h
          cases h
      next => cases ha
    next => cases ha
  next hx =>
    split at ha
    next => cases ha
    next => simp [sharedNew, hx] at ha

/-- So does an exclusive call. -/
theorem Spares.exclusive (h : q.Spares t) (hask : q.Asks t) (isWaited : Bool) :
    (q.exclusiveOnRecord queueTable t isWaited).1.Asks t := by
  have hnew : (q.find t).map LockRequest.lockMode ≠ some .exlucsive →
      (exclusiveOnRecord.exclusiveNew q queueTable t isWaited).1.Asks t := by
    intro hne
    have hd : q.dies t = false := h.resolve_right fun hx => hne hx.1
    unfold exclusiveOnRecord.exclusiveNew
    dsimp only
    split
    · split
      · exact asks_orDieTableFirst asks_push (by rw [dies_push, hd])
      · exact @asks_push κ { q with groupMode := .x } t _ _ _
    · split
      · exact @asks_push κ { q with groupMode := .x } t _ _ _
      · exact asks_orDieBoth asks_push (by rw [dies_push, hd])
  unfold exclusiveOnRecord
  split
  next r hr =>
    split
    next hs =>
      have hd : q.dies t = false := h.resolve_right fun hx => by simp [hr, hs] at hx
      split
      · exact hask
      · dsimp only
        have hup : ({ q with upgrading := some t } : LockRequestQueue κ).Asks t := hask
        split
        · exact asks_orDieBoth (asks_update (by simp) hup) (by rw [dies_update (by simp)]; exact hd)
        · have hx : ({ q with upgrading := some t, groupMode := .x } : LockRequestQueue κ).Asks t :=
            hask
          have hgiven := @asks_update κ _ t
            (fun r => { r with granted := true, lockMode := .exlucsive }) (by simp) hx
          rw [asks_iff_modes, footprint_clearUpgrading_self]
          rw [asks_iff_modes] at hgiven
          exact hgiven
    next hs =>
      split
      · exact hask
      next hx => exact hnew (by simp [hr, hx])
  next hr => exact hnew (by simp [hr])

end LockRequestQueue

section Unlock

open LockRequestQueue

variable {locks locks' : Locks κ} {t u : TxnId} {fd fd' : Fd} {rid rid' : Rid}

theorem asks_congr {q q' : LockRequestQueue κ} (h : q'.footprint u = q.footprint u) :
    q'.Asks u ↔ q.Asks u := by
  rw [asks_iff_modes, asks_iff_modes, h]

/-- `unlock` of another record, or by another transaction, leaves the request. -/
theorem asks_unlockRecord (hask : (locks.queue (.record fd rid)).Asks u)
    (hne : LockDataId.record fd' rid' ≠ .record fd rid ∨ t ≠ u) :
    ((unlockRecord locks t fd' rid').queue (.record fd rid)).Asks u := by
  have helse : ∀ o, ((if ((locks (.record fd' rid')).getD .empty).groupMode = .x then
      locks.set (.table fd') ((locks (.table fd')).map fun queueTable => queueTable.removeKeys t)
      else locks).set (.record fd' rid') o).queue (.record fd rid) =
        if LockDataId.record fd rid = .record fd' rid' then o.getD .empty
        else locks.queue (.record fd rid) := by
    intro o
    by_cases hsame : LockDataId.record fd rid = .record fd' rid'
    · rw [if_pos hsame, hsame]
      simp [Locks.queue]
    · rw [if_neg hsame, Locks.queue_set_other hsame]
      split
      · rw [Locks.queue_set_other (by simp)]
      · rfl
  unfold unlockRecord
  split
  · exact hask
  next q hq =>
    split
    · exact hask
    next r hr =>
      simp only [hq, Option.getD_some] at helse
      have hmine : LockDataId.record fd rid = .record fd' rid' →
          (q.releaseRecord t).Asks u := by
        intro heq
        have htu : t ≠ u := hne.resolve_left fun hx => hx heq.symm
        rw [asks_congr (releaseRecord_footprint_other (Ne.symm htu))]
        rw [heq, Locks.queue, hq] at hask
        exact hask
      have put : ∀ q', (LockDataId.record fd rid = .record fd' rid' → q'.Asks u) →
          (((if q.groupMode = .x then locks.set (.table fd') ((locks (.table fd')).map
            fun queueTable => queueTable.removeKeys t) else locks).set (.record fd' rid')
              (some q')).queue (.record fd rid)).Asks u := by
        intro q' hq'
        rw [helse]
        split
        next heq => exact hq' heq
        next => exact hask
      dsimp only
      split
      next hempty =>
        rw [helse, if_neg]
        · exact hask
        · intro heq
          obtain ⟨x, hx, -⟩ := hmine heq
          rw [hempty.1] at hx
          cases hx
      next =>
        have hgrant : LockDataId.record fd rid = .record fd' rid' →
            (q.releaseRecord t).grantLockRecord.Asks u := fun heq =>
          (asks_congr (grantLockRecord_footprint _ u)).mpr (hmine heq)
        split
        · split
          · exact put _ fun heq => (asks_congr (regrant_footprint _ u)).mpr (hgrant heq)
          · exact put _ hgrant
        · exact put _ hgrant

/-- `unlock` of a table leaves the requests on records. -/
theorem asks_unlockTable [LinearOrder κ] (h : unlockTable locks t fd' = some locks')
    (hask : (locks.queue (.record fd rid)).Asks u) :
    (locks'.queue (.record fd rid)).Asks u := by
  unfold unlockTable at h
  split at h
  · exact Option.some.inj h ▸ hask
  next q hq =>
    split at h
    · exact Option.some.inj h ▸ hask
    · dsimp only at h
      split at h
      next =>
        cases Option.some.inj h
        rw [Locks.queue_set_other (by simp)]
        exact hask
      next =>
        obtain ⟨out, hout, rfl⟩ := Option.map_eq_some_iff.mp h
        have hkeys := regrantKeys_footprint hout u
        rw [Locks.queue_set_other (by simp)]
        by_cases hfd : fd = fd'
        · subst hfd
          exact (asks_congr (hkeys.1 rid)).mpr hask
        · exact (asks_congr (hkeys.2.1 (.record fd rid) (by simp [hfd]))).mpr hask

end Unlock

/-- The record that a lock call of a transaction is about. -/
def LockEv.recordCall : LockEv κ → Option (TxnId × Fd × Rid)
  | .lockSharedOnRecord t fd rid | .lockExclusiveOnRecordGap t fd rid _ _ => some (t, fd, rid)
  | _ => none

namespace LockState

open LockRequestQueue

variable [LinearOrder κ] {s s' : LockState κ} {t u : TxnId} {fd : Fd} {rid : Rid}

/-- A request on a record stays in its queue until its transaction unlocks the record or dies in a
call for it. -/
theorem asks_step {e : LockEv κ} (h : s.step e = some s')
    (hask : (s.queue (.record fd rid)).Asks u) (hunlock : e ≠ .unlock u (.record fd rid))
    (hspares : e.recordCall = some (u, fd, rid) → (s.queue (.record fd rid)).Spares u) :
    (s'.queue (.record fd rid)).Asks u := by
  -- A call on a table.
  have table : ∀ {fd'} {t : TxnId} {q : LockRequestQueue κ} {wait : Bool → LockWait κ}
      {out : Outcome}, s' = (s.put (.table fd') q).finishCall t wait out →
      (s'.queue (.record fd rid)).Asks u := by
    rintro fd' t q wait out rfl
    rw [finishCall_queue, queue_put_other (by simp)]
    exact hask
  cases e with
  | lockSharedOnRecord t fd' rid' =>
    simp only [step] at h
    split at h
    next =>
      cases Option.some.inj h
      rw [finishCall_queue]
      by_cases hid : LockDataId.record fd rid = .record fd' rid'
      · rw [← hid, queue_put_self]
        by_cases htu : u = t
        · subst htu
          cases hid
          exact (hspares rfl).shared hask
        · exact (asks_congr ((lockSharedOnRecord_frame _ t).footprint htu)).mpr hask
      · rw [queue_put_other hid]
        exact hask
    next => simp at h
  | lockExclusiveOnRecordGap t fd' rid' index key =>
    simp only [step] at h
    split at h
    next =>
      cases Option.some.inj h
      rw [finishCall_queue, queue_put_other (by simp)]
      by_cases hid : LockDataId.record fd rid = .record fd' rid'
      · rw [← hid, queue_put_self]
        by_cases htu : u = t
        · subst htu
          cases hid
          exact (hspares rfl).exclusive hask _
        · exact (asks_congr
            ((lockExclusiveOnRecordGap_frame _ _ t rid' index key).1.footprint htu)).mpr hask
      · rw [queue_put_other hid]
        exact hask
    next => simp at h
  | lockGAPOnTable t fd' lower upper index =>
    simp only [step] at h
    split at h
    next => exact table (Option.some.inj h).symm
    next => simp at h
  | lockISOnTable t fd' =>
    simp only [step] at h
    split at h
    next =>
      obtain ⟨⟨q, out⟩, -, rfl⟩ := Option.map_eq_some_iff.mp h
      exact table rfl
    next => simp at h
  | lockIXOnTable t fd' =>
    simp only [step] at h
    split at h
    next => exact table (Option.some.inj h).symm
    next => simp at h
  | lockExclusiveOnTable t fd' =>
    simp only [step] at h
    split at h
    next => exact table (Option.some.inj h).symm
    next => simp at h
  | wake t =>
    simp only [step] at h
    split at h
    next w hp =>
      split at h
      next r hr =>
        split at h
        next =>
          cases Option.some.inj h
          show ((s.put w.id (w.resume r (s.queue w.id) t)).queue (.record fd rid)).Asks u
          by_cases hid : LockDataId.record fd rid = w.id
          · rw [← hid, queue_put_self]
            obtain ⟨x, hx, hxu⟩ := hask
            exact ⟨x, (resume_requests w r _ t).symm ▸ hx, hxu⟩
          · rw [queue_put_other hid]
            exact hask
        next => simp at h
      next => simp at h
    next => simp at h
  | finish t =>
    simp only [step] at h
    split at h
    next =>
      cases Option.some.inj h
      exact hask
    next => simp at h
  | unlock t id =>
    simp only [step] at h
    split at h
    next =>
      cases id with
      | table fd' =>
        obtain ⟨locks, hlocks, rfl⟩ := Option.map_eq_some_iff.mp h
        exact asks_unlockTable hlocks hask
      | record fd' rid' =>
        cases Option.some.inj h
        refine asks_unlockRecord hask ?_
        by_cases htu : t = u
        · subst htu
          exact Or.inl fun hid => hunlock (by rw [hid])
        · exact Or.inr htu
    next => simp at h

/-- A transaction that commits or aborts never runs again. -/
theorem finishing_step {e : LockEv κ} (h : s.step e = some s') (hu : s.phase u = .finishing) :
    s'.phase u = .finishing := by
  have call : ∀ {t : TxnId} {s₀ : LockState κ} {wait : Bool → LockWait κ} {out : Outcome},
      s' = s₀.finishCall t wait out → s₀.phase = s.phase → s.phase t = .running →
        s'.phase u = .finishing := by
    rintro t s₀ wait out rfl hsame ht
    have hut : u ≠ t := by
      rintro rfl
      rw [hu] at ht
      cases ht
    rw [finishCall_phase_other hut, hsame, hu]
  cases e with
  | lockSharedOnRecord t fd rid =>
    simp only [step] at h
    split at h
    next ht => exact call (Option.some.inj h).symm rfl ht
    next => simp at h
  | lockExclusiveOnRecordGap t fd rid index key =>
    simp only [step] at h
    split at h
    next ht => exact call (Option.some.inj h).symm rfl ht
    next => simp at h
  | lockGAPOnTable t fd lower upper index =>
    simp only [step] at h
    split at h
    next ht => exact call (Option.some.inj h).symm rfl ht
    next => simp at h
  | lockISOnTable t fd =>
    simp only [step] at h
    split at h
    next ht =>
      obtain ⟨⟨q, out⟩, -, rfl⟩ := Option.map_eq_some_iff.mp h
      exact call rfl rfl ht
    next => simp at h
  | lockIXOnTable t fd =>
    simp only [step] at h
    split at h
    next ht => exact call (Option.some.inj h).symm rfl ht
    next => simp at h
  | lockExclusiveOnTable t fd =>
    simp only [step] at h
    split at h
    next ht => exact call (Option.some.inj h).symm rfl ht
    next => simp at h
  | wake t =>
    simp only [step] at h
    split at h
    next w hp =>
      split at h
      next r hr =>
        split at h
        next =>
          cases Option.some.inj h
          have hut : u ≠ t := by
            rintro rfl
            rw [hu] at hp
            cases hp
          simp [enter, hold, setPhase, hut, hu]
        next => simp at h
      next => simp at h
    next => simp at h
  | finish t =>
    simp only [step] at h
    split at h
    next =>
      cases Option.some.inj h
      by_cases hut : u = t
      · simp [setPhase, hut]
      · simp [setPhase, hut, hu]
    next => simp at h
  | unlock t id =>
    simp only [step] at h
    split at h
    next =>
      cases id with
      | table fd =>
        obtain ⟨locks, -, rfl⟩ := Option.map_eq_some_iff.mp h
        exact hu
      | record fd rid =>
        cases Option.some.inj h
        exact hu
    next => simp at h

/-- A shared call leaves a request, unless its transaction dies in it. -/
theorem asks_of_shared (h : s.step (.lockSharedOnRecord t fd rid) = some s') :
    s'.phase t = .finishing ∨ (s'.queue (.record fd rid)).Asks t := by
  simp only [step] at h
  split at h
  next hrun =>
    cases Option.some.inj h
    by_cases ha : ((s.queue (.record fd rid)).lockSharedOnRecord t).2 = .aborts
    · left
      rw [ha]
      simp [finishCall, setPhase]
    · right
      rw [finishCall_queue, queue_put_self]
      exact asks_lockSharedOnRecord ha
  next => simp at h

end LockState

end Grmdb
