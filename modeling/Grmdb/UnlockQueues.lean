import Grmdb.GrantPass

namespace Grmdb

open LockRequestQueue

variable {κ : Type} {locks locks' : Locks κ} {t : TxnId} {fd : Fd} {rid : Rid}

/-- The table is in a group mode, or missing, in which `unlock` of a record leaves the exclusive
requests on it alone. -/
def Locks.tableTaken (locks : Locks κ) (fd : Fd) : Prop :=
  locks (.table fd) = none ∨ (locks.queue (.table fd)).groupMode = .gap ∨
    (locks.queue (.table fd)).groupMode = .tabX

/-- The queues after `unlock` of a record on which `t` has a request. -/
structure RecordUnlock (locks locks' : Locks κ) (t : TxnId) (fd : Fd) (rid : Rid) : Prop where
  result : ∃ q, (q = ((locks.queue (.record fd rid)).releaseRecord t).grantLockRecord.regrant ∨
      locks.tableTaken fd ∧ q = ((locks.queue (.record fd rid)).releaseRecord t).grantLockRecord) ∧
    (locks'.queue (.record fd rid)).requestQueue = q.requestQueue ∧
    (locks'.queue (.record fd rid)).groupMode = q.groupMode
  upgrading : ∀ u, (locks'.queue (.record fd rid)).upgrading = some u →
    ((locks.queue (.record fd rid)).releaseRecord t).upgrading = some u
  table : locks'.queue (.table fd) =
    if (locks.queue (.record fd rid)).groupMode = .x then (locks.queue (.table fd)).removeKeys t
    else locks.queue (.table fd)
  others : ∀ id, id ≠ .record fd rid → id ≠ .table fd → locks'.queue id = locks.queue id

theorem releaseRecord_requests (q : LockRequestQueue κ) (t : TxnId) :
    (q.releaseRecord t).requestQueue = q.requestQueue.eraseP fun r => decide (r.txnId = t) :=
  clearUpgrading_requests _ t

theorem releaseRecord_groupMode (q : LockRequestQueue κ) (t : TxnId) :
    (q.releaseRecord t).groupMode = groupRecord (q.releaseRecord t).requestQueue := by
  rw [releaseRecord_requests]
  exact clearUpgrading_groupMode _ t

theorem unlockRecord_none (h : (locks.queue (.record fd rid)).find t = none) :
    unlockRecord locks t fd rid = locks := by
  unfold unlockRecord
  cases hq : locks (.record fd rid) with
  | none => rfl
  | some q =>
    have hqueue : locks.queue (.record fd rid) = q := by simp [Locks.queue, hq]
    rw [hqueue] at h
    simp [h]

theorem unlockRecord_queues (h : (locks.queue (.record fd rid)).find t ≠ none) :
    RecordUnlock locks (unlockRecord locks t fd rid) t fd rid := by
  cases hq : locks (.record fd rid) with
  | none => simp [Locks.queue, hq, empty, find] at h
  | some q =>
    have hqueue : locks.queue (.record fd rid) = q := by simp [Locks.queue, hq]
    rw [hqueue] at h
    obtain ⟨r, hr⟩ := Option.ne_none_iff_exists'.mp h
    generalize hmid : (if q.groupMode = .x then locks.set (.table fd)
      ((locks (.table fd)).map fun queueTable => queueTable.removeKeys t) else locks) = mid
    have hmidOther : ∀ id, id ≠ .table fd → mid.queue id = locks.queue id := by
      intro id hid
      rw [← hmid]
      split
      · exact Locks.queue_set_other hid _
      · rfl
    have hmidTable : mid.queue (.table fd) =
        if q.groupMode = .x then (locks.queue (.table fd)).removeKeys t
        else locks.queue (.table fd) := by
      rw [← hmid]
      split
      · cases htab : locks (.table fd) <;> simp [Locks.queue, htab, empty, removeKeys]
      · rfl
    have hmidNone : mid (.table fd) = none → locks (.table fd) = none := by
      rw [← hmid]
      split
      · simp
      · exact id
    have hmidGroup : (mid.queue (.table fd)).groupMode = (locks.queue (.table fd)).groupMode := by
      rw [hmidTable]
      split <;> rfl
    have key : ∃ o q₁, unlockRecord locks t fd rid = mid.set (.record fd rid) o ∧
        (q₁ = (q.releaseRecord t).grantLockRecord.regrant ∨
          locks.tableTaken fd ∧ q₁ = (q.releaseRecord t).grantLockRecord) ∧
        (o.getD .empty).requestQueue = q₁.requestQueue ∧
        (o.getD .empty).groupMode = q₁.groupMode ∧
        ∀ u, (o.getD .empty).upgrading = some u → (q.releaseRecord t).upgrading = some u := by
      simp only [unlockRecord, hq, hr, hmid]
      split
      next hempty =>
        have hgrant : (q.releaseRecord t).grantLockRecord.requestQueue = [] := by
          simp [grantLockRecord, hempty.1, grantRecord]
        have hgroup : (q.releaseRecord t).grantLockRecord.groupMode = .noLock := by
          rw [grantLockRecord, releaseRecord_groupMode, hempty.1]
          rfl
        refine ⟨none, _, rfl, Or.inl rfl, ?_, ?_, by simp [empty]⟩
        · simp [regrant, hgrant, regrantRecord, empty]
        · simp [regrant, hgrant, regrantRecord, empty, hgroup]
      next =>
        split
        next queueTable htab =>
          have hgroup : queueTable.groupMode = (locks.queue (.table fd)).groupMode := by
            rw [← hmidGroup, Locks.queue, htab]
            rfl
          split
          next => exact ⟨_, _, rfl, Or.inl rfl, rfl, rfl, fun u hu => hu⟩
          next hmode =>
            refine ⟨_, _, rfl, Or.inr ⟨Or.inr ?_, rfl⟩, rfl, rfl, fun u hu => hu⟩
            rw [← hgroup]
            by_contra hno
            push Not at hno
            exact hmode hno
        next htab =>
          exact ⟨_, _, rfl, Or.inr ⟨Or.inl (hmidNone htab), rfl⟩, rfl, rfl, fun u hu => hu⟩
    obtain ⟨o, q₁, heq, hq₁, hreq, hgroup, hup⟩ := key
    have hrec : (mid.set (.record fd rid) o).queue (.record fd rid) = o.getD .empty := by
      simp [Locks.queue]
    rw [heq]
    refine ⟨⟨q₁, ?_, ?_, ?_⟩, ?_, ?_, fun id hid htab => ?_⟩
    · rw [hqueue]
      exact hq₁
    · rw [hrec, hreq]
    · rw [hrec, hgroup]
    · rw [hqueue, hrec]
      exact hup
    · rw [hqueue, Locks.queue_set_other (by simp), hmidTable]
    · rw [Locks.queue_set_other hid, hmidOther id htab]

theorem upgrading_of_clearUpgrading {q : LockRequestQueue κ} {u : TxnId}
    (h : (q.clearUpgrading t).upgrading = some u) : q.upgrading = some u ∧ u ≠ t := by
  unfold clearUpgrading at h
  split at h
  next => cases h
  next hne =>
    refine ⟨h, ?_⟩
    rintro rfl
    exact hne h

theorem releaseRecord_upgrading {q : LockRequestQueue κ} {u : TxnId}
    (h : (q.releaseRecord t).upgrading = some u) : q.upgrading = some u ∧ u ≠ t := by
  obtain ⟨hup, hu⟩ := upgrading_of_clearUpgrading h
  exact ⟨hup, hu⟩

theorem releaseTable_upgrading_eq {q : LockRequestQueue κ} {u : TxnId}
    (h : (q.releaseTable t).upgrading = some u) : q.upgrading = some u ∧ u ≠ t := by
  obtain ⟨hup, hu⟩ := upgrading_of_clearUpgrading h
  refine ⟨?_, hu⟩
  dsimp only at hup
  split at hup <;> exact hup

/-- The requests on the record, once `t` has left. -/
theorem RecordUnlock.eased_requests (h : RecordUnlock locks locks' t fd rid) :
    List.Forall₂ Eased ((locks.queue (.record fd rid)).releaseRecord t).requestQueue
      (locks'.queue (.record fd rid)).requestQueue := by
  have hgrant : ∀ q : LockRequestQueue κ,
      List.Forall₂ Eased q.requestQueue q.grantLockRecord.requestQueue :=
    fun q => Eased.of_grants (grantRecord_grants _ _)
  have hregrant : ∀ q : LockRequestQueue κ,
      List.Forall₂ Eased q.requestQueue q.regrant.requestQueue :=
    fun q => Eased.of_grants (regrantRecord_grants _ [] _ _)
  obtain ⟨q, hq, hreq, _⟩ := h.result
  rw [hreq]
  rcases hq with rfl | ⟨_, rfl⟩
  · exact Eased.list_trans (hgrant _) (hregrant _)
  · exact hgrant _

theorem RecordUnlock.eased (h : RecordUnlock locks locks' t fd rid) {u : TxnId} {id : LockDataId}
    (hid : u ≠ t ∨ id ≠ .record fd rid) :
    List.Forall₂ Eased ((locks.queue id).own u) ((locks'.queue id).own u) := by
  by_cases hrec : id = .record fd rid
  · subst hrec
    have hu : u ≠ t := hid.resolve_right (by simp)
    have hown : ((locks.queue (.record fd rid)).releaseRecord t).own u =
        (locks.queue (.record fd rid)).own u := by
      rw [own, releaseRecord_requests]
      exact own_eraseP_other hu
    rw [← hown]
    exact Eased.list_filter h.eased_requests u
  · by_cases htab : id = .table fd
    · subst htab
      rw [h.table]
      split <;> exact Eased.list_refl _
    · rw [h.others id hrec htab]
      exact Eased.list_refl _

section Order

variable [LinearOrder κ]

/-- The table queue that `unlock` of the table leaves, before it looks at the insert keys. -/
def LockRequestQueue.regranted (q : LockRequestQueue κ) (t : TxnId) : LockRequestQueue κ :=
  (q.releaseTable t).grantLockTable

/-- The queues after `unlock` of a table on which `t` has a request. -/
structure TableUnlock (locks locks' : Locks κ) (t : TxnId) (fd : Fd) : Prop where
  requests : (locks'.queue (.table fd)).requestQueue =
    ((locks.queue (.table fd)).regranted t).requestQueue
  keys : (locks'.queue (.table fd)).insertKeys =
    ((locks.queue (.table fd)).releaseTable t).insertKeys.map fun k =>
      if ((locks.queue (.table fd)).regranted t).grantsKey fd locks k then
        { k with isWaited := false } else k
  upgrading : ∀ u, (locks'.queue (.table fd)).upgrading = some u →
    ((locks.queue (.table fd)).releaseTable t).upgrading = some u
  records : ∀ rid, GrantsFor (fun u => ∃ k ∈ ((locks.queue (.table fd)).releaseTable t).insertKeys,
      ((locks.queue (.table fd)).regranted t).grantsKey fd locks k = true ∧ k.rid = rid ∧
        k.txnId = u)
    (locks.queue (.record fd rid)).requestQueue (locks'.queue (.record fd rid)).requestQueue
  recordUpgrading : ∀ rid, (locks'.queue (.record fd rid)).upgrading =
    (locks.queue (.record fd rid)).upgrading
  recordGroup : ∀ rid, (locks'.queue (.record fd rid)).groupMode =
    (locks.queue (.record fd rid)).groupMode
  given : ∀ k ∈ ((locks.queue (.table fd)).releaseTable t).insertKeys,
    ((locks.queue (.table fd)).regranted t).grantsKey fd locks k = true →
    ∃ r ∈ (locks'.queue (.record fd k.rid)).requestQueue, r.txnId = k.txnId ∧ r.holdsX = true
  others : ∀ id, id ≠ .table fd → (∀ rid, id ≠ .record fd rid) → locks'.queue id = locks.queue id

theorem unlockTable_none (h : (locks.queue (.table fd)).find t = none)
    (hu : unlockTable locks t fd = some locks') : locks' = locks := by
  unfold unlockTable at hu
  cases hq : locks (.table fd) with
  | none =>
    rw [hq] at hu
    exact (Option.some.inj hu).symm
  | some q =>
    have hqueue : locks.queue (.table fd) = q := by simp [Locks.queue, hq]
    rw [hqueue] at h
    simp only [hq, h] at hu
    exact (Option.some.inj hu).symm

theorem unlockTable_queues (h : (locks.queue (.table fd)).find t ≠ none)
    (hu : unlockTable locks t fd = some locks') : TableUnlock locks locks' t fd := by
  cases hq : locks (.table fd) with
  | none => simp [Locks.queue, hq, empty, find] at h
  | some q =>
    have hqueue : locks.queue (.table fd) = q := by simp [Locks.queue, hq]
    rw [hqueue] at h
    obtain ⟨r, hr⟩ := Option.ne_none_iff_exists'.mp h
    simp only [unlockTable, hq, hr] at hu
    split at hu
    next hempty =>
      cases Option.some.inj hu
      have hgone : (locks.set (.table fd) none).queue (.table fd) = empty := by
        simp [Locks.queue]
      have hrec : ∀ rid, (locks.set (.table fd) none).queue (.record fd rid) =
          locks.queue (.record fd rid) := fun rid => Locks.queue_set_other (by simp) _
      refine ⟨?_, ?_, ?_, fun rid => ?_, fun rid => ?_, fun rid => ?_, ?_, fun id hid _ => ?_⟩
      · rw [hgone, hqueue, regranted, grantLockTable, hempty.1]
        rfl
      · rw [hgone, hqueue, hempty.2]
        rfl
      · rw [hgone]
        simp [empty]
      · rw [hrec]
        exact GrantsFor.refl _
      · rw [hrec]
      · rw [hrec]
      · rw [hqueue, hempty.2]
        simp
      · exact Locks.queue_set_other hid _
    next =>
      obtain ⟨out, hout, rfl⟩ := Option.map_eq_some_iff.mp hu
      have hspec := regrantKeys_spec hout
      have hkeys : (q.releaseTable t).grantLockTable.insertKeys =
          (q.releaseTable t).insertKeys := rfl
      rw [hkeys] at hspec
      have hrec : ∀ rid, (out.2.1.set (.table fd) (some { (q.releaseTable t).grantLockTable with
          insertKeys := out.1, groupMode := out.2.2 })).queue (.record fd rid) =
          out.2.1.queue (.record fd rid) := fun rid => Locks.queue_set_other (by simp) _
      have hfields : ∀ rid, (out.2.1.queue (.record fd rid)).upgrading =
          (locks.queue (.record fd rid)).upgrading ∧ (out.2.1.queue (.record fd rid)).groupMode =
            (locks.queue (.record fd rid)).groupMode := by
        intro rid
        unfold Locks.queue
        cases hr : locks (.record fd rid) with
        | none =>
          rw [hspec.missing rid hr]
          exact ⟨rfl, rfl⟩
        | some queueRec =>
          obtain ⟨l, hl, _⟩ := hspec.records rid queueRec hr
          rw [hl]
          exact ⟨rfl, rfl⟩
      refine ⟨?_, ?_, ?_, fun rid => ?_, fun rid => ?_, fun rid => ?_, fun k hk hg => ?_,
        fun id hid hrid => ?_⟩
      · rw [Locks.queue_set_self, hqueue, regranted]
      · rw [Locks.queue_set_self, hqueue]
        exact hspec.newKeys
      · rw [Locks.queue_set_self, hqueue]
        exact fun u hu => hu
      · rw [hrec, hqueue]
        unfold Locks.queue
        cases hr : locks (.record fd rid) with
        | none =>
          rw [hspec.missing rid hr]
          exact GrantsFor.refl _
        | some queueRec =>
          obtain ⟨l, hl, hgrants⟩ := hspec.records rid queueRec hr
          rw [hl]
          exact hgrants
      · rw [hrec]
        exact (hfields rid).1
      · rw [hrec]
        exact (hfields rid).2
      · rw [hqueue] at hk hg
        obtain ⟨queueRec, hrq, hx⟩ := hspec.given k hk hg
        rw [hrec, Locks.queue, hrq]
        exact hx
      · rw [Locks.queue_set_other hid, Locks.queue, hspec.tables id hrid]
        rfl

/-- `grant_lock` after `t` has left the table. -/
theorem LockRequestQueue.regranted_settled {q : LockRequestQueue κ} (t : TxnId)
    (hup : ∀ r ∈ q.requestQueue, q.upgrading = some r.txnId → r.lockMode = .exlucsive) :
    List.Forall₂ Eased (q.releaseTable t).requestQueue (q.regranted t).requestQueue ∧
      ∀ r ∈ (q.regranted t).requestQueue,
        TableSettled (q.releaseTable t).insertKeys (q.regranted t).requestQueue r := by
  have hgroup : GroupHolder (q.releaseTable t).requestQueue (q.releaseTable t).groupMode := by
    rw [releaseTable_groupMode, releaseTable_requests]
    exact groupTable_holder _
  refine @grantTable_settled κ _ (q.releaseTable t).upgrading (q.releaseTable t).insertKeys []
    (q.releaseTable t).requestQueue _ hgroup (fun r hr hr' => ?_) (by simp)
  rw [releaseTable_requests] at hr
  exact hup r (List.mem_of_mem_eraseP hr) (releaseTable_upgrading_eq hr').1

theorem TableUnlock.eased (h : TableUnlock locks locks' t fd) {u : TxnId} {id : LockDataId}
    (hup : ∀ r ∈ (locks.queue (.table fd)).requestQueue,
      (locks.queue (.table fd)).upgrading = some r.txnId → r.lockMode = .exlucsive)
    (hid : u ≠ t ∨ id ≠ .table fd) :
    List.Forall₂ Eased ((locks.queue id).own u) ((locks'.queue id).own u) := by
  by_cases htab : id = .table fd
  · subst htab
    have hu : u ≠ t := hid.resolve_right (by simp)
    have hown : ((locks.queue (.table fd)).releaseTable t).own u =
        (locks.queue (.table fd)).own u := by
      rw [own, releaseTable_requests]
      exact own_eraseP_other hu
    rw [← hown, own, own, h.requests]
    exact Eased.list_filter (regranted_settled t hup).1 u
  · by_cases hrec : ∃ rid, id = .record fd rid
    · obtain ⟨rid, rfl⟩ := hrec
      exact Eased.of_grants ((h.records rid).filter u)
    · rw [h.others id htab fun rid hid => hrec ⟨rid, hid⟩]
      exact Eased.list_refl _

end Order

end Grmdb
