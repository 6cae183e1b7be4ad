import Grmdb.LockFootprint

namespace Grmdb

variable {κ : Type}

namespace LockRequestQueue

variable {q : LockRequestQueue κ} {t u : TxnId}

/-- Granting requests leaves no trace of its own. -/
theorem footprint_grants {P : TxnId → Prop} {l : List (LockRequest κ)} (group : GroupMode)
    (h : GrantsFor P q.requestQueue l) (u : TxnId) :
    { q with requestQueue := l, groupMode := group }.footprint u = q.footprint u := by
  refine footprint_congr ?_ Iff.rfl rfl
  have hown := h.filter u
  show (l.filter fun r => decide (r.txnId = u)).map (·.lockMode) = (q.own u).map (·.lockMode)
  unfold own
  generalize l.filter (fun r => decide (r.txnId = u)) = m' at hown ⊢
  generalize q.requestQueue.filter (fun r => decide (r.txnId = u)) = m at hown ⊢
  induction hown with
  | nil => rfl
  | cons hr _ ih => rcases hr with rfl | ⟨_, rfl⟩ <;> simp [ih]

theorem grantLockRecord_footprint (q : LockRequestQueue κ) (u : TxnId) :
    q.grantLockRecord.footprint u = q.footprint u :=
  footprint_grants _ (grantRecord_grants q.requestQueue q.groupMode) u

theorem regrant_footprint (q : LockRequestQueue κ) (u : TxnId) :
    q.regrant.footprint u = q.footprint u :=
  footprint_grants _ (regrantRecord_grants q.upgrading [] q.requestQueue q.groupMode) u

theorem own_eraseP_self (l : List (LockRequest κ)) (t : TxnId) :
    (l.eraseP fun r => decide (r.txnId = t)).filter (fun r => decide (r.txnId = t)) =
      (l.filter fun r => decide (r.txnId = t)).tail := by
  induction l with
  | nil => rfl
  | cons r l ih =>
    by_cases hr : r.txnId = t
    · simp [hr]
    · simp [hr, ih]

theorem releaseRecord_footprint_other (hu : u ≠ t) :
    (q.releaseRecord t).footprint u = q.footprint u := by
  unfold releaseRecord
  dsimp only
  rw [((CallFrame.refl t _).clearUpgrading).footprint hu]
  refine footprint_congr ?_ Iff.rfl rfl
  exact congrArg _ (own_eraseP_other hu)

theorem releaseRecord_footprint_self (q : LockRequestQueue κ) (t : TxnId) :
    (q.releaseRecord t).footprint t =
      ⟨(q.footprint t).modes.tail, false, (q.footprint t).keyed⟩ := by
  unfold releaseRecord
  dsimp only
  rw [footprint_clearUpgrading_self]
  simp [footprint, own, own_eraseP_self, List.map_tail]

theorem releaseTable_footprint_other (hu : u ≠ t) :
    (q.releaseTable t).footprint u = q.footprint u := by
  have hkeys : (if q.groupMode = .gap ∨ q.groupMode = .tabX then q.removeKeys t
      else q).footprint u = q.footprint u := by
    split
    · exact ((CallFrame.refl t _).removeKeys).footprint hu
    · rfl
  rw [← hkeys]
  unfold releaseTable
  dsimp only
  rw [((CallFrame.refl t _).clearUpgrading).footprint hu]
  refine footprint_congr ?_ Iff.rfl rfl
  exact congrArg _ (own_eraseP_other hu)

theorem releaseTable_footprint_self (q : LockRequestQueue κ) (t : TxnId) :
    ((q.releaseTable t).footprint t).modes = (q.footprint t).modes.tail ∧
      ((q.releaseTable t).footprint t).upgrades = false ∧
      (((q.releaseTable t).footprint t).keyed = true → (q.footprint t).keyed = true) := by
  have hkeys : (if q.groupMode = .gap ∨ q.groupMode = .tabX then q.removeKeys t
      else q).requestQueue = q.requestQueue := by
    split <;> rfl
  refine ⟨?_, ?_, ?_⟩
  · unfold releaseTable
    dsimp only
    rw [footprint_clearUpgrading_self, hkeys]
    simp [footprint, own, own_eraseP_self, List.map_tail]
  · unfold releaseTable
    dsimp only
    rw [footprint_clearUpgrading_self]
  · intro h
    rcases releaseTable_keys q t with hk | hk
    · simpa [footprint, hk] using h
    · simp [footprint, hk, List.any_filter] at h

section Order

variable [LinearOrder κ]

theorem grantTable_modes (upgrading : Option TxnId) (keys : List (InsertKey κ))
    (before after : List (LockRequest κ)) (group : GroupMode) (u : TxnId) :
    (((grantTable upgrading keys before after group).1.filter fun r =>
      decide (r.txnId = u)).map (·.lockMode)) =
      (((before ++ after).filter fun r => decide (r.txnId = u)).map (·.lockMode)) := by
  induction after generalizing before group with
  | nil => simp [grantTable]
  | cons r after ih =>
    obtain ⟨ht, hm, _⟩ := grantTableOne_keeps upgrading keys before after r group
    rw [grantTable, ih]
    by_cases hr : r.txnId = u
    · simp [List.filter_append, ht, hr, hm]
    · simp [List.filter_append, ht, hr]

theorem grantLockTable_footprint (q : LockRequestQueue κ) (u : TxnId) :
    q.grantLockTable.footprint u = q.footprint u := by
  refine footprint_congr ?_ Iff.rfl rfl
  exact grantTable_modes q.upgrading q.insertKeys [] q.requestQueue q.groupMode u

end Order

/-- A queue that is dropped from the lock table had no trace of anyone in it. -/
theorem footprint_eq_nothing (hreq : q.requestQueue = []) (hkeys : q.insertKeys = [])
    (hup : (q.footprint u).upgrades = true → (q.footprint u).modes ≠ []) :
    q.footprint u = .nothing := by
  have hmodes : (q.footprint u).modes = [] := by simp [footprint, own, hreq]
  have hno : (q.footprint u).upgrades = false := by
    by_contra h
    exact hup (by simpa using h) hmodes
  have hkeyed : (q.footprint u).keyed = false := by simp [footprint, hkeys]
  cases hf : q.footprint u
  simp_all [Footprint.nothing]

end LockRequestQueue

open LockRequestQueue

def Locks.queue (locks : Locks κ) (id : LockDataId) : LockRequestQueue κ :=
  (locks id).getD .empty

def Locks.footprint (locks : Locks κ) (id : LockDataId) (t : TxnId) : Footprint :=
  (locks.queue id).footprint t

theorem Locks.queue_set_self (locks : Locks κ) (id : LockDataId) (q : LockRequestQueue κ) :
    (locks.set id (some q)).queue id = q := by
  simp [Locks.queue]

theorem Locks.queue_set_other {locks : Locks κ} {id id' : LockDataId} (h : id' ≠ id)
    (q : Option (LockRequestQueue κ)) : (locks.set id q).queue id' = locks.queue id' := by
  simp [Locks.queue, Locks.set_other h]

/-- `unlock` of a table takes the request of `t` there, and nothing of anyone else. -/
structure UnlocksTable (locks locks' : Locks κ) (t : TxnId) (fd : Fd) : Prop where
  frame : ∀ u id, u ≠ t ∨ id ≠ .table fd → locks'.footprint id u = locks.footprint id u
  modes : (locks'.footprint (.table fd) t).modes = (locks.footprint (.table fd) t).modes.tail
  upgrades : (locks'.footprint (.table fd) t).upgrades = false
  keyed : (locks'.footprint (.table fd) t).keyed = true →
    (locks.footprint (.table fd) t).keyed = true

/-- `unlock` of a record takes the request of `t` there, and in group mode X all its insert keys on
the table. -/
structure UnlocksRecord (locks locks' : Locks κ) (t : TxnId) (fd : Fd) (rid : Rid) : Prop where
  frame : ∀ u id, u ≠ t ∨ id ≠ .record fd rid ∧ id ≠ .table fd →
    locks'.footprint id u = locks.footprint id u
  modes : (locks'.footprint (.record fd rid) t).modes =
    (locks.footprint (.record fd rid) t).modes.tail
  upgrades : (locks'.footprint (.record fd rid) t).upgrades = false
  keyed : (locks'.footprint (.record fd rid) t).keyed = true →
    (locks.footprint (.record fd rid) t).keyed = true
  table : (locks'.footprint (.table fd) t).modes = (locks.footprint (.table fd) t).modes ∧
    (locks'.footprint (.table fd) t).upgrades = (locks.footprint (.table fd) t).upgrades
  keys : (locks'.footprint (.table fd) t).keyed = true →
    (locks.footprint (.table fd) t).keyed = true ∧
      ((locks.footprint (.record fd rid) t).modes ≠ [] →
        (locks.queue (.record fd rid)).groupMode ≠ .x)

section Unlock

variable [LinearOrder κ] {locks locks' : Locks κ} {t u : TxnId} {fd : Fd} {rid : Rid}

/-- The loop over the insert keys leaves no trace. -/
theorem regrantKeys_footprint {q : LockRequestQueue κ} {group : GroupMode}
    {out : List (InsertKey κ) × Locks κ × GroupMode}
    (h : regrantKeys fd q q.insertKeys locks group = some out) (u : TxnId) :
    (∀ rid, out.2.1.footprint (.record fd rid) u = locks.footprint (.record fd rid) u) ∧
      (∀ id, (∀ rid, id ≠ .record fd rid) → out.2.1.footprint id u = locks.footprint id u) ∧
      { q with insertKeys := out.1, groupMode := out.2.2 }.footprint u = q.footprint u := by
  have hspec := regrantKeys_spec h
  refine ⟨fun rid => ?_, fun id hid => ?_, ?_⟩
  · unfold Locks.footprint Locks.queue
    cases hq : locks (.record fd rid) with
    | none => rw [hspec.missing rid hq]
    | some queueRec =>
      obtain ⟨l, hl, hgrants⟩ := hspec.records rid queueRec hq
      rw [hl]
      exact footprint_grants queueRec.groupMode hgrants u
  · unfold Locks.footprint Locks.queue
    rw [hspec.tables id hid]
  · refine footprint_congr rfl Iff.rfl ?_
    show (out.1.any fun k => decide (k.txnId = u)) = _
    rw [hspec.newKeys, List.any_map]
    congr 1
    funext k
    simp only [Function.comp_apply]
    split <;> rfl

theorem unlockTable_footprint (h : unlockTable locks t fd = some locks')
    (hup : ∀ u, (locks.footprint (.table fd) u).upgrades = true →
      (locks.footprint (.table fd) u).modes ≠ []) : UnlocksTable locks locks' t fd := by
  have hstays : (locks.footprint (.table fd) t).modes = [] → UnlocksTable locks locks t fd := by
    intro hm
    refine ⟨fun _ _ _ => rfl, by simp [hm], ?_, id⟩
    by_contra hc
    exact hup t (by simpa using hc) hm
  unfold unlockTable at h
  split at h
  next hq =>
    cases Option.some.inj h
    exact hstays (by simp [Locks.footprint, Locks.queue, hq, Footprint.nothing])
  next q hq =>
    have hfoot : ∀ u, locks.footprint (.table fd) u = q.footprint u := by
      intro u
      simp [Locks.footprint, Locks.queue, hq]
    split at h
    next hn =>
      cases Option.some.inj h
      exact hstays (by rw [hfoot, modes_eq_nil]; exact hn)
    next r hr =>
      obtain ⟨hmodes, hupgrade, hkeyed⟩ := releaseTable_footprint_self q t
      simp only [hfoot] at hup
      dsimp only at h
      split at h
      next hempty =>
        cases Option.some.inj h
        have hgone : ∀ u, (locks.set (.table fd) none).footprint (.table fd) u = .nothing := by
          intro u
          simp [Locks.footprint, Locks.queue]
        refine ⟨fun u id hid => ?_, ?_, ?_, ?_⟩
        · by_cases htab : id = .table fd
          · subst htab
            have hu : u ≠ t := hid.resolve_right (by simp)
            rw [hgone, hfoot, ← releaseTable_footprint_other (t := t) hu]
            refine (footprint_eq_nothing hempty.1 hempty.2 ?_).symm
            rw [releaseTable_footprint_other hu]
            exact hup u
          · simp [Locks.footprint, Locks.queue_set_other htab]
        · have hnil : ((q.releaseTable t).footprint t).modes = [] := by
            rw [modes_eq_nil, find, hempty.1]
            rfl
          rw [hgone, hfoot, ← hmodes, hnil]
          rfl
        · rw [hgone]
          rfl
        · rw [hgone]
          simp [Footprint.nothing]
      next =>
        obtain ⟨out, hout, rfl⟩ := Option.map_eq_some_iff.mp h
        have hkeys := fun u => regrantKeys_footprint hout u
        have htable : ∀ u, (out.2.1.set (.table fd) (some { (q.releaseTable t).grantLockTable with
            insertKeys := out.1, groupMode := out.2.2 })).footprint (.table fd) u =
              (q.releaseTable t).footprint u := by
          intro u
          rw [Locks.footprint, Locks.queue_set_self, (hkeys u).2.2, grantLockTable_footprint]
        refine ⟨fun u id hid => ?_, ?_, ?_, ?_⟩
        · by_cases htab : id = .table fd
          · subst htab
            have hu : u ≠ t := hid.resolve_right (by simp)
            rw [htable, hfoot, releaseTable_footprint_other hu]
          · rw [Locks.footprint, Locks.queue_set_other htab]
            by_cases hrec : ∃ rid, id = .record fd rid
            · obtain ⟨rid, rfl⟩ := hrec
              exact (hkeys u).1 rid
            · exact (hkeys u).2.1 id fun rid hid => hrec ⟨rid, hid⟩
        · rw [htable, hfoot, hmodes]
        · rw [htable, hupgrade]
        · rw [htable, hfoot]
          exact hkeyed

omit [LinearOrder κ] in
/-- The loops by which `unlock` of a record grants leave no trace. -/
theorem unlockRecord_eq {q : LockRequestQueue κ} (hq : locks (.record fd rid) = some q)
    (hfind : q.find t ≠ none)
    (hup : ∀ u, (q.footprint u).upgrades = true → (q.footprint u).modes ≠ []) :
    ∃ o, unlockRecord locks t fd rid =
        (if q.groupMode = .x then
          locks.set (.table fd) ((locks (.table fd)).map fun queueTable => queueTable.removeKeys t)
        else locks).set (.record fd rid) o ∧
      ∀ u, (o.getD .empty).footprint u = (q.releaseRecord t).footprint u := by
  have hgrant : ∀ u, (q.releaseRecord t).grantLockRecord.footprint u =
      (q.releaseRecord t).footprint u := fun u => grantLockRecord_footprint _ u
  obtain ⟨r, hr⟩ := Option.ne_none_iff_exists'.mp hfind
  simp only [unlockRecord, hq, hr]
  split
  next hempty =>
    refine ⟨none, rfl, fun u => ?_⟩
    simp only [Option.getD_none, footprint_empty]
    refine (footprint_eq_nothing hempty.1 hempty.2 fun hu => ?_).symm
    by_cases htu : u = t
    · rw [htu, releaseRecord_footprint_self] at hu
      cases hu
    · rw [releaseRecord_footprint_other htu] at hu ⊢
      exact hup u hu
  next =>
    split
    · split
      · exact ⟨_, rfl, fun u => (regrant_footprint _ u).trans (hgrant u)⟩
      · exact ⟨_, rfl, hgrant⟩
    · exact ⟨_, rfl, hgrant⟩

omit [LinearOrder κ] in
theorem unlockRecord_footprint
    (hup : ∀ u, (locks.footprint (.record fd rid) u).upgrades = true →
      (locks.footprint (.record fd rid) u).modes ≠ []) :
    UnlocksRecord locks (unlockRecord locks t fd rid) t fd rid := by
  have hstays : (locks.footprint (.record fd rid) t).modes = [] →
      UnlocksRecord locks locks t fd rid := by
    intro hm
    refine ⟨fun _ _ _ => rfl, by simp [hm], ?_, id, ⟨rfl, rfl⟩,
      fun hk => ⟨hk, fun hne => absurd hm hne⟩⟩
    by_contra hc
    exact hup t (by simpa using hc) hm
  cases hq : locks (.record fd rid) with
  | none =>
    have heq : unlockRecord locks t fd rid = locks := by simp [unlockRecord, hq]
    rw [heq]
    exact hstays (by simp [Locks.footprint, Locks.queue, hq, Footprint.nothing])
  | some q =>
    have hqueue : locks.queue (.record fd rid) = q := by simp [Locks.queue, hq]
    have hfoot : ∀ u, locks.footprint (.record fd rid) u = q.footprint u := by
      intro u
      rw [Locks.footprint, hqueue]
    by_cases hfind : q.find t = none
    · have heq : unlockRecord locks t fd rid = locks := by simp [unlockRecord, hq, hfind]
      rw [heq]
      exact hstays (by rw [hfoot, modes_eq_nil]; exact hfind)
    · simp only [hfoot] at hup
      obtain ⟨o, heq, ho⟩ := unlockRecord_eq hq hfind hup
      rw [heq]
      generalize hmid : (if q.groupMode = .x then locks.set (.table fd)
        ((locks (.table fd)).map fun queueTable => queueTable.removeKeys t) else locks) = mid
      have hrec : ∀ u, (mid.set (.record fd rid) o).footprint (.record fd rid) u =
          (q.releaseRecord t).footprint u := by
        intro u
        rw [Locks.footprint, Locks.queue, Locks.set_self, ho]
      have helse : ∀ id u, id ≠ .record fd rid →
          (mid.set (.record fd rid) o).footprint id u = mid.footprint id u := by
        intro id u hid
        rw [Locks.footprint, Locks.queue_set_other hid, Locks.footprint]
      have hother : ∀ id u, id ≠ .table fd → mid.footprint id u = locks.footprint id u := by
        intro id u hid
        rw [← hmid]
        split
        · rw [Locks.footprint, Locks.queue_set_other hid, Locks.footprint]
        · rfl
      have htable : ∀ u, mid.footprint (.table fd) u = if q.groupMode = .x then
          ((locks.queue (.table fd)).removeKeys t).footprint u
          else locks.footprint (.table fd) u := by
        intro u
        rw [← hmid]
        split
        · simp only [Locks.footprint, Locks.queue, Locks.set_self]
          cases locks (.table fd) with
          | none => rfl
          | some queueTable => rfl
        · rfl
      have hne : LockDataId.table fd ≠ .record fd rid := by simp
      refine ⟨fun u id hid => ?_, ?_, ?_, ?_, ?_, ?_⟩
      · by_cases hidr : id = .record fd rid
        · subst hidr
          have hu : u ≠ t := hid.resolve_right (by simp)
          rw [hrec, hfoot, releaseRecord_footprint_other hu]
        · rw [helse id u hidr]
          by_cases hidt : id = .table fd
          · subst hidt
            have hu : u ≠ t := hid.resolve_right (by simp)
            rw [htable]
            split
            · exact ((CallFrame.refl t _).removeKeys).footprint hu
            · rfl
          · exact hother id u hidt
      · rw [hrec, hfoot, releaseRecord_footprint_self]
      · rw [hrec, releaseRecord_footprint_self]
      · rw [hrec, hfoot, releaseRecord_footprint_self]
        exact id
      · rw [helse _ t hne, htable]
        split
        · rw [footprint_removeKeys_self]
          exact ⟨rfl, rfl⟩
        · exact ⟨rfl, rfl⟩
      · rw [helse _ t hne, htable, hqueue]
        split
        next =>
          rw [footprint_removeKeys_self]
          simp
        next hx => exact fun hk => ⟨hk, fun _ => hx⟩

end Unlock

end Grmdb
