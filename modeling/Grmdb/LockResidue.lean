import Grmdb.FootprintUnlock
import Grmdb.LockAccount
import Grmdb.PhantomProtection

namespace Grmdb

open LockRequestQueue Runs

variable {κ : Type}

/-- Everything that a transaction in phase `p` with lock set `ids` has in the queues is on the
way to be taken out: it has one request a queue, and that queue is in its lock set, or will be
when the wait is over; its insert keys on a table come with an exclusive request on a record. -/
structure Accounted (p : TxnPhase κ) (ids : List LockDataId) (feet : LockDataId → Footprint) :
    Prop where
  single : ∀ id, (feet id).modes.length ≤ 1
  listed : ∀ id, (feet id).modes ≠ [] →
    id ∈ ids ∨ ∃ w, p = .waiting w ∧ w.id = id ∧ w.isNew = true
  upgrades : ∀ id, (feet id).upgrades = true → (feet id).modes ≠ []
  tables : ∀ fd, (feet (.table fd)).keyed = true →
    ∃ rid, .exlucsive ∈ (feet (.record fd rid)).modes
  unkeyed : ∀ fd rid, (feet (.record fd rid)).keyed = false
  records : ∀ fd rid, ∀ m ∈ (feet (.record fd rid)).modes, m = .shared ∨ m = .exlucsive

section Accounted

variable {p : TxnPhase κ} {ids ids' : List LockDataId} {feet feet' : LockDataId → Footprint}

/-- Nothing is left of a transaction that has given back its whole lock set. -/
theorem Accounted.nothing_left (h : Accounted (.finishing : TxnPhase κ) [] feet)
    (id : LockDataId) : feet id = .nothing := by
  have hmodes : ∀ id, (feet id).modes = [] := by
    intro id
    by_contra hne
    rcases h.listed id hne with hid | ⟨w, hw, _⟩
    · simp at hid
    · cases hw
  have hup : (feet id).upgrades = false := by
    by_contra hc
    exact h.upgrades id (by simpa using hc) (hmodes id)
  have hkeyed : (feet id).keyed = false := by
    cases id with
    | table fd =>
      by_contra hc
      obtain ⟨rid, hrid⟩ := h.tables fd (by simpa using hc)
      simp [hmodes] at hrid
    | record fd rid => exact h.unkeyed fd rid
  have hm := hmodes id
  cases hf : feet id
  simp_all [Footprint.nothing]

def Outcome.lockSet (wait : Bool → LockWait κ) (ids : List LockDataId) :
    Outcome → List LockDataId
  | .returns true => ids ∪ (wait true).entered
  | _ => ids

theorem LockWait.id_mem_entered (w : LockWait κ) : w.id ∈ w.entered := by
  cases w <;> simp [LockWait.entered, LockWait.id]

/-- A call on the queue `id` alone. -/
theorem Accounted.call (h : Accounted (.running : TxnPhase κ) ids feet) {id : LockDataId}
    {m : LockMode} {out : Outcome} {wait : Bool → LockWait κ}
    (hwait : ∀ b, (wait b).id = id ∧ (wait b).isNew = b)
    (hother : ∀ x, x ≠ id → feet' x = feet x)
    (hends : Footprint.CallEnds m (feet id) (feet' id) out)
    (htables : ∀ fd, (feet' (.table fd)).keyed = true →
      ∃ rid, .exlucsive ∈ (feet' (.record fd rid)).modes)
    (hrecords : ∀ fd rid, id = .record fd rid →
      ∀ m ∈ (feet' id).modes, m = .shared ∨ m = .exlucsive) :
    Accounted (out.phase wait) (out.lockSet wait ids) feet' := by
  have hold : ∀ x, (feet x).modes ≠ [] → x ∈ out.lockSet wait ids := by
    intro x hx
    have hmem : x ∈ ids := by
      rcases h.listed x hx with hid | ⟨w, hw, _⟩
      · exact hid
      · cases hw
    unfold Outcome.lockSet
    split
    · exact List.mem_union_iff.mpr (Or.inl hmem)
    · exact hmem
  have hhere : (feet' id).modes.length ≤ 1 ∧
      ((feet' id).modes ≠ [] → id ∈ out.lockSet wait ids ∨
        ∃ w, out.phase wait = .waiting w ∧ w.id = id ∧ w.isNew = true) ∧
      ((feet' id).upgrades = true → (feet' id).modes ≠ []) ∧
      ((feet' id).keyed = true → (feet id).keyed = true) := by
    have hkept : (feet id).modes ≠ [] ∧ (feet' id).modes.length = (feet id).modes.length ∧
        (feet' id).keyed = (feet id).keyed → (feet' id).modes.length ≤ 1 ∧
        ((feet' id).modes ≠ [] → id ∈ out.lockSet wait ids) ∧
        ((feet' id).upgrades = true → (feet' id).modes ≠ []) ∧
        ((feet' id).keyed = true → (feet id).keyed = true) := by
      rintro ⟨hne, hlen, hk⟩
      refine ⟨hlen ▸ h.single id, fun _ => hold id hne, fun _ hnil => ?_, fun hkey => hk ▸ hkey⟩
      rw [hnil] at hlen
      exact hne (List.length_eq_zero_iff.mp hlen.symm)
    cases out with
    | returns enters =>
      cases enters with
      | true =>
        obtain ⟨_, heq⟩ := hends
        have hin : id ∈ (Outcome.returns true).lockSet wait ids := by
          have := LockWait.id_mem_entered (wait true)
          rw [(hwait true).1] at this
          exact List.mem_union_iff.mpr (Or.inr this)
        simp [heq, hin]
      | false =>
        obtain ⟨hlen, hlisted, hrest⟩ := hkept hends
        exact ⟨hlen, fun hne => Or.inl (hlisted hne), hrest⟩
    | waits isNew =>
      cases isNew with
      | true =>
        obtain ⟨_, heq⟩ := hends
        have hw : ∃ w, (Outcome.waits true).phase wait = .waiting w ∧ w.id = id ∧
            w.isNew = true := ⟨wait true, rfl, hwait true⟩
        rw [heq]
        exact ⟨by simp, fun _ => Or.inr hw, by simp, by simp⟩
      | false =>
        obtain ⟨hlen, hlisted, hrest⟩ := hkept hends
        exact ⟨hlen, fun hne => Or.inl (hlisted hne), hrest⟩
    | aborts =>
      rcases hends with heq | heq
      · simp [heq, Footprint.nothing]
      · rw [heq]
        exact ⟨h.single id, fun hne => Or.inl (hold id hne), h.upgrades id, fun hk => hk⟩
  refine ⟨fun x => ?_, fun x hx => ?_, fun x hx => ?_, htables, fun fd rid => ?_, ?_⟩
  · by_cases hid : x = id
    · rw [hid]
      exact hhere.1
    · rw [hother x hid]
      exact h.single x
  · by_cases hid : x = id
    · rw [hid] at hx ⊢
      exact hhere.2.1 hx
    · rw [hother x hid] at hx
      exact Or.inl (hold x hx)
  · by_cases hid : x = id
    · rw [hid] at hx ⊢
      exact hhere.2.2.1 hx
    · rw [hother x hid] at hx ⊢
      exact h.upgrades x hx
  · by_cases hid : LockDataId.record fd rid = id
    · rw [hid]
      by_contra hc
      have := hhere.2.2.2 (by simpa using hc)
      rw [← hid, h.unkeyed fd rid] at this
      cases this
    · rw [hother _ hid]
      exact h.unkeyed fd rid
  · intro fd rid m' hm'
    by_cases hid : LockDataId.record fd rid = id
    · exact hrecords fd rid hid.symm m' (hid ▸ hm')
    · rw [hother _ hid] at hm'
      exact h.records fd rid m' hm'

/-- A call of `lock_exclusive_on_record_gap`: the table queue gains its insert key or loses all
that the transaction has there. -/
theorem Accounted.twoQueues (h : Accounted (.running : TxnPhase κ) ids feet) {fd : Fd} {rid : Rid}
    (hsub : ∀ x ∈ ids, x ∈ ids')
    (hother : ∀ x, x ≠ .record fd rid → x ≠ .table fd → feet' x = feet x)
    (hsingle : (feet' (.record fd rid)).modes.length ≤ 1)
    (hlisted : (feet' (.record fd rid)).modes ≠ [] → .record fd rid ∈ ids' ∨
      ∃ w, p = .waiting w ∧ w.id = .record fd rid ∧ w.isNew = true)
    (hup : (feet' (.record fd rid)).upgrades = true → (feet' (.record fd rid)).modes ≠ [])
    (hkeyed : (feet' (.record fd rid)).keyed = (feet (.record fd rid)).keyed ∨
      (feet' (.record fd rid)).keyed = false)
    (hmodes : ∀ m ∈ (feet' (.record fd rid)).modes, m = .shared ∨ m = .exlucsive)
    (htable : feet' (.table fd) = .nothing ∨
      feet' (.table fd) = { feet (.table fd) with keyed := true } ∧
        ∃ rid', .exlucsive ∈ (feet' (.record fd rid')).modes) : Accounted p ids' feet' := by
  have hmem : ∀ x, (feet x).modes ≠ [] → x ∈ ids' := by
    intro x hx
    rcases h.listed x hx with hid | ⟨w, hw, _⟩
    · exact hsub x hid
    · cases hw
  have htab : (feet' (.table fd)).modes.length ≤ 1 ∧
      ((feet' (.table fd)).modes ≠ [] → .table fd ∈ ids') ∧
      ((feet' (.table fd)).upgrades = true → (feet' (.table fd)).modes ≠ []) := by
    rcases htable with heq | ⟨heq, _⟩
    · simp [heq, Footprint.nothing]
    · rw [heq]
      exact ⟨h.single _, hmem _, h.upgrades _⟩
  refine ⟨fun x => ?_, fun x hx => ?_, fun x hx => ?_, fun fd' hk => ?_, fun fd' rid' => ?_, ?_⟩
  · by_cases hr : x = .record fd rid
    · exact hr ▸ hsingle
    · by_cases ht : x = .table fd
      · exact ht ▸ htab.1
      · rw [hother x hr ht]
        exact h.single x
  · by_cases hr : x = .record fd rid
    · subst hr
      exact hlisted hx
    · by_cases ht : x = .table fd
      · subst ht
        exact Or.inl (htab.2.1 hx)
      · rw [hother x hr ht] at hx
        exact Or.inl (hmem x hx)
  · by_cases hr : x = .record fd rid
    · subst hr
      exact hup hx
    · by_cases ht : x = .table fd
      · subst ht
        exact htab.2.2 hx
      · rw [hother x hr ht] at hx ⊢
        exact h.upgrades x hx
  · by_cases hfd : fd' = fd
    · subst hfd
      rcases htable with heq | ⟨_, hex⟩
      · simp [heq, Footprint.nothing] at hk
      · exact hex
    · rw [hother _ (by simp) (by simpa using hfd)] at hk
      obtain ⟨rid', hrid⟩ := h.tables fd' hk
      refine ⟨rid', ?_⟩
      rw [hother _ (by simp [hfd]) (by simp)]
      exact hrid
  · by_cases hr : LockDataId.record fd' rid' = .record fd rid
    · rw [hr]
      rcases hkeyed with hk | hk
      · rw [hk, h.unkeyed]
      · exact hk
    · rw [hother _ hr (by simp)]
      exact h.unkeyed fd' rid'
  · intro fd' rid' m hm
    by_cases hr : LockDataId.record fd' rid' = .record fd rid
    · rw [hr] at hm
      exact hmodes m hm
    · rw [hother _ hr (by simp)] at hm
      exact h.records fd' rid' m hm

/-- An abort may leave the insert key behind if the transaction has another record of the table
in EXLUCSIVE mode, whose `unlock` will take it. -/
theorem Accounted.exclusiveGap (h : Accounted (.running : TxnPhase κ) ids feet) {fd : Fd}
    {rid : Rid} {t : TxnId} {q queueTable : LockRequestQueue κ} {isWaited : Bool} {out : Outcome}
    {wait : Bool → LockWait κ}
    (hwait : ∀ b, (wait b).id = .record fd rid ∧ (wait b).isNew = b)
    (hother : ∀ x, x ≠ .record fd rid → x ≠ .table fd → feet' x = feet x)
    (hq : q.footprint t = feet (.record fd rid))
    (htable : queueTable.footprint t = { feet (.table fd) with keyed := true })
    (hends : ExclusiveEnds q queueTable t isWaited (feet' (.record fd rid)) (feet' (.table fd))
      out)
    (hcover : (q.footprint t).modes = [.shared] ∧ q.upgrading ≠ none ∨
      (q.footprint t).modes ≠ [.exlucsive] ∧ (q.otherGranted t = true ∨ isWaited = true) ∧
        q.dies t = true → ∃ rid', rid' ≠ rid ∧ .exlucsive ∈ (feet (.record fd rid')).modes)
    (hnew : q.find t = none → q.otherGranted t = true ∨ isWaited = true → q.dies t = false →
      ¬ (queueTable.groupMode = .gap ∧ queueTable.dies t = true)) :
    Accounted (out.phase wait) (out.lockSet wait ids) feet' := by
  have hsub : ∀ x ∈ ids, x ∈ out.lockSet wait ids := by
    intro x hx
    unfold Outcome.lockSet
    split
    · exact List.mem_union_iff.mpr (Or.inl hx)
    · exact hx
  have hmem : (feet (.record fd rid)).modes ≠ [] → .record fd rid ∈ out.lockSet wait ids := by
    intro hne
    rcases h.listed _ hne with hid | ⟨w, hw, _⟩
    · exact hsub _ hid
    · cases hw
  have hcovered : (∃ rid', rid' ≠ rid ∧ .exlucsive ∈ (feet (.record fd rid')).modes) →
      ∃ rid', .exlucsive ∈ (feet' (.record fd rid')).modes := by
    rintro ⟨rid', hne, hm⟩
    refine ⟨rid', ?_⟩
    rw [hother _ (by simpa using hne) (by simp)]
    exact hm
  generalize hf : feet' (.record fd rid) = f at hends
  generalize hg : feet' (.table fd) = g at hends
  cases hends with
  | held hm =>
    rw [hq] at hf hm
    rw [htable] at hg
    refine h.twoQueues hsub hother ?_ ?_ ?_ ?_ ?_ (Or.inr ⟨hg, rid, by simp [hf, hm]⟩)
    · simp [hf, hm]
    · intro _
      exact Or.inl (hmem (by simp [hm]))
    · simp [hf, hm]
    · exact Or.inl (by rw [hf])
    · simp [hf, hm]
  | new hn hout =>
    rw [hq] at hf
    rw [htable] at hg
    refine h.twoQueues hsub hother ?_ ?_ ?_ ?_ ?_ (Or.inr ⟨hg, rid, by simp [hf]⟩)
    · simp [hf]
    · intro _
      rcases hout with rfl | rfl
      · left
        have hent := LockWait.id_mem_entered (wait true)
        rw [(hwait true).1] at hent
        exact List.mem_union_iff.mpr (Or.inr hent)
      · exact Or.inr ⟨wait true, rfl, hwait true⟩
    · simp [hf]
    · exact Or.inl (by rw [hf])
    · simp [hf]
  | upgraded hm hout hmodes hkeyed =>
    rw [hq] at hm hkeyed
    rw [htable] at hg
    refine h.twoQueues hsub hother ?_ ?_ ?_ ?_ ?_ (Or.inr ⟨hg, rid, by simp [hf, hmodes]⟩)
    · simp [hf, hmodes]
    · intro _
      exact Or.inl (hmem (by simp [hm]))
    · simp [hf, hmodes]
    · exact Or.inl (by rw [hf, hkeyed])
    · simp [hf, hmodes]
  | conflict hm hup =>
    have hex := hcovered (hcover (Or.inl ⟨hm, hup⟩))
    rw [hq] at hf hm
    rw [htable] at hg
    refine h.twoQueues hsub hother ?_ ?_ ?_ ?_ ?_ (Or.inr ⟨hg, hex⟩)
    · simp [hf, hm]
    · intro _
      exact Or.inl (hmem (by simp [hm]))
    · simp [hf, hm]
    · exact Or.inl (by rw [hf])
    · simp [hf, hm]
  | diesOnRecord hm hw hd =>
    have hex := hcovered (hcover (Or.inr ⟨hm, hw, hd⟩))
    rw [htable] at hg
    refine h.twoQueues hsub hother ?_ ?_ ?_ ?_ ?_ (Or.inr ⟨hg, hex⟩) <;>
      simp [hf, Footprint.nothing]
  | diesOnTable hm hmodes hkeyed =>
    rw [hq] at hm hkeyed
    refine h.twoQueues hsub hother ?_ ?_ ?_ ?_ ?_ (Or.inl hg)
    · simp [hf, hmodes]
    · intro _
      exact Or.inl (hmem (by simp [hm]))
    · simp [hf, hmodes]
    · exact Or.inl (by rw [hf, hkeyed])
    · simp [hf, hmodes]
  | newDiesOnTable hn hw hd hgap hdt => exact absurd ⟨hgap, hdt⟩ (hnew hn hw hd)

end Accounted

def LockDataId.fd : LockDataId → Fd
  | .table fd | .record fd _ => fd

namespace LockState

def feet (s : LockState κ) (t : TxnId) (id : LockDataId) : Footprint := (s.queue id).footprint t

theorem feet_eq (s : LockState κ) (t : TxnId) (id : LockDataId) :
    s.feet t id = s.locks.footprint id t := rfl

/-- A transaction whose `commit` or `abort` has released its whole lock set has no request, and
so no gap, no insert key and no upgrade in any queue. -/
def NoResidue (s : LockState κ) : Prop :=
  ∀ t, s.phase t = .finishing → s.lockSet t = [] → ∀ id,
    (∀ r ∈ (s.queue id).requestQueue, r.txnId ≠ t) ∧
    (∀ k ∈ (s.queue id).insertKeys, k.txnId ≠ t) ∧ (s.queue id).upgrading ≠ some t

def AccountInv (s : LockState κ) : Prop := ∀ t, Accounted (s.phase t) (s.lockSet t) (s.feet t)

theorem AccountInv.noResidue {s : LockState κ} (hi : s.AccountInv) : s.NoResidue := by
  intro t hp hset id
  have hacc := hi t
  rw [hp, hset] at hacc
  have hnothing : (s.queue id).footprint t = .nothing := hacc.nothing_left id
  refine ⟨fun r hr hrt => ?_, fun k hk hkt => ?_, fun hup => ?_⟩
  · have hmodes : r.lockMode ∈ ((s.queue id).footprint t).modes := by
      refine List.mem_map.mpr ⟨r, ?_, rfl⟩
      simp [LockRequestQueue.own, hr, hrt]
    simp [hnothing, Footprint.nothing] at hmodes
  · have hkeyed : ((s.queue id).footprint t).keyed = true := by
      simp only [LockRequestQueue.footprint, List.any_eq_true, decide_eq_true_eq]
      exact ⟨k, hk, hkt⟩
    simp [hnothing, Footprint.nothing] at hkeyed
  · have hupgrades : ((s.queue id).footprint t).upgrades = true := by
      simp [LockRequestQueue.footprint, hup]
    simp [hnothing, Footprint.nothing] at hupgrades

theorem accountInv_fresh : (fresh : LockState κ).AccountInv := by
  intro t
  have hfeet : ∀ id, (fresh : LockState κ).feet t id = .nothing := fun id =>
    footprint_empty t
  constructor <;> simp [hfeet, Footprint.nothing]

/-- Another record of the table than `rid` is in the lock set of `t` and locked by it in EXLUCSIVE
mode: its `unlock` takes all insert keys of `t` on the table. -/
def HoldsOther (s : LockState κ) (t : TxnId) (fd : Fd) (rid : Rid) : Prop :=
  ∃ id ∈ s.lockSet t, id ≠ .table fd ∧ id ≠ .record fd rid ∧ id.fd = fd ∧
    LockMode.exlucsive ∈ ((s.queue id).footprint t).modes

/-- The steps after which a transaction can still give back all it has in the queues. -/
def KeepsAccount [LinearOrder κ] (s : LockState κ) : LockEv κ → Prop
  | .lockExclusiveOnRecordGap t fd rid index key =>
    let queueRec := s.queue (.record fd rid)
    let queueTable := s.queue (.table fd)
    let waits := queueRec.otherGranted t = true ∨ queueTable.keyInGap t index key = true
    -- an upgrade conflict, or `wait_die` on the record, leaves the insert key with the table
    ((queueRec.footprint t).modes = [.shared] ∧ queueRec.upgrading ≠ none ∨
      (queueRec.footprint t).modes ≠ [.exlucsive] ∧ waits ∧ queueRec.dies t = true →
        s.HoldsOther t fd rid) ∧
    -- `wait_die` on the table leaves the new request with the record
    (queueRec.find t = none → waits → queueRec.dies t = false →
      ¬ (queueTable.groupMode = .gap ∧ queueTable.dies t = true))
  | .lockSharedOnRecord t fd rid =>
    let queueRec := s.queue (.record fd rid)
    -- a second request beside the first
    (queueRec.find t ≠ none → queueRec.groupMode = .x ∨ queueRec.groupMode = .s) ∧
    -- `wait_die` takes the exclusive request that the insert keys come with
    (.exlucsive ∈ (queueRec.footprint t).modes → queueRec.groupMode = .x →
      queueRec.otherHoldsX t = true → queueRec.dies t = true → s.HoldsOther t fd rid)
  | .lockIXOnTable t fd =>
    let queueTable := s.queue (.table fd)
    queueTable.find t ≠ none → queueTable.groupMode = .gap ∨ queueTable.groupMode = .ix ∨
      queueTable.groupMode = .is ∨ queueTable.groupMode = .tabX
  | .unlock t (.record fd rid) =>
    let queueRec := s.queue (.record fd rid)
    -- out of group mode X the insert keys are left where they are
    .exlucsive ∈ (queueRec.footprint t).modes → ((s.queue (.table fd)).footprint t).keyed = true →
      queueRec.groupMode = .x ∨ s.HoldsOther t fd rid
  | _ => True

theorem HoldsOther.exists_record {s : LockState κ} {t : TxnId} {fd : Fd} {rid : Rid}
    (h : s.HoldsOther t fd rid) :
    ∃ rid', rid' ≠ rid ∧ LockMode.exlucsive ∈ (s.feet t (.record fd rid')).modes := by
  obtain ⟨id, _, htable, hrec, hfd, hm⟩ := h
  cases id with
  | table fd' =>
    obtain rfl : fd' = fd := hfd
    exact absurd rfl htable
  | record fd' rid' =>
    obtain rfl : fd' = fd := hfd
    exact ⟨rid', fun he => hrec (he ▸ rfl), hm⟩

/-- A step of `t` that leaves the others alone. -/
theorem AccountInv.of_self {s s' : LockState κ} (hi : s.AccountInv) {t : TxnId}
    (hphase : ∀ u, u ≠ t → s'.phase u = s.phase u)
    (hset : ∀ u, u ≠ t → s'.lockSet u = s.lockSet u)
    (hfeet : ∀ u, u ≠ t → ∀ id, s'.feet u id = s.feet u id)
    (hself : Accounted (s'.phase t) (s'.lockSet t) (s'.feet t)) : s'.AccountInv := by
  intro u
  by_cases hu : u = t
  · rw [hu]
    exact hself
  · have hsame : s'.feet u = s.feet u := funext (hfeet u hu)
    rw [hphase u hu, hset u hu, hsame]
    exact hi u

theorem finishCall_lockSet_self (s : LockState κ) (t : TxnId) (wait : Bool → LockWait κ)
    (out : Outcome) : (s.finishCall t wait out).lockSet t = out.lockSet wait (s.lockSet t) := by
  cases out with
  | returns enters => cases enters <;> simp [finishCall, hold, enter, Outcome.lockSet]
  | waits isNew => rfl
  | aborts => rfl

theorem finishCall_lockSet_other {s : LockState κ} {t u : TxnId} (hu : u ≠ t)
    (wait : Bool → LockWait κ) (out : Outcome) :
    (s.finishCall t wait out).lockSet u = s.lockSet u := by
  cases out with
  | returns enters => cases enters <;> simp [finishCall, hold, enter, hu]
  | waits isNew => rfl
  | aborts => rfl

theorem finishCall_feet (s : LockState κ) (t : TxnId) (wait : Bool → LockWait κ) (out : Outcome)
    (u : TxnId) : (s.finishCall t wait out).feet u = s.feet u := by
  funext id
  simp [feet]

/-- `abort` calculates the gaps of a table again: the account has no bounds in it. -/
theorem AccountInv.calculateGaps {s : LockState κ} (hi : s.AccountInv) (id : LockDataId)
    (bounds : Nat → Nat → κ × κ) :
    (s.put id ((s.queue id).calculateGaps bounds)).AccountInv := by
  intro t
  have hfeet : (s.put id ((s.queue id).calculateGaps bounds)).feet t = s.feet t := by
    funext x
    by_cases hx : x = id
    · rw [hx, feet, queue_put_self, LockRequestQueue.footprint_calculateGaps, feet]
    · rw [feet, queue_put_other hx, feet]
  rw [hfeet]
  exact hi t

/-- A call on one queue. -/
theorem AccountInv.call {s : LockState κ} (hi : s.AccountInv) {t : TxnId}
    (ht : s.phase t = .running) {id : LockDataId} {q : LockRequestQueue κ} {m : LockMode}
    {out : Outcome} {wait : Bool → LockWait κ}
    (hwait : ∀ b, (wait b).id = id ∧ (wait b).isNew = b)
    (hothers : ∀ u, u ≠ t → q.footprint u = (s.queue id).footprint u)
    (hends : Footprint.CallEnds m ((s.queue id).footprint t) (q.footprint t) out)
    (htables : ∀ fd, ((s.put id q).feet t (.table fd)).keyed = true →
      ∃ rid, .exlucsive ∈ ((s.put id q).feet t (.record fd rid)).modes)
    (hrecords : ∀ fd rid, id = .record fd rid →
      ∀ m ∈ (q.footprint t).modes, m = .shared ∨ m = .exlucsive) :
    ((s.put id q).finishCall t wait out).AccountInv := by
  have hput : ∀ u x, x ≠ id → (s.put id q).feet u x = s.feet u x := by
    intro u x hx
    rw [feet, queue_put_other hx, feet]
  have hid : ∀ u, (s.put id q).feet u id = q.footprint u := by
    intro u
    rw [feet, queue_put_self]
  refine hi.of_self (t := t) (fun u hu => finishCall_phase_other hu wait out)
    (fun u hu => finishCall_lockSet_other hu wait out) (fun u hu x => ?_) ?_
  · rw [finishCall_feet]
    by_cases hx : x = id
    · rw [hx, hid, hothers u hu, feet]
    · exact hput u x hx
  · have hold := hi t
    rw [ht] at hold
    rw [finishCall_feet, finishCall_lockSet_self,
      finishCall_phase_self (s := s.put id q) ht]
    refine hold.call (m := m) hwait (fun x hx => hput t x hx) ?_ htables ?_
    · rw [hid]
      exact hends
    · rw [hid]
      exact hrecords

/-- A call on a table. -/
theorem AccountInv.tableCall {s : LockState κ} (hi : s.AccountInv) {t : TxnId}
    (ht : s.phase t = .running) {fd : Fd} {q : LockRequestQueue κ} {m : LockMode} {out : Outcome}
    {wait : Bool → LockWait κ} (hwait : ∀ b, (wait b).id = .table fd ∧ (wait b).isNew = b)
    (hothers : ∀ u, u ≠ t → q.footprint u = (s.queue (.table fd)).footprint u)
    (hends : Footprint.CallEnds m ((s.queue (.table fd)).footprint t) (q.footprint t) out) :
    ((s.put (.table fd) q).finishCall t wait out).AccountInv := by
  refine hi.call ht hwait hothers hends (fun fd' hk => ?_) (by simp)
  have hrecord : ∀ rid, (s.put (.table fd) q).feet t (.record fd' rid) =
      s.feet t (.record fd' rid) := by
    intro rid
    rw [feet, queue_put_other (by simp), feet]
  have hkeyed : (s.feet t (.table fd')).keyed = true := by
    by_cases hfd : fd' = fd
    · subst hfd
      rw [feet, queue_put_self] at hk
      cases out with
      | returns enters =>
        cases enters with
        | true =>
          rw [hends.2] at hk
          exact hk
        | false => exact hends.2.2 ▸ hk
      | waits isNew =>
        cases isNew with
        | true =>
          rw [hends.2] at hk
          exact hk
        | false => exact hends.2.2 ▸ hk
      | aborts =>
        rcases hends with heq | heq
        · simp [heq, Footprint.nothing] at hk
        · rw [heq] at hk
          exact hk
    · rw [feet, queue_put_other (by simpa using hfd)] at hk
      exact hk
  obtain ⟨rid, hrid⟩ := (hi t).tables fd' hkeyed
  exact ⟨rid, by rw [hrecord]; exact hrid⟩

theorem AccountInv.shared {s : LockState κ} (hi : s.AccountInv) {t : TxnId}
    (ht : s.phase t = .running) {fd : Fd} {rid : Rid}
    (hmode : (s.queue (.record fd rid)).find t ≠ none →
      (s.queue (.record fd rid)).groupMode = .x ∨ (s.queue (.record fd rid)).groupMode = .s)
    (hcover : .exlucsive ∈ ((s.queue (.record fd rid)).footprint t).modes →
      (s.queue (.record fd rid)).groupMode = .x →
      (s.queue (.record fd rid)).otherHoldsX t = true →
      (s.queue (.record fd rid)).dies t = true → s.HoldsOther t fd rid) :
    ((s.put (.record fd rid) ((s.queue (.record fd rid)).lockSharedOnRecord t).1).finishCall t
      (.shared fd rid) ((s.queue (.record fd rid)).lockSharedOnRecord t).2).AccountInv := by
  obtain ⟨hends, hsame, haborts⟩ := lockSharedOnRecord_ends hmode
  refine hi.call ht (LockWait.shared_at fd rid)
    (fun u hu => (lockSharedOnRecord_frame _ t).footprint hu) hends (fun fd' hk => ?_) ?_
  · rw [feet, queue_put_other (by simp)] at hk
    obtain ⟨rid', hrid⟩ := (hi t).tables fd' hk
    by_cases hid : LockDataId.record fd' rid' = .record fd rid
    · cases hid
      have hne : (s.queue (.record fd rid)).find t ≠ none := by
        intro hn
        rw [feet, modes_eq_nil.mpr hn] at hrid
        simp at hrid
      by_cases ha : ((s.queue (.record fd rid)).lockSharedOnRecord t).2 = .aborts
      · obtain ⟨hx, hd, ho⟩ := haborts ha
        obtain ⟨rid'', hne', hm⟩ := (hcover hrid hx (ho hne) hd).exists_record
        refine ⟨rid'', ?_⟩
        rw [feet, queue_put_other (by simpa using hne')]
        exact hm
      · refine ⟨rid, ?_⟩
        rw [feet, queue_put_self, hsame ha hne]
        exact hrid
    · exact ⟨rid', by rw [feet, queue_put_other hid]; exact hrid⟩
  · rintro fd' rid' hid m hm
    by_cases hn : (s.queue (.record fd rid)).find t = none
    · generalize ((s.queue (.record fd rid)).lockSharedOnRecord t).2 = out at hends
      rcases out with (_ | _) | (_ | _) | _
      · exact absurd (modes_eq_nil.mpr hn) hends.1
      · rw [hends.2] at hm
        exact Or.inl (by simpa using hm)
      · exact absurd (modes_eq_nil.mpr hn) hends.1
      · rw [hends.2] at hm
        exact Or.inl (by simpa using hm)
      · rcases hends with heq | heq
        · simp [heq, Footprint.nothing] at hm
        · rw [heq, modes_eq_nil.mpr hn] at hm
          simp at hm
    · by_cases ha : ((s.queue (.record fd rid)).lockSharedOnRecord t).2 = .aborts
      · rw [ha] at hends
        rcases hends with heq | heq
        · simp [heq, Footprint.nothing] at hm
        · rw [heq] at hm
          exact (hi t).records fd rid m hm
      · rw [hsame ha hn] at hm
        exact (hi t).records fd rid m hm

section Order

variable [LinearOrder κ]

theorem AccountInv.exclusiveGap {s : LockState κ} (hi : s.AccountInv) {t : TxnId}
    (ht : s.phase t = .running) {fd : Fd} {rid : Rid} {index : IndexId} {key : κ}
    (hgood : s.KeepsAccount (.lockExclusiveOnRecordGap t fd rid index key)) :
    (((s.put (.record fd rid) ((s.queue (.record fd rid)).lockExclusiveOnRecordGap
      (s.queue (.table fd)) t rid index key).1).put (.table fd)
      ((s.queue (.record fd rid)).lockExclusiveOnRecordGap (s.queue (.table fd)) t rid index
        key).2.1).finishCall t (.exclusiveGap fd rid index key)
      ((s.queue (.record fd rid)).lockExclusiveOnRecordGap (s.queue (.table fd)) t rid index
        key).2.2).AccountInv := by
  have hends := exclusiveOnRecord_footprint ((hi t).single (.record fd rid))
    ((hi t).records fd rid)
    { s.queue (.table fd) with insertKeys := (s.queue (.table fd)).insertKeys ++
        [⟨key, index, t, rid, (s.queue (.table fd)).keyInGap t index key⟩] }
    ((s.queue (.table fd)).keyInGap t index key)
  have hothers := lockExclusiveOnRecordGap_frame (s.queue (.record fd rid))
    (s.queue (.table fd)) t rid index key
  have hcall : (s.queue (.record fd rid)).exclusiveOnRecord
      { s.queue (.table fd) with insertKeys := (s.queue (.table fd)).insertKeys ++
        [⟨key, index, t, rid, (s.queue (.table fd)).keyInGap t index key⟩] } t
      ((s.queue (.table fd)).keyInGap t index key) =
        (s.queue (.record fd rid)).lockExclusiveOnRecordGap (s.queue (.table fd)) t rid index
          key := rfl
  rw [hcall] at hends
  generalize (s.queue (.record fd rid)).lockExclusiveOnRecordGap (s.queue (.table fd)) t rid
    index key = result at hends hothers ⊢
  obtain ⟨queueRec, queueTable, out⟩ := result
  dsimp only at hends hothers ⊢
  have hrec : ∀ u, ((s.put (.record fd rid) queueRec).put (.table fd) queueTable).feet u
      (.record fd rid) = queueRec.footprint u := by
    intro u
    rw [feet, queue_put_other (by simp), queue_put_self]
  have htab : ∀ u, ((s.put (.record fd rid) queueRec).put (.table fd) queueTable).feet u
      (.table fd) = queueTable.footprint u := by
    intro u
    rw [feet, queue_put_self]
  have helse : ∀ u x, x ≠ .record fd rid → x ≠ .table fd →
      ((s.put (.record fd rid) queueRec).put (.table fd) queueTable).feet u x = s.feet u x := by
    intro u x hr hx
    rw [feet, queue_put_other hx, queue_put_other hr, feet]
  refine hi.of_self (t := t) (fun u hu => finishCall_phase_other hu _ out)
    (fun u hu => finishCall_lockSet_other hu _ out) (fun u hu x => ?_) ?_
  · rw [finishCall_feet]
    by_cases hr : x = .record fd rid
    · rw [hr, hrec, hothers.1.footprint hu, feet]
    · by_cases hx : x = .table fd
      · rw [hx, htab, hothers.2.footprint hu, feet]
      · exact helse u x hr hx
  · have hold := hi t
    rw [ht] at hold
    rw [finishCall_feet, finishCall_lockSet_self,
      finishCall_phase_self (s := (s.put _ _).put _ _) ht]
    rw [← hrec, ← htab] at hends
    refine hold.exclusiveGap (LockWait.exclusiveGap_at fd rid index key) (helse t) rfl ?_ hends
      (fun h => (hgood.1 h).exists_record) hgood.2
    simp [LockRequestQueue.footprint, feet, LockRequestQueue.own]

omit [LinearOrder κ] in
theorem resume_footprint_other (w : LockWait κ) (r : LockRequest κ) (q : LockRequestQueue κ)
    {t u : TxnId} (hu : u ≠ t) : (w.resume r q t).footprint u = q.footprint u := by
  unfold LockWait.resume
  split <;> first | rfl | exact ((CallFrame.refl _ _).clearUpgrading).footprint hu

omit [LinearOrder κ] in
theorem resume_footprint_self (w : LockWait κ) (r : LockRequest κ) (q : LockRequestQueue κ)
    (t : TxnId) : ((w.resume r q t).footprint t).modes = (q.footprint t).modes ∧
      (((w.resume r q t).footprint t).upgrades = true → (q.footprint t).upgrades = true) ∧
      ((w.resume r q t).footprint t).keyed = (q.footprint t).keyed := by
  have hclear : ∀ q₁ : LockRequestQueue κ,
      ((q₁.clearUpgrading t).footprint t).modes = (q₁.footprint t).modes ∧
      (((q₁.clearUpgrading t).footprint t).upgrades = true → (q₁.footprint t).upgrades = true) ∧
      ((q₁.clearUpgrading t).footprint t).keyed = (q₁.footprint t).keyed := by
    intro q₁
    rw [footprint_clearUpgrading_self]
    simp
  unfold LockWait.resume
  split <;> first | exact ⟨rfl, id, rfl⟩ | exact hclear _

omit [LinearOrder κ] in
theorem AccountInv.wake {s : LockState κ} (hi : s.AccountInv) {t : TxnId} {w : LockWait κ}
    {r : LockRequest κ} (hp : s.phase t = .waiting w) (keys : List (HeldKey κ)) :
    ((((s.put w.id (w.resume r (s.queue w.id) t)).setPhase t .running).enter t
      (if w.isNew then w.entered else [])).hold keys).AccountInv := by
  have hfeet : ∀ u x, ((((s.put w.id (w.resume r (s.queue w.id) t)).setPhase t .running).enter t
      (if w.isNew then w.entered else [])).hold keys).feet u x =
        (s.put w.id (w.resume r (s.queue w.id) t)).feet u x := fun _ _ => rfl
  have hother : ∀ u x, x ≠ w.id →
      (s.put w.id (w.resume r (s.queue w.id) t)).feet u x = s.feet u x := by
    intro u x hx
    rw [feet, queue_put_other hx, feet]
  have hself : ∀ x, ((s.put w.id (w.resume r (s.queue w.id) t)).feet t x).modes =
        (s.feet t x).modes ∧
      (((s.put w.id (w.resume r (s.queue w.id) t)).feet t x).upgrades = true →
        (s.feet t x).upgrades = true) ∧
      ((s.put w.id (w.resume r (s.queue w.id) t)).feet t x).keyed = (s.feet t x).keyed := by
    intro x
    by_cases hx : x = w.id
    · subst hx
      rw [feet, queue_put_self]
      exact resume_footprint_self w r (s.queue w.id) t
    · rw [hother t x hx]
      exact ⟨rfl, id, rfl⟩
  refine hi.of_self (t := t) (fun u hu => ?_) (fun u hu => ?_) (fun u hu x => ?_) ?_
  · simp [hold, enter, setPhase, hu]
  · simp [hold, enter, setPhase, put, hu]
  · rw [hfeet]
    by_cases hx : x = w.id
    · subst hx
      rw [feet, queue_put_self, resume_footprint_other w r _ hu, feet]
    · exact hother u x hx
  · have hold := hi t
    rw [hp] at hold
    have hset : ((((s.put w.id (w.resume r (s.queue w.id) t)).setPhase t .running).enter t
        (if w.isNew then w.entered else [])).hold keys).lockSet t =
          s.lockSet t ∪ (if w.isNew then w.entered else []) := by
      simp [LockState.hold, enter, setPhase, put]
    refine ⟨fun x => ?_, fun x hx => Or.inl ?_, fun x hx => ?_, fun fd hk => ?_, fun fd rid => ?_,
      fun fd rid m hm => ?_⟩
    · rw [hfeet, (hself x).1]
      exact hold.single x
    · rw [hfeet, (hself x).1] at hx
      rw [hset]
      rcases hold.listed x hx with hid | ⟨w', hw, rfl, hnew⟩
      · exact List.mem_union_iff.mpr (Or.inl hid)
      · cases hw
        rw [if_pos hnew]
        exact List.mem_union_iff.mpr (Or.inr (LockWait.id_mem_entered w))
    · rw [hfeet] at hx ⊢
      rw [(hself x).1]
      exact hold.upgrades x ((hself x).2.1 hx)
    · rw [hfeet, (hself _).2.2] at hk
      obtain ⟨rid, hrid⟩ := hold.tables fd hk
      exact ⟨rid, by rw [hfeet, (hself _).1]; exact hrid⟩
    · rw [hfeet, (hself _).2.2]
      exact hold.unkeyed fd rid
    · rw [hfeet, (hself _).1] at hm
      exact hold.records fd rid m hm

omit [LinearOrder κ] in
theorem AccountInv.finish {s : LockState κ} (hi : s.AccountInv) {t : TxnId}
    (ht : s.phase t = .running) : (s.setPhase t .finishing).AccountInv := by
  refine hi.of_self (t := t) (fun u hu => by simp [setPhase, hu]) (fun _ _ => rfl)
    (fun _ _ _ => rfl) ?_
  have hold := hi t
  rw [ht] at hold
  refine ⟨hold.single, fun id hne => ?_, hold.upgrades, hold.tables, hold.unkeyed, hold.records⟩
  rcases hold.listed id hne with hid | ⟨w, hw, _⟩
  · exact Or.inl hid
  · cases hw

theorem AccountInv.unlockTable {s : LockState κ} (hi : s.AccountInv) {t : TxnId} {fd : Fd}
    {locks : Locks κ} (ht : s.phase t = .finishing)
    (hu : Grmdb.unlockTable s.locks t fd = some locks) :
    LockState.AccountInv { s with
      locks := locks
      lockSet := fun x => if x = t then (s.lockSet x).erase (.table fd) else s.lockSet x } := by
  have hspec := unlockTable_footprint hu fun u => (hi u).upgrades (.table fd)
  refine hi.of_self (t := t) (fun _ _ => rfl) (fun u hne => by simp [hne])
    (fun u hne id => hspec.frame u id (Or.inl hne)) ?_
  have hold := hi t
  rw [ht] at hold
  have hnil : (locks.footprint (.table fd) t).modes = [] := by
    rw [hspec.modes]
    have hlen := hold.single (.table fd)
    rw [feet_eq] at hlen
    cases hm : (s.locks.footprint (.table fd) t).modes with
    | nil => rfl
    | cons a rest =>
      rw [hm] at hlen
      simpa using hlen
  have helse : ∀ id, id ≠ .table fd → locks.footprint id t = s.feet t id :=
    fun id hid => hspec.frame t id (Or.inr hid)
  show Accounted (s.phase t) (if t = t then (s.lockSet t).erase (.table fd) else s.lockSet t)
    (fun id => locks.footprint id t)
  rw [if_pos rfl, ht]
  refine ⟨fun id => ?_, fun id hne => Or.inl ?_, fun id hup => ?_, fun fd' hk => ?_,
    fun fd' rid => ?_, fun fd' rid m hm => ?_⟩
  · by_cases hid : id = .table fd
    · simp [hid, hnil]
    · simpa only [helse id hid] using hold.single id
  · by_cases hid : id = .table fd
    · subst hid
      exact absurd hnil hne
    · have hne' : (s.feet t id).modes ≠ [] := by simpa only [helse id hid] using hne
      rcases hold.listed id hne' with hmem | ⟨w, hw, _⟩
      · exact (List.mem_erase_of_ne hid).mpr hmem
      · cases hw
  · by_cases hid : id = .table fd
    · subst hid
      rw [hspec.upgrades] at hup
      cases hup
    · simp only [helse id hid] at hup ⊢
      exact hold.upgrades id hup
  · have hkeyed : (s.feet t (.table fd')).keyed = true := by
      by_cases hfd : fd' = fd
      · subst hfd
        exact hspec.keyed hk
      · have h := helse (.table fd') (by simpa using hfd)
        simpa only [h] using hk
    obtain ⟨rid, hrid⟩ := hold.tables fd' hkeyed
    refine ⟨rid, ?_⟩
    simpa only [helse (.record fd' rid) (by simp)] using hrid
  · simpa only [helse (.record fd' rid) (by simp)] using hold.unkeyed fd' rid
  · simp only [helse (.record fd' rid) (by simp)] at hm
    exact hold.records fd' rid m hm

omit [LinearOrder κ] in
theorem AccountInv.unlockRecord {s : LockState κ} (hi : s.AccountInv) {t : TxnId} {fd : Fd}
    {rid : Rid} (ht : s.phase t = .finishing)
    (hgood : .exlucsive ∈ ((s.queue (.record fd rid)).footprint t).modes →
      ((s.queue (.table fd)).footprint t).keyed = true →
      (s.queue (.record fd rid)).groupMode = .x ∨ s.HoldsOther t fd rid) :
    LockState.AccountInv { s with
      locks := Grmdb.unlockRecord s.locks t fd rid
      lockSet := fun x =>
        if x = t then (s.lockSet x).erase (.record fd rid) else s.lockSet x } := by
  have hspec := unlockRecord_footprint (t := t) fun u => (hi u).upgrades (.record fd rid)
  generalize Grmdb.unlockRecord s.locks t fd rid = locks at hspec ⊢
  refine hi.of_self (t := t) (fun _ _ => rfl) (fun u hne => by simp [hne])
    (fun u hne id => hspec.frame u id (Or.inl hne)) ?_
  have hold := hi t
  rw [ht] at hold
  have hnil : (locks.footprint (.record fd rid) t).modes = [] := by
    rw [hspec.modes]
    have hlen := hold.single (.record fd rid)
    rw [feet_eq] at hlen
    cases hm : (s.locks.footprint (.record fd rid) t).modes with
    | nil => rfl
    | cons a rest =>
      rw [hm] at hlen
      simpa using hlen
  have helse : ∀ id, id ≠ .record fd rid → id ≠ .table fd →
      locks.footprint id t = s.feet t id := fun id hr hx => hspec.frame t id (Or.inr ⟨hr, hx⟩)
  have hmodes : ∀ id, id ≠ .record fd rid →
      (locks.footprint id t).modes = (s.feet t id).modes := by
    intro id hr
    by_cases hx : id = .table fd
    · subst hx
      exact hspec.table.1
    · rw [helse id hr hx]
  show Accounted (s.phase t)
    (if t = t then (s.lockSet t).erase (.record fd rid) else s.lockSet t)
    (fun id => locks.footprint id t)
  rw [if_pos rfl, ht]
  refine ⟨fun id => ?_, fun id hne => Or.inl ?_, fun id hup => ?_, fun fd' hk => ?_,
    fun fd' rid' => ?_, fun fd' rid' m hm => ?_⟩
  · by_cases hid : id = .record fd rid
    · simp [hid, hnil]
    · rw [hmodes id hid]
      exact hold.single id
  · by_cases hid : id = .record fd rid
    · subst hid
      exact absurd hnil hne
    · rw [hmodes id hid] at hne
      rcases hold.listed id hne with hmem | ⟨w, hw, _⟩
      · exact (List.mem_erase_of_ne hid).mpr hmem
      · cases hw
  · by_cases hid : id = .record fd rid
    · subst hid
      rw [hspec.upgrades] at hup
      cases hup
    · rw [hmodes id hid]
      refine hold.upgrades id ?_
      by_cases hx : id = .table fd
      · subst hx
        exact hspec.table.2 ▸ hup
      · rw [helse id hid hx] at hup
        exact hup
  · -- the keys come with an exclusive request on a record that is not this one
    have hother : ∃ rid', rid' ≠ rid ∧ .exlucsive ∈ (s.feet t (.record fd' rid')).modes ∨
        fd' ≠ fd ∧ .exlucsive ∈ (s.feet t (.record fd' rid')).modes := by
      by_cases hfd : fd' = fd
      · subst hfd
        obtain ⟨hkeyed, hgroup⟩ := hspec.keys hk
        obtain ⟨rid', hrid⟩ := hold.tables fd' hkeyed
        by_cases hr : rid' = rid
        · subst hr
          have hne : (s.locks.footprint (.record fd' rid') t).modes ≠ [] :=
            List.ne_nil_of_mem hrid
          rcases hgood hrid hkeyed with hx | hh
          · exact absurd hx (hgroup hne)
          · obtain ⟨rid'', hne', hm⟩ := hh.exists_record
            exact ⟨rid'', Or.inl ⟨hne', hm⟩⟩
        · exact ⟨rid', Or.inl ⟨hr, hrid⟩⟩
      · rw [helse _ (by simp) (by simpa using hfd)] at hk
        obtain ⟨rid', hrid⟩ := hold.tables fd' hk
        exact ⟨rid', Or.inr ⟨hfd, hrid⟩⟩
    obtain ⟨rid', hrid⟩ := hother
    refine ⟨rid', ?_⟩
    rcases hrid with ⟨hr, hm⟩ | ⟨hfd, hm⟩
    · rw [hmodes _ (by simp [hr])]
      exact hm
    · rw [hmodes _ (by simp [hfd])]
      exact hm
  · by_cases hr : LockDataId.record fd' rid' = .record fd rid
    · rw [hr]
      by_contra hc
      have hkeyed := hspec.keyed (by simpa using hc)
      rw [← feet_eq, hold.unkeyed fd rid] at hkeyed
      cases hkeyed
    · rw [helse _ hr (by simp)]
      exact hold.unkeyed fd' rid'
  · by_cases hr : LockDataId.record fd' rid' = .record fd rid
    · rw [hr, hnil] at hm
      simp at hm
    · rw [hmodes _ hr] at hm
      exact hold.records fd' rid' m hm

theorem accountInv_step {s s' : LockState κ} {e : LockEv κ} (hi : s.AccountInv)
    (hgood : s.KeepsAccount e) (h : s.step e = some s') : s'.AccountInv := by
  cases e with
  | lockSharedOnRecord t fd rid =>
    simp only [step] at h
    split at h
    next ht =>
      cases Option.some.inj h
      exact hi.shared ht hgood.1 hgood.2
    next => simp at h
  | lockExclusiveOnRecordGap t fd rid index key =>
    simp only [step] at h
    split at h
    next ht =>
      cases Option.some.inj h
      exact hi.exclusiveGap ht hgood
    next => simp at h
  | lockGAPOnTable t fd lower upper index =>
    simp only [step] at h
    split at h
    next ht =>
      cases Option.some.inj h
      exact hi.tableCall ht (fun b => ⟨rfl, rfl⟩)
        (fun u hu => (lockGAPOnTable_frame _ t lower upper index).footprint hu)
        (lockGAPOnTable_ends lower upper index)
    next => simp at h
  | lockISOnTable t fd =>
    simp only [step] at h
    split at h
    next ht =>
      obtain ⟨⟨q, out⟩, hcall, rfl⟩ := Option.map_eq_some_iff.mp h
      exact hi.tableCall ht (fun b => ⟨rfl, rfl⟩)
        (fun u hu => (lockISOnTable_frame hcall).footprint hu) (lockISOnTable_ends hcall)
    next => simp at h
  | lockIXOnTable t fd =>
    simp only [step] at h
    split at h
    next ht =>
      cases Option.some.inj h
      exact hi.tableCall ht (fun b => ⟨rfl, rfl⟩) (fun u hu => (lockIXOnTable_frame _ t).footprint hu)
        (lockIXOnTable_ends hgood)
    next => simp at h
  | lockExclusiveOnTable t fd =>
    simp only [step] at h
    split at h
    next ht =>
      cases Option.some.inj h
      exact hi.tableCall ht (fun b => ⟨rfl, rfl⟩)
        (fun u hu => (lockExclusiveOnTable_frame _ t).footprint hu) lockExclusiveOnTable_ends
    next => simp at h
  | wake t =>
    simp only [step] at h
    split at h
    next w hp =>
      split at h
      next r hr =>
        split at h
        next hready =>
          cases Option.some.inj h
          exact hi.wake hp _
        next => simp at h
      next => simp at h
    next => simp at h
  | finish t =>
    simp only [step] at h
    split at h
    next ht =>
      cases Option.some.inj h
      exact hi.finish ht
    next => simp at h
  | unlock t id =>
    simp only [step] at h
    split at h
    next ht =>
      cases id with
      | table fd =>
        obtain ⟨locks, hu, rfl⟩ := Option.map_eq_some_iff.mp h
        exact hi.unlockTable ht.1 hu
      | record fd rid =>
        cases Option.some.inj h
        exact hi.unlockRecord ht.1 hgood
    next => simp at h

/-- Transactions that have committed or aborted leave nothing in the lock table, in every state
that is reached by steps that meet `KeepsAccount`. -/
theorem noResidue_of_keepsAccount {tr : List (LockEv κ)} {s : LockState κ}
    (h : run step fresh tr = some s) (hall : MeetsAll step KeepsAccount fresh tr) :
    s.NoResidue := by
  have hinv : s.AccountInv :=
    run_invariant (fun _ _ _ hi hgood => accountInv_step hi hgood) accountInv_fresh hall h
  exact hinv.noResidue

instance (s : LockState κ) (t : TxnId) (fd : Fd) (rid : Rid) :
    Decidable (s.HoldsOther t fd rid) :=
  inferInstanceAs (Decidable (∃ id ∈ s.lockSet t, _))

instance (s : LockState κ) (e : LockEv κ) : Decidable (s.KeepsAccount e) :=
  match e with
  | .lockExclusiveOnRecordGap _ _ _ _ _ =>
    inferInstanceAs (Decidable ((_ → _) ∧ (_ → _ → _ → _)))
  | .lockSharedOnRecord _ _ _ => inferInstanceAs (Decidable ((_ → _) ∧ (_ → _ → _ → _ → _)))
  | .lockIXOnTable _ _ => inferInstanceAs (Decidable (_ → _))
  | .unlock _ (.record _ _) => inferInstanceAs (Decidable (_ → _ → _))
  | .unlock _ (.table _) | .lockGAPOnTable _ _ _ _ _ | .lockISOnTable _ _
  | .lockExclusiveOnTable _ _ | .wake _ | .finish _ => isTrue trivial

end Order

/-- Transaction 1 dies for the record of 0 while it has another one: the end of that one takes
the insert key that the call has left. -/
def diesHoldingAnother : List (LockEv Int) :=
  [.lockIXOnTable 0 3, .lockIXOnTable 1 3, .lockExclusiveOnRecordGap 0 3 ⟨1, 0⟩ 4 5,
    .lockExclusiveOnRecordGap 1 3 ⟨1, 1⟩ 4 7, .lockExclusiveOnRecordGap 1 3 ⟨1, 0⟩ 4 6,
    .unlock 1 (.table 3), .unlock 1 (.record 3 ⟨1, 1⟩)]

theorem noResidue_diesHoldingAnother : ∃ s, run step fresh diesHoldingAnother = some s ∧
    s.phase 1 = .finishing ∧ s.lockSet 1 = [] ∧
    (s.queue (.table 3)).insertKeys = [⟨5, 4, 0, ⟨1, 0⟩, false⟩] ∧ s.NoResidue :=
  ⟨_, rfl, rfl, rfl, rfl, noResidue_of_keepsAccount
    (show run step fresh diesHoldingAnother = some _ from rfl) (by decide)⟩

/-- Transaction 1 dies for the record of 0, and the `unlock` of the table in group mode IX leaves
its insert key there. -/
def diesForRecord : List (LockEv Int) :=
  [.lockIXOnTable 0 3, .lockIXOnTable 1 3, .lockExclusiveOnRecordGap 0 3 ⟨1, 0⟩ 4 5,
    .lockExclusiveOnRecordGap 1 3 ⟨1, 0⟩ 4 6, .unlock 1 (.table 3)]

theorem not_noResidue_diesForRecord : ∃ s, run step fresh diesForRecord = some s ∧
    s.phase 1 = .finishing ∧ s.lockSet 1 = [] ∧
    (s.queue (.table 3)).insertKeys = [⟨5, 4, 0, ⟨1, 0⟩, false⟩, ⟨6, 4, 1, ⟨1, 0⟩, false⟩] ∧
    ¬ s.NoResidue := by
  refine ⟨_, rfl, rfl, rfl, rfl, fun h => ?_⟩
  exact (h 1 rfl rfl (.table 3)).2.1 ⟨6, 4, 1, ⟨1, 0⟩, false⟩ (by decide) rfl

end LockState

end Grmdb
