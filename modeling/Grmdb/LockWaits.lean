import Grmdb.GrantPass
import Grmdb.LockResidue

namespace Grmdb

variable {κ : Type}

/-- What a call asks for, as its wait shows. -/
def LockWait.fits (w : LockWait κ) (r : LockRequest κ) : Prop :=
  match w with
  | .exclusiveGap _ _ _ _ _ | .exclusive _ _ => r.lockMode = .exlucsive
  | .gap _ _ _ => r.lockMode = .gap ∧ r.gaps ≠ []
  | .shared _ _ _ | .is _ _ | .ix _ _ => True

def LockRequestQueue.ids (q : LockRequestQueue κ) : List TxnId := q.requestQueue.map (·.txnId)

/-- What a call that asks for mode `m` does to the requests of its own transaction; `fits` is
met by the request that it waits with. -/
structure OwnCall (m : LockMode) (fits : LockRequest κ → Prop) (t : TxnId)
    (q q' : LockRequestQueue κ) (out : Outcome) : Prop where
  waits : ∀ b, out = .waits b → q.dies t = false ∧ ∃ r ∈ q'.requestQueue, r.txnId = t ∧ fits r
  modes : ∀ r ∈ q'.requestQueue, r.txnId = t → r.lockMode = m ∨
    ∃ r₀ ∈ q.requestQueue, r₀.txnId = t ∧ r.lockMode = r₀.lockMode
  upgrading : q'.upgrading = some t → q.upgrading = some t ∨
    m = .exlucsive ∧ (out = .aborts ∨ out = .waits false) ∧
      ∀ r ∈ q'.requestQueue, r.txnId = t → r.lockMode = .exlucsive
  ids : q'.ids = q.ids ∨ q'.ids = q.ids ++ [t] ∨ q'.ids = q.ids.filter (· ≠ t)

/-- The wait of an upgrade. -/
def LockWait.upgrades : LockWait κ → Bool
  | .exclusiveGap _ _ _ _ isNew | .exclusive _ isNew => !isNew
  | _ => false

namespace OwnCall

open LockRequestQueue

variable {m : LockMode} {fits : LockRequest κ → Prop} {t : TxnId} {q q' q'' : LockRequestQueue κ}
  {out : Outcome}

theorem imp {fits' : LockRequest κ → Prop} (h : OwnCall m fits t q q' out)
    (hf : ∀ r, fits r → fits' r) : OwnCall m fits' t q q' out := by
  refine ⟨fun b hb => ?_, h.modes, h.upgrading, h.ids⟩
  obtain ⟨hd, r, hr, hrt, hfits⟩ := h.waits b hb
  exact ⟨hd, r, hr, hrt, hf r hfits⟩

theorem refl (h : ∀ b, out ≠ .waits b) : OwnCall m fits t q q out :=
  ⟨fun b hb => absurd hb (h b), fun r hr hrt => Or.inr ⟨r, hr, hrt, rfl⟩, Or.inl, Or.inl rfl⟩

/-- The group mode of the queue before the call does not matter. -/
theorem of_groupMode {group : GroupMode}
    (h : OwnCall m fits t { q with groupMode := group } q' out) : OwnCall m fits t q q' out :=
  ⟨h.waits, h.modes, h.upgrading, h.ids⟩

theorem groupMode (h : OwnCall m fits t q q' out) (group : GroupMode) :
    OwnCall m fits t q { q' with groupMode := group } out :=
  ⟨h.waits, h.modes, h.upgrading, h.ids⟩

theorem push {r : LockRequest κ} (hr : r.txnId = t) (hm : r.lockMode = m)
    (hout : ∀ b, out ≠ .waits b) : OwnCall m fits t q (q.push r) out := by
  refine ⟨fun b hb => absurd hb (hout b), fun o ho hot => ?_, Or.inl,
    Or.inr (Or.inl (by simp [LockRequestQueue.ids, LockRequestQueue.push, hr]))⟩
  rcases List.mem_append.mp ho with ho | ho
  · exact Or.inr ⟨o, ho, hot, rfl⟩
  · rw [List.mem_singleton.mp ho]
    exact Or.inl hm

theorem update {f : LockRequest κ → LockRequest κ} (hid : ∀ r, (f r).txnId = r.txnId)
    (hm : ∀ r, (f r).lockMode = m ∨ (f r).lockMode = r.lockMode) (hout : ∀ b, out ≠ .waits b) :
    OwnCall m fits t q (q.update t f) out := by
  refine ⟨fun b hb => absurd hb (hout b), fun o ho hot => ?_, Or.inl, Or.inl ?_⟩
  · rcases mem_updateFirst ho with ho | ⟨r, hr, rfl⟩
    · exact Or.inr ⟨o, ho, hot, rfl⟩
    · obtain ⟨hmem, hrt⟩ := find_mem hr
      exact (hm r).imp_right fun h => ⟨r, hmem, hrt, h⟩
  · exact map_updateFirst hid

/-- An upgrade, as it starts: the request asks for EXLUCSIVE mode from now on. -/
theorem upgrade {f : LockRequest κ → LockRequest κ} (hsingle : (q.own t).length ≤ 1)
    (hid : ∀ r, (f r).txnId = r.txnId) (hm : ∀ r, (f r).lockMode = .exlucsive) :
    OwnCall .exlucsive fits t q ({ q with upgrading := some t }.update t f) .aborts := by
  have hup : OwnCall .exlucsive fits t q (q.update t f) .aborts :=
    update hid (fun r => Or.inl (hm r)) (by simp)
  refine ⟨by simp, hup.modes, fun _ => Or.inr ⟨rfl, Or.inl rfl, fun r hr hrt => ?_⟩, hup.ids⟩
  have hown : r ∈ (q.update t f).own t := List.mem_filter.mpr ⟨hr, by simpa using hrt⟩
  rw [own_update_self hid] at hown
  cases hq : q.own t with
  | nil => simp [hq] at hown
  | cons a rest =>
    obtain rfl : rest = [] := by simpa [hq] using hsingle
    rw [hq] at hown
    rw [List.mem_singleton.mp hown]
    exact hm a

theorem withdraw (h : OwnCall m fits t q q' out) (hout : ∀ b, out ≠ .waits b) :
    OwnCall m fits t q (q'.withdraw t) out := by
  have hnone : ∀ r ∈ (q'.withdraw t).requestQueue, r.txnId ≠ t := by
    intro r hr
    rw [withdraw_requests] at hr
    simpa using (List.mem_filter.mp hr).2
  have hup := footprint_withdraw_self q' t
  have hids : (q'.withdraw t).ids = q'.ids.filter (· ≠ t) := by
    unfold LockRequestQueue.ids
    rw [withdraw_requests, List.filter_map]
    rfl
  refine ⟨fun b hb => absurd hb (hout b), fun r hr hrt => absurd hrt (hnone r hr), fun hu => ?_,
    ?_⟩
  · have hyes : ((q'.withdraw t).footprint t).upgrades = true := by
      simpa [footprint] using hu
    simp [hup, Footprint.nothing] at hyes
  · rw [hids]
    rcases h.ids with hi | hi | hi <;> rw [hi]
    · exact Or.inr (Or.inr rfl)
    · exact Or.inr (Or.inr (by simp [List.filter_append]))
    · exact Or.inr (Or.inr (by simp [List.filter_filter]))

theorem waiting (h : OwnCall m fits t q q' .aborts) (hd : q.dies t = false)
    (hfits : ∃ r ∈ q'.requestQueue, r.txnId = t ∧ fits r) {isNew : Bool}
    (hnew : isNew = true → q'.upgrading = q.upgrading) :
    OwnCall m fits t q q' (.waits isNew) := by
  refine ⟨fun _ _ => ⟨hd, hfits⟩, h.modes, fun hu => ?_, h.ids⟩
  cases isNew with
  | true => exact Or.inl (hnew rfl ▸ hu)
  | false => exact (h.upgrading hu).imp_right fun h => ⟨h.1, Or.inr rfl, h.2.2⟩

/-- An upgrade that is over at once. -/
theorem upgraded {f : LockRequest κ → LockRequest κ} (group : GroupMode)
    (hid : ∀ r, (f r).txnId = r.txnId) (hm : ∀ r, (f r).lockMode = .exlucsive) {b : Bool} :
    OwnCall .exlucsive fits t q (({ q with upgrading := some t, groupMode := group }.update t
      f).clearUpgrading t) (.returns b) := by
  have hup : OwnCall .exlucsive fits t q (q.update t f) (.returns b) :=
    update hid (fun r => Or.inl (hm r)) (by simp)
  refine ⟨by simp, ?_, by simp [LockRequestQueue.clearUpgrading, LockRequestQueue.update], ?_⟩
  · rw [clearUpgrading_requests]
    exact hup.modes
  · unfold LockRequestQueue.ids
    rw [clearUpgrading_requests]
    exact hup.ids

/-- The two ends of a call that cannot be served at once. -/
theorem orDie (h : OwnCall m fits t q q' .aborts) (hd : q'.dies t = q.dies t)
    (hfits : ∃ r ∈ q'.requestQueue, r.txnId = t ∧ fits r) {isNew : Bool}
    (hnew : isNew = true → q'.upgrading = q.upgrading) :
    OwnCall m fits t q (q'.orDie t isNew).1 (q'.orDie t isNew).2 := by
  unfold LockRequestQueue.orDie
  split
  next => exact h.withdraw (by simp)
  next hno => exact h.waiting (hd ▸ by simpa using hno) hfits hnew

theorem orDieBoth (h : OwnCall m fits t q q' .aborts) (hd : q'.dies t = q.dies t)
    (hfits : ∃ r ∈ q'.requestQueue, r.txnId = t ∧ fits r) (queueTable : LockRequestQueue κ)
    {isNew : Bool} (hnew : isNew = true → q'.upgrading = q.upgrading) : OwnCall m fits t q (q'.orDieBoth queueTable t isNew).1
      (q'.orDieBoth queueTable t isNew).2.2 := by
  unfold LockRequestQueue.orDieBoth
  split
  next => exact h.withdraw (by simp)
  next hno =>
    split
    · exact h
    · exact h.waiting (hd ▸ by simpa using hno) hfits hnew

theorem orDieTableFirst (h : OwnCall m fits t q q' .aborts) (hd : q'.dies t = q.dies t)
    (hfits : ∃ r ∈ q'.requestQueue, r.txnId = t ∧ fits r) (queueTable : LockRequestQueue κ)
    {isNew : Bool} (hnew : isNew = true → q'.upgrading = q.upgrading) : OwnCall m fits t q (q'.orDieTableFirst queueTable t isNew).1
      (q'.orDieTableFirst queueTable t isNew).2.2 := by
  unfold LockRequestQueue.orDieTableFirst
  split
  · exact h
  · split
    · exact h.withdraw (by simp)
    next hno => exact h.waiting (hd ▸ by simpa using hno) hfits hnew

/-- A new request that cannot be granted. -/
theorem pushOrDie {gaps : List (Gap κ)} (hfits : fits ⟨t, m, false, gaps⟩) :
    OwnCall m fits t q ((q.push ⟨t, m, false, gaps⟩).orDie t true).1
      ((q.push ⟨t, m, false, gaps⟩).orDie t true).2 :=
  (push rfl rfl (by simp)).orDie (dies_push q m false gaps)
    ⟨_, List.mem_append_right _ (List.mem_singleton.mpr rfl), rfl, hfits⟩ fun _ => rfl

/-- A request that loses what it has until it is granted more. -/
theorem updateOrDie {f : LockRequest κ → LockRequest κ} {a : LockRequest κ}
    (ha : q.find t = some a) (hid : ∀ r, (f r).txnId = r.txnId)
    (hm : ∀ r, (f r).lockMode = m ∨ (f r).lockMode = r.lockMode) (hfits : fits (f a)) :
    OwnCall m fits t q ((q.update t f).orDie t false).1 ((q.update t f).orDie t false).2 :=
  (update hid hm (by simp)).orDie (dies_update hid)
    ⟨f a, mem_updateFirst_find ha, (hid a).trans (find_mem ha).2, hfits⟩ (by simp)

end OwnCall

namespace LockRequestQueue

variable {q q' : LockRequestQueue κ} {t : TxnId} {out : Outcome}

theorem sharedNew_ownCall (q : LockRequestQueue κ) (t : TxnId) :
    OwnCall .shared (fun _ => True) t q (q.sharedNew t).1 (q.sharedNew t).2 := by
  unfold sharedNew
  split
  · exact OwnCall.of_groupMode (OwnCall.push rfl rfl (by simp))
  · exact OwnCall.pushOrDie trivial

theorem lockSharedOnRecord_ownCall (q : LockRequestQueue κ) (t : TxnId) :
    OwnCall .shared (fun _ => True) t q (q.lockSharedOnRecord t).1
      (q.lockSharedOnRecord t).2 := by
  unfold lockSharedOnRecord
  split
  · exact sharedNew_ownCall q t
  next a ha =>
    split
    · split
      · exact OwnCall.updateOrDie ha (by simp) (by simp) trivial
      · exact OwnCall.update (by simp) (by simp) (by simp)
    · split
      · exact OwnCall.update (by simp) (by simp) (by simp)
      · exact sharedNew_ownCall q t

theorem exclusiveNew_ownCall (q queueTable : LockRequestQueue κ) (t : TxnId) (isWaited : Bool) :
    OwnCall .exlucsive (fun r => r.lockMode = .exlucsive) t q
      (exclusiveOnRecord.exclusiveNew q queueTable t isWaited).1
      (exclusiveOnRecord.exclusiveNew q queueTable t isWaited).2.2 := by
  have hgiven : ∀ b, OwnCall .exlucsive (fun r => r.lockMode = .exlucsive) t q
      ({ q with groupMode := .x }.push ⟨t, .exlucsive, true, []⟩) (.returns b) :=
    fun b => OwnCall.of_groupMode (OwnCall.push rfl rfl (by simp))
  have hwaiting : OwnCall .exlucsive (fun r => r.lockMode = .exlucsive) t q
      (q.push ⟨t, .exlucsive, false, []⟩) .aborts := OwnCall.push rfl rfl (by simp)
  have hmem : ∃ r ∈ (q.push ⟨t, .exlucsive, false, []⟩).requestQueue,
      r.txnId = t ∧ r.lockMode = .exlucsive :=
    ⟨_, List.mem_append_right _ (List.mem_singleton.mpr rfl), rfl, rfl⟩
  unfold exclusiveOnRecord.exclusiveNew
  dsimp only
  split
  · split
    · exact hwaiting.orDieTableFirst (dies_push q _ _ _) hmem queueTable fun _ => rfl
    · exact hgiven true
  · split
    · exact hgiven true
    · exact hwaiting.orDieBoth (dies_push q _ _ _) hmem queueTable fun _ => rfl

theorem exclusiveOnRecord_ownCall (hsingle : (q.own t).length ≤ 1)
    (queueTable : LockRequestQueue κ) (isWaited : Bool) :
    OwnCall .exlucsive (fun r => r.lockMode = .exlucsive) t q
      (q.exclusiveOnRecord queueTable t isWaited).1
      (q.exclusiveOnRecord queueTable t isWaited).2.2 := by
  unfold exclusiveOnRecord
  split
  next a ha =>
    split
    · split
      · exact OwnCall.refl (by simp)
      · dsimp only
        split
        · refine (OwnCall.upgrade hsingle (by simp) (by simp)).orDieBoth ?_ ?_ queueTable (by simp)
          · exact dies_update (q := { q with upgrading := some t }) (by simp)
          · exact ⟨_, mem_updateFirst_find ha, (find_mem ha).2, rfl⟩
        · exact OwnCall.upgraded _ (by simp) (by simp)
    · split
      · exact OwnCall.refl (by simp)
      · exact exclusiveNew_ownCall q queueTable t isWaited
  · exact exclusiveNew_ownCall q queueTable t isWaited

/-- The table queue in a call on a record: the transaction keeps what it has there or loses it
all. -/
theorem orDieBoth_table (q queueTable : LockRequestQueue κ) (t : TxnId) (isNew : Bool)
    {m : LockMode} {fits : LockRequest κ → Prop} :
    OwnCall m fits t queueTable (q.orDieBoth queueTable t isNew).2.1 (.returns true) := by
  unfold orDieBoth
  split
  · exact OwnCall.refl (by simp)
  · split
    · exact OwnCall.withdraw (OwnCall.refl (by simp)) (by simp)
    · exact OwnCall.refl (by simp)

theorem orDieTableFirst_table (q queueTable : LockRequestQueue κ) (t : TxnId) (isNew : Bool)
    {m : LockMode} {fits : LockRequest κ → Prop} :
    OwnCall m fits t queueTable (q.orDieTableFirst queueTable t isNew).2.1 (.returns true) := by
  unfold orDieTableFirst
  split
  · exact OwnCall.withdraw (OwnCall.refl (by simp)) (by simp)
  · split <;> exact OwnCall.refl (by simp)

theorem exclusiveOnRecord_ownTable (q queueTable : LockRequestQueue κ) (t : TxnId) (isWaited : Bool)
    {m : LockMode} {fits : LockRequest κ → Prop} :
    OwnCall m fits t queueTable (q.exclusiveOnRecord queueTable t isWaited).2.1 (.returns true) := by
  have hnew : OwnCall m fits t queueTable
      (exclusiveOnRecord.exclusiveNew q queueTable t isWaited).2.1 (.returns true) := by
    unfold exclusiveOnRecord.exclusiveNew
    dsimp only
    split
    · split
      · exact orDieTableFirst_table _ queueTable t true
      · exact OwnCall.refl (by simp)
    · split
      · exact OwnCall.refl (by simp)
      · exact orDieBoth_table _ queueTable t true
  unfold exclusiveOnRecord
  split
  · split
    · split
      · exact OwnCall.refl (by simp)
      · dsimp only
        split
        · exact orDieBoth_table _ queueTable t false
        · exact OwnCall.refl (by simp)
    · split
      · exact OwnCall.refl (by simp)
      · exact hnew
  · exact hnew

theorem intentionSharedNew_ownCall (h : q.intentionSharedNew t = some (q', out)) :
    OwnCall .intensionShared (fun _ => True) t q q' out := by
  have hgiven : OwnCall .intensionShared (fun _ => True) t q
      (q.push ⟨t, .intensionShared, true, []⟩) (.returns true) := OwnCall.push rfl rfl (by simp)
  unfold intentionSharedNew at h
  dsimp only at h
  split at h
  · cases Option.some.inj h
    exact hgiven.groupMode .is
  · split at h
    · cases Option.some.inj h
      exact hgiven
    · split at h
      · obtain ⟨rfl, rfl⟩ := Prod.ext_iff.mp (Option.some.inj h)
        exact OwnCall.pushOrDie trivial
      · cases h

theorem lockISOnTable_ownCall (h : q.lockISOnTable t = some (q', out)) :
    OwnCall .intensionShared (fun _ => True) t q q' out := by
  unfold lockISOnTable at h
  split at h
  · exact intentionSharedNew_ownCall h
  next a ha =>
    split at h
    · cases Option.some.inj h
      exact OwnCall.update (by simp) (by simp) (by simp)
    · split at h
      · split at h
        · obtain ⟨rfl, rfl⟩ := Prod.ext_iff.mp (Option.some.inj h)
          exact OwnCall.updateOrDie ha (by simp) (by simp) trivial
        · cases Option.some.inj h
          exact OwnCall.update (by simp) (by simp) (by simp)
      · exact intentionSharedNew_ownCall h

theorem intentionExclusiveNew_ownCall (q : LockRequestQueue κ) (t : TxnId) :
    OwnCall .intensionExlucsive (fun _ => True) t q (q.intentionExclusiveNew t).1
      (q.intentionExclusiveNew t).2 := by
  have hgiven : ∀ b, OwnCall .intensionExlucsive (fun _ => True) t q
      (q.push ⟨t, .intensionExlucsive, b, []⟩) (.returns true) :=
    fun b => OwnCall.push rfl rfl (by simp)
  unfold intentionExclusiveNew
  dsimp only
  split
  · exact (hgiven true).groupMode .ix
  · split
    · exact hgiven true
    · split
      · exact (hgiven true).groupMode .ix
      · split
        · exact OwnCall.pushOrDie trivial
        · exact hgiven false

theorem lockIXOnTable_ownCall (q : LockRequestQueue κ) (t : TxnId) :
    OwnCall .intensionExlucsive (fun _ => True) t q (q.lockIXOnTable t).1
      (q.lockIXOnTable t).2 := by
  unfold lockIXOnTable
  split
  · exact intentionExclusiveNew_ownCall q t
  next a ha =>
    split
    · refine OwnCall.update (by simp) (fun r => ?_) (by simp)
      dsimp only
      split <;> simp
    · split
      · exact OwnCall.of_groupMode (OwnCall.update (by simp) (by simp) (by simp))
      · split
        · split
          · refine OwnCall.updateOrDie ha (by simp) (fun r => ?_) trivial
            dsimp only
            split <;> simp_all
          · exact OwnCall.update (by simp) (by simp) (by simp)
        · exact intentionExclusiveNew_ownCall q t

theorem lockExclusiveOnTable_ownCall (hsingle : (q.own t).length ≤ 1) :
    OwnCall .exlucsive (fun r => r.lockMode = .exlucsive) t q (q.lockExclusiveOnTable t).1
      (q.lockExclusiveOnTable t).2 := by
  have hgiven : OwnCall .exlucsive (fun r => r.lockMode = .exlucsive) t q
      ({ q with groupMode := .tabX }.push ⟨t, .exlucsive, true, []⟩) (.returns true) :=
    OwnCall.of_groupMode (OwnCall.push rfl rfl (by simp))
  unfold lockExclusiveOnTable
  split
  next a ha =>
    split
    · exact OwnCall.refl (by simp)
    · dsimp only
      split
      · refine (OwnCall.upgrade hsingle (by simp) (by simp)).orDie ?_ ?_ (by simp)
        · exact dies_update (q := { q with upgrading := some t }) (by simp)
        · exact ⟨_, mem_updateFirst_find ha, (find_mem ha).2, rfl⟩
      · exact OwnCall.upgraded _ (by simp) (by simp)
  · dsimp only
    split
    · exact hgiven
    · split
      · exact OwnCall.pushOrDie rfl
      · exact hgiven

section Gap

variable [LinearOrder κ]

theorem gapNew_ownCall (q : LockRequestQueue κ) (t : TxnId) (g : Gap κ) :
    OwnCall .gap (fun r => r.lockMode = .gap ∧ r.gaps ≠ []) t q (q.gapNew t g).1
      (q.gapNew t g).2 := by
  unfold gapNew
  split
  · split
    · exact OwnCall.pushOrDie ⟨rfl, by simp⟩
    · exact OwnCall.of_groupMode (OwnCall.push rfl rfl (by simp))
  · split
    · exact OwnCall.pushOrDie ⟨rfl, by simp⟩
    · split
      · exact OwnCall.pushOrDie ⟨rfl, by simp⟩
      · exact OwnCall.push rfl rfl (by simp)

theorem lockGAPOnTable_ownCall (q : LockRequestQueue κ) (t : TxnId) (lower upper : κ)
    (index : IndexId) :
    OwnCall .gap (fun r => r.lockMode = .gap ∧ r.gaps ≠ []) t q
      (q.lockGAPOnTable t lower upper index).1 (q.lockGAPOnTable t lower upper index).2 := by
  have hgroup : ∀ {q' : LockRequestQueue κ} {out : Outcome},
      OwnCall .gap (fun r => r.lockMode = .gap ∧ r.gaps ≠ []) t
        (if q.groupMode ≠ .tabX then { q with groupMode := .gap } else q) q' out →
      OwnCall .gap (fun r => r.lockMode = .gap ∧ r.gaps ≠ []) t q q' out := by
    intro q' out h
    split at h
    · exact h.of_groupMode
    · exact h
  refine hgroup ?_
  unfold lockGAPOnTable
  dsimp only
  generalize (if q.groupMode ≠ .tabX then { q with groupMode := .gap } else q) = q₁
  split
  · exact gapNew_ownCall q₁ t _
  next a ha =>
    split
    · split
      · exact OwnCall.updateOrDie ha (by simp) (by simp) ⟨rfl, by simp⟩
      · exact OwnCall.update (by simp) (by simp) (by simp)
    · split
      · exact OwnCall.updateOrDie ha (by simp) (by simp) ⟨rfl, by simp⟩
      · exact OwnCall.update (by simp) (by simp) (by simp)

end Gap

end LockRequestQueue

end Grmdb
