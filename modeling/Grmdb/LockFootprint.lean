import Grmdb.KeyCalls

namespace Grmdb

variable {κ : Type}

/-- What a transaction has in a queue: the modes of its requests, whether it is the one that
upgrades there, and whether it has insert keys. Its gaps hang on its requests. -/
structure Footprint where
  modes : List LockMode
  upgrades : Bool
  keyed : Bool
  deriving DecidableEq, Repr

def Footprint.nothing : Footprint := ⟨[], false, false⟩

def LockRequestQueue.footprint (q : LockRequestQueue κ) (t : TxnId) : Footprint where
  modes := (q.own t).map (·.lockMode)
  upgrades := decide (q.upgrading = some t)
  keyed := q.insertKeys.any fun k => decide (k.txnId = t)

namespace LockRequestQueue

variable {q q' : LockRequestQueue κ} {t u : TxnId}

theorem footprint_congr (hown : (q'.own t).map (·.lockMode) = (q.own t).map (·.lockMode))
    (hup : q'.upgrading = some t ↔ q.upgrading = some t)
    (hkeys : (q'.insertKeys.any fun k => decide (k.txnId = t)) =
      q.insertKeys.any fun k => decide (k.txnId = t)) :
    q'.footprint t = q.footprint t := by
  simp [footprint, hown, hup, hkeys]

theorem own_mapIdx {f : Nat → LockRequest κ → LockRequest κ}
    (hid : ∀ i r, (f i r).txnId = r.txnId) (hmode : ∀ i r, (f i r).lockMode = r.lockMode)
    (l : List (LockRequest κ)) :
    ((l.mapIdx f).filter fun r => decide (r.txnId = t)).map (·.lockMode) =
      (l.filter fun r => decide (r.txnId = t)).map (·.lockMode) := by
  induction l generalizing f with
  | nil => rfl
  | cons r l ih =>
    have hrest := ih (fun i r => hid (i + 1) r) fun i r => hmode (i + 1) r
    rw [List.mapIdx_cons, List.filter_cons, List.filter_cons, hid]
    split
    · rw [List.map_cons, List.map_cons, hmode, hrest]
    · exact hrest

/-- New bounds of the gaps leave the requests where they are. -/
theorem footprint_calculateGaps (q : LockRequestQueue κ) (bounds : Nat → Nat → κ × κ)
    (t : TxnId) : (q.calculateGaps bounds).footprint t = q.footprint t := by
  unfold calculateGaps
  split
  · refine footprint_congr ?_ Iff.rfl rfl
    unfold own
    apply own_mapIdx
    · intros
      rfl
    · intros
      rfl
  · rfl

@[simp] theorem footprint_groupMode (q : LockRequestQueue κ) (group : GroupMode) (t : TxnId) :
    { q with groupMode := group }.footprint t = q.footprint t := rfl

@[simp] theorem footprint_empty (t : TxnId) :
    (empty : LockRequestQueue κ).footprint t = .nothing := by
  simp [footprint, empty, own, Footprint.nothing]

theorem modes_eq_nil : (q.footprint t).modes = [] ↔ q.find t = none := by
  simp [footprint, find_eq_head]

theorem modes_eq_cons {r : LockRequest κ} (h : q.find t = some r) :
    ∃ rest, (q.footprint t).modes = r.lockMode :: rest := by
  rw [find_eq_head] at h
  obtain ⟨rest, hrest⟩ : ∃ rest, q.own t = r :: rest := by
    cases hown : q.own t with
    | nil => simp [hown] at h
    | cons a rest =>
      rw [hown] at h
      cases Option.some.inj h
      exact ⟨rest, rfl⟩
  exact ⟨rest.map (·.lockMode), by simp [footprint, hrest]⟩

/-! What happens to the traces of the transaction that acts. -/

theorem footprint_push_self (q : LockRequestQueue κ) (r : LockRequest κ) :
    (q.push r).footprint r.txnId =
      { q.footprint r.txnId with modes := (q.footprint r.txnId).modes ++ [r.lockMode] } := by
  have hown := own_push_self q r
  simp only [footprint, hown, List.map_append, List.map_cons, List.map_nil]
  rfl

theorem footprint_withdraw_self (q : LockRequestQueue κ) (t : TxnId) :
    (q.withdraw t).footprint t = .nothing := by
  have hown : (q.withdraw t).own t = [] := by
    simp [own, withdraw_requests]
  have hkeys : ((q.withdraw t).insertKeys.any fun k => decide (k.txnId = t)) = false := by
    rw [withdraw_keys, List.any_filter]
    simp
  have hup : (q.withdraw t).upgrading ≠ some t := by
    unfold withdraw removeKeys clearUpgrading
    split
    · simp
    next hne => exact hne
  simp [footprint, hown, hkeys, hup, Footprint.nothing]

theorem footprint_update_self {f : LockRequest κ → LockRequest κ}
    (hf : ∀ r, (f r).txnId = r.txnId) :
    (q.update t f).footprint t =
      { q.footprint t with modes := ((q.own t).modifyHead f).map (·.lockMode) } := by
  simp only [footprint, own_update_self hf]
  rfl

/-- An assignment that leaves the mode alone. -/
theorem footprint_update_same {f : LockRequest κ → LockRequest κ}
    (hf : ∀ r, (f r).txnId = r.txnId) (hm : ∀ r, (f r).lockMode = r.lockMode) :
    (q.update t f).footprint t = q.footprint t := by
  rw [footprint_update_self hf]
  have hmodes : ((q.own t).modifyHead f).map (·.lockMode) = (q.footprint t).modes := by
    unfold footprint
    cases q.own t with
    | nil => rfl
    | cons a rest => simp [hm]
  rw [hmodes]

theorem footprint_removeKeys_self (q : LockRequestQueue κ) (t : TxnId) :
    (q.removeKeys t).footprint t = { q.footprint t with keyed := false } := by
  have hkeys : ((q.removeKeys t).insertKeys.any fun k => decide (k.txnId = t)) = false := by
    simp [removeKeys, List.any_filter]
  simp only [footprint, hkeys]
  rfl

theorem footprint_clearUpgrading_self (q : LockRequestQueue κ) (t : TxnId) :
    (q.clearUpgrading t).footprint t = { q.footprint t with upgrades := false } := by
  unfold clearUpgrading
  split
  · simp [footprint, own]
  next h => simp [footprint, h]

end LockRequestQueue

/-- A step of `t` on a queue leaves there what every other transaction has. -/
structure CallFrame (t : TxnId) (q q' : LockRequestQueue κ) : Prop where
  own : ∀ u, u ≠ t → q'.own u = q.own u
  upgrading : ∀ u, u ≠ t → (q'.upgrading = some u ↔ q.upgrading = some u)
  keys : ∀ u, u ≠ t → (q'.insertKeys.filter fun k => decide (k.txnId = u)) =
    q.insertKeys.filter fun k => decide (k.txnId = u)

namespace CallFrame

variable {q q' q'' : LockRequestQueue κ} {t u : TxnId}

theorem refl (t : TxnId) (q : LockRequestQueue κ) : CallFrame t q q :=
  ⟨fun _ _ => rfl, fun _ _ => Iff.rfl, fun _ _ => rfl⟩

theorem trans (h : CallFrame t q q') (h' : CallFrame t q' q'') : CallFrame t q q'' :=
  ⟨fun u hu => (h'.own u hu).trans (h.own u hu),
    fun u hu => (h'.upgrading u hu).trans (h.upgrading u hu),
    fun u hu => (h'.keys u hu).trans (h.keys u hu)⟩

theorem groupMode (h : CallFrame t q q') (group : GroupMode) :
    CallFrame t q { q' with groupMode := group } :=
  ⟨h.own, h.upgrading, h.keys⟩

theorem push (h : CallFrame t q q') {r : LockRequest κ} (hr : r.txnId = t) :
    CallFrame t q (q'.push r) := by
  refine ⟨fun u hu => ?_, h.upgrading, h.keys⟩
  rw [LockRequestQueue.own_push_other q' (hr ▸ hu), h.own u hu]

theorem update (h : CallFrame t q q') {f : LockRequest κ → LockRequest κ}
    (hf : ∀ r, (f r).txnId = r.txnId) : CallFrame t q (q'.update t f) := by
  refine ⟨fun u hu => ?_, h.upgrading, h.keys⟩
  rw [LockRequestQueue.own_update_other hu hf, h.own u hu]

theorem removeKeys (h : CallFrame t q q') : CallFrame t q (q'.removeKeys t) := by
  refine ⟨h.own, h.upgrading, fun u hu => ?_⟩
  rw [← h.keys u hu, LockRequestQueue.removeKeys, List.filter_filter]
  refine List.filter_congr fun k _ => ?_
  by_cases hk : k.txnId = u <;> simp [hk, hu]

theorem clearUpgrading (h : CallFrame t q q') : CallFrame t q (q'.clearUpgrading t) := by
  unfold LockRequestQueue.clearUpgrading
  split
  next hup =>
    refine ⟨h.own, fun u hu => ?_, h.keys⟩
    rw [← h.upgrading u hu, hup]
    simp [Ne.symm hu]
  next => exact h

theorem withdraw (h : CallFrame t q q') : CallFrame t q (q'.withdraw t) := by
  refine CallFrame.removeKeys (CallFrame.clearUpgrading ⟨fun u hu => ?_, h.upgrading, h.keys⟩)
  rw [← h.own u hu, LockRequestQueue.own, List.filter_filter]
  refine List.filter_congr fun r _ => ?_
  by_cases hr : r.txnId = u <;> simp [hr, hu]

/-- A transaction starts to upgrade only when no other one does. -/
theorem upgrade (h : CallFrame t q q') (hup : q'.upgrading = none) :
    CallFrame t q { q' with upgrading := some t } := by
  refine ⟨h.own, fun u hu => ?_, h.keys⟩
  rw [← h.upgrading u hu, hup]
  simp [Ne.symm hu]

theorem orDie (h : CallFrame t q q') (isNew : Bool) : CallFrame t q (q'.orDie t isNew).1 := by
  unfold LockRequestQueue.orDie
  split
  · exact h.withdraw
  · exact h

theorem footprint (h : CallFrame t q q') (hu : u ≠ t) : q'.footprint u = q.footprint u := by
  have hkeys : ∀ l : List (InsertKey κ), (l.any fun k => decide (k.txnId = u)) =
      !(l.filter fun k => decide (k.txnId = u)).isEmpty := by
    intro l
    induction l with
    | nil => rfl
    | cons k l ih => by_cases hk : k.txnId = u <;> simp [hk, ih]
  refine LockRequestQueue.footprint_congr ?_ (h.upgrading u hu) ?_
  · rw [h.own u hu]
  · rw [hkeys, hkeys, h.keys u hu]

end CallFrame

namespace LockRequestQueue

variable {q q' : LockRequestQueue κ} {t u : TxnId}

section Calls

theorem sharedNew_frame (q : LockRequestQueue κ) (t : TxnId) :
    CallFrame t q (q.sharedNew t).1 := by
  unfold sharedNew
  split
  · exact ((CallFrame.refl t q).groupMode .s).push rfl
  · exact ((CallFrame.refl t q).push rfl).orDie true

theorem lockSharedOnRecord_frame (q : LockRequestQueue κ) (t : TxnId) :
    CallFrame t q (q.lockSharedOnRecord t).1 := by
  have hupdate : ∀ b, CallFrame t q (q.update t fun r => { r with granted := b }) :=
    fun b => (CallFrame.refl t q).update (by simp)
  unfold lockSharedOnRecord
  split
  · exact sharedNew_frame q t
  · split
    · split
      · exact (hupdate false).orDie false
      · exact hupdate true
    · split
      · exact hupdate true
      · exact sharedNew_frame q t

theorem intentionSharedNew_frame {out : Outcome} (h : q.intentionSharedNew t = some (q', out)) :
    CallFrame t q q' := by
  unfold intentionSharedNew at h
  dsimp only at h
  split at h
  · cases Option.some.inj h
    exact CallFrame.groupMode ((CallFrame.refl t q).push rfl) .is
  · split at h
    · cases Option.some.inj h
      exact (CallFrame.refl t q).push rfl
    · split at h
      · obtain ⟨rfl, rfl⟩ := Prod.ext_iff.mp (Option.some.inj h)
        exact ((CallFrame.refl t q).push rfl).orDie true
      · cases h

theorem lockISOnTable_frame {out : Outcome} (h : q.lockISOnTable t = some (q', out)) :
    CallFrame t q q' := by
  have hupdate : ∀ b, CallFrame t q (q.update t fun r => { r with granted := b }) :=
    fun b => (CallFrame.refl t q).update (by simp)
  unfold lockISOnTable at h
  split at h
  · exact intentionSharedNew_frame h
  · split at h
    · cases Option.some.inj h
      exact hupdate true
    · split at h
      · split at h
        · obtain ⟨rfl, rfl⟩ := Prod.ext_iff.mp (Option.some.inj h)
          exact (hupdate false).orDie false
        · cases Option.some.inj h
          exact hupdate true
      · exact intentionSharedNew_frame h

theorem intentionExclusiveNew_frame (q : LockRequestQueue κ) (t : TxnId) :
    CallFrame t q (q.intentionExclusiveNew t).1 := by
  have hpush : ∀ b, CallFrame t q (q.push ⟨t, .intensionExlucsive, b, []⟩) :=
    fun b => (CallFrame.refl t q).push rfl
  unfold intentionExclusiveNew
  dsimp only
  split
  · exact (hpush true).groupMode .ix
  · split
    · exact hpush true
    · split
      · exact (hpush true).groupMode .ix
      · split
        · exact (hpush false).orDie true
        · exact hpush false

theorem lockIXOnTable_frame (q : LockRequestQueue κ) (t : TxnId) :
    CallFrame t q (q.lockIXOnTable t).1 := by
  unfold lockIXOnTable
  split
  · exact intentionExclusiveNew_frame q t
  · split
    · exact (CallFrame.refl t q).update (by simp)
    · split
      · exact ((CallFrame.refl t q).groupMode .ix).update (by simp)
      · split
        · split
          · exact ((CallFrame.refl t q).update (by simp)).orDie false
          · exact (CallFrame.refl t q).update (by simp)
        · exact intentionExclusiveNew_frame q t

theorem lockExclusiveOnTable_frame (q : LockRequestQueue κ) (t : TxnId) :
    CallFrame t q (q.lockExclusiveOnTable t).1 := by
  unfold lockExclusiveOnTable
  split
  · split
    · exact CallFrame.refl t q
    next hq =>
      have hup : CallFrame t q { q with upgrading := some t } :=
        (CallFrame.refl t q).upgrade (not_not.mp hq)
      dsimp only
      split
      · exact (hup.update (by simp)).orDie false
      · exact ((hup.groupMode .tabX).update (by simp)).clearUpgrading
  · dsimp only
    split
    · exact ((CallFrame.refl t q).groupMode .tabX).push rfl
    · split
      · exact ((CallFrame.refl t q).push rfl).orDie true
      · exact ((CallFrame.refl t q).groupMode .tabX).push rfl

theorem orDieBoth_frame {q₀ queueTable₀ queueTable : LockRequestQueue κ}
    (h : CallFrame t q₀ q) (h' : CallFrame t queueTable₀ queueTable) (isNew : Bool) :
    CallFrame t q₀ (q.orDieBoth queueTable t isNew).1 ∧
      CallFrame t queueTable₀ (q.orDieBoth queueTable t isNew).2.1 := by
  unfold orDieBoth
  split
  · exact ⟨h.withdraw, h'⟩
  · split
    · exact ⟨h, h'.withdraw⟩
    · exact ⟨h, h'⟩

theorem orDieTableFirst_frame {q₀ queueTable₀ queueTable : LockRequestQueue κ}
    (h : CallFrame t q₀ q) (h' : CallFrame t queueTable₀ queueTable) (isNew : Bool) :
    CallFrame t q₀ (q.orDieTableFirst queueTable t isNew).1 ∧
      CallFrame t queueTable₀ (q.orDieTableFirst queueTable t isNew).2.1 := by
  unfold orDieTableFirst
  split
  · exact ⟨h, h'.withdraw⟩
  · split
    · exact ⟨h.withdraw, h'⟩
    · exact ⟨h, h'⟩

theorem exclusiveNew_frame {queueTable₀ queueTable : LockRequestQueue κ}
    (h : CallFrame t queueTable₀ queueTable) (q : LockRequestQueue κ) (isWaited : Bool) :
    CallFrame t q (exclusiveOnRecord.exclusiveNew q queueTable t isWaited).1 ∧
      CallFrame t queueTable₀ (exclusiveOnRecord.exclusiveNew q queueTable t isWaited).2.1 := by
  have hgiven : CallFrame t q ({ q with groupMode := .x }.push ⟨t, .exlucsive, true, []⟩) :=
    ((CallFrame.refl t q).groupMode .x).push rfl
  have hwaiting : CallFrame t q (q.push ⟨t, .exlucsive, false, []⟩) :=
    (CallFrame.refl t q).push rfl
  unfold exclusiveOnRecord.exclusiveNew
  dsimp only
  split
  · split
    · exact orDieTableFirst_frame hwaiting h true
    · exact ⟨hgiven, h⟩
  · split
    · exact ⟨hgiven, h⟩
    · exact orDieBoth_frame hwaiting h true

theorem exclusiveOnRecord_frame {queueTable₀ queueTable : LockRequestQueue κ}
    (h : CallFrame t queueTable₀ queueTable) (q : LockRequestQueue κ) (isWaited : Bool) :
    CallFrame t q (q.exclusiveOnRecord queueTable t isWaited).1 ∧
      CallFrame t queueTable₀ (q.exclusiveOnRecord queueTable t isWaited).2.1 := by
  unfold exclusiveOnRecord
  split
  · split
    · split
      · exact ⟨CallFrame.refl t q, h⟩
      next hq =>
        have hup : CallFrame t q { q with upgrading := some t } :=
          (CallFrame.refl t q).upgrade (not_not.mp hq)
        dsimp only
        split
        · exact orDieBoth_frame (hup.update (by simp)) h false
        · exact ⟨((hup.groupMode .x).update (by simp)).clearUpgrading, h⟩
    · split
      · exact ⟨CallFrame.refl t q, h⟩
      · exact exclusiveNew_frame h q isWaited
  · exact exclusiveNew_frame h q isWaited

end Calls

section Gap

variable [LinearOrder κ]

theorem gapNew_frame (q : LockRequestQueue κ) (t : TxnId) (g : Gap κ) :
    CallFrame t q (q.gapNew t g).1 := by
  unfold gapNew
  split
  · split
    · exact ((CallFrame.refl t q).push rfl).orDie true
    · exact ((CallFrame.refl t q).groupMode .gap).push rfl
  · split
    · exact ((CallFrame.refl t q).push rfl).orDie true
    · split
      · exact ((CallFrame.refl t q).push rfl).orDie true
      · exact (CallFrame.refl t q).push rfl

theorem lockGAPOnTable_frame (q : LockRequestQueue κ) (t : TxnId) (lower upper : κ)
    (index : IndexId) : CallFrame t q (q.lockGAPOnTable t lower upper index).1 := by
  have hgroup : CallFrame t q (if q.groupMode ≠ .tabX then { q with groupMode := .gap } else q) := by
    split
    · exact (CallFrame.refl t q).groupMode .gap
    · exact CallFrame.refl t q
  refine hgroup.trans ?_
  unfold lockGAPOnTable
  dsimp only
  generalize (if q.groupMode ≠ .tabX then { q with groupMode := .gap } else q) = q₁
  split
  · exact gapNew_frame q₁ t _
  · split
    · split
      · exact ((CallFrame.refl t q₁).update (by simp)).orDie false
      · exact (CallFrame.refl t q₁).update (by simp)
    · split
      · exact ((CallFrame.refl t q₁).update (by simp)).orDie false
      · exact (CallFrame.refl t q₁).update (by simp)

theorem lockExclusiveOnRecordGap_frame (q queueTable : LockRequestQueue κ) (t : TxnId)
    (rid : Rid) (index : IndexId) (key : κ) :
    CallFrame t q (q.lockExclusiveOnRecordGap queueTable t rid index key).1 ∧
      CallFrame t queueTable (q.lockExclusiveOnRecordGap queueTable t rid index key).2.1 := by
  refine exclusiveOnRecord_frame ?_ q (queueTable.keyInGap t index key)
  refine ⟨fun _ _ => rfl, fun _ _ => Iff.rfl, fun u hu => ?_⟩
  simp [List.filter_append, Ne.symm hu]

end Gap

end LockRequestQueue

end Grmdb
