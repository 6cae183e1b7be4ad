import Grmdb.LockFootprint

namespace Grmdb

variable {κ : Type}

/-- How a call on a queue changes the traces of its own transaction there; `m` is the mode that
it asks for. -/
def Footprint.CallEnds (m : LockMode) (f f' : Footprint) : Outcome → Prop
  | .returns true | .waits true => f.modes = [] ∧ f' = { f with modes := [m] }
  | .returns false | .waits false =>
    f.modes ≠ [] ∧ f'.modes.length = f.modes.length ∧ f'.keyed = f.keyed
  | .aborts => f' = .nothing ∨ f' = f

namespace LockRequestQueue

open Footprint

variable {q q' : LockRequestQueue κ} {t : TxnId} {m : LockMode} {f : Footprint}

theorem footprint_push_new (h : q.find t = none) (m : LockMode) (granted : Bool)
    (gaps : List (Gap κ)) :
    (q.push ⟨t, m, granted, gaps⟩).footprint t = { q.footprint t with modes := [m] } := by
  have hpush := footprint_push_self q ⟨t, m, granted, gaps⟩
  rw [modes_eq_nil.mpr h] at hpush
  exact hpush

theorem callEnds_push (h : q.find t = none) (m : LockMode) (granted : Bool)
    (gaps : List (Gap κ)) :
    CallEnds m (q.footprint t) ((q.push ⟨t, m, granted, gaps⟩).footprint t) (.returns true) :=
  ⟨modes_eq_nil.mpr h, footprint_push_new h m granted gaps⟩

theorem callEnds_update {g : LockRequest κ → LockRequest κ} (h : q.find t ≠ none)
    (hg : ∀ r, (g r).txnId = r.txnId) (m : LockMode) :
    CallEnds m (q.footprint t) ((q.update t g).footprint t) (.returns false) := by
  refine ⟨fun hn => h (modes_eq_nil.mp hn), ?_, ?_⟩
  · rw [footprint_update_self hg]
    simp [footprint]
  · rw [footprint_update_self hg]

theorem CallEnds.orDie {isNew : Bool} (h : CallEnds m f (q'.footprint t) (.waits isNew)) :
    CallEnds m f ((q'.orDie t isNew).1.footprint t) (q'.orDie t isNew).2 := by
  unfold LockRequestQueue.orDie
  split
  · exact Or.inl (footprint_withdraw_self q' t)
  · exact h

theorem callEnds_pushOrDie (h : q.find t = none) (m : LockMode) (gaps : List (Gap κ)) :
    CallEnds m (q.footprint t)
      (((q.push ⟨t, m, false, gaps⟩).orDie t true).1.footprint t)
      ((q.push ⟨t, m, false, gaps⟩).orDie t true).2 :=
  CallEnds.orDie (callEnds_push h m false gaps)

theorem callEnds_updateOrDie {g : LockRequest κ → LockRequest κ} (h : q.find t ≠ none)
    (hg : ∀ r, (g r).txnId = r.txnId) (m : LockMode) :
    CallEnds m (q.footprint t) (((q.update t g).orDie t false).1.footprint t)
      ((q.update t g).orDie t false).2 :=
  CallEnds.orDie (callEnds_update h hg m)

/-- A request of `t` itself does not make it die. -/
theorem dies_push (q : LockRequestQueue κ) (m : LockMode) (granted : Bool) (gaps : List (Gap κ)) :
    (q.push ⟨t, m, granted, gaps⟩).dies t = q.dies t := by
  simp [dies, push]

theorem dies_update {g : LockRequest κ → LockRequest κ} (hg : ∀ r, (g r).txnId = r.txnId) :
    (q.update t g).dies t = q.dies t := by
  have hids := map_updateFirst (p := fun r : LockRequest κ => decide (r.txnId = t))
    (f := g) (g := fun r => decide (r.txnId < t)) (l := q.requestQueue) (fun r => by rw [hg])
  have hany : ∀ l : List (LockRequest κ),
      (l.any fun r => decide (r.txnId < t)) = (l.map fun r => decide (r.txnId < t)).any id := by
    intro l
    simp [List.any_map]
  unfold dies
  rw [hany, hany, ← hids]
  rfl

theorem sharedNew_ends (h : q.find t = none) :
    CallEnds .shared (q.footprint t) ((q.sharedNew t).1.footprint t) (q.sharedNew t).2 := by
  unfold sharedNew
  split
  · exact callEnds_push (q := { q with groupMode := .s }) h .shared true []
  · exact callEnds_pushOrDie h .shared []

theorem sharedNew_aborts (h : (q.sharedNew t).2 = .aborts) :
    q.groupMode = .x ∧ q.dies t = true := by
  unfold sharedNew at h
  split at h
  · cases h
  next hx =>
    rw [orDie, dies_push] at h
    split at h
    next hd => exact ⟨not_not.mp hx, hd⟩
    next => cases h

/-- A second shared request is made only in a group mode that no record with a request has. -/
theorem lockSharedOnRecord_ends
    (hmode : q.find t ≠ none → q.groupMode = .x ∨ q.groupMode = .s) :
    CallEnds .shared (q.footprint t) ((q.lockSharedOnRecord t).1.footprint t)
        (q.lockSharedOnRecord t).2 ∧
      ((q.lockSharedOnRecord t).2 ≠ .aborts → q.find t ≠ none →
        (q.lockSharedOnRecord t).1.footprint t = q.footprint t) ∧
      ((q.lockSharedOnRecord t).2 = .aborts → q.groupMode = .x ∧ q.dies t = true ∧
        (q.find t ≠ none → q.otherHoldsX t = true)) := by
  unfold lockSharedOnRecord
  split
  next hn =>
    refine ⟨sharedNew_ends hn, fun _ hne => absurd hn hne, fun ha => ?_⟩
    obtain ⟨hx, hd⟩ := sharedNew_aborts ha
    exact ⟨hx, hd, fun hne => absurd hn hne⟩
  next r hr =>
    have hne : q.find t ≠ none := by simp [hr]
    split
    next hx =>
      split
      next ho =>
        refine ⟨callEnds_updateOrDie hne (by simp) .shared, ?_, ?_⟩
        · intro ha _
          unfold orDie at ha ⊢
          split at ha
          · exact absurd rfl ha
          next hd =>
            rw [if_neg hd]
            exact footprint_update_same (by simp) (by simp)
        · intro ha
          rw [orDie, dies_update (by simp)] at ha
          split at ha
          next hd => exact ⟨hx, hd, fun _ => ho⟩
          next => cases ha
      next ho =>
        refine ⟨callEnds_update hne (by simp) .shared, fun _ _ => ?_, by simp⟩
        exact footprint_update_same (by simp) (by simp)
    next hx =>
      split
      next hs =>
        refine ⟨callEnds_update hne (by simp) .shared, fun _ _ => ?_, by simp⟩
        exact footprint_update_same (by simp) (by simp)
      next hs =>
        rcases hmode hne with h | h
        · exact absurd h hx
        · exact absurd h hs

theorem intentionSharedNew_ends (hn : q.find t = none) {out : Outcome}
    (h : q.intentionSharedNew t = some (q', out)) :
    CallEnds .intensionShared (q.footprint t) (q'.footprint t) out := by
  unfold intentionSharedNew at h
  dsimp only at h
  split at h
  · cases Option.some.inj h
    exact callEnds_push hn .intensionShared true []
  · split at h
    · cases Option.some.inj h
      exact callEnds_push hn .intensionShared true []
    · split at h
      · obtain ⟨rfl, rfl⟩ := Prod.ext_iff.mp (Option.some.inj h)
        exact callEnds_pushOrDie hn .intensionShared []
      · cases h

/-- `lock_IS_on_table` makes no second request: there it runs off its end. -/
theorem lockISOnTable_ends {out : Outcome} (h : q.lockISOnTable t = some (q', out)) :
    CallEnds .intensionShared (q.footprint t) (q'.footprint t) out := by
  unfold lockISOnTable at h
  split at h
  next hn => exact intentionSharedNew_ends hn h
  next r hr =>
    have hne : q.find t ≠ none := by simp [hr]
    split at h
    · cases Option.some.inj h
      exact callEnds_update hne (by simp) _
    next hshared =>
      split at h
      · split at h
        · obtain ⟨rfl, rfl⟩ := Prod.ext_iff.mp (Option.some.inj h)
          exact callEnds_updateOrDie hne (by simp) _
        · cases Option.some.inj h
          exact callEnds_update hne (by simp) _
      next hx =>
        have hrequests : q.requestQueue ≠ [] := List.ne_nil_of_mem (find_mem hr).1
        simp [intentionSharedNew, hrequests, hshared, hx] at h

theorem intentionExclusiveNew_ends (hn : q.find t = none) :
    CallEnds .intensionExlucsive (q.footprint t) ((q.intentionExclusiveNew t).1.footprint t)
      (q.intentionExclusiveNew t).2 := by
  unfold intentionExclusiveNew
  dsimp only
  split
  · exact callEnds_push hn .intensionExlucsive true []
  · split
    · exact callEnds_push hn .intensionExlucsive true []
    · split
      · exact callEnds_push hn .intensionExlucsive true []
      · split
        · exact callEnds_pushOrDie hn .intensionExlucsive []
        · exact callEnds_push hn .intensionExlucsive false []

theorem lockIXOnTable_ends (hmode : q.find t ≠ none → q.groupMode = .gap ∨ q.groupMode = .ix ∨
      q.groupMode = .is ∨ q.groupMode = .tabX) :
    CallEnds .intensionExlucsive (q.footprint t) ((q.lockIXOnTable t).1.footprint t)
      (q.lockIXOnTable t).2 := by
  unfold lockIXOnTable
  split
  next hn => exact intentionExclusiveNew_ends hn
  next r hr =>
    have hne : q.find t ≠ none := by simp [hr]
    split
    · exact callEnds_update hne (by simp) _
    next hgx =>
      split
      · exact callEnds_update (q := { q with groupMode := .ix }) hne (by simp) _
      next his =>
        split
        · split
          · exact callEnds_updateOrDie hne (by simp) _
          · exact callEnds_update hne (by simp) _
        next hx => simp_all

theorem lockExclusiveOnTable_ends :
    CallEnds .exlucsive (q.footprint t) ((q.lockExclusiveOnTable t).1.footprint t)
      (q.lockExclusiveOnTable t).2 := by
  unfold lockExclusiveOnTable
  split
  next r hr =>
    have hne : q.find t ≠ none := by simp [hr]
    split
    · exact Or.inr rfl
    · dsimp only
      split
      · have hends := callEnds_update (q := { q with upgrading := some t })
          (g := fun r => { r with granted := false, lockMode := .exlucsive }) hne (by simp) .exlucsive
        exact CallEnds.orDie (f := q.footprint t) hends
      · rw [footprint_clearUpgrading_self]
        exact callEnds_update (q := { q with upgrading := some t, groupMode := .tabX }) hne
          (by simp) .exlucsive
  next hn =>
    dsimp only
    split
    · exact callEnds_push (q := { q with groupMode := .tabX }) hn .exlucsive true []
    · split
      · exact callEnds_pushOrDie hn .exlucsive []
      · exact callEnds_push (q := { q with groupMode := .tabX }) hn .exlucsive true []

/-- How `lock_exclusive_on_record_gap` ends, told by what its transaction then has in the record
queue and in the table queue, where its insert key has been put before. -/
inductive ExclusiveEnds (q queueTable : LockRequestQueue κ) (t : TxnId) (isWaited : Bool) :
    Footprint → Footprint → Outcome → Prop
  | held (h : (q.footprint t).modes = [.exlucsive]) :
      ExclusiveEnds q queueTable t isWaited (q.footprint t) (queueTable.footprint t)
        (.returns false)
  | new {out : Outcome} (h : q.find t = none) (hout : out = .returns true ∨ out = .waits true) :
      ExclusiveEnds q queueTable t isWaited { q.footprint t with modes := [.exlucsive] }
        (queueTable.footprint t) out
  | upgraded {f : Footprint} {out : Outcome} (h : (q.footprint t).modes = [.shared])
      (hout : out = .returns false ∨ out = .waits false) (hmodes : f.modes = [.exlucsive])
      (hkeyed : f.keyed = (q.footprint t).keyed) :
      ExclusiveEnds q queueTable t isWaited f (queueTable.footprint t) out
  | conflict (h : (q.footprint t).modes = [.shared]) (hup : q.upgrading ≠ none) :
      ExclusiveEnds q queueTable t isWaited (q.footprint t) (queueTable.footprint t) .aborts
  | diesOnRecord (h : (q.footprint t).modes ≠ [.exlucsive])
      (hwait : q.otherGranted t = true ∨ isWaited = true) (hd : q.dies t = true) :
      ExclusiveEnds q queueTable t isWaited .nothing (queueTable.footprint t) .aborts
  | diesOnTable {f : Footprint} (h : (q.footprint t).modes = [.shared])
      (hmodes : f.modes = [.exlucsive]) (hkeyed : f.keyed = (q.footprint t).keyed) :
      ExclusiveEnds q queueTable t isWaited f .nothing .aborts
  | newDiesOnTable {f : Footprint} (h : q.find t = none)
      (hwait : q.otherGranted t = true ∨ isWaited = true) (hd : q.dies t = false)
      (hgap : queueTable.groupMode = .gap) (hdt : queueTable.dies t = true) :
      ExclusiveEnds q queueTable t isWaited f .nothing .aborts

theorem exclusiveNew_ends (hn : q.find t = none) (queueTable : LockRequestQueue κ)
    (isWaited : Bool) :
    ExclusiveEnds q queueTable t isWaited
      ((exclusiveOnRecord.exclusiveNew q queueTable t isWaited).1.footprint t)
      ((exclusiveOnRecord.exclusiveNew q queueTable t isWaited).2.1.footprint t)
      (exclusiveOnRecord.exclusiveNew q queueTable t isWaited).2.2 := by
  have hgiven : ({ q with groupMode := .x }.push
      (⟨t, .exlucsive, true, []⟩ : LockRequest κ)).footprint t =
        { q.footprint t with modes := [.exlucsive] } :=
    footprint_push_new (q := { q with groupMode := .x }) hn .exlucsive true []
  have hwaiting := footprint_push_new hn .exlucsive false []
  have hmodes : (q.footprint t).modes ≠ [.exlucsive] := by simp [modes_eq_nil.mpr hn]
  have hdies := dies_push (t := t) q .exlucsive false []
  unfold exclusiveOnRecord.exclusiveNew
  dsimp only
  split
  next hempty =>
    split
    next hw =>
      have hno : q.dies t = false := by simp [dies, hempty]
      unfold orDieTableFirst
      rw [hdies, hno]
      split
      next hd =>
        rw [footprint_withdraw_self]
        exact .newDiesOnTable hn (Or.inr hw) hno hd.1 hd.2
      next =>
        simp only [Bool.false_eq_true, if_false, hwaiting]
        exact .new hn (Or.inr rfl)
    next =>
      rw [hgiven]
      exact .new hn (Or.inl rfl)
  next =>
    split
    next =>
      rw [hgiven]
      exact .new hn (Or.inl rfl)
    next hw =>
      have hwait : q.otherGranted t = true ∨ isWaited = true := by
        by_contra hcon
        simp only [not_or, Bool.not_eq_true] at hcon
        exact hw hcon
      unfold orDieBoth
      rw [hdies]
      split
      next hd =>
        rw [footprint_withdraw_self]
        exact .diesOnRecord hmodes hwait hd
      next hd =>
        split
        next hdt =>
          rw [footprint_withdraw_self]
          exact .newDiesOnTable hn hwait (by simpa using hd) hdt.1 hdt.2
        next =>
          rw [hwaiting]
          exact .new hn (Or.inr rfl)

theorem footprint_upgrade (q : LockRequestQueue κ) (granted : Bool) {r : LockRequest κ}
    (h : q.own t = [r]) :
    (q.update t fun r => { r with granted := granted, lockMode := .exlucsive }).footprint t =
      { q.footprint t with modes := [.exlucsive] } := by
  rw [footprint_update_self (by simp), h]
  rfl

theorem exclusiveOnRecord_footprint (hsingle : (q.footprint t).modes.length ≤ 1)
    (hrec : ∀ m ∈ (q.footprint t).modes, m = .shared ∨ m = .exlucsive)
    (queueTable : LockRequestQueue κ) (isWaited : Bool) :
    ExclusiveEnds q queueTable t isWaited
      ((q.exclusiveOnRecord queueTable t isWaited).1.footprint t)
      ((q.exclusiveOnRecord queueTable t isWaited).2.1.footprint t)
      (q.exclusiveOnRecord queueTable t isWaited).2.2 := by
  unfold exclusiveOnRecord
  split
  next r hr =>
    obtain ⟨rest, hrest⟩ := modes_eq_cons hr
    obtain rfl : rest = [] := by
      rw [hrest] at hsingle
      simpa using hsingle
    have hown : q.own t = [r] := by
      have hhead := find_eq_head q t
      rw [hr] at hhead
      have hlen : (q.own t).length = 1 := by
        have := congrArg List.length hrest
        simpa [footprint] using this
      obtain ⟨a, ha⟩ := List.length_eq_one_iff.mp hlen
      rw [ha] at hhead ⊢
      cases Option.some.inj hhead
      rfl
    split
    next hs =>
      rw [hs] at hrest
      split
      next hup => exact .conflict hrest hup
      next hup =>
        dsimp only
        split
        next hw =>
          have hdies : ({ q with upgrading := some t }.update t fun r =>
              { r with granted := false, lockMode := .exlucsive }).dies t = q.dies t :=
            dies_update (q := { q with upgrading := some t }) (by simp)
          unfold orDieBoth
          rw [hdies]
          split
          next hd =>
            rw [footprint_withdraw_self]
            exact .diesOnRecord (by simp [hrest]) hw hd
          next =>
            split
            next =>
              rw [footprint_withdraw_self, footprint_upgrade { q with upgrading := some t } false hown]
              exact .diesOnTable hrest rfl rfl
            next =>
              rw [footprint_upgrade { q with upgrading := some t } false hown]
              exact .upgraded hrest (Or.inr rfl) rfl rfl
        next =>
          rw [footprint_clearUpgrading_self,
            footprint_upgrade { q with upgrading := some t, groupMode := .x } true hown]
          exact .upgraded hrest (Or.inl rfl) rfl rfl
    next hs =>
      split
      next hx =>
        rw [hx] at hrest
        exact .held hrest
      next hx =>
        rcases hrec r.lockMode (by simp [hrest]) with h | h
        · exact absurd h hs
        · exact absurd h hx
  next hn => exact exclusiveNew_ends hn queueTable isWaited

section Gap

variable [LinearOrder κ]

theorem gapNew_ends (hn : q.find t = none) (g : Gap κ) :
    CallEnds .gap (q.footprint t) ((q.gapNew t g).1.footprint t) (q.gapNew t g).2 := by
  unfold gapNew
  split
  · split
    · exact callEnds_pushOrDie hn .gap _
    · exact callEnds_push (q := { q with groupMode := .gap }) hn .gap false [g]
  · split
    · exact callEnds_pushOrDie hn .gap _
    · split
      · exact callEnds_pushOrDie hn .gap _
      · exact callEnds_push hn .gap false [g]

theorem lockGAPOnTable_ends (lower upper : κ) (index : IndexId) :
    CallEnds .gap (q.footprint t) ((q.lockGAPOnTable t lower upper index).1.footprint t)
      (q.lockGAPOnTable t lower upper index).2 := by
  have hgroup : (if q.groupMode ≠ .tabX then { q with groupMode := .gap } else q).footprint t =
      q.footprint t := by split <;> rfl
  unfold lockGAPOnTable
  rw [← hgroup]
  dsimp only
  generalize (if q.groupMode ≠ .tabX then { q with groupMode := .gap } else q) = q₁
  split
  next hn => exact gapNew_ends hn _
  next r hr =>
    have hne : q₁.find t ≠ none := by simp [hr]
    split
    · split
      · exact callEnds_updateOrDie hne (by simp) _
      · exact callEnds_update hne (by simp) _
    · split
      · exact callEnds_updateOrDie hne (by simp) _
      · exact callEnds_update hne (by simp) _

end Gap

end LockRequestQueue

end Grmdb
