import Grmdb.LockSteps

namespace Grmdb

variable {κ : Type}

/-- Only one transaction has anything on a table that is locked in EXLUCSIVE mode. -/
def TableExclusive (l : List (LockRequest κ)) : Prop :=
  ∀ r ∈ l, r.holdsX = true → ∀ o ∈ l, o.txnId ≠ r.txnId → o.granted = false ∧ o.hasGap = false

/-- The same together with the group mode that announces the holder. -/
def TabXAlone (l : List (LockRequest κ)) (group : GroupMode) : Prop :=
  ∀ r ∈ l, r.holdsX = true →
    group = .tabX ∧ ∀ o ∈ l, o.txnId ≠ r.txnId → o.granted = false ∧ o.hasGap = false

/-- The wait ends when the request is granted. -/
def LockWait.awaitsGrant : LockWait κ → Bool
  | .gap _ _ _ => false
  | _ => true

/-- A request on the table `fd` of a transaction in phase `p`: without a grant it is the one that
the transaction waits for, and it has gaps then only if it is the upgrading one. -/
structure RequestOk (fd : Fd) (upgrading : Option TxnId) (p : TxnPhase κ) (r : LockRequest κ) :
    Prop where
  mode : r.lockMode ≠ .shared
  waits : r.granted = false → r.lockMode ≠ .gap ∧ (r.hasGap = true → upgrading = some r.txnId) ∧
    ∃ w, p = .waiting w ∧ w.id = .table fd ∧ w.awaitsGrant = true
  exclusive : ∀ isNew, p = .waiting (.exclusive fd isNew) → r.lockMode = .exlucsive

/-- Waits on the table `fd` that no call comes to once gaps are asked for after IS only. -/
def PhaseOk (fd : Fd) (p : TxnPhase κ) : Prop :=
  p ≠ .waiting (.is fd false) ∧ p ≠ .waiting (.ix fd false) ∧
    ∀ isNew, p ≠ .waiting (.gap fd isNew true)

structure TabOk (fd : Fd) (phase : TxnId → TxnPhase κ) (q : LockRequestQueue κ) : Prop where
  nodup : (q.requestQueue.map (·.txnId)).Nodup
  alone : TabXAlone q.requestQueue q.groupMode
  group : q.groupMode ≠ .s ∧ q.groupMode ≠ .x
  seen : q.requestQueue ≠ [] → q.groupMode ≠ .noLock
  requests : ∀ r ∈ q.requestQueue, RequestOk fd q.upgrading (phase r.txnId) r
  upgrader : ∀ t, q.upgrading = some t → phase t = .waiting (.exclusive fd false)
  phases : ∀ t, PhaseOk fd (phase t)

theorem TabXAlone.exclusive {l : List (LockRequest κ)} {group : GroupMode}
    (h : TabXAlone l group) : TableExclusive l :=
  fun r hr hx => (h r hr hx).2

theorem TabXAlone.subset {l l' : List (LockRequest κ)} {group : GroupMode}
    (h : TabXAlone l group) (hsub : ∀ r ∈ l', r ∈ l) : TabXAlone l' group := by
  intro r hr hx
  obtain ⟨hg, ho⟩ := h r (hsub r hr) hx
  exact ⟨hg, fun o hol => ho o (hsub o hol)⟩

theorem tabXAlone_of_none {l : List (LockRequest κ)} {group : GroupMode}
    (h : ∀ r ∈ l, r.holdsX = false) : TabXAlone l group := by
  intro r hr hx
  simp [h r hr] at hx

theorem tabXAlone_of_others {l : List (LockRequest κ)} {t : TxnId}
    (h : ∀ o ∈ l, o.txnId ≠ t → o.granted = false ∧ o.hasGap = false) : TabXAlone l .tabX := by
  intro r hr hx
  refine ⟨rfl, fun o ho hne => ?_⟩
  by_cases hrt : r.txnId = t
  · exact h o ho (hrt ▸ hne)
  · simp [LockRequest.holdsX, (h r hr hrt).1] at hx

section Calls

variable {fd : Fd} {phase phase' : TxnId → TxnPhase κ} {q q' : LockRequestQueue κ} {t : TxnId}

theorem PhaseOk.running : PhaseOk fd (.running : TxnPhase κ) := by
  simp [PhaseOk]

theorem PhaseOk.finishing : PhaseOk fd (.finishing : TxnPhase κ) := by
  simp [PhaseOk]

theorem TabOk.own_granted (h : TabOk fd phase q) (ht : phase t = .running) {r : LockRequest κ}
    (hr : r ∈ q.requestQueue) (hrt : r.txnId = t) : r.granted = true := by
  by_contra hg
  obtain ⟨_, _, w, hw, _⟩ := (h.requests r hr).waits (by simpa using hg)
  simp [hrt, ht] at hw

theorem TabOk.no_holder (h : TabOk fd phase q) (hg : q.groupMode ≠ .tabX) :
    ∀ r ∈ q.requestQueue, r.holdsX = false := by
  intro r hr
  by_contra hx
  exact hg (h.alone r hr (by simpa using hx)).1

/-- A running transaction with a request holds it, so that no other can hold the table. -/
theorem TabOk.other_no_holder (h : TabOk fd phase q) (ht : phase t = .running)
    {r : LockRequest κ} (hr : r ∈ q.requestQueue) (hrt : r.txnId = t) :
    ∀ o ∈ q.requestQueue, o.txnId ≠ t → o.holdsX = false := by
  intro o ho hot
  by_contra hx
  have hno := (h.alone o ho (by simpa using hx)).2 r hr (by rw [hrt]; exact Ne.symm hot)
  simp [h.own_granted ht hr hrt] at hno

theorem TabOk.otherHoldsX (h : TabOk fd phase q) (ht : phase t = .running)
    {r : LockRequest κ} (hr : q.find t = some r) : q.otherHoldsX t = false := by
  obtain ⟨hmem, hrt⟩ := LockRequestQueue.find_mem hr
  rw [LockRequestQueue.otherHoldsX, List.any_eq_false]
  intro o ho
  by_cases hot : o.txnId = t
  · simp [hot]
  · simp [h.other_no_holder ht hmem hrt o ho hot]

/-- The queue after a call of `t`, told by the requests of `t` alone. -/
theorem TabOk.call (h : TabOk fd phase q) (hphase : ∀ u, u ≠ t → phase' u = phase u)
    (hnodup : (q'.requestQueue.map (·.txnId)).Nodup)
    (halone : TabXAlone q'.requestQueue q'.groupMode)
    (hgroup : q'.groupMode ≠ .s ∧ q'.groupMode ≠ .x)
    (hseen : q'.requestQueue ≠ [] → q'.groupMode ≠ .noLock)
    (hother : ∀ r ∈ q'.requestQueue, r.txnId ≠ t → r ∈ q.requestQueue)
    (hup : ∀ u, u ≠ t → (q'.upgrading = some u ↔ q.upgrading = some u))
    (hupt : q'.upgrading = some t → phase' t = .waiting (.exclusive fd false))
    (hown : ∀ r ∈ q'.requestQueue, r.txnId = t → RequestOk fd q'.upgrading (phase' t) r)
    (hpt : PhaseOk fd (phase' t)) : TabOk fd phase' q' := by
  refine ⟨hnodup, halone, hgroup, hseen, ?_, ?_, ?_⟩
  · intro r hr
    by_cases hrt : r.txnId = t
    · rw [hrt]
      exact hown r hr hrt
    · have hold := h.requests r (hother r hr hrt)
      rw [hphase _ hrt]
      refine ⟨hold.mode, fun hg => ?_, hold.exclusive⟩
      obtain ⟨hm, hgap, hw⟩ := hold.waits hg
      exact ⟨hm, fun hr => (hup _ hrt).mpr (hgap hr), hw⟩
  · intro u hu
    by_cases hut : u = t
    · subst hut
      exact hupt hu
    · rw [hphase u hut]
      exact h.upgrader u ((hup u hut).mp hu)
  · intro u
    by_cases hu : u = t
    · exact hu ▸ hpt
    · rw [hphase u hu]
      exact h.phases u

/-- A request that is granted has nothing to say about the phase but for a wait for an exclusive
lock. -/
theorem requestOk_granted {upgrading : Option TxnId} {p : TxnPhase κ} {r : LockRequest κ}
    (hmode : r.lockMode ≠ .shared) (hg : r.granted = true)
    (hp : ∀ isNew, p ≠ .waiting (.exclusive fd isNew)) : RequestOk fd upgrading p r :=
  ⟨hmode, by simp [hg], fun isNew h => absurd h (hp isNew)⟩

theorem TabOk.upgrading_ne (h : TabOk fd phase q) (ht : phase t = .running) :
    q.upgrading ≠ some t := by
  intro hu
  have hp := h.upgrader t hu
  simp [ht] at hp

/-- The transaction `t` leaves the running phase and the requests stay. -/
theorem TabOk.leave (h : TabOk fd phase q) (ht : phase t = .running)
    (hphase : ∀ u, u ≠ t → phase' u = phase u) (hpt : PhaseOk fd (phase' t))
    (hp : ∀ isNew, phase' t ≠ .waiting (.exclusive fd isNew)) : TabOk fd phase' q := by
  refine h.call hphase h.nodup h.alone h.group h.seen (fun r hr _ => hr) (fun _ _ => Iff.rfl)
    (fun hu => absurd hu (h.upgrading_ne ht)) ?_ hpt
  intro r hr hrt
  exact requestOk_granted (h.requests r hr).mode (h.own_granted ht hr hrt) hp

theorem TabOk.congr (h : TabOk fd phase q) (hq : q'.requestQueue = q.requestQueue)
    (hg : q'.groupMode = q.groupMode) (hu : q'.upgrading = q.upgrading) : TabOk fd phase q' :=
  ⟨hq ▸ h.nodup, by rw [hq, hg]; exact h.alone, hg ▸ h.group, by rw [hq, hg]; exact h.seen,
    by rw [hq, hu]; exact h.requests, hu ▸ h.upgrader, h.phases⟩

@[simp] theorem update_groupMode (f : LockRequest κ → LockRequest κ) :
    (q.update t f).groupMode = q.groupMode := rfl

@[simp] theorem update_upgrading (f : LockRequest κ → LockRequest κ) :
    (q.update t f).upgrading = q.upgrading := rfl

theorem withdraw_groupMode (q : LockRequestQueue κ) (t : TxnId) :
    (q.withdraw t).groupMode = q.groupMode := by
  unfold LockRequestQueue.withdraw LockRequestQueue.removeKeys LockRequestQueue.clearUpgrading
  split <;> rfl

theorem withdraw_upgrading (q : LockRequestQueue κ) (t : TxnId) :
    (q.withdraw t).upgrading = if q.upgrading = some t then none else q.upgrading := by
  unfold LockRequestQueue.withdraw LockRequestQueue.removeKeys LockRequestQueue.clearUpgrading
  split <;> rfl

theorem clear_upgrading_iff {upgrading : Option TxnId} {t u : TxnId} (hu : u ≠ t) :
    (if upgrading = some t then none else upgrading) = some u ↔ upgrading = some u := by
  split
  next h => simp [h, Ne.symm hu]
  next => rfl

theorem withdraw_nodup (h : (q.requestQueue.map (·.txnId)).Nodup) :
    ((q.withdraw t).requestQueue.map (·.txnId)).Nodup := by
  rw [LockRequestQueue.withdraw_requests]
  exact h.sublist (List.filter_sublist.map _)

/-- A transaction that dies leaves nothing behind. -/
theorem TabOk.withdraw (h : TabOk fd phase q) (hphase : ∀ u, u ≠ t → phase' u = phase u)
    (hnodup : (q'.requestQueue.map (·.txnId)).Nodup)
    (halone : TabXAlone q'.requestQueue q'.groupMode)
    (hgroup : q'.groupMode ≠ .s ∧ q'.groupMode ≠ .x) (hseen : q'.groupMode ≠ .noLock)
    (hother : ∀ r ∈ q'.requestQueue, r.txnId ≠ t → r ∈ q.requestQueue)
    (hup : ∀ u, u ≠ t → (q'.upgrading = some u ↔ q.upgrading = some u))
    (hpt : PhaseOk fd (phase' t)) : TabOk fd phase' (q'.withdraw t) := by
  refine h.call hphase (withdraw_nodup hnodup) ?_ ?_ ?_ ?_ ?_ ?_ ?_ hpt
  · rw [withdraw_groupMode]
    exact halone.subset fun r hr => mem_withdraw hr
  · rw [withdraw_groupMode]
    exact hgroup
  · rw [withdraw_groupMode]
    exact fun _ => hseen
  · exact fun r hr hrt => hother r (mem_withdraw hr) hrt
  · intro u hu
    rw [withdraw_upgrading, clear_upgrading_iff hu]
    exact hup u hu
  · intro hu
    rw [withdraw_upgrading] at hu
    split at hu
    · simp at hu
    next hne => exact absurd hu hne
  · intro r hr hrt
    rw [LockRequestQueue.withdraw_requests] at hr
    simp [hrt] at hr

/-- The end of a call that has changed the requests of `t` and then waits, or dies. -/
theorem TabOk.orDie (h : TabOk fd phase q) (hphase : ∀ u, u ≠ t → phase' u = phase u)
    {isNew : Bool} {wait : Bool → LockWait κ}
    (hnodup : (q'.requestQueue.map (·.txnId)).Nodup)
    (halone : TabXAlone q'.requestQueue q'.groupMode)
    (hgroup : q'.groupMode ≠ .s ∧ q'.groupMode ≠ .x) (hseen : q'.groupMode ≠ .noLock)
    (hother : ∀ r ∈ q'.requestQueue, r.txnId ≠ t → r ∈ q.requestQueue)
    (hup : ∀ u, u ≠ t → (q'.upgrading = some u ↔ q.upgrading = some u))
    (hupt : q'.upgrading = some t → wait isNew = .exclusive fd false)
    (hown : ∀ r ∈ q'.requestQueue, r.txnId = t →
      RequestOk fd q'.upgrading (.waiting (wait isNew)) r)
    (hwait : PhaseOk fd (.waiting (wait isNew)))
    (hpt : phase' t = (q'.orDie t isNew).2.phase wait) :
    TabOk fd phase' (q'.orDie t isNew).1 := by
  unfold LockRequestQueue.orDie at hpt ⊢
  split at hpt
  next hd =>
    rw [if_pos hd]
    refine h.withdraw hphase hnodup halone hgroup hseen hother hup ?_
    rw [hpt]
    exact PhaseOk.finishing
  next hd =>
    rw [if_neg hd]
    replace hpt : phase' t = .waiting (wait isNew) := hpt
    refine h.call hphase hnodup halone hgroup (fun _ => hseen) hother hup ?_ ?_ ?_
    · intro hu
      rw [hpt, hupt hu]
    · rw [hpt]
      exact hown
    · rw [hpt]
      exact hwait

theorem not_mem_of_find_none (hf : q.find t = none) : ∀ r ∈ q.requestQueue, r.txnId ≠ t := by
  simpa [LockRequestQueue.find] using hf

theorem push_nodup (h : (q.requestQueue.map (·.txnId)).Nodup) {r : LockRequest κ}
    (hf : q.find r.txnId = none) : ((q.push r).requestQueue.map (·.txnId)).Nodup := by
  have hnot := not_mem_of_find_none hf
  simp only [LockRequestQueue.push, List.map_append, List.map_cons, List.map_nil]
  refine List.nodup_append.mpr ⟨h, by simp, ?_⟩
  intro a ha b hb
  obtain ⟨o, ho, rfl⟩ := List.mem_map.mp ha
  rw [List.mem_singleton.mp hb]
  exact hnot o ho

theorem update_nodup (h : (q.requestQueue.map (·.txnId)).Nodup)
    {f : LockRequest κ → LockRequest κ} (hf : ∀ r, (f r).txnId = r.txnId) :
    ((q.update t f).requestQueue.map (·.txnId)).Nodup := by
  rw [LockRequestQueue.update, map_updateFirst hf]
  exact h

theorem push_other {r : LockRequest κ} :
    ∀ o ∈ (q.push r).requestQueue, o.txnId ≠ r.txnId → o ∈ q.requestQueue := by
  intro o ho hne
  rcases mem_push ho with ho | rfl
  · exact ho
  · exact absurd rfl hne

theorem push_own {r : LockRequest κ} (hf : q.find r.txnId = none) :
    ∀ o ∈ (q.push r).requestQueue, o.txnId = r.txnId → o = r := by
  intro o ho hot
  rcases mem_push ho with ho | ho
  · exact absurd hot (not_mem_of_find_none hf o ho)
  · exact ho

theorem update_other {f : LockRequest κ → LockRequest κ} (hf : ∀ r, (f r).txnId = r.txnId) :
    ∀ o ∈ (q.update t f).requestQueue, o.txnId ≠ t → o ∈ q.requestQueue := by
  intro o ho hne
  rcases mem_update ho with ho | ⟨y, hy, hyt, rfl⟩
  · exact ho
  · exact absurd ((hf y).trans hyt) hne

/-- A transaction has one request, and it is the updated one. -/
theorem update_own {f : LockRequest κ → LockRequest κ}
    (h : (q.requestQueue.map (·.txnId)).Nodup) :
    ∀ o ∈ (q.update t f).requestQueue, o.txnId = t →
      ∃ y ∈ q.requestQueue, y.txnId = t ∧ o = f y := by
  have key : ∀ l : List (LockRequest κ), (l.map (·.txnId)).Nodup →
      ∀ o ∈ updateFirst (fun r => decide (r.txnId = t)) f l, o.txnId = t →
        ∃ y ∈ l, y.txnId = t ∧ o = f y := by
    intro l
    induction l with
    | nil => simp [updateFirst]
    | cons a l ih =>
      intro hnd o ho hot
      rw [List.map_cons, List.nodup_cons] at hnd
      unfold updateFirst at ho
      by_cases ha : a.txnId = t
      · simp only [ha, decide_true, if_true] at ho
        rcases List.mem_cons.mp ho with rfl | ho
        · exact ⟨a, List.mem_cons_self, ha, rfl⟩
        · have hmem : o.txnId ∈ l.map (·.txnId) := List.mem_map_of_mem ho
          rw [hot, ← ha] at hmem
          exact absurd hmem hnd.1
      · simp only [ha, decide_false, Bool.false_eq_true, if_false] at ho
        rcases List.mem_cons.mp ho with rfl | ho
        · exact absurd hot ha
        · obtain ⟨y, hy, h⟩ := ih hnd.2 o ho hot
          exact ⟨y, List.mem_cons_of_mem a hy, h⟩
  exact key q.requestQueue h

theorem TabXAlone.push {group : GroupMode} {r : LockRequest κ}
    (h : TabXAlone q.requestQueue group) (hg : r.granted = false) (hgap : r.hasGap = false) :
    TabXAlone (q.push r).requestQueue group := by
  intro r' hr' hx
  rcases mem_push hr' with hr' | rfl
  · refine ⟨(h r' hr' hx).1, fun o ho hne => ?_⟩
    rcases mem_push ho with ho | rfl
    · exact (h r' hr' hx).2 o ho hne
    · exact ⟨hg, hgap⟩
  · simp [LockRequest.holdsX, hg] at hx

theorem no_holder_push {r : LockRequest κ} (h : ∀ r ∈ q.requestQueue, r.holdsX = false)
    (hr : r.holdsX = false) : ∀ o ∈ (q.push r).requestQueue, o.holdsX = false := by
  intro o ho
  rcases mem_push ho with ho | rfl
  · exact h o ho
  · exact hr

theorem no_holder_update {f : LockRequest κ → LockRequest κ}
    (h : ∀ r ∈ q.requestQueue, r.holdsX = false)
    (hf : ∀ r ∈ q.requestQueue, r.txnId = t → (f r).holdsX = false) :
    ∀ o ∈ (q.update t f).requestQueue, o.holdsX = false := by
  intro o ho
  rcases mem_update ho with ho | ⟨y, hy, hyt, rfl⟩
  · exact h o ho
  · exact hf y hy hyt

end Calls

end Grmdb
