import Grmdb.LockQueues
import Grmdb.LockSystem

namespace Grmdb

variable {κ : Type}

/-- While some request of a record is granted in EXLUCSIVE mode, no other transaction's is
granted. -/
def ExclusiveList (l : List (LockRequest κ)) : Prop :=
  ∀ r ∈ l, r.holdsX = true → ∀ o ∈ l, o.txnId ≠ r.txnId → o.granted = false

def OwnFirstGranted (q : LockRequestQueue κ) (t : TxnId) : Prop :=
  ∀ r, (q.own t).head? = some r → r.granted = true

/-- A transaction that is not waiting for the queue holds its first request there. One that
waits for a new request either held one before or has no other. -/
def OwnGranted (id : LockDataId) (q : LockRequestQueue κ) (t : TxnId) : TxnPhase κ → Prop
  | .finishing => True
  | .running => OwnFirstGranted q t
  | .waiting w =>
    if w.id = id then
      w.isNew = true → ∀ r, (q.own t).head? = some r → r.granted = true ∨ q.own t = [r]
    else OwnFirstGranted q t

structure RecOk (id : LockDataId) (phase : TxnId → TxnPhase κ) (q : LockRequestQueue κ) :
    Prop where
  exclusive : ExclusiveList q.requestQueue
  modes : ∀ r ∈ q.requestQueue, r.lockMode = .shared ∨ r.lockMode = .exlucsive
  own : ∀ t, OwnGranted id q t (phase t)

theorem ExclusiveList.subset {l l' : List (LockRequest κ)} (h : ExclusiveList l)
    (hsub : ∀ r ∈ l', r ∈ l) : ExclusiveList l' := by
  intro r hr hx o ho hne
  exact h r (hsub r hr) hx o (hsub o ho) hne

/-- Requests that are not granted do not matter. -/
theorem ExclusiveList.of_granted {l l' : List (LockRequest κ)} (h : ExclusiveList l)
    (hsub : ∀ r ∈ l', r ∈ l ∨ r.granted = false) : ExclusiveList l' := by
  intro r hr hx o ho hne
  have hrl : r ∈ l := by
    rcases hsub r hr with hr | hr
    · exact hr
    · simp [LockRequest.holdsX, hr] at hx
  rcases hsub o ho with ho | ho
  · exact h r hrl hx o ho hne
  · exact ho

theorem exclusiveList_of_others {l : List (LockRequest κ)} {t : TxnId}
    (h : ∀ r ∈ l, r.txnId ≠ t → r.granted = false) : ExclusiveList l := by
  intro r hr hx o ho hne
  by_cases hot : o.txnId = t
  · have hrt : r.txnId ≠ t := fun he => hne (hot.trans he.symm)
    simp [LockRequest.holdsX, h r hr hrt] at hx
  · exact h o ho hot

theorem others_of_otherGranted {q : LockRequestQueue κ} {t : TxnId}
    (h : q.otherGranted t = false) : ∀ r ∈ q.requestQueue, r.txnId ≠ t → r.granted = false := by
  intro r hr hne
  by_contra hg
  simp only [LockRequestQueue.otherGranted, List.any_eq_false] at h
  exact h r hr (by simp [hne, hg])

/-- The phase in which a call leaves its transaction. -/
def Outcome.phase (wait : Bool → LockWait κ) : Outcome → TxnPhase κ
  | .returns _ => .running
  | .waits isNew => .waiting (wait isNew)
  | .aborts => .finishing

/-- The queue after a call of `t`, told by what the call does to the requests of `t` alone. -/
theorem RecOk.call {id : LockDataId} {phase phase' : TxnId → TxnPhase κ}
    {q q' : LockRequestQueue κ} {t : TxnId} (h : RecOk id phase q)
    (hex : ExclusiveList q'.requestQueue)
    (hmodes : ∀ r ∈ q'.requestQueue, r ∈ q.requestQueue ∨ r.lockMode = .shared ∨
      r.lockMode = .exlucsive)
    (hother : ∀ u, u ≠ t → q'.own u = q.own u) (hphase : ∀ u, u ≠ t → phase' u = phase u)
    (hown : OwnGranted id q' t (phase' t)) : RecOk id phase' q' := by
  refine ⟨hex, ?_, ?_⟩
  · intro r hr
    rcases hmodes r hr with hr | hr
    · exact h.modes r hr
    · exact hr
  · intro u
    by_cases hu : u = t
    · exact hu ▸ hown
    · have hold := h.own u
      rw [hphase u hu]
      cases hp : phase u with
      | running => simpa [hp, OwnGranted, OwnFirstGranted, hother u hu] using hold
      | waiting w => simpa [hp, OwnGranted, OwnFirstGranted, hother u hu] using hold
      | finishing => trivial

/-- A transaction that leaves the running phase without waiting for this queue. -/
theorem RecOk.phase {id : LockDataId} {phase phase' : TxnId → TxnPhase κ}
    {q : LockRequestQueue κ} {t : TxnId} (h : RecOk id phase q)
    (ht : OwnGranted id q t (phase t) → OwnGranted id q t (phase' t))
    (hphase : ∀ u, u ≠ t → phase' u = phase u) : RecOk id phase' q :=
  h.call h.exclusive (fun _ hr => Or.inl hr) (fun _ _ => rfl) hphase (ht (h.own t))

theorem RecOk.congr {id : LockDataId} {phase : TxnId → TxnPhase κ} {q q' : LockRequestQueue κ}
    (h : RecOk id phase q) (hq : q'.requestQueue = q.requestQueue) : RecOk id phase q' := by
  refine ⟨hq ▸ h.exclusive, hq ▸ h.modes, ?_⟩
  intro t
  have hown : q'.own t = q.own t := by rw [LockRequestQueue.own, LockRequestQueue.own, hq]
  have hold := h.own t
  cases hp : phase t with
  | running => simpa [hp, OwnGranted, OwnFirstGranted, hown] using hold
  | waiting w => simpa [hp, OwnGranted, OwnFirstGranted, hown] using hold
  | finishing => trivial

section Shared

variable {id : LockDataId} {phase phase' : TxnId → TxnPhase κ} {q : LockRequestQueue κ}
  {t : TxnId} {wait : Bool → LockWait κ}

theorem mem_push {r r' : LockRequest κ} (h : r' ∈ (q.push r).requestQueue) :
    r' ∈ q.requestQueue ∨ r' = r := by
  simpa [LockRequestQueue.push] using h

theorem mem_withdraw {r : LockRequest κ} (h : r ∈ (q.withdraw t).requestQueue) :
    r ∈ q.requestQueue := by
  rw [LockRequestQueue.withdraw_requests] at h
  exact (List.mem_filter.mp h).1

theorem mem_update {f : LockRequest κ → LockRequest κ} {r : LockRequest κ}
    (h : r ∈ (q.update t f).requestQueue) :
    r ∈ q.requestQueue ∨ ∃ y ∈ q.requestQueue, y.txnId = t ∧ r = f y := by
  rcases mem_updateFirst h with h | ⟨y, hy, hr⟩
  · exact Or.inl h
  · obtain ⟨hmem, hyt⟩ := LockRequestQueue.find_mem (q := q) hy
    exact Or.inr ⟨y, hmem, hyt, hr⟩

theorem update_eq_of_find {f : LockRequest κ → LockRequest κ}
    (h : ∀ r, q.find t = some r → f r = r) : q.update t f = q := by
  have key : ∀ l : List (LockRequest κ),
      (∀ r, l.find? (fun r => decide (r.txnId = t)) = some r → f r = r) →
      updateFirst (fun r => decide (r.txnId = t)) f l = l := by
    intro l
    induction l with
    | nil => intro _; rfl
    | cons a l ih =>
      intro hl
      unfold updateFirst
      by_cases ha : a.txnId = t
      · simp [ha, hl a (by simp [ha])]
      · simp [ha, ih (fun r hr => hl r (by simpa [ha] using hr))]
  simp [LockRequestQueue.update, key q.requestQueue h]

/-- The end of a call that pushes or withdraws a request that is not granted. -/
theorem RecOk.orDie_phase (hwait : ∀ b, (wait b).id = id ∧ (wait b).isNew = b)
    (h : RecOk id phase q) (q' : LockRequestQueue κ) (isNew : Bool)
    (hq' : ∀ r ∈ q'.requestQueue, r ∈ q.requestQueue ∨ r.granted = false ∧
      (r.lockMode = .shared ∨ r.lockMode = .exlucsive))
    (hother : ∀ u, u ≠ t → q'.own u = q.own u)
    (hown : isNew = true → ∀ r, (q'.own t).head? = some r → r.granted = true ∨ q'.own t = [r])
    (hphase : ∀ u, u ≠ t → phase' u = phase u) :
    (phase' t = .waiting (wait isNew) → RecOk id phase' q') ∧
    (phase' t = .finishing → RecOk id phase' (q'.withdraw t) ∧ RecOk id phase' q') := by
  have hex : ExclusiveList q'.requestQueue :=
    h.exclusive.of_granted fun r hr => (hq' r hr).imp_right And.left
  have hmodes : ∀ r ∈ q'.requestQueue, r ∈ q.requestQueue ∨ r.lockMode = .shared ∨
      r.lockMode = .exlucsive := fun r hr => (hq' r hr).imp_right And.right
  refine ⟨fun hp => h.call hex hmodes hother hphase ?_, fun hp => ⟨?_, ?_⟩⟩
  · simpa [hp, OwnGranted, hwait] using hown
  · refine h.call (hex.subset fun r hr => mem_withdraw hr) (fun r hr => hmodes r (mem_withdraw hr))
      ?_ hphase (by simp [hp, OwnGranted])
    intro u hu
    rw [LockRequestQueue.own_withdraw_other _ hu, hother u hu]
  · exact h.call hex hmodes hother hphase (by simp [hp, OwnGranted])

theorem RecOk.orDie (hwait : ∀ b, (wait b).id = id ∧ (wait b).isNew = b)
    (h : RecOk id phase q) (q' : LockRequestQueue κ) (isNew : Bool)
    (hq' : ∀ r ∈ q'.requestQueue, r ∈ q.requestQueue ∨ r.granted = false ∧
      (r.lockMode = .shared ∨ r.lockMode = .exlucsive))
    (hother : ∀ u, u ≠ t → q'.own u = q.own u)
    (hown : isNew = true → ∀ r, (q'.own t).head? = some r → r.granted = true ∨ q'.own t = [r])
    (hphase : ∀ u, u ≠ t → phase' u = phase u)
    (hpt : phase' t = (q'.orDie t isNew).2.phase wait) :
    RecOk id phase' (q'.orDie t isNew).1 := by
  have hend := h.orDie_phase hwait q' isNew hq' hother hown hphase
  unfold LockRequestQueue.orDie at hpt ⊢
  split at hpt
  next hd =>
    rw [if_pos hd]
    exact (hend.2 hpt).1
  next hd =>
    rw [if_neg hd]
    exact hend.1 hpt

theorem ownFirstGranted_update {f : LockRequest κ → LockRequest κ}
    (hf : ∀ r, (f r).txnId = r.txnId) (hg : ∀ r, (f r).granted = true) :
    OwnFirstGranted (q.update t f) t := by
  intro r hr
  rw [LockRequestQueue.own_update_self hf] at hr
  cases hown : q.own t with
  | nil => simp [hown] at hr
  | cons a rest =>
    rw [hown] at hr
    cases Option.some.inj hr
    exact hg a

/-- A pushed request that waits: the transaction held its first request or has only this. -/
theorem own_push_waits {r : LockRequest κ} (hr : r.txnId = t) (hfirst : OwnFirstGranted q t) :
    ∀ r', ((q.push r).own t).head? = some r' → r'.granted = true ∨ (q.push r).own t = [r'] := by
  intro r' hr'
  subst hr
  rw [LockRequestQueue.own_push_self] at hr' ⊢
  cases hown : q.own r.txnId with
  | nil =>
    right
    simpa [hown] using hr'
  | cons a rest =>
    left
    exact hfirst r' (by simpa [hown] using hr')

theorem own_push_granted {r : LockRequest κ} (hr : r.txnId = t) (hg : r.granted = true)
    (hfirst : OwnFirstGranted q t) : OwnFirstGranted (q.push r) t := by
  intro r' hr'
  rcases own_push_waits hr hfirst r' hr' with h | h
  · exact h
  · subst hr
    rw [LockRequestQueue.own_push_self] at h
    have hmem : r ∈ [r'] := by
      rw [← h]
      simp
    rw [List.mem_singleton] at hmem
    exact hmem ▸ hg

theorem sharedNew_ok (hwait : ∀ b, (wait b).id = id ∧ (wait b).isNew = b) (h : RecOk id phase q)
    (ht : phase t = .running) (hsafe : q.groupMode ≠ .x → q.otherHoldsX t = false)
    (hphase : ∀ u, u ≠ t → phase' u = phase u)
    (hpt : phase' t = (q.sharedNew t).2.phase wait) : RecOk id phase' (q.sharedNew t).1 := by
  have hfirst : OwnFirstGranted q t := by simpa [ht, OwnGranted] using h.own t
  have hother : ∀ (r : LockRequest κ), r.txnId = t → ∀ u, u ≠ t → (q.push r).own u = q.own u := by
    intro r hr u hu
    exact LockRequestQueue.own_push_other q (hr ▸ hu)
  unfold LockRequestQueue.sharedNew at hpt ⊢
  split at hpt
  next hg =>
    rw [if_pos hg]
    refine h.call ?_ ?_ (hother ⟨t, .shared, true, []⟩ rfl) hphase ?_
    · -- no exclusive lock is granted to another transaction
      intro r hr hx o ho hne
      rcases mem_push (q := { q with groupMode := .s }) hr with hr | rfl
      · rcases mem_push (q := { q with groupMode := .s }) ho with ho | rfl
        · exact h.exclusive r hr hx o ho hne
        · have hno := hsafe hg
          simp only [LockRequestQueue.otherHoldsX, List.any_eq_false] at hno
          exact absurd (hno r hr) (by simp [hx, Ne.symm hne])
      · simp [LockRequest.holdsX] at hx
    · intro r hr
      rcases mem_push (q := { q with groupMode := .s }) hr with hr | rfl
      · exact Or.inl hr
      · exact Or.inr (Or.inl rfl)
    · rw [hpt]
      exact own_push_granted (q := { q with groupMode := .s }) rfl rfl hfirst
  next hg =>
    rw [if_neg hg]
    refine h.orDie hwait _ true ?_ (hother ⟨t, .shared, false, []⟩ rfl)
      (fun _ => own_push_waits rfl hfirst) hphase hpt
    intro r hr
    rcases mem_push hr with hr | rfl
    · exact Or.inl hr
    · exact Or.inr ⟨rfl, Or.inl rfl⟩

theorem lockSharedOnRecord_ok (hwait : ∀ b, (wait b).id = id ∧ (wait b).isNew = b)
    (h : RecOk id phase q) (ht : phase t = .running)
    (hsafe : q.groupMode ≠ .x → q.otherHoldsX t = false)
    (hphase : ∀ u, u ≠ t → phase' u = phase u)
    (hpt : phase' t = (q.lockSharedOnRecord t).2.phase wait) :
    RecOk id phase' (q.lockSharedOnRecord t).1 := by
  have hfirst : OwnFirstGranted q t := by simpa [ht, OwnGranted] using h.own t
  have hkept : q.update t (fun r => { r with granted := true }) = q := by
    refine update_eq_of_find fun r hr => ?_
    rw [LockRequestQueue.find_eq_head] at hr
    have hg := hfirst r hr
    cases r
    simp_all
  have hreturn : phase' t = .running → RecOk id phase' q := by
    intro hp
    exact h.phase (fun _ => by simpa [hp, OwnGranted] using hfirst) hphase
  unfold LockRequestQueue.lockSharedOnRecord at hpt ⊢
  split at hpt
  next => exact sharedNew_ok hwait h ht hsafe hphase hpt
  next =>
    split at hpt
    next hx =>
      split at hpt
      next ho =>
        simp only [hx, ho, if_true]
        refine h.orDie hwait _ false ?_ ?_ (by simp) hphase hpt
        · intro r hr
          rcases mem_update hr with hr | ⟨y, hy, _, rfl⟩
          · exact Or.inl hr
          · exact Or.inr ⟨rfl, h.modes y hy⟩
        · intro u hu
          exact LockRequestQueue.own_update_other hu (fun _ => rfl)
      next ho =>
        simp only [hx, ho, if_true]
        rw [if_neg (by simp), hkept]
        exact hreturn hpt
    next hx =>
      split at hpt
      next hs =>
        simp only [hs, if_true]
        rw [if_neg (by simp), hkept]
        exact hreturn hpt
      next hs =>
        simp only [hx, hs, if_false]
        exact sharedNew_ok hwait h ht hsafe hphase hpt

/-- The same end with the table queue beside it, in either order of the two `wait_die`s. -/
theorem RecOk.orDieBoth (hwait : ∀ b, (wait b).id = id ∧ (wait b).isNew = b)
    (h : RecOk id phase q) (q' queueTable : LockRequestQueue κ) (isNew : Bool)
    (hq' : ∀ r ∈ q'.requestQueue, r ∈ q.requestQueue ∨ r.granted = false ∧
      (r.lockMode = .shared ∨ r.lockMode = .exlucsive))
    (hother : ∀ u, u ≠ t → q'.own u = q.own u)
    (hown : isNew = true → ∀ r, (q'.own t).head? = some r → r.granted = true ∨ q'.own t = [r])
    (hphase : ∀ u, u ≠ t → phase' u = phase u) :
    (phase' t = (q'.orDieBoth queueTable t isNew).2.2.phase wait →
      RecOk id phase' (q'.orDieBoth queueTable t isNew).1) ∧
    (phase' t = (q'.orDieTableFirst queueTable t isNew).2.2.phase wait →
      RecOk id phase' (q'.orDieTableFirst queueTable t isNew).1) := by
  have hend := h.orDie_phase hwait q' isNew hq' hother hown hphase
  constructor
  · intro hpt
    unfold LockRequestQueue.orDieBoth at hpt ⊢
    split at hpt
    next hd =>
      rw [if_pos hd]
      exact (hend.2 hpt).1
    next hd =>
      rw [if_neg hd]
      split at hpt
      next hd' =>
        rw [if_pos hd']
        exact (hend.2 hpt).2
      next hd' =>
        rw [if_neg hd']
        exact hend.1 hpt
  · intro hpt
    unfold LockRequestQueue.orDieTableFirst at hpt ⊢
    split at hpt
    next hd =>
      rw [if_pos hd]
      exact (hend.2 hpt).2
    next hd =>
      rw [if_neg hd]
      split at hpt
      next hd' =>
        rw [if_pos hd']
        exact (hend.2 hpt).1
      next hd' =>
        rw [if_neg hd']
        exact hend.1 hpt

theorem exclusiveNew_ok (hwait : ∀ b, (wait b).id = id ∧ (wait b).isNew = b)
    {queueTable : LockRequestQueue κ} {isWaited : Bool} (h : RecOk id phase q)
    (ht : phase t = .running) (hphase : ∀ u, u ≠ t → phase' u = phase u)
    (hpt : phase' t = (LockRequestQueue.exclusiveOnRecord.exclusiveNew q queueTable t
      isWaited).2.2.phase wait) :
    RecOk id phase'
      (LockRequestQueue.exclusiveOnRecord.exclusiveNew q queueTable t isWaited).1 := by
  have hfirst : OwnFirstGranted q t := by simpa [ht, OwnGranted] using h.own t
  have hother : ∀ (r : LockRequest κ), r.txnId = t → ∀ u, u ≠ t → (q.push r).own u = q.own u := by
    intro r hr u hu
    exact LockRequestQueue.own_push_other q (hr ▸ hu)
  have hgiven : q.otherGranted t = false → phase' t = .running →
      RecOk id phase' ({ q with groupMode := .x }.push ⟨t, .exlucsive, true, []⟩) := by
    intro hno hp
    refine h.call ?_ ?_ (hother ⟨t, .exlucsive, true, []⟩ rfl) hphase ?_
    · refine exclusiveList_of_others (t := t) fun r hr hne => ?_
      rcases mem_push (q := { q with groupMode := .x }) hr with hr | rfl
      · exact others_of_otherGranted hno r hr hne
      · exact absurd rfl hne
    · intro r hr
      rcases mem_push (q := { q with groupMode := .x }) hr with hr | rfl
      · exact Or.inl hr
      · exact Or.inr (Or.inr rfl)
    · rw [hp]
      exact own_push_granted (q := { q with groupMode := .x }) rfl rfl hfirst
  have hwaits := RecOk.orDieBoth hwait h (q.push ⟨t, .exlucsive, false, []⟩)
    queueTable true (by
      intro r hr
      rcases mem_push hr with hr | rfl
      · exact Or.inl hr
      · exact Or.inr ⟨rfl, Or.inr rfl⟩)
    (hother _ rfl) (fun _ => own_push_waits rfl hfirst) hphase
  unfold LockRequestQueue.exclusiveOnRecord.exclusiveNew at hpt ⊢
  dsimp only at hpt ⊢
  split at hpt
  next he =>
    rw [if_pos he]
    split at hpt
    next hw =>
      rw [if_pos hw]
      exact hwaits.2 hpt
    next hw =>
      rw [if_neg hw]
      exact hgiven (by simp [LockRequestQueue.otherGranted, he]) hpt
  next he =>
    rw [if_neg he]
    split at hpt
    next hc =>
      rw [if_pos hc]
      exact hgiven hc.1 hpt
    next hc =>
      rw [if_neg hc]
      exact hwaits.1 hpt

theorem exclusiveOnRecord_ok (hwait : ∀ b, (wait b).id = id ∧ (wait b).isNew = b)
    {queueTable : LockRequestQueue κ} {isWaited : Bool} (h : RecOk id phase q)
    (ht : phase t = .running) (hphase : ∀ u, u ≠ t → phase' u = phase u)
    (hpt : phase' t = (q.exclusiveOnRecord queueTable t isWaited).2.2.phase wait) :
    RecOk id phase' (q.exclusiveOnRecord queueTable t isWaited).1 := by
  have hfirst : OwnFirstGranted q t := by simpa [ht, OwnGranted] using h.own t
  unfold LockRequestQueue.exclusiveOnRecord at hpt ⊢
  split at hpt
  next r hr =>
    split at hpt
    next hs =>
      rw [if_pos hs]
      split at hpt
      next hu =>
        rw [if_pos hu]
        exact h.phase (fun _ => by simp [hpt, Outcome.phase, OwnGranted]) hphase
      next hu =>
        rw [if_neg hu]
        dsimp only at hpt ⊢
        split at hpt
        next hw =>
          rw [if_pos hw]
          refine (RecOk.orDieBoth hwait h _ queueTable false ?_ ?_ (by simp) hphase).1 hpt
          · intro r' hr'
            rcases mem_update (q := { q with upgrading := some t }) hr' with hr' | ⟨y, _, _, rfl⟩
            · exact Or.inl hr'
            · exact Or.inr ⟨rfl, Or.inr rfl⟩
          · intro u hu'
            exact LockRequestQueue.own_update_other (q := { q with upgrading := some t }) hu'
              (fun _ => rfl)
        next hw =>
          rw [if_neg hw]
          rw [not_or] at hw
          have hno : q.otherGranted t = false := Bool.eq_false_iff.mpr hw.1
          have hreq : ∀ q₁ : LockRequestQueue κ,
              (q₁.clearUpgrading t).requestQueue = q₁.requestQueue := by
            intro q₁
            unfold LockRequestQueue.clearUpgrading
            split <;> rfl
          refine RecOk.congr ?_ (hreq _)
          refine h.call ?_ ?_ ?_ hphase ?_
          · refine exclusiveList_of_others (t := t) fun r' hr' hne => ?_
            rcases mem_update (q := { q with upgrading := some t, groupMode := .x }) hr' with
              hr' | ⟨y, hy, hyt, rfl⟩
            · exact others_of_otherGranted hno r' hr' hne
            · exact absurd hyt hne
          · intro r' hr'
            rcases mem_update (q := { q with upgrading := some t, groupMode := .x }) hr' with
              hr' | ⟨y, _, _, rfl⟩
            · exact Or.inl hr'
            · exact Or.inr (Or.inr rfl)
          · intro u hu'
            exact LockRequestQueue.own_update_other
              (q := { q with upgrading := some t, groupMode := .x }) hu' (fun _ => rfl)
          · rw [hpt]
            exact ownFirstGranted_update (q := { q with upgrading := some t, groupMode := .x })
              (fun _ => rfl) (fun _ => rfl)
    next hs =>
      rw [if_neg hs]
      split at hpt
      next hx =>
        rw [if_pos hx]
        exact h.phase (fun _ => by simpa [hpt, Outcome.phase, OwnGranted] using hfirst) hphase
      next hx =>
        rw [if_neg hx]
        exact exclusiveNew_ok hwait h ht hphase hpt
  next => exact exclusiveNew_ok hwait h ht hphase hpt

end Shared

end Grmdb
