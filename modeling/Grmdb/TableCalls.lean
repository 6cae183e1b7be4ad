import Grmdb.TableQueue

namespace Grmdb

variable {κ : Type}

section Calls

variable {fd : Fd} {phase phase' : TxnId → TxnPhase κ} {q : LockRequestQueue κ} {t : TxnId}

/-- A new request that is granted. -/
theorem TabOk.given (h : TabOk fd phase q) (ht : phase t = .running)
    (hphase : ∀ u, u ≠ t → phase' u = phase u) (hpt : phase' t = .running)
    (hf : q.find t = none) {mode : LockMode} {group : GroupMode} (hmode : mode ≠ .shared)
    (halone : TabXAlone (q.push ⟨t, mode, true, []⟩).requestQueue group)
    (hgroup : group ≠ .s ∧ group ≠ .x ∧ group ≠ .noLock) :
    TabOk fd phase' { q.push ⟨t, mode, true, []⟩ with groupMode := group } := by
  refine h.call hphase (push_nodup h.nodup hf) halone ⟨hgroup.1, hgroup.2.1⟩
    (fun _ => hgroup.2.2) push_other (fun _ _ => Iff.rfl)
    (fun hu => absurd hu (h.upgrading_ne ht)) ?_ ?_
  · intro r hr hrt
    obtain rfl := push_own hf r hr hrt
    exact requestOk_granted hmode rfl (by simp [hpt])
  · rw [hpt]
    exact PhaseOk.running

/-- A new request that has to wait. -/
theorem TabOk.waiting (h : TabOk fd phase q) (ht : phase t = .running)
    (hphase : ∀ u, u ≠ t → phase' u = phase u) (hf : q.find t = none) {mode : LockMode}
    {wait : Bool → LockWait κ} (hmode : mode ≠ .shared ∧ mode ≠ .gap)
    (hseen : q.groupMode ≠ .noLock)
    (hwait : (wait true).id = .table fd ∧ (wait true).awaitsGrant = true)
    (hex : ∀ isNew, wait true = .exclusive fd isNew → mode = .exlucsive)
    (hpw : PhaseOk fd (.waiting (wait true)))
    (hpt : phase' t = ((q.push ⟨t, mode, false, []⟩).orDie t true).2.phase wait) :
    TabOk fd phase' ((q.push ⟨t, mode, false, []⟩).orDie t true).1 := by
  refine h.orDie hphase (push_nodup h.nodup hf) (h.alone.push rfl rfl) h.group hseen push_other
    (fun _ _ => Iff.rfl) (fun hu => absurd hu (h.upgrading_ne ht)) ?_ hpw hpt
  intro r hr hrt
  obtain rfl := push_own hf r hr hrt
  refine ⟨hmode.1, fun _ => ⟨hmode.2, by simp [LockRequest.hasGap], _, rfl, hwait⟩, ?_⟩
  intro isNew hw
  exact hex isNew (by simpa using hw)

/-- A running transaction changes its request and goes on. -/
theorem TabOk.changed (h : TabOk fd phase q) (ht : phase t = .running)
    (hphase : ∀ u, u ≠ t → phase' u = phase u) (hpt : phase' t = .running)
    {f : LockRequest κ → LockRequest κ} {group : GroupMode} (hf : ∀ r, (f r).txnId = r.txnId)
    (hgranted : ∀ r, r.granted = true → (f r).granted = true)
    (hmode : ∀ r, r.lockMode ≠ .shared → (f r).lockMode ≠ .shared)
    (halone : TabXAlone (q.update t f).requestQueue group)
    (hgroup : group ≠ .s ∧ group ≠ .x ∧ group ≠ .noLock) :
    TabOk fd phase' { q.update t f with groupMode := group } := by
  refine h.call hphase (update_nodup h.nodup hf) halone ⟨hgroup.1, hgroup.2.1⟩
    (fun _ => hgroup.2.2) (update_other hf) (fun _ _ => Iff.rfl)
    (fun hu => absurd hu (h.upgrading_ne ht)) ?_ ?_
  · intro r hr hrt
    obtain ⟨y, hy, hyt, rfl⟩ := update_own h.nodup r hr hrt
    exact requestOk_granted (hmode y (h.requests y hy).mode)
      (hgranted y (h.own_granted ht hy hyt)) (by simp [hpt])
  · rw [hpt]
    exact PhaseOk.running

theorem TabOk.seen_of_find (h : TabOk fd phase q) {r : LockRequest κ} (hr : q.find t = some r) :
    q.groupMode ≠ .noLock :=
  h.seen (List.ne_nil_of_mem (LockRequestQueue.find_mem hr).1)

/-- A running transaction that has a request already holds it. -/
theorem TabOk.update_granted (h : TabOk fd phase q) (ht : phase t = .running) :
    q.update t (fun r => { r with granted := true }) = q := by
  refine update_eq_of_find fun r hr => ?_
  obtain ⟨hmem, hrt⟩ := LockRequestQueue.find_mem hr
  have hg := h.own_granted ht hmem hrt
  cases r
  simp_all

theorem TabOk.stays (h : TabOk fd phase q) (ht : phase t = .running)
    (hphase : ∀ u, u ≠ t → phase' u = phase u) (hpt : phase' t = .running) :
    TabOk fd phase' q := by
  refine h.leave ht hphase ?_ ?_
  · rw [hpt]
    exact PhaseOk.running
  · simp [hpt]

theorem lockISOnTable_ok (h : TabOk fd phase q) (ht : phase t = .running)
    (hphase : ∀ u, u ≠ t → phase' u = phase u) {q' : LockRequestQueue κ} {out : Outcome}
    (hcall : q.lockISOnTable t = some (q', out)) (hpt : phase' t = out.phase (.is fd)) :
    TabOk fd phase' q' := by
  unfold LockRequestQueue.lockISOnTable LockRequestQueue.intentionSharedNew at hcall
  split at hcall
  next hf =>
    dsimp only at hcall
    split at hcall
    next hempty =>
      cases Option.some.inj hcall
      refine h.given ht hphase hpt hf (by simp) (tabXAlone_of_none ?_) (by simp)
      exact no_holder_push (by simp [hempty]) (by simp [LockRequest.holdsX])
    next hne =>
      split at hcall
      next hg =>
        cases Option.some.inj hcall
        have hx : q.groupMode ≠ .tabX := by rcases hg with hg | hg | hg <;> simp [hg]
        refine h.given ht hphase hpt hf (by simp) (tabXAlone_of_none ?_)
          ⟨h.group.1, h.group.2, h.seen hne⟩
        exact no_holder_push (h.no_holder hx) (by simp [LockRequest.holdsX])
      next =>
        split at hcall
        next hg =>
          obtain ⟨rfl, rfl⟩ := Prod.mk.inj (Option.some.inj hcall)
          exact h.waiting ht hphase hf (by simp) (h.seen hne) ⟨rfl, rfl⟩ (by simp)
            (by simp [PhaseOk]) hpt
        next => simp at hcall
  next r hr =>
    have hstay : out = .returns false → TabOk fd phase' q := by
      rintro rfl
      exact h.stays ht hphase hpt
    split at hcall
    next =>
      obtain ⟨rfl, rfl⟩ := Prod.mk.inj (Option.some.inj hcall)
      rw [h.update_granted ht]
      exact hstay rfl
    next hg =>
      split at hcall
      next =>
        rw [h.otherHoldsX ht hr] at hcall
        obtain ⟨rfl, rfl⟩ := Prod.mk.inj (Option.some.inj hcall)
        rw [h.update_granted ht]
        exact hstay rfl
      next hx =>
        have hne : q.requestQueue ≠ [] := List.ne_nil_of_mem (LockRequestQueue.find_mem hr).1
        simp [hne] at hcall

theorem intentionExclusiveNew_ok (h : TabOk fd phase q) (ht : phase t = .running)
    (hphase : ∀ u, u ≠ t → phase' u = phase u) (hf : q.find t = none)
    (hpt : phase' t = (q.intentionExclusiveNew t).2.phase (.ix fd)) :
    TabOk fd phase' (q.intentionExclusiveNew t).1 := by
  have hgiven : ∀ group, q.groupMode ≠ .tabX ∨ q.requestQueue = [] →
      TabXAlone (q.push ⟨t, .intensionExlucsive, true, []⟩).requestQueue group := by
    intro group hno
    refine tabXAlone_of_none (no_holder_push ?_ (by simp [LockRequest.holdsX]))
    rcases hno with hno | hno
    · exact h.no_holder hno
    · simp [hno]
  unfold LockRequestQueue.intentionExclusiveNew at hpt ⊢
  dsimp only at hpt ⊢
  split at hpt
  next hempty =>
    rw [if_pos hempty]
    exact h.given ht hphase hpt hf (by simp) (hgiven .ix (Or.inr hempty)) (by simp)
  next hne =>
    rw [if_neg hne]
    split at hpt
    next hg =>
      rw [if_pos hg]
      have hx : q.groupMode ≠ .tabX := by rcases hg with hg | hg <;> simp [hg]
      exact h.given ht hphase hpt hf (by simp) (hgiven _ (Or.inl hx))
        ⟨h.group.1, h.group.2, h.seen hne⟩
    next hg =>
      rw [if_neg hg]
      split at hpt
      next his =>
        rw [if_pos his]
        exact h.given ht hphase hpt hf (by simp) (hgiven .ix (Or.inl (by simp [his]))) (by simp)
      next his =>
        rw [if_neg his]
        split at hpt
        next htab =>
          rw [if_pos htab]
          exact h.waiting ht hphase hf (by simp) (h.seen hne) ⟨rfl, rfl⟩ (by simp)
            (by simp [PhaseOk]) hpt
        next htab =>
          exfalso
          have hseen := h.seen hne
          obtain ⟨hs, hx⟩ := h.group
          cases hgm : q.groupMode <;> simp_all

theorem lockIXOnTable_ok (h : TabOk fd phase q) (ht : phase t = .running)
    (hphase : ∀ u, u ≠ t → phase' u = phase u)
    (hpt : phase' t = (q.lockIXOnTable t).2.phase (.ix fd)) :
    TabOk fd phase' (q.lockIXOnTable t).1 := by
  unfold LockRequestQueue.lockIXOnTable at hpt ⊢
  split at hpt
  next hf => exact intentionExclusiveNew_ok h ht hphase hf hpt
  next r hr =>
    have hseen := h.seen_of_find hr
    have hx : q.groupMode ≠ .tabX → ∀ mode : LockRequest κ → LockMode,
        (∀ r, r.lockMode ≠ .exlucsive → mode r ≠ .exlucsive) → ∀ group,
        TabXAlone (q.update t fun r => { r with
          granted := true, lockMode := mode r }).requestQueue group := by
      intro hg mode hmode group
      refine tabXAlone_of_none (no_holder_update (h.no_holder hg) ?_)
      intro y hy hyt
      have hold := h.no_holder hg y hy
      simp only [LockRequest.holdsX, h.own_granted ht hy hyt, Bool.true_and,
        decide_eq_false_iff_not] at hold
      simp [LockRequest.holdsX, hmode y hold]
    split at hpt
    next hg =>
      rw [if_pos hg]
      have hne : q.groupMode ≠ .tabX := by rcases hg with hg | hg <;> simp [hg]
      refine h.changed ht hphase hpt (by simp) (by simp) ?_ (hx hne _ ?_ _)
        ⟨h.group.1, h.group.2, hseen⟩
      · intro r hr
        dsimp only
        split <;> simp_all
      · intro r hr
        split <;> simp_all
    next hg =>
      rw [if_neg hg]
      split at hpt
      next his =>
        rw [if_pos his]
        exact h.changed ht hphase hpt (by simp) (by simp) (by simp)
          (hx (by simp [his]) (fun _ => .intensionExlucsive) (by simp) .ix) (by simp)
      next his =>
        rw [if_neg his]
        split at hpt
        next htab =>
          rw [if_pos htab]
          rw [h.otherHoldsX ht hr] at hpt ⊢
          simp only [Bool.false_eq_true, if_false] at hpt ⊢
          rw [h.update_granted ht]
          exact h.stays ht hphase hpt
        next htab =>
          exfalso
          obtain ⟨hs, hxr⟩ := h.group
          cases hgm : q.groupMode <;> simp_all

/-- The holder of the table may take gaps: nobody else has anything on it. -/
theorem TabOk.gapInTabX (h : TabOk fd phase q) (ht : phase t = .running) {r : LockRequest κ}
    (hr : q.find t = some r) (htab : q.groupMode = .tabX)
    {gaps : LockRequest κ → List (Gap κ)} :
    TabXAlone (q.update t fun r => { r with gaps := gaps r }).requestQueue q.groupMode := by
  obtain ⟨hmem, hrt⟩ := LockRequestQueue.find_mem hr
  intro x hx hxX
  rcases mem_update hx with hx | ⟨y, hy, hyt, rfl⟩
  · have hxt : x.txnId = t := by
      by_contra hne
      simp [h.other_no_holder ht hmem hrt x hx hne] at hxX
    refine ⟨htab, fun o ho hne => ?_⟩
    exact (h.alone x hx hxX).2 o (update_other (by simp) o ho (hxt ▸ hne)) hne
  · refine ⟨htab, fun o ho hne => ?_⟩
    have hyX : y.holdsX = true := hxX
    exact (h.alone y hy hyX).2 o (update_other (by simp) o ho (hyt ▸ hne)) hne

/-- The upgrade of a request has to wait. -/
theorem upgradeWaits_ok (h : TabOk fd phase q) (ht : phase t = .running)
    (hphase : ∀ u, u ≠ t → phase' u = phase u) {r : LockRequest κ} (hr : r ∈ q.requestQueue)
    (hrt : r.txnId = t) (hnone : q.upgrading = none)
    (hpt : phase' t = (({ q with upgrading := some t }.update t fun r =>
      { r with granted := false, lockMode := .exlucsive }).orDie t false).2.phase
        (.exclusive fd)) :
    TabOk fd phase' (({ q with upgrading := some t }.update t fun r =>
      { r with granted := false, lockMode := .exlucsive }).orDie t false).1 := by
  refine h.orDie hphase (update_nodup h.nodup (by simp)) (tabXAlone_of_none ?_) h.group
    (h.seen (List.ne_nil_of_mem hr)) (update_other (by simp)) ?_ (fun _ => rfl) ?_
    (by simp [PhaseOk]) hpt
  · intro o ho
    by_cases hot : o.txnId = t
    · obtain ⟨y, _, _, rfl⟩ := update_own h.nodup o ho hot
      simp [LockRequest.holdsX]
    · exact h.other_no_holder ht hr hrt o (update_other (by simp) o ho hot) hot
  · intro u hu
    simp [hnone, Ne.symm hu]
  · intro o ho hot
    obtain ⟨y, _, hyt, rfl⟩ := update_own h.nodup o ho hot
    exact ⟨by simp, fun _ => ⟨by simp, fun _ => by simp [hyt],
      _, rfl, rfl, rfl⟩, by simp⟩

/-- The upgrade of a request is granted: the other requests hold nothing, as one with a gap left
would be the upgrading one. -/
theorem upgradeGiven_ok (h : TabOk fd phase q)
    (hphase : ∀ u, u ≠ t → phase' u = phase u) (hpt : phase' t = .running)
    (hnone : q.upgrading = none)
    (hoth : LockRequestQueue.otherHolds q.requestQueue q.groupMode t = false) :
    TabOk fd phase' (({ q with upgrading := some t, groupMode := .tabX }.update t fun r =>
      { r with granted := true, lockMode := .exlucsive }).clearUpgrading t) := by
  have hq : ({ q with upgrading := some t, groupMode := .tabX }.update t fun r =>
      { r with granted := true, lockMode := .exlucsive }).clearUpgrading t =
      { q with groupMode := .tabX }.update t fun r =>
        { r with granted := true, lockMode := .exlucsive } := by
    simp [LockRequestQueue.clearUpgrading, LockRequestQueue.update, hnone]
  rw [hq]
  refine h.call hphase (update_nodup h.nodup (by simp)) (tabXAlone_of_others (t := t) ?_) (by simp)
    (by simp) (update_other (by simp)) (fun _ _ => Iff.rfl) (by simp [hnone]) ?_ ?_
  · intro o ho hot
    have hold := update_other (by simp) o ho hot
    have hg : o.granted = false := by
      simp only [LockRequestQueue.otherHolds, List.any_eq_false] at hoth
      have := hoth o hold
      simp_all
    refine ⟨hg, ?_⟩
    by_contra hgap
    have hu := ((h.requests o hold).waits hg).2.1 (by simpa using hgap)
    simp [hnone] at hu
  · intro o ho hot
    obtain ⟨y, _, hyt, rfl⟩ := update_own h.nodup o ho hot
    exact requestOk_granted (by simp) rfl (by simp [hpt])
  · rw [hpt]
    exact PhaseOk.running

theorem lockExclusiveOnTable_ok (h : TabOk fd phase q) (ht : phase t = .running)
    (hphase : ∀ u, u ≠ t → phase' u = phase u)
    (hpt : phase' t = (q.lockExclusiveOnTable t).2.phase (.exclusive fd)) :
    TabOk fd phase' (q.lockExclusiveOnTable t).1 := by
  unfold LockRequestQueue.lockExclusiveOnTable at hpt ⊢
  split at hpt
  next r hr =>
    obtain ⟨hmem, hrt⟩ := LockRequestQueue.find_mem hr
    split at hpt
    next hup =>
      rw [if_pos hup]
      refine h.leave ht hphase ?_ (by simp [hpt, Outcome.phase])
      rw [hpt]
      exact PhaseOk.finishing
    next hup =>
      rw [if_neg hup]
      have hnone : q.upgrading = none := by simpa using hup
      dsimp only at hpt ⊢
      split at hpt
      next hoth =>
        rw [if_pos hoth]
        exact upgradeWaits_ok h ht hphase hmem hrt hnone hpt
      next hoth =>
        rw [if_neg hoth]
        exact upgradeGiven_ok h hphase hpt hnone (by simpa using hoth)
  next hf =>
    dsimp only at hpt ⊢
    split at hpt
    next hempty =>
      rw [if_pos hempty]
      refine h.given ht hphase hpt hf (by simp) (tabXAlone_of_others (t := t) ?_) (by simp)
      simp [LockRequestQueue.push, hempty]
    next hne =>
      rw [if_neg hne]
      rw [if_pos (h.seen hne)] at hpt ⊢
      exact h.waiting ht hphase hf (by simp) (h.seen hne) ⟨rfl, rfl⟩ (by simp) (by simp [PhaseOk])
        hpt

section Gap

variable [LinearOrder κ]

/-- A gap is asked for by a transaction that has a request on the table. -/
theorem lockGAPOnTable_ok (h : TabOk fd phase q) (ht : phase t = .running)
    (hphase : ∀ u, u ≠ t → phase' u = phase u) (hfind : q.find t ≠ none) {first : Bool}
    (lower upper : κ) (index : IndexId)
    (hpt : phase' t = (q.lockGAPOnTable t lower upper index).2.phase
      fun isNew => .gap fd isNew (isNew && first)) :
    TabOk fd phase' (q.lockGAPOnTable t lower upper index).1 := by
  obtain ⟨r, hr⟩ := Option.ne_none_iff_exists'.mp hfind
  unfold LockRequestQueue.lockGAPOnTable at hpt ⊢
  dsimp only at hpt ⊢
  by_cases htab : q.groupMode = .tabX
  · simp only [htab, ne_eq, not_true_eq_false, if_false, hr, if_true, h.otherHoldsX ht hr,
      Bool.false_eq_true] at hpt ⊢
    refine h.changed ht hphase hpt (by simp) (by simp) (by simp) ?_
      ⟨h.group.1, h.group.2, h.seen_of_find hr⟩
    exact h.gapInTabX ht hr htab
  · have hr' : ({ q with groupMode := .gap } : LockRequestQueue κ).find t = some r := hr
    have hx : ∀ gaps : LockRequest κ → List (Gap κ), TabXAlone (q.update t fun r => { r with
        lockMode := .gap, gaps := gaps r }).requestQueue .gap := by
      intro gaps
      exact tabXAlone_of_none (no_holder_update (h.no_holder htab) (by simp [LockRequest.holdsX]))
    simp only [ne_eq, htab, not_false_eq_true, if_true, hr', reduceCtorEq, if_false] at hpt ⊢
    split at hpt
    next hc =>
      rw [if_pos hc]
      refine h.orDie hphase (update_nodup h.nodup (by simp)) (hx _) (by simp) (by simp)
        (update_other (by simp)) (fun _ _ => Iff.rfl) (fun hu => absurd hu (h.upgrading_ne ht)) ?_
        (by simp [PhaseOk]) hpt
      intro o ho hot
      obtain ⟨y, hy, hyt, rfl⟩ := update_own h.nodup o ho hot
      have hg : y.granted = true := h.own_granted ht hy hyt
      exact requestOk_granted (by simp) hg (by simp)
    next hc =>
      rw [if_neg hc]
      exact h.changed ht hphase hpt (by simp) (by simp) (by simp) (hx _) (by simp)

end Gap

end Calls

end Grmdb
