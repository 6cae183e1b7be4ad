import Grmdb.RecordQueue

namespace Grmdb

variable {κ : Type}

/-- What the group mode of a record queue says about its requests. -/
structure RecGroupOk (l : List (LockRequest κ)) (group : GroupMode) : Prop where
  noX : group ≠ .x → ∀ r ∈ l, r.holdsX = false
  none : group = .noLock → ∀ r ∈ l, r.granted = false

theorem foldl_groupRecordOne {l : List (LockRequest κ)} (group : GroupMode)
    (hmodes : ∀ r ∈ l, r.lockMode = .shared ∨ r.lockMode = .exlucsive) :
    (l.foldl groupRecordOne group ≠ .x → group ≠ .x ∧ ∀ r ∈ l, r.holdsX = false) ∧
    (l.foldl groupRecordOne group = .noLock → group = .noLock ∧ ∀ r ∈ l, r.granted = false) := by
  induction l generalizing group with
  | nil => simp
  | cons r l ih =>
    obtain ⟨ihx, ihn⟩ := ih (groupRecordOne group r) fun o ho =>
      hmodes o (List.mem_cons_of_mem r ho)
    have hr := hmodes r List.mem_cons_self
    constructor
    · intro hx
      obtain ⟨hg, hl⟩ := ihx hx
      have hone : group ≠ .x ∧ r.holdsX = false := by
        unfold groupRecordOne at hg
        unfold LockRequest.holdsX
        cases hgr : r.granted <;> rcases hr with hr | hr <;> simp [hgr, hr] at hg ⊢
        · exact hg
        · exact hg
        · rintro rfl
          simp at hg
      exact ⟨hone.1, by simpa [hone.2] using hl⟩
    · intro hn
      obtain ⟨hg, hl⟩ := ihn hn
      have hone : group = .noLock ∧ r.granted = false := by
        unfold groupRecordOne at hg
        cases hgr : r.granted <;> rcases hr with hr | hr <;> simp [hgr, hr] at hg ⊢
        · exact hg
        · exact hg
        · split at hg
          · exact absurd hg (by simp)
          next hne => exact hne hg
      exact ⟨hone.1, by simpa [hone.2] using hl⟩

theorem groupRecord_ok {l : List (LockRequest κ)}
    (hmodes : ∀ r ∈ l, r.lockMode = .shared ∨ r.lockMode = .exlucsive) :
    RecGroupOk l (groupRecord l) :=
  ⟨fun h => ((foldl_groupRecordOne .noLock hmodes).1 h).2,
    fun h => ((foldl_groupRecordOne .noLock hmodes).2 h).2⟩

theorem grantRecord_x (l : List (LockRequest κ)) : grantRecord l .x = (l, .x) := by
  induction l with
  | nil => rfl
  | cons r l ih => simp [grantRecord, ih]

theorem grantRecord_grants (l : List (LockRequest κ)) (group : GroupMode) :
    GrantsFor (fun _ => True) l (grantRecord l group).1 := by
  induction l generalizing group with
  | nil => exact .nil
  | cons r l ih =>
    unfold grantRecord
    split
    · exact .cons (Or.inr ⟨trivial, rfl⟩) (ih .s)
    · exact .cons (Or.inl rfl) (ih group)

theorem grantRecord_holdsX {l : List (LockRequest κ)} {group : GroupMode} {r : LockRequest κ}
    (hr : r ∈ (grantRecord l group).1) (hx : r.holdsX = true) : r ∈ l := by
  induction l generalizing group with
  | nil => simp [grantRecord] at hr
  | cons a l ih =>
    unfold grantRecord at hr
    split at hr
    next hs =>
      rcases List.mem_cons.mp hr with rfl | hr
      · simp [LockRequest.holdsX, hs.2.1] at hx
      · exact List.mem_cons_of_mem a (ih hr)
    next =>
      rcases List.mem_cons.mp hr with rfl | hr
      · exact List.mem_cons_self
      · exact List.mem_cons_of_mem a (ih hr)

theorem grantRecord_s (l : List (LockRequest κ)) : (grantRecord l .s).2 = .s := by
  induction l with
  | nil => rfl
  | cons r l ih =>
    unfold grantRecord
    split <;> exact ih

theorem grantRecord_noLock {l : List (LockRequest κ)} {group : GroupMode}
    (h : (grantRecord l group).2 = .noLock) :
    group = .noLock ∧ (grantRecord l group).1 = l := by
  induction l generalizing group with
  | nil => exact ⟨h, rfl⟩
  | cons r l ih =>
    unfold grantRecord at h ⊢
    split at h
    next =>
      rw [grantRecord_s] at h
      cases h
    next hs =>
      rw [if_neg hs]
      obtain ⟨hg, hl⟩ := ih h
      exact ⟨hg, by rw [hl]⟩

/-- `grant_lock` on a record grants shared requests only, and none beside an exclusive one. -/
theorem grantRecord_ok {l : List (LockRequest κ)} {group : GroupMode} (hex : ExclusiveList l)
    (hg : RecGroupOk l group) :
    ExclusiveList (grantRecord l group).1 ∧
      RecGroupOk (grantRecord l group).1 (grantRecord l group).2 := by
  by_cases hx : group = .x
  · subst hx
    rw [grantRecord_x]
    exact ⟨hex, hg⟩
  · have hno : ∀ r ∈ (grantRecord l group).1, r.holdsX = false := by
      intro r hr
      by_contra hcon
      have hcon : r.holdsX = true := by simpa using hcon
      simp [hg.noX hx r (grantRecord_holdsX hr hcon)] at hcon
    refine ⟨fun r hr hrx => ?_, fun _ => hno, fun hn => ?_⟩
    · simp [hno r hr] at hrx
    · obtain ⟨hgn, hl⟩ := grantRecord_noLock hn
      rw [hl]
      exact hg.none hgn

theorem exclusiveList_grantOne {before after : List (LockRequest κ)} {r : LockRequest κ}
    (h : ∀ o ∈ before ++ r :: after, o.txnId ≠ r.txnId → o.granted = false) :
    ExclusiveList (before ++ { r with granted := true } :: after) := by
  refine exclusiveList_of_others (t := r.txnId) fun o ho hne => ?_
  simp only [List.mem_append, List.mem_cons] at ho
  rcases ho with ho | rfl | ho
  · exact h o (by simp [ho]) hne
  · exact absurd rfl hne
  · exact h o (by simp [ho]) hne

theorem regrantRecordOne_ok {upgrading : Option TxnId} {before after : List (LockRequest κ)}
    {r : LockRequest κ} {group : GroupMode} (hex : ExclusiveList (before ++ r :: after))
    (hg : group = .noLock → ∀ o ∈ before ++ r :: after, o.granted = false) :
    ExclusiveList (before ++ (regrantRecordOne upgrading before after r group).1 :: after) ∧
    ((regrantRecordOne upgrading before after r group).2 = .noLock →
      ∀ o ∈ before ++ (regrantRecordOne upgrading before after r group).1 :: after,
        o.granted = false) := by
  unfold regrantRecordOne
  split
  next => exact ⟨hex, hg⟩
  next =>
    split
    next hn =>
      refine ⟨exclusiveList_grantOne fun o ho _ => hg hn.1 o ho, ?_⟩
      intro h
      cases h
    next =>
      split
      next hu =>
        refine ⟨exclusiveList_grantOne fun o ho hne => ?_, ?_⟩
        · have hany := hu.2
          rw [List.any_eq_false] at hany
          have := hany o ho
          simpa [hne] using this
        · intro h
          cases h
      next => exact ⟨hex, hg⟩

theorem regrantRecord_ok {upgrading : Option TxnId} {before after : List (LockRequest κ)}
    {group : GroupMode} (hex : ExclusiveList (before ++ after))
    (hg : group = .noLock → ∀ o ∈ before ++ after, o.granted = false) :
    ExclusiveList (regrantRecord upgrading before after group).1 := by
  induction after generalizing before group with
  | nil => simpa [regrantRecord] using hex
  | cons r after ih =>
    obtain ⟨hex', hg'⟩ := regrantRecordOne_ok hex hg
    apply ih
    · simpa using hex'
    · simpa using hg'

theorem regrantRecordOne_grants (upgrading : Option TxnId) (before after : List (LockRequest κ))
    (r : LockRequest κ) (group : GroupMode) :
    (regrantRecordOne upgrading before after r group).1 = r ∨
      (regrantRecordOne upgrading before after r group).1 = { r with granted := true } := by
  unfold regrantRecordOne
  split
  · exact Or.inl rfl
  · split
    · exact Or.inr rfl
    · split
      · exact Or.inr rfl
      · exact Or.inl rfl

theorem regrantRecord_grants (upgrading : Option TxnId) (before after : List (LockRequest κ))
    (group : GroupMode) :
    GrantsFor (fun _ => True) (before ++ after) (regrantRecord upgrading before after group).1 := by
  induction after generalizing before group with
  | nil => simpa [regrantRecord] using GrantsFor.refl before
  | cons r after ih =>
    have hone : GrantsFor (fun _ => True) (before ++ r :: after)
        (before ++ (regrantRecordOne upgrading before after r group).1 :: after) := by
      refine (GrantsFor.refl before).append (GrantsFor.cons ?_ (GrantsFor.refl after))
      exact (regrantRecordOne_grants upgrading before after r group).imp_right fun h => ⟨trivial, h⟩
    have hrest := ih (before ++ [(regrantRecordOne upgrading before after r group).1])
      (regrantRecordOne upgrading before after r group).2
    rw [List.append_assoc] at hrest
    exact hone.trans hrest

/-- Granting keeps what a transaction knows about its own requests. -/
theorem OwnGranted.grants {P : TxnId → Prop} {id : LockDataId} {q q' : LockRequestQueue κ}
    {t : TxnId} {phase : TxnPhase κ} (h : OwnGranted id q t phase)
    (hg : GrantsFor P (q.own t) (q'.own t)) : OwnGranted id q' t phase := by
  have hfirst : OwnFirstGranted q t → OwnFirstGranted q' t := by
    intro hq r' hr'
    cases hown : q.own t with
    | nil =>
      rw [hown] at hg
      generalize q'.own t = l' at hg hr'
      cases hg
      simp at hr'
    | cons r rest =>
      have hr := hq r (by rw [hown]; rfl)
      rw [hown] at hg
      generalize q'.own t = l' at hg hr'
      cases hg with
      | cons hrr' _ =>
        cases Option.some.inj hr'
        rcases hrr' with rfl | ⟨_, rfl⟩
        · exact hr
        · rfl
  cases phase with
  | running => exact hfirst h
  | finishing => trivial
  | waiting w =>
    simp only [OwnGranted] at h ⊢
    split
    next hid =>
      rw [if_pos hid] at h
      intro hnew r' hr'
      cases hown : q.own t with
      | nil =>
        rw [hown] at hg
        generalize q'.own t = l' at hg hr'
        cases hg
        simp at hr'
      | cons r rest =>
        have hr := h hnew r (by rw [hown]; rfl)
        rw [hown] at hg hr
        generalize q'.own t = l' at hg hr' ⊢
        cases hg with
        | @cons _ b _ l₂ hrr' hrest =>
          cases Option.some.inj hr'
          rcases hr with hr | hr
          · left
            rcases hrr' with rfl | ⟨_, rfl⟩
            · exact hr
            · rfl
          · right
            have hnil : rest = [] := by simpa using hr
            subst hnil
            cases hrest
            rfl
    next hid =>
      rw [if_neg hid] at h
      exact hfirst h

theorem RecOk.grants {P : TxnId → Prop} {id : LockDataId} {phase : TxnId → TxnPhase κ}
    {q q' : LockRequestQueue κ} (h : RecOk id phase q)
    (hg : GrantsFor P q.requestQueue q'.requestQueue) (hex : ExclusiveList q'.requestQueue) :
    RecOk id phase q' := by
  refine ⟨hex, ?_, fun t => (h.own t).grants (hg.filter t)⟩
  intro r' hr'
  obtain ⟨r, hr, hrr'⟩ := hg.mem hr'
  have hmode := h.modes r hr
  rcases hrr' with rfl | ⟨_, rfl⟩ <;> exact hmode

/-- Granting requests of one transaction, where no other holds the record. -/
theorem ExclusiveList.grants {P : TxnId → Prop} {l l' : List (LockRequest κ)}
    (h : ExclusiveList l) (hg : GrantsFor P l l')
    (hfree : ∀ t, P t → (∀ r ∈ l, r.txnId ≠ t → r.granted = false) ∧ ∀ u, P u → u = t) :
    ExclusiveList l' := by
  by_cases hP : ∃ t, P t
  · obtain ⟨t, ht⟩ := hP
    refine exclusiveList_of_others (t := t) fun r' hr' hne => ?_
    obtain ⟨r, hr, hrr'⟩ := hg.mem hr'
    rcases hrr' with rfl | ⟨hPr, rfl⟩
    · exact (hfree t ht).1 r' hr hne
    · exact absurd ((hfree t ht).2 _ hPr) hne
  · refine h.subset fun r' hr' => ?_
    obtain ⟨r, hr, hrr'⟩ := hg.mem hr'
    rcases hrr' with rfl | ⟨hPr, _⟩
    · exact hr
    · exact absurd ⟨_, hPr⟩ hP

theorem clearUpgrading_requests (q : LockRequestQueue κ) (t : TxnId) :
    (q.clearUpgrading t).requestQueue = q.requestQueue := by
  unfold LockRequestQueue.clearUpgrading
  split <;> rfl

theorem clearUpgrading_groupMode (q : LockRequestQueue κ) (t : TxnId) :
    (q.clearUpgrading t).groupMode = q.groupMode := by
  unfold LockRequestQueue.clearUpgrading
  split <;> rfl

/-- The queue of a record through an `unlock` by a transaction that is over. -/
theorem releaseRecord_ok {id : LockDataId} {phase : TxnId → TxnPhase κ}
    {q : LockRequestQueue κ} {t : TxnId} (h : RecOk id phase q) (ht : phase t = .finishing) :
    RecOk id phase (q.releaseRecord t) ∧
    RecOk id phase (q.releaseRecord t).grantLockRecord ∧
    RecOk id phase (q.releaseRecord t).grantLockRecord.regrant := by
  have hreq : (q.releaseRecord t).requestQueue =
      q.requestQueue.eraseP fun r => decide (r.txnId = t) := clearUpgrading_requests _ t
  have hgroup : (q.releaseRecord t).groupMode = groupRecord (q.releaseRecord t).requestQueue := by
    rw [hreq]
    exact clearUpgrading_groupMode _ t
  have hsub : ∀ r ∈ (q.releaseRecord t).requestQueue, r ∈ q.requestQueue := by
    rw [hreq]
    exact fun r hr => List.mem_of_mem_eraseP hr
  have h₁ : RecOk id phase (q.releaseRecord t) := by
    refine h.call (t := t) (h.exclusive.subset hsub) (fun r hr => Or.inl (hsub r hr)) ?_
      (fun _ _ => rfl) (by simp [ht, OwnGranted])
    intro u hu
    rw [LockRequestQueue.own, hreq]
    exact LockRequestQueue.own_eraseP_other hu
  have hok : RecGroupOk (q.releaseRecord t).requestQueue (q.releaseRecord t).groupMode := by
    rw [hgroup]
    exact groupRecord_ok h₁.modes
  obtain ⟨hex₂, hok₂⟩ := grantRecord_ok h₁.exclusive hok
  have h₂ : RecOk id phase (q.releaseRecord t).grantLockRecord :=
    h₁.grants (grantRecord_grants _ _) hex₂
  refine ⟨h₁, h₂, h₂.grants (regrantRecord_grants _ [] _ _) (regrantRecord_ok hex₂ hok₂.none)⟩

end Grmdb
