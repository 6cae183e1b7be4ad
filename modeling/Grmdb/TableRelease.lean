import Grmdb.TableQueue

namespace Grmdb

variable {κ : Type}

section GroupTable

theorem groupTableOne_noLock {group : GroupMode} {r : LockRequest κ}
    (h : groupTableOne group r = .noLock) : group = .noLock := by
  unfold groupTableOne at h
  grind

theorem foldl_groupTable_noLock {group : GroupMode} {l : List (LockRequest κ)}
    (h : l.foldl groupTableOne group = .noLock) :
    group = .noLock ∧ ∀ r ∈ l, groupTableOne .noLock r = .noLock := by
  induction l generalizing group with
  | nil => exact ⟨h, by simp⟩
  | cons r l ih =>
    obtain ⟨hone, hrest⟩ := ih h
    have hg := groupTableOne_noLock hone
    refine ⟨hg, ?_⟩
    intro o ho
    rcases List.mem_cons.mp ho with rfl | ho
    · rw [hg] at hone
      exact hone
    · exact hrest o ho

/-- A request that the loop of `unlock` does not see. -/
theorem groupTable_noLock {l : List (LockRequest κ)} (h : groupTable l = .noLock)
    {r : LockRequest κ} (hr : r ∈ l) (hmode : r.lockMode ≠ .shared) :
    (r.granted = true → r.lockMode = .gap) ∧ (r.lockMode = .gap → r.hasGap = false) := by
  have hone := (foldl_groupTable_noLock h).2 r hr
  unfold groupTableOne at hone
  cases hm : r.lockMode <;> cases hg : r.granted <;> cases hh : r.hasGap <;> simp_all

theorem foldl_groupTable_tabX {group : GroupMode} {l : List (LockRequest κ)} :
    l.foldl groupTableOne group = .tabX ↔ group = .tabX ∨ ∃ r ∈ l, r.holdsX = true := by
  induction l generalizing group with
  | nil => simp
  | cons r l ih =>
    have hone : groupTableOne group r = .tabX ↔ group = .tabX ∨ r.holdsX = true := by
      unfold groupTableOne LockRequest.holdsX
      grind
    rw [List.foldl_cons, ih, hone, or_assoc]
    simp

theorem foldl_groupTable_table {group : GroupMode} {l : List (LockRequest κ)}
    (h : group ≠ .s ∧ group ≠ .x) :
    l.foldl groupTableOne group ≠ .s ∧ l.foldl groupTableOne group ≠ .x := by
  induction l generalizing group with
  | nil => exact h
  | cons r l ih =>
    refine ih ?_
    unfold groupTableOne
    grind

/-- The group mode comes from a request that is granted. -/
theorem exists_granted_of_groupTable {l : List (LockRequest κ)} (h : groupTable l ≠ .noLock)
    (hgap : ∀ r ∈ l, r.granted = false → r.lockMode ≠ .gap) : ∃ r ∈ l, r.granted = true := by
  by_contra hno
  push Not at hno
  have key : ∀ l' : List (LockRequest κ), (∀ r ∈ l', r ∈ l) →
      l'.foldl groupTableOne .noLock = .noLock := by
    intro l'
    induction l' with
    | nil => intro _; rfl
    | cons r l' ih =>
      intro hsub
      have hg : r.granted = false := by simpa using hno r (hsub r List.mem_cons_self)
      have hm := hgap r (hsub r List.mem_cons_self) hg
      have hone : groupTableOne .noLock r = .noLock := by simp [groupTableOne, hm, hg]
      rw [List.foldl_cons, hone]
      exact ih fun o ho => hsub o (List.mem_cons_of_mem r ho)
  exact h (key l fun _ hr => hr)

end GroupTable

/-- What a round of `grant_lock` can do to a request. -/
def PassRel (r r' : LockRequest κ) : Prop :=
  r'.txnId = r.txnId ∧ r'.lockMode = r.lockMode ∧ (r'.granted = false → r' = r) ∧
    (r.granted = true → r'.granted = true)

theorem passRel_ids {l l' : List (LockRequest κ)} (h : List.Forall₂ PassRel l l') :
    l'.map (·.txnId) = l.map (·.txnId) := by
  induction h with
  | nil => rfl
  | cons hr _ ih => simp [hr.1, ih]

theorem passRel_mem {l l' : List (LockRequest κ)} (h : List.Forall₂ PassRel l l')
    {r' : LockRequest κ} (hr' : r' ∈ l') : ∃ r ∈ l, PassRel r r' := by
  induction h with
  | nil => simp at hr'
  | @cons a b l l' hab _ ih =>
    rcases List.mem_cons.mp hr' with rfl | hr'
    · exact ⟨a, List.mem_cons_self, hab⟩
    · obtain ⟨r, hr, hrel⟩ := ih hr'
      exact ⟨r, List.mem_cons_of_mem a hr, hrel⟩

@[simp] theorem releaseTable_requests (q : LockRequestQueue κ) (t : TxnId) :
    (q.releaseTable t).requestQueue = q.requestQueue.eraseP fun r => decide (r.txnId = t) := by
  unfold LockRequestQueue.releaseTable LockRequestQueue.clearUpgrading
  dsimp only
  split <;> split <;> rfl

@[simp] theorem releaseTable_groupMode (q : LockRequestQueue κ) (t : TxnId) :
    (q.releaseTable t).groupMode =
      groupTable (q.requestQueue.eraseP fun r => decide (r.txnId = t)) := by
  unfold LockRequestQueue.releaseTable LockRequestQueue.clearUpgrading
  dsimp only
  split <;> split <;> rfl

theorem releaseTable_upgrading {q : LockRequestQueue κ} {t : TxnId} (h : q.upgrading ≠ some t) :
    (q.releaseTable t).upgrading = q.upgrading := by
  unfold LockRequestQueue.releaseTable LockRequestQueue.clearUpgrading
  dsimp only
  split <;> simp [LockRequestQueue.removeKeys, h]

section Pass

variable [LinearOrder κ] {upgrading : Option TxnId} {keys : List (InsertKey κ)}
  {before after : List (LockRequest κ)} {r : LockRequest κ} {group : GroupMode}

theorem resetGaps_eq_self (h : resetsGap keys r = false) : resetGaps keys r = r := by
  have hmap : (r.gaps.map fun g =>
      if gapFreed keys r.txnId g then { g with conflicted := false } else g) = r.gaps := by
    refine (List.map_congr_left ?_).trans (List.map_id _)
    intro g hg
    have hno : gapFreed keys r.txnId g = false := by
      simp only [resetsGap, List.any_eq_false] at h
      simpa using h g hg
    simp [hno]
  unfold resetGaps
  rw [hmap]

theorem grantReset_rel (hgap : r.granted = false → r.lockMode ≠ .gap) :
    PassRel r (grantReset keys (grantSwitch keys r group)).request := by
  unfold grantReset grantSwitch PassRel resetGaps
  cases hg : r.granted with
  | true =>
    simp only [if_true, hg]
    split
    · simp
    · simp [hg]
  | false =>
    have hm := hgap hg
    cases hmode : r.lockMode <;> simp_all <;> split <;> simp_all

theorem grantTableOne_rel (hgap : r.granted = false → r.lockMode ≠ .gap) :
    PassRel r (grantTableOne upgrading keys before after r group).1 := by
  obtain ⟨ht, hm, hf, hg⟩ : PassRel r (grantReset keys (grantSwitch keys r group)).request :=
    grantReset_rel hgap
  unfold grantTableOne grantUpgrade
  split
  · exact ⟨ht, hm, by simp, by simp⟩
  · exact ⟨ht, hm, hf, hg⟩

theorem grantTable_rel (hgap : ∀ r ∈ after, r.granted = false → r.lockMode ≠ .gap) :
    ∃ l, (grantTable upgrading keys before after group).1 = before ++ l ∧
      List.Forall₂ PassRel after l := by
  induction after generalizing before group with
  | nil => exact ⟨[], by simp [grantTable], .nil⟩
  | cons r after ih =>
    rw [grantTable]
    generalize hone : grantTableOne upgrading keys before after r group = one
    obtain ⟨l, hl, hrel⟩ : ∃ l, (grantTable upgrading keys (before ++ [one.1]) after one.2).1 =
        before ++ [one.1] ++ l ∧ List.Forall₂ PassRel after l :=
      ih fun o ho => hgap o (List.mem_cons_of_mem r ho)
    refine ⟨one.1 :: l, by simp [hl], .cons ?_ hrel⟩
    rw [← hone]
    exact grantTableOne_rel (hgap r List.mem_cons_self)

theorem grantSwitch_tabX : grantSwitch keys r .tabX = ⟨r, .tabX, false⟩ := by
  unfold grantSwitch
  split
  · rfl
  · split <;> simp

/-- While a transaction holds the table and no other has anything, the pass changes nothing. -/
theorem grantTable_tabX {h : LockRequest κ} (hx : h.holdsX = true) (hmem : h ∈ before ++ after)
    (hnodup : ((before ++ after).map (·.txnId)).Nodup)
    (hothers : ∀ o ∈ before ++ after, o.txnId ≠ h.txnId → o.granted = false) :
    grantTable upgrading keys before after .tabX = (before ++ after, .tabX) := by
  induction after generalizing before with
  | nil => simp [grantTable]
  | cons r after ih =>
    have hgap : ¬ (r.granted = true ∧ r.lockMode = .gap) := by
      rintro ⟨hg, hm⟩
      by_cases hrt : r.txnId = h.txnId
      · have heq : r = h := List.inj_on_of_nodup_map hnodup (by simp) hmem hrt
        simp [← heq, LockRequest.holdsX, hm] at hx
      · simp [hothers r (by simp) hrt] at hg
    have hone : grantTableOne upgrading keys before after r .tabX = (r, .tabX) := by
      unfold grantTableOne
      rw [grantSwitch_tabX, grantReset, if_neg hgap, grantUpgrade]
      split
      next hup =>
        obtain ⟨_, _, hno⟩ := hup
        have hrt : h.txnId = r.txnId := by
          by_contra hne
          simp only [LockRequestQueue.otherHolds, List.any_eq_false] at hno
          have := hno h hmem
          simp [LockRequest.holdsX] at hx
          simp [hne, hx.1] at this
        have heq : h = r := List.inj_on_of_nodup_map hnodup hmem (by simp) hrt
        subst heq
        cases h
        simp_all [LockRequest.holdsX]
      next => rfl
    rw [grantTable, hone]
    have hlist : before ++ [r] ++ after = before ++ r :: after := by simp
    have hrest : grantTable upgrading keys (before ++ [r]) after .tabX =
        (before ++ [r] ++ after, .tabX) := by
      apply ih <;> rw [hlist]
      · exact hmem
      · exact hnodup
      · exact hothers
    rw [hrest, hlist]

/-- A group mode of intention locks and gaps. -/
def GroupMode.isShared (group : GroupMode) : Prop := group = .is ∨ group = .ix ∨ group = .gap

theorem grantReset_shared (hgroup : group.isShared) (hno : r.holdsX = false) :
    (grantReset keys (grantSwitch keys r group)).request.holdsX = false ∧
      (grantReset keys (grantSwitch keys r group)).groupMode.isShared := by
  unfold grantReset grantSwitch resetGaps
  unfold LockRequest.holdsX GroupMode.isShared at *
  cases hg : r.granted <;> cases hm : r.lockMode <;> rcases hgroup with rfl | rfl | rfl <;>
    (simp_all; try split) <;> simp

/-- The holder `h` is in the way of every upgrade but its own. -/
theorem upgrade_blocked {h : LockRequest κ} (hgap : r.granted = false → r.lockMode ≠ .gap)
    (hg : h.granted = true) (hmem : h ∈ before ++ r :: after) (hup : upgrading ≠ some h.txnId) :
    ¬ ((grantReset keys (grantSwitch keys r group)).isGranted = false ∧
      upgrading = some (grantReset keys (grantSwitch keys r group)).request.txnId ∧
      LockRequestQueue.otherHolds (before ++ (grantReset keys (grantSwitch keys r
        group)).request :: after) (grantReset keys (grantSwitch keys r group)).groupMode
        (grantReset keys (grantSwitch keys r group)).request.txnId = false) := by
  rintro ⟨_, hu, hno⟩
  have hrel : PassRel r (grantReset keys (grantSwitch keys r group)).request :=
    grantReset_rel hgap
  have hne : h.txnId ≠ r.txnId := by
    intro he
    rw [hrel.1, ← he] at hu
    exact hup hu
  have hstill : h ∈ before ++ (grantReset keys (grantSwitch keys r group)).request :: after := by
    rcases List.mem_append.mp hmem with hmem | hmem
    · simp [hmem]
    · rcases List.mem_cons.mp hmem with rfl | hmem
      · exact absurd rfl hne
      · simp [hmem]
  simp only [LockRequestQueue.otherHolds, List.any_eq_false] at hno
  have := hno h hstill
  simp [hrel.1, hne, hg] at this

/-- While some request is granted but none in EXLUCSIVE mode, the pass grants none in that
mode. -/
theorem grantTable_shared {h : LockRequest κ} (hg : h.granted = true)
    (hmem : h ∈ before ++ after) (hup : upgrading ≠ some h.txnId) (hgroup : group.isShared)
    (hno : ∀ o ∈ before ++ after, o.holdsX = false)
    (hgap : ∀ r ∈ after, r.granted = false → r.lockMode ≠ .gap) :
    (∀ o ∈ (grantTable upgrading keys before after group).1, o.holdsX = false) ∧
      (grantTable upgrading keys before after group).2.isShared := by
  induction after generalizing before group h with
  | nil => exact ⟨by simpa [grantTable] using hno, hgroup⟩
  | cons r after ih =>
    have hrel : PassRel r (grantTableOne upgrading keys before after r group).1 :=
      grantTableOne_rel (hgap r List.mem_cons_self)
    have hone : (grantTableOne upgrading keys before after r group).1.holdsX = false ∧
        (grantTableOne upgrading keys before after r group).2.isShared := by
      unfold grantTableOne grantUpgrade
      rw [if_neg (upgrade_blocked (hgap r List.mem_cons_self) hg hmem hup)]
      exact grantReset_shared hgroup (hno r (by simp))
    rw [grantTable]
    have hnew : ∃ h', h'.granted = true ∧ upgrading ≠ some h'.txnId ∧
        h' ∈ before ++ [(grantTableOne upgrading keys before after r group).1] ++ after := by
      rcases List.mem_append.mp hmem with hmem | hmem
      · exact ⟨h, hg, hup, by simp [hmem]⟩
      · rcases List.mem_cons.mp hmem with rfl | hmem
        · exact ⟨_, hrel.2.2.2 hg, by rw [hrel.1]; exact hup, by simp⟩
        · exact ⟨h, hg, hup, by simp [hmem]⟩
    obtain ⟨h', hg', hup', hmem'⟩ := hnew
    refine ih hg' hmem' hup' hone.2 ?_ fun o ho => hgap o (List.mem_cons_of_mem r ho)
    intro o ho
    rw [List.append_assoc] at ho
    rcases List.mem_append.mp ho with ho | ho
    · exact hno o (by simp [ho])
    · rcases List.mem_append.mp ho with ho | ho
      · rw [List.mem_singleton.mp ho]
        exact hone.1
      · exact hno o (by simp [ho])

/-- What `grant_lock` has to find in group mode NO_LOCK. It passes over gap requests at the front
of which no gap is freed, as if they held nothing; the first other request of `rest` must exist,
and if it is an exclusive one no other transaction may have anything on the table. -/
def SeesHolders (keys : List (InsertKey κ)) (l rest : List (LockRequest κ)) : Prop :=
  match rest.dropWhile fun r => r.granted && !resetsGap keys r with
  | [] => l = []
  | r :: _ => r.lockMode = .exlucsive →
    ∀ o ∈ l, o.txnId ≠ r.txnId → o.granted = false ∧ o.hasGap = false

instance (keys : List (InsertKey κ)) (l rest : List (LockRequest κ)) :
    Decidable (SeesHolders keys l rest) :=
  match h : rest.dropWhile fun r => r.granted && !resetsGap keys r with
  | [] => decidable_of_iff (l = []) (by simp [SeesHolders, h])
  | r :: _ => decidable_of_iff (r.lockMode = .exlucsive →
      ∀ o ∈ l, o.txnId ≠ r.txnId → o.granted = false ∧ o.hasGap = false) (by simp [SeesHolders, h])

theorem grantTableOne_passed (hg : r.granted = true) (hm : r.lockMode = .gap)
    (hno : resetsGap keys r = false) (hup : upgrading ≠ some r.txnId) :
    grantTableOne upgrading keys before after r .noLock = (r, .noLock) := by
  unfold grantTableOne grantSwitch grantReset grantUpgrade
  simp [hg, hm, hno, resetGaps_eq_self hno, hup]

theorem grantTableOne_reset (hg : r.granted = true) (hm : r.lockMode = .gap)
    (hyes : resetsGap keys r = true) :
    grantTableOne upgrading keys before after r .noLock = (resetGaps keys r, .gap) := by
  unfold grantTableOne grantSwitch grantReset grantUpgrade
  simp [hg, hm, hyes]

theorem grantTableOne_free (hg : r.granted = false)
    (hm : r.lockMode ≠ .gap ∧ r.lockMode ≠ .shared) :
    grantTableOne upgrading keys before after r .noLock = ({ r with granted := true },
      match r.lockMode with
      | .exlucsive => .tabX
      | .intensionShared => .is
      | _ => .ix) := by
  unfold grantTableOne grantSwitch grantReset grantUpgrade
  cases hmode : r.lockMode <;> simp_all

theorem grantTable_noLock (hnodup : ((before ++ after).map (·.txnId)).Nodup)
    (hgap : ∀ r ∈ before ++ after, r.granted = false → r.lockMode ≠ .gap)
    (hmode : ∀ r ∈ before ++ after, r.lockMode ≠ .shared)
    (hquiet : ∀ r ∈ before ++ after, r.granted = true → r.lockMode = .gap)
    (hup : ∀ r ∈ before ++ after, upgrading = some r.txnId → r.lockMode = .exlucsive)
    (hsees : SeesHolders keys (before ++ after) after) :
    TabXAlone (grantTable upgrading keys before after .noLock).1
        (grantTable upgrading keys before after .noLock).2 ∧
      ((grantTable upgrading keys before after .noLock).2 = .tabX ∨
        (grantTable upgrading keys before after .noLock).2.isShared ∨ before ++ after = []) := by
  induction after generalizing before with
  | nil =>
    have hl : before ++ [] = [] := hsees
    obtain rfl : before = [] := by simpa using hl
    exact ⟨by simp [TabXAlone, grantTable], Or.inr (Or.inr rfl)⟩
  | cons r after ih =>
    have hr : r ∈ before ++ r :: after := by simp
    have hlist : ∀ r', before ++ [r'] ++ after = before ++ r' :: after := by simp
    have hnoX : ∀ o ∈ before ++ r :: after, o.holdsX = false := by
      intro o ho
      by_contra hx
      simp only [LockRequest.holdsX, Bool.not_eq_false, Bool.and_eq_true,
        decide_eq_true_eq] at hx
      have := hquiet o ho hx.1
      simp [hx.2] at this
    -- a request that is granted now and is not exclusive keeps every other from the table
    have hshared : ∀ r' : LockRequest κ, r'.granted = true → r'.txnId = r.txnId →
        r'.holdsX = false → r.lockMode ≠ .exlucsive → ∀ group : GroupMode, group.isShared →
        TabXAlone (grantTable upgrading keys (before ++ [r']) after group).1
          (grantTable upgrading keys (before ++ [r']) after group).2 ∧
        (grantTable upgrading keys (before ++ [r']) after group).2.isShared := by
      intro r' hg ht hx hm group hgroup
      have hup' : upgrading ≠ some r'.txnId := fun hu => hm (hup r hr (by rw [hu, ht]))
      have hno' : ∀ o ∈ before ++ [r'] ++ after, o.holdsX = false := by
        intro o ho
        rw [hlist] at ho
        rcases List.mem_append.mp ho with ho | ho
        · exact hnoX o (by simp [ho])
        · rcases List.mem_cons.mp ho with rfl | ho
          · exact hx
          · exact hnoX o (by simp [ho])
      have hpass := @grantTable_shared κ _ upgrading keys (before ++ [r']) after group r' hg
        (by simp) hup' hgroup hno' (fun o ho => hgap o (by simp [ho]))
      exact ⟨tabXAlone_of_none hpass.1, hpass.2⟩
    rw [grantTable]
    unfold SeesHolders at hsees
    cases hg : r.granted with
    | true =>
      have hm := hquiet r hr hg
      cases hreset : resetsGap keys r with
      | false =>
        rw [grantTableOne_passed hg hm hreset (fun hu => by simp [hup r hr hu] at hm)]
        rw [← hlist] at hnodup hgap hmode hquiet hup ⊢
        refine ih hnodup hgap hmode hquiet hup ?_
        simpa [SeesHolders, hg, hreset] using hsees
      | true =>
        rw [grantTableOne_reset hg hm hreset]
        have hx : (resetGaps keys r).holdsX = false := by simp [LockRequest.holdsX, resetGaps, hm]
        obtain ⟨halone, hgroup⟩ := hshared (resetGaps keys r) hg rfl hx (by simp [hm]) .gap
          (by simp [GroupMode.isShared])
        exact ⟨halone, Or.inr (Or.inl hgroup)⟩
    | false =>
      rw [grantTableOne_free hg ⟨hgap r hr hg, hmode r hr⟩]
      obtain ⟨r', hr'⟩ : ∃ r' : LockRequest κ, { r with granted := true } = r' := ⟨_, rfl⟩
      have hx : r'.holdsX = decide (r.lockMode = .exlucsive) := by simp [← hr', LockRequest.holdsX]
      have hg' : r'.granted = true := by simp [← hr']
      have ht : r'.txnId = r.txnId := by simp [← hr']
      rw [hr']
      cases hm : r.lockMode with
      | shared => exact absurd hm (hmode r hr)
      | gap => exact absurd hm (hgap r hr hg)
      | intensionShared =>
        obtain ⟨halone, hgroup⟩ := hshared r' hg' ht (by simp [hx, hm]) (by simp [hm]) .is
          (by simp [GroupMode.isShared])
        exact ⟨halone, Or.inr (Or.inl hgroup)⟩
      | intensionExlucsive =>
        obtain ⟨halone, hgroup⟩ := hshared r' hg' ht (by simp [hx, hm]) (by simp [hm]) .ix
          (by simp [GroupMode.isShared])
        exact ⟨halone, Or.inr (Or.inl hgroup)⟩
      | exlucsive =>
        have hothers : ∀ o ∈ before ++ r :: after, o.txnId ≠ r.txnId →
            o.granted = false ∧ o.hasGap = false := by
          simpa [hg, hm] using hsees
        have hothers' : ∀ o ∈ before ++ [r'] ++ after,
            o.txnId ≠ r'.txnId → o.granted = false ∧ o.hasGap = false := by
          intro o ho hne
          rw [hlist] at ho
          rcases List.mem_append.mp ho with ho | ho
          · exact hothers o (by simp [ho]) (ht ▸ hne)
          · rcases List.mem_cons.mp ho with rfl | ho
            · exact absurd rfl hne
            · exact hothers o (by simp [ho]) (ht ▸ hne)
        have hpass : grantTable upgrading keys (before ++ [r']) after .tabX =
            (before ++ [r'] ++ after, .tabX) :=
          grantTable_tabX (by simp [hx, hm]) (by simp) (by simpa [ht] using hnodup)
            (fun o ho hne => (hothers' o ho hne).1)
        simp only [hpass]
        exact ⟨tabXAlone_of_others hothers', Or.inl trivial⟩

section Release

variable {fd : Fd} {phase : TxnId → TxnPhase κ} {q : LockRequestQueue κ} {t : TxnId}

/-- The pass from the group mode that `unlock` has found. -/
theorem grantTable_alone {l : List (LockRequest κ)} (hnodup : (l.map (·.txnId)).Nodup)
    (halone : TableExclusive l) (hreq : ∀ r ∈ l, RequestOk fd upgrading (phase r.txnId) r)
    (hup : ∀ t, upgrading = some t → phase t = .waiting (.exclusive fd false))
    (hsees : groupTable l = .noLock → SeesHolders keys l l) :
    TabXAlone (grantTable upgrading keys [] l (groupTable l)).1
        (grantTable upgrading keys [] l (groupTable l)).2 ∧
      ((grantTable upgrading keys [] l (groupTable l)).2 = .tabX ∨
        (grantTable upgrading keys [] l (groupTable l)).2.isShared ∨ l = []) := by
  have hgap : ∀ r ∈ l, r.granted = false → r.lockMode ≠ .gap :=
    fun r hr hg => ((hreq r hr).waits hg).1
  have hmode : ∀ r ∈ l, r.lockMode ≠ .shared := fun r hr => (hreq r hr).mode
  have hupX : ∀ r ∈ l, upgrading = some r.txnId → r.lockMode = .exlucsive :=
    fun r hr hu => (hreq r hr).exclusive false (hup _ hu)
  by_cases hx : ∃ h ∈ l, h.holdsX = true
  · obtain ⟨h, hmem, hx⟩ := hx
    have htab : groupTable l = .tabX := foldl_groupTable_tabX.mpr (Or.inr ⟨h, hmem, hx⟩)
    have hpass : grantTable upgrading keys [] l .tabX = ([] ++ l, .tabX) :=
      grantTable_tabX hx hmem hnodup fun o ho hne => (halone h hmem hx o ho hne).1
    rw [htab, hpass]
    exact ⟨tabXAlone_of_others (halone h hmem hx), Or.inl rfl⟩
  · have hno : ∀ o ∈ l, o.holdsX = false := by simpa using hx
    by_cases hlock : groupTable l = .noLock
    · rw [hlock]
      refine grantTable_noLock hnodup hgap hmode ?_ hupX (hsees hlock)
      exact fun r hr => (groupTable_noLock hlock hr (hmode r hr)).1
    · obtain ⟨h, hmem, hg⟩ := exists_granted_of_groupTable hlock hgap
      have htab : groupTable l ≠ .tabX := by
        intro htab
        rcases foldl_groupTable_tabX.mp htab with habs | habs
        · cases habs
        · exact hx habs
      have hgroup : (groupTable l).isShared := by
        obtain ⟨hs, hx⟩ : groupTable l ≠ .s ∧ groupTable l ≠ .x :=
          foldl_groupTable_table (by simp)
        unfold GroupMode.isShared
        cases hgm : groupTable l <;> simp_all
      have huph : upgrading ≠ some h.txnId := by
        intro hu
        have := hno h hmem
        simp [LockRequest.holdsX, hg, hupX h hmem hu] at this
      obtain ⟨hnoX, hshared⟩ := grantTable_shared hg (show h ∈ [] ++ l from hmem) huph hgroup hno
        hgap
      exact ⟨tabXAlone_of_none hnoX, Or.inr (Or.inl hshared)⟩

theorem TabOk.release (h : TabOk fd phase q) (ht : phase t = .finishing)
    (hsees : (q.releaseTable t).groupMode = .noLock → SeesHolders (q.releaseTable t).insertKeys
      (q.releaseTable t).requestQueue (q.releaseTable t).requestQueue) :
    TabOk fd phase (q.releaseTable t).grantLockTable := by
  have hup : (q.releaseTable t).upgrading = q.upgrading := by
    refine releaseTable_upgrading fun hu => ?_
    have := h.upgrader t hu
    simp [ht] at this
  have hsub : ∀ r ∈ (q.releaseTable t).requestQueue, r ∈ q.requestQueue := by
    intro r hr
    rw [releaseTable_requests] at hr
    exact List.mem_of_mem_eraseP hr
  have hnodup : ((q.releaseTable t).requestQueue.map (·.txnId)).Nodup := by
    rw [releaseTable_requests]
    exact h.nodup.sublist (List.eraseP_sublist.map _)
  have hreq : ∀ r ∈ (q.releaseTable t).requestQueue,
      RequestOk fd (q.releaseTable t).upgrading (phase r.txnId) r := by
    intro r hr
    rw [hup]
    exact h.requests r (hsub r hr)
  have hgroup : (q.releaseTable t).groupMode = groupTable (q.releaseTable t).requestQueue := by simp
  obtain ⟨halone, hnewGroup⟩ := grantTable_alone hnodup (h.alone.subset hsub).exclusive hreq
    (hup ▸ h.upgrader) (hgroup ▸ hsees)
  rw [← hgroup] at halone hnewGroup
  obtain ⟨l, hl, hrel⟩ : ∃ l, (q.releaseTable t).grantLockTable.requestQueue = [] ++ l ∧
      List.Forall₂ PassRel (q.releaseTable t).requestQueue l :=
    grantTable_rel fun r hr hg => ((hreq r hr).waits hg).1
  have hnew : (q.releaseTable t).grantLockTable.requestQueue = l := hl
  have hempty : (q.releaseTable t).requestQueue = [] →
      (q.releaseTable t).grantLockTable.groupMode = .noLock := by
    intro he
    simp only [LockRequestQueue.grantLockTable, he, grantTable, hgroup]
    rfl
  refine ⟨?_, halone, ?_, ?_, ?_, ?_, h.phases⟩
  · rw [hnew, passRel_ids hrel]
    exact hnodup
  · rcases hnewGroup with hg | hg | hg
    · rw [LockRequestQueue.grantLockTable, hg]
      simp
    · rcases hg with hg | hg | hg <;> rw [LockRequestQueue.grantLockTable, hg] <;> simp
    · rw [hempty hg]
      simp
  · rw [hnew]
    intro hne
    rcases hnewGroup with hg | hg | hg
    · rw [LockRequestQueue.grantLockTable, hg]
      simp
    · rcases hg with hg | hg | hg <;> rw [LockRequestQueue.grantLockTable, hg] <;> simp
    · rw [hg] at hrel
      cases hrel
      exact absurd rfl hne
  · intro r' hr'
    rw [hnew] at hr'
    obtain ⟨r, hr, hrel⟩ := passRel_mem hrel hr'
    have hold := hreq r hr
    rw [hrel.1]
    refine ⟨by rw [hrel.2.1]; exact hold.mode, fun hg => ?_, by rw [hrel.2.1]; exact hold.exclusive⟩
    obtain rfl := hrel.2.2.1 hg
    exact hold.waits hg
  · exact hup ▸ h.upgrader

end Release

end Pass

end Grmdb
