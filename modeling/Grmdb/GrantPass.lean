import Grmdb.FootprintUnlock
import Grmdb.MapM

namespace Grmdb

open MapM

variable {κ : Type}

/-- The lock `o` of another transaction is in the way of `r`: an exclusive request waits for all
that is granted and for gaps that are not conflicted, any other one for an exclusive lock. -/
def LockRequest.conflicts (r o : LockRequest κ) : Bool :=
  decide (o.txnId ≠ r.txnId) &&
    (if r.lockMode = .exlucsive then o.granted || o.hasGap else o.holdsX)

/-- What the passes of `unlock` can do to a request: it keeps what it has. -/
structure Eased (r r' : LockRequest κ) : Prop where
  txnId : r'.txnId = r.txnId
  lockMode : r'.lockMode = r.lockMode
  granted : r.granted = true → r'.granted = true
  gaps : List.Forall₂ (fun g g' => g' = g ∨ g' = { g with conflicted := false }) r.gaps r'.gaps

namespace Eased

variable {r r' r'' o o' : LockRequest κ} {l l' l'' : List (LockRequest κ)}

theorem refl (r : LockRequest κ) : Eased r r :=
  ⟨rfl, rfl, id, List.forall₂_same.mpr fun _ _ => Or.inl rfl⟩

theorem grant (r : LockRequest κ) : Eased r { r with granted := true } :=
  ⟨rfl, rfl, fun _ => rfl, (refl r).gaps⟩

theorem trans (h : Eased r r') (h' : Eased r' r'') : Eased r r'' := by
  refine ⟨h'.txnId.trans h.txnId, h'.lockMode.trans h.lockMode, fun hg => h'.granted (h.granted hg),
    ?_⟩
  have hgaps := h.gaps
  have hgaps' := h'.gaps
  generalize r.gaps = a at hgaps
  generalize r'.gaps = b at hgaps hgaps'
  generalize r''.gaps = c at hgaps'
  induction hgaps generalizing c with
  | nil => exact hgaps'
  | cons hg _ ih =>
    cases hgaps' with
    | cons hg' hrest =>
      refine .cons ?_ (ih _ hrest)
      rcases hg with rfl | rfl
      · exact hg'
      · rcases hg' with rfl | rfl <;> exact Or.inr rfl

theorem hasGap (h : Eased r r') (hr : r.hasGap = true) : r'.hasGap = true := by
  unfold LockRequest.hasGap at hr ⊢
  obtain ⟨g, hg, hc⟩ := List.any_eq_true.mp hr
  obtain ⟨g', hg', hrel⟩ := forall₂_mem_left h.gaps hg
  refine List.any_eq_true.mpr ⟨g', hg', ?_⟩
  rcases hrel with rfl | rfl
  · exact hc
  · rfl

theorem holdsX (h : Eased r r') (hr : r.holdsX = true) : r'.holdsX = true := by
  simp only [LockRequest.holdsX, Bool.and_eq_true, decide_eq_true_eq] at hr ⊢
  exact ⟨h.granted hr.1, h.lockMode.trans hr.2⟩

theorem conflicts (h : Eased o o') (hr : Eased r r') (hc : r.conflicts o = true) :
    r'.conflicts o' = true := by
  simp only [LockRequest.conflicts, Bool.and_eq_true, decide_eq_true_eq] at hc ⊢
  rw [h.txnId, hr.txnId, hr.lockMode]
  refine ⟨hc.1, ?_⟩
  split
  next hm =>
    have hholds := hc.2
    rw [if_pos hm, Bool.or_eq_true] at hholds
    rw [Bool.or_eq_true]
    exact hholds.imp h.granted h.hasGap
  next hm => exact h.holdsX (by simpa [hm] using hc.2)

theorem list_trans (h : List.Forall₂ Eased l l') (h' : List.Forall₂ Eased l' l'') :
    List.Forall₂ Eased l l'' := by
  induction h generalizing l'' with
  | nil => exact h'
  | cons hr _ ih =>
    cases h' with
    | cons hr' hrest => exact .cons (hr.trans hr') (ih hrest)

theorem list_refl (l : List (LockRequest κ)) : List.Forall₂ Eased l l :=
  List.forall₂_same.mpr fun r _ => refl r

theorem list_filter (h : List.Forall₂ Eased l l') (t : TxnId) :
    List.Forall₂ Eased (l.filter fun r => decide (r.txnId = t))
      (l'.filter fun r => decide (r.txnId = t)) := by
  refine List.rel_filter ?_ h
  intro r r' hr
  simp [hr.txnId]

theorem of_grants {P : TxnId → Prop} (h : GrantsFor P l l') : List.Forall₂ Eased l l' := by
  refine h.imp fun r r' hr => ?_
  rcases hr with rfl | ⟨_, rfl⟩
  · exact refl _
  · exact grant r

/-- One request of the list is changed. -/
theorem list_one {before after : List (LockRequest κ)} (h : Eased r r') :
    List.Forall₂ Eased (before ++ r :: after) (before ++ r' :: after) :=
  List.rel_append (list_refl before) (.cons h (list_refl after))

end Eased

section Record

variable {l : List (LockRequest κ)} {r : LockRequest κ} {group : GroupMode}

theorem foldl_groupRecord {l₀ : List (LockRequest κ)}
    (hnone : group ≠ .noLock → ∃ o ∈ l₀, o.granted = true)
    (hx : group = .x → ∃ o ∈ l₀, o.holdsX = true) :
    (l.foldl groupRecordOne group ≠ .noLock → ∃ o ∈ l₀ ++ l, o.granted = true) ∧
      (l.foldl groupRecordOne group = .x → ∃ o ∈ l₀ ++ l, o.holdsX = true) := by
  induction l generalizing l₀ group with
  | nil => simpa using ⟨hnone, hx⟩
  | cons r l ih =>
    have hone : (groupRecordOne group r ≠ .noLock → ∃ o ∈ l₀ ++ [r], o.granted = true) ∧
        (groupRecordOne group r = .x → ∃ o ∈ l₀ ++ [r], o.holdsX = true) := by
      have hin : ∀ o ∈ l₀, o ∈ l₀ ++ [r] := fun o ho => List.mem_append_left _ ho
      have hself : r ∈ l₀ ++ [r] := by simp
      unfold groupRecordOne LockRequest.holdsX at *
      grind
    have hrest := ih hone.1 hone.2
    rw [List.append_assoc] at hrest
    exact hrest

/-- The group mode of a record that `unlock` has found stands for a lock. -/
theorem groupRecord_holder (l : List (LockRequest κ)) :
    (groupRecord l ≠ .noLock → ∃ o ∈ l, o.granted = true) ∧
      (groupRecord l = .x → ∃ o ∈ l, o.holdsX = true) := by
  have h := @foldl_groupRecord κ l .noLock [] (by simp) (by simp)
  exact h

theorem grantRecord_shared (hx : group ≠ .x) (hr : r ∈ (grantRecord l group).1)
    (hm : r.lockMode = .shared) : r.granted = true := by
  induction l generalizing group with
  | nil => simp [grantRecord] at hr
  | cons a l ih =>
    unfold grantRecord at hr
    split at hr
    next =>
      rcases List.mem_cons.mp hr with rfl | hr
      · rfl
      · exact ih (by simp) hr
    next hs =>
      rcases List.mem_cons.mp hr with rfl | hr
      · by_contra hg
        exact hs ⟨by simpa using hg, hm, hx⟩
      · exact ih hx hr

theorem grantRecord_group (hgroup : group ≠ .noLock → ∃ o ∈ l, o.granted = true)
    (h : (grantRecord l group).2 ≠ .noLock) : ∃ o ∈ (grantRecord l group).1, o.granted = true := by
  by_cases hg : group = .noLock
  · subst hg
    induction l with
    | nil => simp [grantRecord] at h
    | cons a l ih =>
      unfold grantRecord at h ⊢
      split
      next => exact ⟨_, List.mem_cons_self, rfl⟩
      next hs =>
        rw [if_neg hs] at h
        obtain ⟨o, ho, hgo⟩ := ih (by simp) h
        exact ⟨o, List.mem_cons_of_mem a ho, hgo⟩
  · obtain ⟨o, ho, hgo⟩ := hgroup hg
    exact ⟨o, (grantRecord_grants l group).mem_granted ho hgo, hgo⟩

/-- The last loop of `unlock` on a record leaves no exclusive request without a grant while
nothing is granted. -/
theorem regrantRecord_settled {upgrading : Option TxnId} {before after : List (LockRequest κ)}
    (hgroup : group ≠ .noLock → ∃ o ∈ before ++ after, o.granted = true)
    (hold : ∀ r ∈ before, r.lockMode = .exlucsive → r.granted = true ∨
      ∃ o ∈ before ++ after, o.granted = true)
    (hr : r ∈ (regrantRecord upgrading before after group).1) (hm : r.lockMode = .exlucsive) :
    r.granted = true ∨ ∃ o ∈ (regrantRecord upgrading before after group).1,
      o.granted = true := by
  induction after generalizing before group with
  | nil =>
    rw [regrantRecord] at hr ⊢
    simpa using hold r hr hm
  | cons a after ih =>
    rw [regrantRecord] at hr ⊢
    generalize hone : regrantRecordOne upgrading before after a group = one at hr ⊢
    have heased : Eased a one.1 := by
      rcases regrantRecordOne_grants upgrading before after a group with h | h <;>
        rw [hone] at h <;> rw [h]
      · exact Eased.refl a
      · exact Eased.grant a
    have hkeep : (∃ o ∈ before ++ a :: after, o.granted = true) →
        ∃ o ∈ before ++ [one.1] ++ after, o.granted = true := by
      rintro ⟨o, ho, hg⟩
      obtain ⟨o', ho', hrel⟩ := forall₂_mem_left (Eased.list_one heased) ho
      exact ⟨o', by simpa using ho', hrel.granted hg⟩
    have hself : one.1.granted = true → ∃ o ∈ before ++ [one.1] ++ after, o.granted = true :=
      fun h => ⟨one.1, by simp, h⟩
    -- either the round grants the request, or it leaves the group mode as it was
    have hround : one.1.granted = true ∨ one.2 = group ∧
        (one.1.lockMode = .exlucsive → group ≠ .noLock) := by
      rw [← hone]
      unfold regrantRecordOne
      grind
    refine ih (fun hg => ?_) (fun o ho hmo => ?_) hr
    · rcases hround with h | ⟨h, _⟩
      · exact hself h
      · exact hkeep (hgroup (h ▸ hg))
    · rcases List.mem_append.mp ho with ho | ho
      · exact (hold o ho hmo).imp_right hkeep
      · rw [List.mem_singleton.mp ho] at hmo ⊢
        rcases hround with h | ⟨_, h⟩
        · exact Or.inl h
        · exact Or.inr (hkeep (hgroup (h hmo)))

end Record

/-- The group mode of a table stands for a lock of the queue. -/
structure GroupHolder (l : List (LockRequest κ)) (group : GroupMode) : Prop where
  holder : group ≠ .noLock → (∃ o ∈ l, o.granted = true) ∨
    group = .gap ∧ ∃ o ∈ l, o.lockMode = .gap ∧ o.hasGap = true
  exclusive : group = .tabX → ∃ o ∈ l, o.holdsX = true

theorem GroupHolder.eased {l l' : List (LockRequest κ)} {group : GroupMode}
    (h : GroupHolder l group) (he : List.Forall₂ Eased l l') : GroupHolder l' group := by
  refine ⟨fun hg => ?_, fun hg => ?_⟩
  · rcases h.holder hg with ⟨o, ho, hgo⟩ | ⟨hgap, o, ho, hm, hh⟩
    · obtain ⟨o', ho', hrel⟩ := forall₂_mem_left he ho
      exact Or.inl ⟨o', ho', hrel.granted hgo⟩
    · obtain ⟨o', ho', hrel⟩ := forall₂_mem_left he ho
      exact Or.inr ⟨hgap, o', ho', hrel.lockMode.trans hm, hrel.hasGap hh⟩
  · obtain ⟨o, ho, hx⟩ := h.exclusive hg
    obtain ⟨o', ho', hrel⟩ := forall₂_mem_left he ho
    exact ⟨o', ho', hrel.holdsX hx⟩

theorem GroupHolder.of_granted {l : List (LockRequest κ)} {group : GroupMode} {o : LockRequest κ}
    (ho : o ∈ l) (hg : o.granted = true) (hx : group = .tabX → ∃ o ∈ l, o.holdsX = true) :
    GroupHolder l group :=
  ⟨fun _ => Or.inl ⟨o, ho, hg⟩, hx⟩

theorem GroupHolder.foldl {l₀ l : List (LockRequest κ)} {group : GroupMode}
    (h : GroupHolder l₀ group) : GroupHolder (l₀ ++ l) (l.foldl groupTableOne group) := by
  induction l generalizing l₀ group with
  | nil => simpa using h
  | cons r l ih =>
    have hone : GroupHolder (l₀ ++ [r]) (groupTableOne group r) := by
      have hin : ∀ o ∈ l₀, o ∈ l₀ ++ [r] := fun o ho => List.mem_append_left _ ho
      have hself : r ∈ l₀ ++ [r] := by simp
      obtain ⟨hh, hx⟩ := h
      constructor
      · unfold groupTableOne
        grind
      · unfold groupTableOne LockRequest.holdsX at *
        grind
    have hrest := ih hone
    rw [List.append_assoc] at hrest
    exact hrest

theorem groupTable_holder (l : List (LockRequest κ)) : GroupHolder l (groupTable l) :=
  @GroupHolder.foldl κ [] l .noLock ⟨by simp, by simp⟩

section Table

variable [LinearOrder κ] {upgrading : Option TxnId} {keys : List (InsertKey κ)}
  {before after l l' : List (LockRequest κ)} {r : LockRequest κ} {group : GroupMode}

/-- A request of a table as `grant_lock` leaves it: what it waits for is still there. -/
def TableSettled (keys : List (InsertKey κ)) (l : List (LockRequest κ)) (r : LockRequest κ) :
    Prop :=
  match r.lockMode with
  | .exlucsive => r.granted = true ∨
    ∃ o ∈ l, o.granted = true ∨ o.lockMode = .gap ∧ o.hasGap = true
  | .gap => (∀ g ∈ r.gaps, g.conflicted = true → gapConflicts keys r.txnId g = true) ∨
    ∃ o ∈ l, o.holdsX = true
  | .shared => True
  | _ => r.granted = true ∨ ∃ o ∈ l, o.holdsX = true

theorem TableSettled.eased (h : TableSettled keys l r) (he : List.Forall₂ Eased l l') :
    TableSettled keys l' r := by
  have hholds : (∃ o ∈ l, o.granted = true ∨ o.lockMode = .gap ∧ o.hasGap = true) →
      ∃ o ∈ l', o.granted = true ∨ o.lockMode = .gap ∧ o.hasGap = true := by
    rintro ⟨o, ho, hh⟩
    obtain ⟨o', ho', hrel⟩ := forall₂_mem_left he ho
    exact ⟨o', ho', hh.imp hrel.granted fun hh => ⟨hrel.lockMode.trans hh.1, hrel.hasGap hh.2⟩⟩
  have hx : (∃ o ∈ l, o.holdsX = true) → ∃ o ∈ l', o.holdsX = true := by
    rintro ⟨o, ho, hx⟩
    obtain ⟨o', ho', hrel⟩ := forall₂_mem_left he ho
    exact ⟨o', ho', hrel.holdsX hx⟩
  unfold TableSettled at h ⊢
  split
  next hm =>
    rw [hm] at h
    exact h.imp_right hholds
  next hm =>
    rw [hm] at h
    exact h.imp_right hx
  next => trivial
  next =>
    split at h
    · contradiction
    · contradiction
    · contradiction
    · exact h.imp_right hx

theorem resetGaps_eased (keys : List (InsertKey κ)) (r : LockRequest κ) :
    Eased r (resetGaps keys r) := by
  refine ⟨rfl, rfl, id, ?_⟩
  rw [resetGaps, List.forall₂_map_right_iff, List.forall₂_same]
  intro g _
  split
  · exact Or.inr rfl
  · exact Or.inl rfl

theorem resetGaps_settled (keys : List (InsertKey κ)) (r : LockRequest κ) :
    ∀ g ∈ (resetGaps keys r).gaps, g.conflicted = true →
      gapConflicts keys r.txnId g = true := by
  intro g hg hc
  obtain ⟨g₀, _, rfl⟩ := List.mem_map.mp hg
  split at hc
  next => cases hc
  next hfree =>
    rw [if_neg hfree]
    by_contra hno
    refine hfree ?_
    simp only [gapFreed, Bool.and_eq_true, Bool.not_eq_true']
    exact ⟨by simpa using hno, hc⟩

/-- A round of `grant_lock` before the upgrade test. -/
theorem grantReset_settled (h : GroupHolder (before ++ r :: after) group) :
    Eased r (grantReset keys (grantSwitch keys r group)).request ∧
      GroupHolder (before ++ (grantReset keys (grantSwitch keys r group)).request :: after)
        (grantReset keys (grantSwitch keys r group)).groupMode ∧
      TableSettled keys (before ++ (grantReset keys (grantSwitch keys r group)).request :: after)
        (grantReset keys (grantSwitch keys r group)).request := by
  have hreset := resetGaps_eased keys r
  have hgrant := Eased.grant r
  have hmem : ∀ r' : LockRequest κ, r' ∈ before ++ r' :: after := fun r' => by simp
  cases hg : r.granted with
  | true =>
    by_cases hm : r.lockMode = .gap
    · have heq : grantReset keys (grantSwitch keys r group) =
          ⟨resetGaps keys r, if resetsGap keys r = true ∧ group ≠ .tabX then .gap else group,
            resetsGap keys r⟩ := by
        simp [grantReset, grantSwitch, hg, hm]
      rw [heq]
      refine ⟨hreset, GroupHolder.of_granted (hmem _) hg fun hx => ?_, ?_⟩
      · refine (h.eased (Eased.list_one hreset)).exclusive ?_
        split at hx
        · cases hx
        · exact hx
      · simp only [TableSettled, show (resetGaps keys r).lockMode = .gap from hm]
        exact Or.inl (resetGaps_settled keys r)
    · have heq : grantReset keys (grantSwitch keys r group) = ⟨r, group, false⟩ := by
        simp [grantReset, grantSwitch, hg, hm]
      rw [heq]
      refine ⟨Eased.refl r, h, ?_⟩
      unfold TableSettled
      split <;> simp_all
  | false =>
    have hx : ∀ m, r.lockMode = m → m ≠ .exlucsive → m ≠ .gap → group = .tabX →
        TableSettled keys (before ++ r :: after) r := by
      intro m hm hne hgap htab
      have := h.exclusive htab
      unfold TableSettled
      split <;> simp_all
    have hgiven : TableSettled keys (before ++ { r with granted := true } :: after)
        { r with granted := true } ∨ r.lockMode = .gap := by
      by_cases hm : r.lockMode = .gap
      · exact Or.inr hm
      · left
        unfold TableSettled
        split <;> simp_all
    cases hm : r.lockMode with
    | exlucsive =>
      by_cases hn : group = .noLock
      · have heq : grantReset keys (grantSwitch keys r group) =
            ⟨{ r with granted := true }, .tabX, true⟩ := by
          simp [grantReset, grantSwitch, hg, hm, hn]
        rw [heq]
        refine ⟨hgrant, GroupHolder.of_granted (hmem _) rfl fun _ => ⟨_, hmem _, ?_⟩,
          hgiven.resolve_right (by simp [hm])⟩
        simp [LockRequest.holdsX, hm]
      · have heq : grantReset keys (grantSwitch keys r group) = ⟨r, group, false⟩ := by
          simp [grantReset, grantSwitch, hg, hm, hn]
        rw [heq]
        refine ⟨Eased.refl r, h, ?_⟩
        simp only [TableSettled, hm]
        rcases h.holder hn with ⟨o, ho, hgo⟩ | ⟨_, o, ho, hgap⟩
        · exact Or.inr ⟨o, ho, Or.inl hgo⟩
        · exact Or.inr ⟨o, ho, Or.inr hgap⟩
    | shared =>
      have heq : grantReset keys (grantSwitch keys r group) = ⟨r, group, false⟩ := by
        simp [grantReset, grantSwitch, hg, hm]
      rw [heq]
      exact ⟨Eased.refl r, h, by simp [TableSettled, hm]⟩
    | gap =>
      by_cases htab : group = .tabX
      · have heq : grantReset keys (grantSwitch keys r group) = ⟨r, group, false⟩ := by
          simp [grantReset, grantSwitch, hg, hm, htab]
        rw [heq]
        refine ⟨Eased.refl r, h, ?_⟩
        simp only [TableSettled, hm]
        exact Or.inr (h.exclusive htab)
      · have heq : grantReset keys (grantSwitch keys r group) =
            ⟨resetGaps keys r, group, resetsGap keys r⟩ := by
          simp [grantReset, grantSwitch, hg, hm, htab, resetGaps]
        rw [heq]
        refine ⟨hreset, h.eased (Eased.list_one hreset), ?_⟩
        simp only [TableSettled, show (resetGaps keys r).lockMode = .gap from hm]
        exact Or.inl (resetGaps_settled keys r)
    | intensionShared =>
      by_cases htab : group = .tabX
      · have heq : grantReset keys (grantSwitch keys r group) = ⟨r, group, false⟩ := by
          simp [grantReset, grantSwitch, hg, hm, htab]
        rw [heq]
        exact ⟨Eased.refl r, h, hx _ hm (by simp) (by simp) htab⟩
      · have heq : grantReset keys (grantSwitch keys r group) =
            ⟨{ r with granted := true }, if group = .noLock then .is else group, true⟩ := by
          simp [grantReset, grantSwitch, hg, hm, htab]
        rw [heq]
        refine ⟨hgrant, GroupHolder.of_granted (hmem _) rfl fun hx => ?_,
          hgiven.resolve_right (by simp [hm])⟩
        simp only at hx
        split at hx <;> simp_all
    | intensionExlucsive =>
      by_cases htab : group = .tabX
      · have heq : grantReset keys (grantSwitch keys r group) = ⟨r, group, false⟩ := by
          simp [grantReset, grantSwitch, hg, hm, htab]
        rw [heq]
        exact ⟨Eased.refl r, h, hx _ hm (by simp) (by simp) htab⟩
      · have heq : grantReset keys (grantSwitch keys r group) =
            ⟨{ r with granted := true }, if group = .noLock ∨ group = .is then .ix else group,
              true⟩ := by
          simp [grantReset, grantSwitch, hg, hm, htab]
        rw [heq]
        refine ⟨hgrant, GroupHolder.of_granted (hmem _) rfl fun hx => ?_,
          hgiven.resolve_right (by simp [hm])⟩
        simp only at hx
        split at hx <;> simp_all

theorem grantTableOne_settled (h : GroupHolder (before ++ r :: after) group)
    (hup : upgrading = some r.txnId → r.lockMode = .exlucsive) :
    Eased r (grantTableOne upgrading keys before after r group).1 ∧
      GroupHolder (before ++ (grantTableOne upgrading keys before after r group).1 :: after)
        (grantTableOne upgrading keys before after r group).2 ∧
      TableSettled keys
        (before ++ (grantTableOne upgrading keys before after r group).1 :: after)
        (grantTableOne upgrading keys before after r group).1 := by
  obtain ⟨heased, hholder, hsettled⟩ :=
    @grantReset_settled κ _ keys before after r group h
  unfold grantTableOne grantUpgrade
  split
  next hu =>
    have hm : (grantReset keys (grantSwitch keys r group)).request.lockMode = .exlucsive := by
      rw [heased.lockMode]
      exact hup (by rw [hu.2.1, heased.txnId])
    have hmem : ∀ r' : LockRequest κ, r' ∈ before ++ r' :: after := fun r' => by simp
    refine ⟨heased.trans (Eased.grant _), GroupHolder.of_granted (hmem _) rfl fun _ => ?_, ?_⟩
    · exact ⟨_, hmem _, by simp [LockRequest.holdsX, hm]⟩
    · simp [TableSettled, hm]
  next => exact ⟨heased, hholder, hsettled⟩

/-- `grant_lock` on a table leaves nobody waiting for a lock that nobody holds. -/
theorem grantTable_settled (h : GroupHolder (before ++ after) group)
    (hup : ∀ r ∈ after, upgrading = some r.txnId → r.lockMode = .exlucsive)
    (hold : ∀ r ∈ before, TableSettled keys (before ++ after) r) :
    List.Forall₂ Eased (before ++ after) (grantTable upgrading keys before after group).1 ∧
      ∀ r ∈ (grantTable upgrading keys before after group).1,
        TableSettled keys (grantTable upgrading keys before after group).1 r := by
  induction after generalizing before group with
  | nil =>
    rw [grantTable, List.append_nil] at *
    exact ⟨Eased.list_refl before, hold⟩
  | cons r after ih =>
    obtain ⟨heased, hholder, hsettled⟩ := @grantTableOne_settled κ _ upgrading keys before after r
      group h (hup r List.mem_cons_self)
    rw [grantTable]
    generalize grantTableOne upgrading keys before after r group = one at *
    have hlist : before ++ [one.1] ++ after = before ++ one.1 :: after := by simp
    have hone := @Eased.list_one κ _ _ before after heased
    obtain ⟨hrest, hall⟩ := @ih (before ++ [one.1]) one.2 (by rwa [hlist])
      (fun o ho => hup o (List.mem_cons_of_mem r ho)) (fun o ho => by
        rw [hlist]
        rcases List.mem_append.mp ho with ho | ho
        · exact (hold o ho).eased hone
        · rw [List.mem_singleton.mp ho]
          exact hsettled)
    rw [hlist] at hrest
    exact ⟨Eased.list_trans hone hrest, hall⟩

/-- The same in the words of `conflicts`. -/
theorem TableSettled.blocked (h : TableSettled keys l r) (hr : r ∈ l)
    (hnodup : (l.map (·.txnId)).Nodup) (hs : r.lockMode ≠ .shared) :
    (∃ o ∈ l, r.conflicts o = true) ∨
      if r.lockMode = .gap then
        ∀ g ∈ r.gaps, g.conflicted = true → gapConflicts keys r.txnId g = true
      else r.granted = true := by
  have hne : ∀ o ∈ l, (r.lockMode ≠ .exlucsive ∨ r.granted = false) →
      o.holdsX = true → r.conflicts o = true := by
    intro o ho hno hx
    simp only [LockRequest.holdsX, Bool.and_eq_true, decide_eq_true_eq] at hx
    have hid : o.txnId ≠ r.txnId := by
      intro heq
      have : o = r := List.inj_on_of_nodup_map hnodup ho hr heq
      subst this
      rcases hno with hno | hno
      · exact hno hx.2
      · simp [hno] at hx
    simp [LockRequest.conflicts, LockRequest.holdsX, hid, hx]
  unfold TableSettled at h
  split at h
  next hm =>
    rcases h with h | ⟨o, ho, hholds⟩
    · right
      simpa [hm] using h
    · by_cases hg : r.granted = true
      · right
        simpa [hm] using hg
      · left
        refine ⟨o, ho, ?_⟩
        have hid : o.txnId ≠ r.txnId := by
          intro heq
          have : o = r := List.inj_on_of_nodup_map hnodup ho hr heq
          subst this
          rcases hholds with hholds | hholds
          · exact hg hholds
          · simp [hm] at hholds
        simp only [LockRequest.conflicts, hm, if_true, Bool.and_eq_true, decide_eq_true_eq,
          Bool.or_eq_true]
        exact ⟨hid, hholds.imp_right And.right⟩
  next hm =>
    rw [if_pos hm]
    rcases h with h | ⟨o, ho, hx⟩
    · exact Or.inr h
    · exact Or.inl ⟨o, ho, hne o ho (Or.inl (by simp [hm])) hx⟩
  next hm => exact absurd hm hs
  next hnx hng _ =>
    rw [if_neg hng]
    rcases h with h | ⟨o, ho, hx⟩
    · exact Or.inr h
    · exact Or.inl ⟨o, ho, hne o ho (Or.inl hnx) hx⟩

end Table

end Grmdb
