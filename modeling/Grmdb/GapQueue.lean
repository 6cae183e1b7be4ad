import Grmdb.TableExclusion

namespace Grmdb

variable {κ : Type}

theorem withdraw_keys (q : LockRequestQueue κ) (t : TxnId) :
    (q.withdraw t).insertKeys = q.insertKeys.filter fun k => decide (k.txnId ≠ t) := by
  unfold LockRequestQueue.withdraw LockRequestQueue.removeKeys LockRequestQueue.clearUpgrading
  split <;> rfl

theorem releaseTable_keys (q : LockRequestQueue κ) (t : TxnId) :
    (q.releaseTable t).insertKeys = q.insertKeys ∨
      (q.releaseTable t).insertKeys = q.insertKeys.filter fun k => decide (k.txnId ≠ t) := by
  unfold LockRequestQueue.releaseTable LockRequestQueue.clearUpgrading
  dsimp only
  split
  · exact Or.inr (by split <;> rfl)
  · exact Or.inl (by split <;> rfl)

section Order

variable [LinearOrder κ]

/-- A table queue without exclusive table locks, in which no gap that counts has another
transaction's key in it. -/
structure GapsOk (q : LockRequestQueue κ) : Prop where
  modes : ∀ r ∈ q.requestQueue, r.lockMode ≠ .exlucsive
  upgrading : q.upgrading = none
  group : q.groupMode ≠ .tabX
  free : ∀ r ∈ q.requestQueue, ∀ g ∈ r.gaps, g.conflicted = false →
    gapConflicts q.insertKeys r.txnId g = false

theorem gapConflicts_subset {keys keys' : List (InsertKey κ)} {t : TxnId} {g : Gap κ}
    (hsub : ∀ k ∈ keys', k ∈ keys) (h : gapConflicts keys t g = false) :
    gapConflicts keys' t g = false := by
  simp only [gapConflicts, List.any_eq_false] at h ⊢
  exact fun k hk => h k (hsub k hk)

section Queue

variable {q q' : LockRequestQueue κ} {t : TxnId}

/-- Fewer keys, and the same requests but for one of `t`. -/
theorem GapsOk.change (h : GapsOk q) (hup : q'.upgrading = none) (hgroup : q'.groupMode ≠ .tabX)
    (hkeys : ∀ k ∈ q'.insertKeys, k ∈ q.insertKeys)
    (hreq : ∀ r ∈ q'.requestQueue, r ∈ q.requestQueue ∨ r.lockMode ≠ .exlucsive ∧
      ∀ g ∈ r.gaps, g.conflicted = false → gapConflicts q.insertKeys r.txnId g = false) :
    GapsOk q' := by
  refine ⟨fun r hr => ?_, hup, hgroup, fun r hr g hg hc => ?_⟩
  · rcases hreq r hr with hr | hr
    · exact h.modes r hr
    · exact hr.1
  · refine gapConflicts_subset hkeys ?_
    rcases hreq r hr with hr | hr
    · exact h.free r hr g hg hc
    · exact hr.2 g hg hc

theorem GapsOk.withdraw (h : GapsOk q) : GapsOk (q.withdraw t) := by
  refine h.change ?_ ?_ ?_ fun r hr => Or.inl (mem_withdraw hr)
  · rw [withdraw_upgrading, h.upgrading]
    simp
  · rw [withdraw_groupMode]
    exact h.group
  · rw [withdraw_keys]
    exact fun k hk => (List.mem_filter.mp hk).1

theorem GapsOk.orDie (h : GapsOk q) (isNew : Bool) : GapsOk (q.orDie t isNew).1 := by
  unfold LockRequestQueue.orDie
  split
  · exact h.withdraw
  · exact h

theorem GapsOk.push (h : GapsOk q) {r : LockRequest κ} {group : GroupMode}
    (hgroup : group ≠ .tabX) (hmode : r.lockMode ≠ .exlucsive)
    (hgaps : ∀ g ∈ r.gaps, g.conflicted = false → gapConflicts q.insertKeys r.txnId g = false) :
    GapsOk { q.push r with groupMode := group } := by
  refine h.change h.upgrading hgroup (fun _ hk => hk) fun o ho => ?_
  rcases mem_push ho with ho | rfl
  · exact Or.inl ho
  · exact Or.inr ⟨hmode, hgaps⟩

theorem GapsOk.update (h : GapsOk q) {f : LockRequest κ → LockRequest κ} {group : GroupMode}
    (hgroup : group ≠ .tabX) (hid : ∀ r, (f r).txnId = r.txnId)
    (hmode : ∀ r, r.lockMode ≠ .exlucsive → (f r).lockMode ≠ .exlucsive)
    (hgaps : ∀ r, ∀ g ∈ (f r).gaps, g.conflicted = false → g ∈ r.gaps ∨
      gapConflicts q.insertKeys t g = false) :
    GapsOk { q.update t f with groupMode := group } := by
  refine h.change h.upgrading hgroup (fun _ hk => hk) fun o ho => ?_
  rcases mem_update ho with ho | ⟨y, hy, hyt, rfl⟩
  · exact Or.inl ho
  · refine Or.inr ⟨hmode y (h.modes y hy), fun g hg hc => ?_⟩
    rw [hid]
    rcases hgaps y g hg hc with hold | hnew
    · exact h.free y hy g hold hc
    · exact hyt ▸ hnew

theorem lockISOnTable_gaps (h : GapsOk q) {out : Outcome}
    (hcall : q.lockISOnTable t = some (q', out)) : GapsOk q' := by
  have hup : ∀ granted, GapsOk (q.update t fun r => { r with granted := granted }) := fun granted =>
    h.update h.group (by simp) (by simp) (by simp +contextual)
  have hnew : q.intentionSharedNew t = some (q', out) → GapsOk q' := by
    intro hcall
    unfold LockRequestQueue.intentionSharedNew at hcall
    dsimp only at hcall
    split at hcall
    · cases Option.some.inj hcall
      exact h.push (by simp) (by simp) (by simp)
    · split at hcall
      · cases Option.some.inj hcall
        exact h.push h.group (by simp) (by simp)
      · rw [if_neg h.group] at hcall
        cases hcall
  unfold LockRequestQueue.lockISOnTable at hcall
  split at hcall
  · exact hnew hcall
  · split at hcall
    · cases Option.some.inj hcall
      exact hup true
    · rw [if_neg h.group] at hcall
      exact hnew hcall

theorem lockIXOnTable_gaps (h : GapsOk q) : GapsOk (q.lockIXOnTable t).1 := by
  have hnew : GapsOk (q.intentionExclusiveNew t).1 := by
    unfold LockRequestQueue.intentionExclusiveNew
    dsimp only
    split
    · exact h.push (by simp) (by simp) (by simp)
    · split
      · exact h.push h.group (by simp) (by simp)
      · split
        · exact h.push (by simp) (by simp) (by simp)
        · rw [if_neg h.group]
          exact h.push h.group (by simp) (by simp)
  unfold LockRequestQueue.lockIXOnTable
  split
  · exact hnew
  · split
    · refine h.update h.group (by simp) ?_ (by simp +contextual)
      intro r hr
      dsimp only
      split <;> simp [hr]
    · split
      · exact h.update (by simp) (by simp) (by simp) (by simp +contextual)
      · rw [if_neg h.group]
        exact hnew

theorem lockGAPOnTable_gaps (h : GapsOk q) (lower upper : κ) (index : IndexId) :
    GapsOk (q.lockGAPOnTable t lower upper index).1 := by
  have hgap : GapsOk { q with groupMode := .gap } :=
    h.change h.upgrading (by simp) (fun _ hk => hk) (fun _ hr => Or.inl hr)
  unfold LockRequestQueue.lockGAPOnTable
  simp only [ne_eq, h.group, not_false_eq_true, if_true]
  split
  · unfold LockRequestQueue.gapNew
    split
    · split
      · exact GapsOk.orDie (hgap.push (by simp) (by simp) (by simp)) true
      next hc => exact hgap.push (by simp) (by simp) (by simpa using hc)
    · simp only [reduceCtorEq, if_false]
      split
      · exact GapsOk.orDie (hgap.push (by simp) (by simp) (by simp)) true
      next hc => exact hgap.push (by simp) (by simp) (by simpa using hc)
  · simp only [reduceCtorEq, if_false]
    split
    · refine GapsOk.orDie (hgap.update (by simp) (by simp) (by simp) ?_) false
      intro r g hg hc
      rcases List.mem_append.mp hg with hg | hg
      · exact Or.inl hg
      · simp [List.mem_singleton.mp hg] at hc
    next hc =>
      refine hgap.update (by simp) (by simp) (by simp) ?_
      intro r g hg _
      rcases List.mem_append.mp hg with hg | hg
      · exact Or.inl hg
      · rw [List.mem_singleton.mp hg]
        exact Or.inr (by simpa using hc)

/-- A key that is given at once lies in no gap. -/
theorem GapsOk.newKey (h : GapsOk q) (index : IndexId) (key : κ) (rid : Rid) :
    GapsOk { q with insertKeys := q.insertKeys ++
      [⟨key, index, t, rid, q.keyInGap t index key⟩] } := by
  refine ⟨h.modes, h.upgrading, h.group, fun r hr g hg hc => ?_⟩
  have hold := h.free r hr g hg hc
  simp only [gapConflicts, List.any_append, List.any_cons, List.any_nil, Bool.or_false,
    Bool.or_eq_false_iff] at hold ⊢
  refine ⟨hold, ?_⟩
  cases hin : q.keyInGap t index key with
  | true => simp
  | false =>
    simp only [LockRequestQueue.keyInGap, List.any_eq_false] at hin
    by_cases hrt : r.txnId = t
    · simp [hrt]
    · have hno := hin r hr
      simp only [ne_eq, hrt, not_false_eq_true, decide_true, Bool.true_and, Bool.not_eq_true,
        List.any_eq_false] at hno
      have := hno g hg
      simp [this]

theorem exclusiveGap_gaps (queueRec : LockRequestQueue κ) (h : GapsOk q) (rid : Rid)
    (index : IndexId) (key : κ) :
    GapsOk (queueRec.lockExclusiveOnRecordGap q t rid index key).2.1 := by
  unfold LockRequestQueue.lockExclusiveOnRecordGap
  dsimp only
  rcases exclusiveOnRecord_table queueRec _ t (q.keyInGap t index key) with hq | ⟨hq, _⟩
  · rw [hq]
    exact h.newKey index key rid
  · rw [hq]
    exact (h.newKey index key rid).withdraw

theorem GapsOk.release (h : GapsOk q) : GapsOk (q.releaseTable t) := by
  refine h.change ?_ ?_ ?_ fun r hr => Or.inl ?_
  · rw [releaseTable_upgrading (by simp [h.upgrading])]
    exact h.upgrading
  · rw [releaseTable_groupMode]
    intro htab
    rcases foldl_groupTable_tabX.mp htab with habs | ⟨r, hr, hx⟩
    · cases habs
    · have := h.modes r (List.mem_of_mem_eraseP hr)
      simp [LockRequest.holdsX, this] at hx
  · intro k hk
    rcases releaseTable_keys q t with hkeys | hkeys
    · exact hkeys ▸ hk
    · rw [hkeys] at hk
      exact (List.mem_filter.mp hk).1
  · rw [releaseTable_requests] at hr
    exact List.mem_of_mem_eraseP hr

/-- A gap that `grant_lock` frees has no key in it. -/
theorem resetGaps_free {keys : List (InsertKey κ)} {r : LockRequest κ}
    (h : ∀ g ∈ r.gaps, g.conflicted = false → gapConflicts keys r.txnId g = false) :
    ∀ g ∈ (resetGaps keys r).gaps, g.conflicted = false →
      gapConflicts keys r.txnId g = false := by
  intro g hg hc
  obtain ⟨o, ho, rfl⟩ := List.mem_map.mp hg
  split at hc
  next hfree =>
    rw [if_pos hfree]
    simp only [gapFreed, Bool.and_eq_true, Bool.not_eq_true'] at hfree
    exact hfree.1
  next hfree =>
    rw [if_neg hfree]
    exact h o ho hc

theorem grantTableOne_group {keys : List (InsertKey κ)} {before after : List (LockRequest κ)}
    {r : LockRequest κ} {group : GroupMode} (hmode : r.lockMode ≠ .exlucsive)
    (hgroup : group ≠ .tabX) : (grantTableOne none keys before after r group).2 ≠ .tabX := by
  have hswitch : (grantSwitch keys r group).groupMode ≠ .tabX := by
    unfold grantSwitch
    split
    · exact hgroup
    · split
      next hm => exact absurd hm hmode
      next =>
        dsimp only
        split <;> simp [hgroup]
      next =>
        dsimp only
        split <;> simp [hgroup]
      next => exact hgroup
      next => exact hgroup
  have hreset : (grantReset keys (grantSwitch keys r group)).groupMode ≠ .tabX := by
    unfold grantReset
    split
    · dsimp only
      split <;> simp [hswitch]
    · exact hswitch
  unfold grantTableOne grantUpgrade
  rw [if_neg (by simp)]
  exact hreset

theorem grantTable_gaps {keys : List (InsertKey κ)} {before after : List (LockRequest κ)}
    {group : GroupMode} (hgroup : group ≠ .tabX)
    (hok : ∀ r ∈ before ++ after, r.lockMode ≠ .exlucsive ∧
      ∀ g ∈ r.gaps, g.conflicted = false → gapConflicts keys r.txnId g = false) :
    (grantTable none keys before after group).2 ≠ .tabX ∧
      ∀ r ∈ (grantTable none keys before after group).1, r.lockMode ≠ .exlucsive ∧
        ∀ g ∈ r.gaps, g.conflicted = false → gapConflicts keys r.txnId g = false := by
  induction after generalizing before group with
  | nil => exact ⟨hgroup, by simpa [grantTable] using hok⟩
  | cons r after ih =>
    obtain ⟨hmode, hfree⟩ := hok r (by simp)
    obtain ⟨ht, hm, hg⟩ := grantTableOne_keeps none keys before after r group
    rw [grantTable]
    refine ih (grantTableOne_group hmode hgroup) fun o ho => ?_
    rw [List.append_assoc] at ho
    rcases List.mem_append.mp ho with ho | ho
    · exact hok o (by simp [ho])
    · rcases List.mem_append.mp ho with ho | ho
      · rw [List.mem_singleton.mp ho, hm, ht]
        refine ⟨hmode, ?_⟩
        rcases hg with hg | hg
        · rw [hg]
          exact hfree
        · rw [hg]
          exact resetGaps_free hfree
      · exact hok o (by simp [ho])

theorem GapsOk.grant (h : GapsOk q) : GapsOk q.grantLockTable := by
  have hok : ∀ r ∈ [] ++ q.requestQueue, r.lockMode ≠ .exlucsive ∧
      ∀ g ∈ r.gaps, g.conflicted = false → gapConflicts q.insertKeys r.txnId g = false :=
    fun r hr => ⟨h.modes r hr, h.free r hr⟩
  obtain ⟨hgroup, hreq⟩ := grantTable_gaps h.group hok
  rw [← h.upgrading] at hgroup hreq
  exact ⟨fun r hr => (hreq r hr).1, h.upgrading, hgroup, fun r hr => (hreq r hr).2⟩

/-- A key that the unlock of the table gives lies in no gap. -/
theorem GapsOk.regrant (h : GapsOk q) {fd : Fd} {locks : Locks κ}
    {out : List (InsertKey κ) × Locks κ × GroupMode}
    (hspec : KeysRegranted fd q q.insertKeys locks q.groupMode out) :
    GapsOk { q with insertKeys := out.1, groupMode := out.2.2 } := by
  have hfreed : ∀ k, q.grantsKey fd locks k = true →
      q.keyInGap k.txnId k.index k.insertKey = false := by
    intro k hk
    simp only [LockRequestQueue.grantsKey, LockRequestQueue.frees, h.upgrading,
      Bool.and_eq_true] at hk
    simpa using hk.1.2
  refine ⟨h.modes, h.upgrading, ?_, fun r hr g hg hc => ?_⟩
  · rcases hspec.newGroup with hgroup | ⟨k, _, hgk, hin⟩
    · rw [show ({ q with insertKeys := out.1, groupMode := out.2.2 } :
        LockRequestQueue κ).groupMode = q.groupMode from hgroup]
      exact h.group
    · simp [hfreed k hgk] at hin
  · have hold := h.free r hr g hg hc
    simp only [gapConflicts, List.any_eq_false] at hold ⊢
    intro k' hk'
    rw [hspec.newKeys] at hk'
    obtain ⟨k, hk, rfl⟩ := List.mem_map.mp hk'
    split
    next hgk =>
      have hno := hfreed k hgk
      simp only [LockRequestQueue.keyInGap, List.any_eq_false] at hno
      have hr' := hno r hr
      by_cases hrt : r.txnId = k.txnId
      · simp [hrt]
      · simp only [ne_eq, hrt, not_false_eq_true, decide_true, Bool.true_and, Bool.not_eq_true,
          List.any_eq_false] at hr'
        simp [hr' g hg]
    next => exact hold k hk

end Queue

end Order

end Grmdb
