import Grmdb.InWay

namespace Grmdb

open LockRequestQueue

variable {κ : Type} {t : TxnId}

/-- A transaction has at most one request in the queue. -/
def LockRequestQueue.Single (q : LockRequestQueue κ) : Prop :=
  ∀ r ∈ q.requestQueue, ∀ o ∈ q.requestQueue, o.txnId = r.txnId → o = r

/-- The request of a lock that a queue in the exclusive group mode `group` does not give at once:
another transaction has the exclusive lock. -/
def LockRequestQueue.Refuses (q : LockRequestQueue κ) (group : GroupMode) (t : TxnId) : Prop :=
  q.groupMode = group ∧ q.requestQueue ≠ [] ∧ (q.find t = none ∨ q.otherHoldsX t = true)

def LockRequestQueue.ownHoldsX (q : LockRequestQueue κ) (t : TxnId) : Bool :=
  q.requestQueue.any fun r => decide (r.txnId = t) && r.holdsX

/-- The request for the whole table that is not granted at once. -/
def LockRequestQueue.RefusesTable (q : LockRequestQueue κ) (t : TxnId) : Prop :=
  if q.find t = none then q.requestQueue ≠ [] ∧ q.groupMode ≠ .noLock
  else q.upgrading = none ∧ otherHolds q.requestQueue q.groupMode t = true

theorem conflicts_of_holdsX {r o : LockRequest κ} (hne : o.txnId ≠ r.txnId)
    (hx : o.holdsX = true) : r.conflicts o = true := by
  have hg : o.granted = true := by
    simp only [LockRequest.holdsX, Bool.and_eq_true] at hx
    exact hx.1
  simp [LockRequest.conflicts, hne, hx, hg]

theorem LockRequestQueue.Single.conflicts {q : LockRequestQueue κ} (hs : q.Single)
    {r o : LockRequest κ} (hr : r ∈ q.requestQueue) (ho : o ∈ q.requestQueue)
    (hu : r.granted = false ∨ r.lockMode = .gap) (hx : o.holdsX = true) :
    r.conflicts o = true := by
  refine conflicts_of_holdsX (fun heq => ?_) hx
  obtain rfl := hs r hr o ho heq
  simp only [LockRequest.holdsX, Bool.and_eq_true, decide_eq_true_eq] at hx
  rcases hu with hu | hu
  · simp [hu] at hx
  · simp [hu] at hx

section StillHeld

variable {q q' : LockRequestQueue κ}

theorem StillHeld.of_mem (h : ∀ o ∈ q.requestQueue, o ∈ q'.requestQueue) : StillHeld t q q' :=
  fun _ _ _ _ o ho _ hc => ⟨o, h o ho, hc⟩

/-- Nothing of `t` is in the queue. -/
theorem StillHeld.of_find (h : q.find t = none) : StillHeld t q q' :=
  fun _ _ _ _ _ ho hot _ => absurd hot (find_eq_none h ho)

/-- The exclusive lock of another transaction stays in the way of all. -/
theorem StillHeld.of_holder (hs : q.Single) {o : LockRequest κ} (ho : o ∈ q.requestQueue)
    (hx : o.holdsX = true) (ho' : o ∈ q'.requestQueue) : StillHeld t q q' :=
  fun _ hr _ hu _ _ _ _ => ⟨o, ho', hs.conflicts hr ho hu hx⟩

theorem StillHeld.update (hs : q.Single) {f : LockRequest κ → LockRequest κ}
    (h : ∀ r o : LockRequest κ, o ∈ q.requestQueue → o.txnId = t → r.conflicts o = true →
      r.conflicts (f o) = true) : StillHeld t q (q.update t f) := by
  intro r _ _ _ o ho hot hc
  cases hf : q.find t with
  | none => exact absurd hot (find_eq_none hf ho)
  | some a =>
    obtain ⟨ha, hat⟩ := find_mem hf
    obtain rfl := hs a ha o ho (hot.trans hat.symm)
    exact ⟨f o, mem_updateFirst_find hf, h r o ho hot hc⟩

theorem KeepsGaps.of_mem (h : ∀ o ∈ q.requestQueue, o ∈ q'.requestQueue)
    (hk : ∀ k ∈ q.insertKeys, k ∈ q'.insertKeys) : KeepsGaps t q q' :=
  ⟨fun o ho hot _ hg => ⟨o, h o ho, hot, hg⟩, fun k hk' _ => hk k hk'⟩

theorem KeepsGaps.update (hs : q.Single) {f : LockRequest κ → LockRequest κ}
    (hid : ∀ r, (f r).txnId = r.txnId) (hg : ∀ r, ∀ g ∈ r.gaps, g ∈ (f r).gaps) :
    KeepsGaps t q (q.update t f) := by
  refine ⟨fun o ho hot _ hgo => ?_, fun k hk _ => hk⟩
  cases hf : q.find t with
  | none => exact absurd hot (find_eq_none hf ho)
  | some a =>
    obtain ⟨ha, hat⟩ := find_mem hf
    obtain rfl := hs a ha o ho (hot.trans hat.symm)
    exact ⟨f o, mem_updateFirst_find hf, (hid o).trans hot, hg o _ hgo⟩

theorem mem_push_left {r o : LockRequest κ} (ho : o ∈ q.requestQueue) :
    o ∈ (q.push r).requestQueue :=
  List.mem_append_left _ ho

end StillHeld

/-- What a call of `t` on a queue means for those who wait: they keep what is in their way, unless
the call takes back something (`lost`), and if `t` itself waits then for a lock of the queue. -/
structure CallGrants (t : TxnId) (q q' : LockRequestQueue κ) (out : Outcome) (lost : Prop)
    (held : LockRequest κ → LockRequestQueue κ → Prop) : Prop where
  others : lost ∨ StillHeld t q q' ∧ KeepsGaps t q q'
  waits : ∀ b, out = .waits b → ∃ r ∈ q'.requestQueue, r.txnId = t ∧ held r q'

namespace CallGrants

variable {q q' : LockRequestQueue κ} {out : Outcome} {lost : Prop}
  {held : LockRequest κ → LockRequestQueue κ → Prop}

theorem push {r : LockRequest κ} (group : GroupMode) {b : Bool} :
    CallGrants t q ({ q with groupMode := group }.push r) (.returns b) lost held :=
  ⟨Or.inr ⟨StillHeld.of_mem fun _ ho => List.mem_append_left _ ho,
    KeepsGaps.of_mem (fun _ ho => List.mem_append_left _ ho) fun _ hk => hk⟩, by simp⟩

theorem update (hs : q.Single) (group : GroupMode) {f : LockRequest κ → LockRequest κ}
    (hid : ∀ r, (f r).txnId = r.txnId) (hg : ∀ r, ∀ g ∈ r.gaps, g ∈ (f r).gaps)
    (h : lost ∨ ∀ r o : LockRequest κ, o ∈ q.requestQueue → o.txnId = t → r.conflicts o = true →
      r.conflicts (f o) = true) {b : Bool} :
    CallGrants t q ({ q with groupMode := group }.update t f) (.returns b) lost held := by
  refine ⟨h.imp_right fun h => ⟨?_, ?_⟩, by simp⟩
  · exact @StillHeld.update κ t q hs f h
  · obtain ⟨hgaps, hkeys⟩ := @KeepsGaps.update κ t q hs f hid hg
    exact ⟨hgaps, hkeys⟩

/-- The group mode of the queue before the call does not matter. -/
theorem of_groupMode {group : GroupMode}
    (h : CallGrants t { q with groupMode := group } q' out lost held) :
    CallGrants t q q' out lost held :=
  ⟨h.others.imp_right fun h => ⟨h.1, ⟨h.2.gaps, h.2.keys⟩⟩, h.waits⟩

/-- A new request that has to wait. -/
theorem pushOrDie {r : LockRequest κ} (hrt : r.txnId = t) (hlost : q.dies t = true → lost)
    (hheld : q.dies t = false → held r (q.push r)) :
    CallGrants t q ((q.push r).orDie t true).1 ((q.push r).orDie t true).2 lost held := by
  have hdies : (q.push r).dies t = q.dies t := by
    subst hrt
    simp [dies, LockRequestQueue.push]
  unfold orDie
  rw [hdies]
  split
  next hd => exact ⟨Or.inl (hlost hd), by simp⟩
  next hd =>
    exact ⟨Or.inr ⟨StillHeld.of_mem fun _ ho => List.mem_append_left _ ho,
      KeepsGaps.of_mem (fun _ ho => List.mem_append_left _ ho) fun _ hk => hk⟩,
      fun _ _ => ⟨r, List.mem_append_right _ (List.mem_singleton.mpr rfl), hrt,
        hheld (by simpa using hd)⟩⟩

/-- A request that gives up what it has until it is granted more. -/
theorem updateOrDie (hs : q.Single) {f : LockRequest κ → LockRequest κ} {a : LockRequest κ}
    (ha : q.find t = some a) (hid : ∀ r, (f r).txnId = r.txnId)
    (hg : ∀ r, ∀ g ∈ r.gaps, g ∈ (f r).gaps) (hlost : q.dies t = true → lost)
    (hstill : lost ∨ StillHeld t q (q.update t f)) (hheld : held (f a) (q.update t f)) :
    CallGrants t q ((q.update t f).orDie t false).1 ((q.update t f).orDie t false).2 lost
      held := by
  unfold orDie
  rw [dies_update hid]
  split
  next hd => exact ⟨Or.inl (hlost hd), by simp⟩
  next =>
    exact ⟨hstill.imp_right fun h => ⟨h, KeepsGaps.update hs hid hg⟩,
      fun _ _ => ⟨f a, mem_updateFirst_find ha, (hid a).trans (find_mem ha).2, hheld⟩⟩

end CallGrants

section Record

variable {q q' queueTable : LockRequestQueue κ} {isWaited : Bool}

/-- The two ends of a call that meets an exclusive lock. -/
theorem stillHeld_orDie (hs : q.Single) {o r : LockRequest κ} (ho : o ∈ q.requestQueue)
    (hot : o.txnId ≠ t) (hx : o.holdsX = true) (ho' : o ∈ q'.requestQueue)
    (hr : r ∈ q'.requestQueue) (hrt : r.txnId = t) (isNew : Bool) :
    StillHeld t q (q'.orDie t isNew).1 ∧ ∀ b, (q'.orDie t isNew).2 = .waits b →
      ∃ r ∈ (q'.orDie t isNew).1.requestQueue, r.txnId = t ∧
        ∃ o ∈ (q'.orDie t isNew).1.requestQueue, r.conflicts o = true := by
  unfold orDie
  split
  · exact ⟨StillHeld.of_holder hs ho hx (mem_withdraw_of_ne ho' hot), by simp⟩
  · exact ⟨StillHeld.of_holder hs ho hx ho', fun _ _ => ⟨r, hr, hrt, o, ho',
      conflicts_of_holdsX (fun heq => hot (heq.trans hrt)) hx⟩⟩

theorem lockSharedOnRecord_grants (hs : q.Single) (hx : q.GroupX) :
    StillHeld t q (q.lockSharedOnRecord t).1 ∧ ∀ b, (q.lockSharedOnRecord t).2 = .waits b →
      ∃ r ∈ (q.lockSharedOnRecord t).1.requestQueue, r.txnId = t ∧
        ∃ o ∈ (q.lockSharedOnRecord t).1.requestQueue, r.conflicts o = true := by
  have hgiven : ∀ f : LockRequest κ → LockRequest κ, (∀ r o : LockRequest κ,
      r.conflicts o = true → r.conflicts (f o) = true) → StillHeld t q (q.update t f) :=
    fun f hf => StillHeld.update hs fun r o _ _ => hf r o
  have hgrant : ∀ r o : LockRequest κ, r.conflicts o = true →
      r.conflicts { o with granted := true } = true :=
    fun r o => (Eased.grant o).conflicts (Eased.refl r)
  have hnew : q.groupMode ≠ .x ∨ q.find t = none → StillHeld t q (q.sharedNew t).1 ∧
      ∀ b, (q.sharedNew t).2 = .waits b → ∃ r ∈ (q.sharedNew t).1.requestQueue, r.txnId = t ∧
        ∃ o ∈ (q.sharedNew t).1.requestQueue, r.conflicts o = true := by
    intro hn
    unfold sharedNew
    split
    · exact ⟨StillHeld.of_mem fun _ ho => List.mem_append_left _ ho, by simp⟩
    next hg =>
      obtain ⟨o, ho, hholds⟩ := hx (not_not.mp hg)
      have hot := find_eq_none (hn.resolve_left hg) ho
      exact stillHeld_orDie hs ho hot hholds (mem_push_left ho)
        (List.mem_append_right _ (List.mem_singleton.mpr rfl)) rfl true
  unfold lockSharedOnRecord
  split
  next hn => exact hnew (Or.inr hn)
  next a ha =>
    split
    next hg =>
      split
      next hother =>
        obtain ⟨o, ho, hot, hholds⟩ := exists_of_otherHoldsX hother
        exact stillHeld_orDie hs ho hot hholds (mem_update_of_ne (by simp) ho hot)
          (mem_updateFirst_find ha) (find_mem ha).2 false
      next => exact ⟨hgiven _ hgrant, by simp⟩
    next hg =>
      split
      · exact ⟨hgiven _ hgrant, by simp⟩
      · exact hnew (Or.inl hg)

/-- The exclusive request on a record that is not granted at once. -/
def LockRequestQueue.RefusesExclusive (q : LockRequestQueue κ) (t : TxnId) (isWaited : Bool) :
    Prop :=
  (q.otherGranted t = true ∨ isWaited = true) ∧
    match q.find t with
    | none => True
    | some r => r.lockMode = .shared ∧ q.upgrading = none

/-- What `lock_exclusive_on_record_gap` means for those who wait, once its insert key is in the
table queue. -/
structure ExclusiveGrants (q queueTable q' queueTable' : LockRequestQueue κ) (t : TxnId)
    (isWaited : Bool) (out : Outcome) : Prop where
  record : q.RefusesExclusive t isWaited ∧ q.otherGranted t = false ∧ q.find t ≠ none ∨
    StillHeld t q q'
  table : queueTable' = queueTable ∨ q.RefusesExclusive t isWaited ∧ q.dies t = false ∧
    queueTable.groupMode = .gap ∧ queueTable.dies t = true ∧ ∀ b, out ≠ .waits b
  waits : ∀ b, out = .waits b → q.RefusesExclusive t isWaited ∧ q.dies t = false ∧
    ¬ (queueTable.groupMode = .gap ∧ queueTable.dies t = true) ∧
    ∃ r ∈ q'.requestQueue, r.txnId = t ∧ r.lockMode = .exlucsive ∧
      (q.otherGranted t = true → ∃ o ∈ q'.requestQueue, r.conflicts o = true)

/-- The calls of `wait_die` before the wait for a record. -/
theorem ExclusiveGrants.orDieBoth {q₁ : LockRequestQueue κ}
    (hrefuses : q.RefusesExclusive t isWaited) (hdies : q₁.dies t = q.dies t)
    {r : LockRequest κ} (hr : r ∈ q₁.requestQueue) (hrt : r.txnId = t)
    (hm : r.lockMode = .exlucsive)
    (hothers : ∀ o ∈ q.requestQueue, o.txnId ≠ t → o ∈ q₁.requestQueue)
    (hrecord : q.RefusesExclusive t isWaited ∧ q.otherGranted t = false ∧ q.find t ≠ none ∨
      ∀ q' : LockRequestQueue κ, (∀ o ∈ q.requestQueue, o.txnId ≠ t → o ∈ q'.requestQueue) →
        StillHeld t q q') (isNew : Bool) :
    ExclusiveGrants q queueTable (q₁.orDieBoth queueTable t isNew).1
        (q₁.orDieBoth queueTable t isNew).2.1 t isWaited (q₁.orDieBoth queueTable t isNew).2.2 ∧
      (q.dies t = false → ExclusiveGrants q queueTable (q₁.orDieTableFirst queueTable t isNew).1
        (q₁.orDieTableFirst queueTable t isNew).2.1 t isWaited
        (q₁.orDieTableFirst queueTable t isNew).2.2) := by
  have hstays := hrecord.imp_right fun h => h q₁ hothers
  have hleaves := hrecord.imp_right fun h => h (q₁.withdraw t) fun o ho hot =>
    mem_withdraw_of_ne (hothers o ho hot) hot
  have hheld : q.otherGranted t = true → ∃ o ∈ q₁.requestQueue, r.conflicts o = true := by
    intro hother
    obtain ⟨o, ho, hog⟩ := List.any_eq_true.mp hother
    simp only [Bool.and_eq_true, decide_eq_true_eq] at hog
    refine ⟨o, hothers o ho hog.1, ?_⟩
    simp [LockRequest.conflicts, hm, hrt, hog.1, hog.2]
  unfold LockRequestQueue.orDieBoth LockRequestQueue.orDieTableFirst
  rw [hdies]
  constructor
  · split
    next => exact ⟨hleaves, Or.inl rfl, by simp⟩
    next hd =>
      split
      next htab =>
        exact ⟨hstays, Or.inr ⟨hrefuses, by simpa using hd, htab.1, htab.2, by simp⟩, by simp⟩
      next htab =>
        exact ⟨hstays, Or.inl rfl, fun _ _ => ⟨hrefuses, by simpa using hd, htab, r, hr, hrt, hm,
          hheld⟩⟩
  · intro hd
    simp only [hd, Bool.false_eq_true, if_false]
    split
    next htab => exact ⟨hstays, Or.inr ⟨hrefuses, hd, htab.1, htab.2, by simp⟩, by simp⟩
    next htab =>
      exact ⟨hstays, Or.inl rfl, fun _ _ => ⟨hrefuses, hd, htab, r, hr, hrt, hm, hheld⟩⟩

theorem ExclusiveGrants.returns (h : StillHeld t q q') {b : Bool} :
    ExclusiveGrants q queueTable q' queueTable t isWaited (.returns b) :=
  ⟨Or.inr h, Or.inl rfl, by simp⟩

theorem exclusiveNew_grants (hn : q.find t = none) (queueTable : LockRequestQueue κ)
    (isWaited : Bool) :
    ExclusiveGrants q queueTable (exclusiveOnRecord.exclusiveNew q queueTable t isWaited).1
      (exclusiveOnRecord.exclusiveNew q queueTable t isWaited).2.1 t isWaited
      (exclusiveOnRecord.exclusiveNew q queueTable t isWaited).2.2 := by
  have hgiven : ∀ b, ExclusiveGrants q queueTable
      ({ q with groupMode := .x }.push ⟨t, .exlucsive, true, []⟩) queueTable t isWaited
      (.returns b) := fun b => ExclusiveGrants.returns (StillHeld.of_find hn)
  have hwaiting := fun hrefuses : q.RefusesExclusive t isWaited =>
    @ExclusiveGrants.orDieBoth κ t q queueTable isWaited (q.push ⟨t, .exlucsive, false, []⟩)
      hrefuses (dies_push q .exlucsive false []) ⟨t, .exlucsive, false, []⟩
      (List.mem_append_right _ (List.mem_singleton.mpr rfl)) rfl rfl
      (fun o ho _ => mem_push_left ho) (Or.inr fun _ _ => StillHeld.of_find hn) true
  have hrefuses : q.otherGranted t = true ∨ isWaited = true → q.RefusesExclusive t isWaited := by
    intro h
    refine ⟨h, ?_⟩
    rw [hn]
    trivial
  unfold exclusiveOnRecord.exclusiveNew
  dsimp only
  split
  next hempty =>
    split
    next hw => exact (hwaiting (hrefuses (Or.inr hw))).2 (by simp [dies, hempty])
    next => exact hgiven true
  next =>
    split
    next => exact hgiven true
    next hno =>
      refine (hwaiting (hrefuses ?_)).1
      by_contra hcon
      simp only [not_or, Bool.not_eq_true] at hcon
      exact hno hcon

theorem exclusiveOnRecord_grants (hs : q.Single)
    (hmodes : ∀ r ∈ q.requestQueue, r.lockMode = .shared ∨ r.lockMode = .exlucsive)
    (queueTable : LockRequestQueue κ) (isWaited : Bool) :
    ExclusiveGrants q queueTable (q.exclusiveOnRecord queueTable t isWaited).1
      (q.exclusiveOnRecord queueTable t isWaited).2.1 t isWaited
      (q.exclusiveOnRecord queueTable t isWaited).2.2 := by
  have hrefl : StillHeld t q q := StillHeld.of_mem fun _ ho => ho
  unfold exclusiveOnRecord
  split
  next a ha =>
    obtain ⟨hmem, hat⟩ := find_mem ha
    split
    next hshared =>
      split
      next => exact ⟨Or.inr hrefl, Or.inl rfl, by simp⟩
      next hup =>
        dsimp only
        split
        next hwait =>
          have hrefuses : q.RefusesExclusive t isWaited := by
            refine ⟨hwait, ?_⟩
            rw [ha]
            exact ⟨hshared, not_not.mp hup⟩
          refine (ExclusiveGrants.orDieBoth hrefuses
            (dies_update (q := { q with upgrading := some t }) (by simp))
            (mem_updateFirst_find ha) hat rfl
            (fun o ho hot => mem_update_of_ne (q := { q with upgrading := some t }) (by simp) ho
              hot) ?_ false).1
          by_cases hother : q.otherGranted t = false
          · exact Or.inl ⟨hrefuses, hother, by simp [ha]⟩
          · -- who waits for the shared lock waits for the other one, too
            right
            intro q' hq' r hr hrt hu o ho hot hc
            have hany : q.otherGranted t = true := by simpa using hother
            obtain ⟨v, hv, hvg⟩ := List.any_eq_true.mp hany
            simp only [Bool.and_eq_true, decide_eq_true_eq] at hvg
            obtain rfl := hs a hmem o ho (hot.trans hat.symm)
            refine ⟨v, hq' v hv hvg.1, ?_⟩
            have hx : r.lockMode = .exlucsive := by
              by_contra hne
              simp [LockRequest.conflicts, hne, LockRequest.holdsX, hshared] at hc
            have hru : r.granted = false := hu.resolve_right (by simp [hx])
            have hne : v.txnId ≠ r.txnId := by
              intro heq
              obtain rfl := hs r hr v hv heq
              simp [hru] at hvg
            simp [LockRequest.conflicts, hx, hne, hvg.2]
        next =>
          refine ExclusiveGrants.returns fun r hr hrt hu o ho hot hc => ?_
          obtain ⟨o', ho', hc'⟩ := (StillHeld.update hs (t := t)
            (f := fun r => { r with granted := true, lockMode := .exlucsive })
            fun r o _ _ hc => by
              simp only [LockRequest.conflicts, Bool.and_eq_true, decide_eq_true_eq] at hc
              simp [LockRequest.conflicts, LockRequest.holdsX, hc.1]) r hr hrt hu o ho hot hc
          refine ⟨o', ?_, hc'⟩
          rw [clearUpgrading_requests]
          exact ho'
    next hshared =>
      split
      next => exact ExclusiveGrants.returns hrefl
      next hx => exact absurd ((hmodes a hmem).resolve_left hshared) hx
  next hn => exact exclusiveNew_grants hn queueTable isWaited

end Record

section Table

variable {q q' : LockRequestQueue κ} {out : Outcome}

/-- What a request for a lock in mode IS or IX waits for. -/
def HeldX (r : LockRequest κ) (q : LockRequestQueue κ) : Prop :=
  ∃ o ∈ q.requestQueue, r.conflicts o = true

theorem heldX_push {r : LockRequest κ} (hr : r.txnId = t) (h : q.otherHoldsX t = true) :
    HeldX r (q.push r) := by
  obtain ⟨o, ho, hot, hx⟩ := exists_of_otherHoldsX h
  exact ⟨o, mem_push_left ho, conflicts_of_holdsX (by rw [hr]; exact hot) hx⟩

theorem heldX_update {f : LockRequest κ → LockRequest κ} (hid : ∀ r, (f r).txnId = r.txnId)
    {a : LockRequest κ} (ha : q.find t = some a) (h : q.otherHoldsX t = true) :
    HeldX (f a) (q.update t f) := by
  obtain ⟨o, ho, hot, hx⟩ := exists_of_otherHoldsX h
  refine ⟨o, mem_update_of_ne hid ho hot, conflicts_of_holdsX ?_ hx⟩
  rw [hid, (find_mem ha).2]
  exact hot

theorem stillHeld_update_otherHoldsX (hs : q.Single) {f : LockRequest κ → LockRequest κ}
    (hid : ∀ r, (f r).txnId = r.txnId) (h : q.otherHoldsX t = true) :
    StillHeld t q (q.update t f) := by
  obtain ⟨o, ho, hot, hx⟩ := exists_of_otherHoldsX h
  exact StillHeld.of_holder hs ho hx (mem_update_of_ne hid ho hot)

theorem conflicts_granted (r o : LockRequest κ) (h : r.conflicts o = true) :
    r.conflicts { o with granted := true } = true :=
  (Eased.grant o).conflicts (Eased.refl r) h

theorem lockISOnTable_grants (hs : q.Single)
    (hstale : q.Refuses .tabX t → q.dies t = false → q.otherHoldsX t = true)
    (h : q.lockISOnTable t = some (q', out)) :
    CallGrants t q q' out (q.Refuses .tabX t ∧ q.dies t = true) HeldX := by
  unfold lockISOnTable at h
  split at h
  next hn =>
    unfold intentionSharedNew at h
    dsimp only at h
    split at h
    · cases Option.some.inj h
      exact CallGrants.push .is
    next hne =>
      split at h
      · cases Option.some.inj h
        exact CallGrants.push q.groupMode
      · split at h
        next hx =>
          obtain ⟨rfl, rfl⟩ := Prod.ext_iff.mp (Option.some.inj h)
          have hrefuses : q.Refuses .tabX t := ⟨hx, hne, Or.inl hn⟩
          exact CallGrants.pushOrDie rfl (fun hd => ⟨hrefuses, hd⟩)
            fun hd => heldX_push rfl (hstale hrefuses hd)
        next => cases h
  next a ha =>
    have hne : q.requestQueue ≠ [] := List.ne_nil_of_mem (find_mem ha).1
    split at h
    · cases Option.some.inj h
      exact CallGrants.update hs q.groupMode (by simp) (by simp)
        (Or.inr fun r o _ _ => conflicts_granted r o)
    next hgroup =>
      split at h
      next hx =>
        split at h
        next hother =>
          obtain ⟨rfl, rfl⟩ := Prod.ext_iff.mp (Option.some.inj h)
          exact CallGrants.updateOrDie hs ha (by simp) (by simp)
            (fun hd => ⟨⟨hx, hne, Or.inr hother⟩, hd⟩)
            (Or.inr (stillHeld_update_otherHoldsX hs (by simp) hother))
            (heldX_update (by simp) ha hother)
        next =>
          cases Option.some.inj h
          exact CallGrants.update hs q.groupMode (by simp) (by simp)
            (Or.inr fun r o _ _ => conflicts_granted r o)
      next hx => simp [intentionSharedNew, hne, hgroup, hx] at h

theorem conflicts_mode {r o : LockRequest κ} {m : LockMode} (hno : o.holdsX = false)
    (h : r.conflicts o = true) : r.conflicts { o with granted := true, lockMode := m } = true := by
  simp only [LockRequest.conflicts, Bool.and_eq_true, decide_eq_true_eq] at h ⊢
  refine ⟨h.1, ?_⟩
  have hholds := h.2
  split
  · rfl
  next hm => simp [hm, hno] at hholds

theorem not_holdsX_of_own {o : LockRequest κ} (ho : o ∈ q.requestQueue) (hot : o.txnId = t)
    (h : ¬ q.ownHoldsX t = true) : o.holdsX = false := by
  by_contra hx
  exact h (List.any_eq_true.mpr ⟨o, ho, by simp [hot, hx]⟩)

theorem lockIXOnTable_grants (hs : q.Single)
    (hstale : q.Refuses .tabX t → q.dies t = false → q.otherHoldsX t = true)
    (hmode : q.find t ≠ none → q.groupMode = .gap ∨ q.groupMode = .ix ∨ q.groupMode = .is ∨
      q.groupMode = .tabX) :
    CallGrants t q (q.lockIXOnTable t).1 (q.lockIXOnTable t).2
      (q.Refuses .tabX t ∧ q.dies t = true ∨ q.groupMode = .is ∧ q.ownHoldsX t = true)
      HeldX := by
  unfold lockIXOnTable
  split
  next hn =>
    unfold intentionExclusiveNew
    dsimp only
    split
    · exact CallGrants.push .ix
    next hne =>
      split
      · exact CallGrants.push q.groupMode
      · split
        · exact CallGrants.push .ix
        · split
          next hx =>
            have hrefuses : q.Refuses .tabX t := ⟨hx, hne, Or.inl hn⟩
            exact CallGrants.pushOrDie rfl (fun hd => Or.inl ⟨hrefuses, hd⟩)
              fun hd => heldX_push rfl (hstale hrefuses hd)
          next => exact CallGrants.push q.groupMode
  next a ha =>
    have hne : q.requestQueue ≠ [] := List.ne_nil_of_mem (find_mem ha).1
    split
    next =>
      refine CallGrants.update hs q.groupMode (by simp) (by simp) (Or.inr fun r o _ _ hc => ?_)
      split
      next hm =>
        exact conflicts_mode (by simp [LockRequest.holdsX, hm]) hc
      next => exact conflicts_granted r o hc
    next hgroup =>
      split
      next his =>
        refine CallGrants.update hs .ix (by simp) (by simp) ?_
        by_cases hx : q.ownHoldsX t = true
        · exact Or.inl (Or.inr ⟨his, hx⟩)
        · exact Or.inr fun r o ho hot hc => conflicts_mode (not_holdsX_of_own ho hot hx) hc
      next his =>
        split
        next hx =>
          split
          next hother =>
            exact CallGrants.updateOrDie hs ha (by simp) (by simp)
              (fun hd => Or.inl ⟨⟨hx, hne, Or.inr hother⟩, hd⟩)
              (Or.inr (stillHeld_update_otherHoldsX hs (by simp) hother))
              (heldX_update (by simp) ha hother)
          next =>
            exact CallGrants.update hs q.groupMode (by simp) (by simp)
              (Or.inr fun r o _ _ => conflicts_granted r o)
        next hx => simp_all

/-- What a request for the whole table waits for. -/
def HeldTable (r : LockRequest κ) (q : LockRequestQueue κ) : Prop :=
  HeldX r q ∨ ∃ k ∈ q.insertKeys, k.txnId ≠ r.txnId

/-- A lock that the group mode of a table can stand for. -/
def LockRequestQueue.SomeLock (q : LockRequestQueue κ) (t : TxnId) : Prop :=
  (∃ o ∈ q.requestQueue, o.granted = true ∨ o.hasGap = true) ∨ ∃ k ∈ q.insertKeys, k.txnId ≠ t

theorem exists_of_otherHolds {group : GroupMode}
    (h : otherHolds q.requestQueue group t = true) : ∃ o ∈ q.requestQueue, o.txnId ≠ t ∧
      (o.granted = true ∨ o.lockMode = .gap ∧ o.hasGap = true) := by
  obtain ⟨o, ho, hholds⟩ := List.any_eq_true.mp h
  simp only [Bool.and_eq_true, Bool.or_eq_true, decide_eq_true_eq] at hholds
  exact ⟨o, ho, hholds.1, hholds.2.imp_right fun h => ⟨h.1.2, h.2⟩⟩

theorem lockExclusiveOnTable_grants (hs : q.Single)
    (hstale : q.RefusesTable t → q.find t = none → q.dies t = false → q.SomeLock t) :
    CallGrants t q (q.lockExclusiveOnTable t).1 (q.lockExclusiveOnTable t).2
      (q.RefusesTable t ∧ (q.dies t = true ∨ q.ownHoldsX t = true)) HeldTable := by
  unfold lockExclusiveOnTable
  split
  next a ha =>
    obtain ⟨hmem, hat⟩ := find_mem ha
    split
    next =>
      exact ⟨Or.inr ⟨StillHeld.of_mem fun _ ho => ho,
        KeepsGaps.of_mem (fun _ ho => ho) fun _ hk => hk⟩, by simp⟩
    next hup =>
      dsimp only
      split
      next hother =>
        have hrefuses : q.RefusesTable t := by
          unfold RefusesTable
          rw [if_neg (by simp [ha])]
          exact ⟨not_not.mp hup, hother⟩
        obtain ⟨v, hv, hvt, hholds⟩ := exists_of_otherHolds hother
        have hv' : v ∈ ({ q with upgrading := some t }.update t fun r =>
            { r with granted := false, lockMode := .exlucsive }).requestQueue :=
          mem_update_of_ne (q := { q with upgrading := some t }) (by simp) hv hvt
        have hconf : ∀ r : LockRequest κ, r.lockMode = .exlucsive → v.txnId ≠ r.txnId →
            r.conflicts v = true := by
          intro r hm hne
          rcases hholds with hg | ⟨_, hgap⟩
          · simp [LockRequest.conflicts, hm, hne, hg]
          · simp [LockRequest.conflicts, hm, hne, hgap]
        have hstill : q.ownHoldsX t = true ∨ StillHeld t q
            ({ q with upgrading := some t }.update t fun r =>
              { r with granted := false, lockMode := .exlucsive }) := by
          by_cases hx : q.ownHoldsX t = true
          · exact Or.inl hx
          · right
            intro r hr hrt hu o ho hot hc
            have hno := not_holdsX_of_own ho hot hx
            have hm : r.lockMode = .exlucsive := by
              by_contra hne
              simp [LockRequest.conflicts, hne, hno] at hc
            have hru : r.granted = false := hu.resolve_right (by simp [hm])
            refine ⟨v, hv', hconf r hm fun heq => ?_⟩
            obtain rfl := hs r hr v hv heq
            rcases hholds with hg | ⟨hgap, _⟩
            · simp [hru] at hg
            · simp [hm] at hgap
        have hcall : CallGrants t { q with upgrading := some t } _ _
            (q.RefusesTable t ∧ (q.dies t = true ∨ q.ownHoldsX t = true)) HeldTable :=
          CallGrants.updateOrDie (q := { q with upgrading := some t }) (a := a)
            (f := fun r => { r with granted := false, lockMode := .exlucsive }) hs ha (by simp) (by simp) (fun hd => ⟨hrefuses, Or.inl hd⟩)
            (hstill.imp (fun hx => ⟨hrefuses, Or.inr hx⟩) id)
            (Or.inl ⟨v, hv', hconf _ rfl (by rw [hat]; exact hvt)⟩)
        exact ⟨hcall.others.imp_right fun h => ⟨h.1, ⟨h.2.gaps, h.2.keys⟩⟩, hcall.waits⟩
      next =>
        have hgranted : CallGrants t q _ (.returns false)
            (q.RefusesTable t ∧ (q.dies t = true ∨ q.ownHoldsX t = true)) HeldTable :=
          CallGrants.update hs .tabX
            (f := fun r => { r with granted := true, lockMode := .exlucsive })
            (by simp) (by simp) (Or.inr fun r o _ _ hc => by
              simp only [LockRequest.conflicts, Bool.and_eq_true, decide_eq_true_eq] at hc
              simp [LockRequest.conflicts, LockRequest.holdsX, hc.1])
        refine ⟨hgranted.others.imp_right fun h => ⟨fun r hr hrt hu o ho hot hc => ?_,
          ⟨fun o ho hot g hg => ?_, fun k hk hkt => ?_⟩⟩, by simp⟩
        · rw [clearUpgrading_requests]
          exact h.1 r hr hrt hu o ho hot hc
        · rw [clearUpgrading_requests]
          exact h.2.gaps o ho hot g hg
        · have hkeys : ∀ q₁ : LockRequestQueue κ, (q₁.clearUpgrading t).insertKeys =
              q₁.insertKeys := by
            intro q₁
            unfold LockRequestQueue.clearUpgrading
            split <;> rfl
          rw [hkeys]
          exact hk
  next hn =>
    dsimp only
    split
    next => exact CallGrants.push .tabX
    next hne =>
      split
      next hgroup =>
        have hrefuses : q.RefusesTable t := by
          unfold RefusesTable
          rw [if_pos hn]
          exact ⟨hne, hgroup⟩
        refine CallGrants.pushOrDie rfl (fun hd => ⟨hrefuses, Or.inl hd⟩) fun hd => ?_
        rcases hstale hrefuses hn hd with ⟨o, ho, hholds⟩ | hkey
        · left
          refine ⟨o, mem_push_left ho, ?_⟩
          simp [LockRequest.conflicts, find_eq_none hn ho, hholds]
        · exact Or.inr hkey
      next => exact CallGrants.push .tabX

section Order

variable [LinearOrder κ]

/-- A gap that is not given at once. -/
def LockRequestQueue.RefusesGap (q : LockRequestQueue κ) (t : TxnId) (g : Gap κ) : Prop :=
  if q.groupMode = .tabX ∧ q.requestQueue ≠ [] then
    q.find t = none ∨ q.otherHoldsX t = true
  else gapConflicts q.insertKeys t g = true

/-- What a gap waits for. -/
def HeldGap (r : LockRequest κ) (q : LockRequestQueue κ) : Prop :=
  HeldX r q ∨ ∃ k ∈ q.insertKeys, k.txnId ≠ r.txnId ∧ k.isWaited = false ∧
    ∃ g, r.gaps.getLast? = some g ∧ g.hits k.index k.insertKey = true

theorem heldGap_of_gapConflicts {r : LockRequest κ} {g g' : Gap κ} (hrt : r.txnId = t)
    (hlast : r.gaps.getLast? = some g') (hhits : ∀ index key, g'.hits index key =
      g.hits index key) (h : gapConflicts q.insertKeys t g = true) :
    ∃ k ∈ q.insertKeys, k.txnId ≠ r.txnId ∧ k.isWaited = false ∧
      ∃ g, r.gaps.getLast? = some g ∧ g.hits k.index k.insertKey = true := by
  obtain ⟨k, hk, hc⟩ := List.any_eq_true.mp h
  simp only [Bool.and_eq_true, Bool.not_eq_true', decide_eq_true_eq] at hc
  refine ⟨k, hk, ?_, hc.1.1, g', hlast, ?_⟩
  · rw [hrt]
    exact hc.1.2
  · rw [hhits]
    exact hc.2

omit [LinearOrder κ] in
/-- A request that becomes one for gaps keeps its grant, but not an exclusive lock. -/
theorem conflicts_gaps {r o : LockRequest κ} {m : LockMode} (g : Gap κ)
    (hno : m = o.lockMode ∨ o.holdsX = false) (h : r.conflicts o = true) :
    r.conflicts { o with lockMode := m, gaps := o.gaps ++ [g] } = true := by
  simp only [LockRequest.conflicts, Bool.and_eq_true, decide_eq_true_eq] at h ⊢
  refine ⟨h.1, ?_⟩
  have hholds := h.2
  split
  next hm =>
    simp only [hm, if_true, Bool.or_eq_true, LockRequest.hasGap] at hholds
    simp only [Bool.or_eq_true, LockRequest.hasGap, List.any_append]
    exact hholds.imp_right Or.inl
  next hm =>
    simp only [hm, if_false] at hholds
    rcases hno with rfl | hno
    · exact hholds
    · simp [hno] at hholds

theorem gapNew_grants {lost : Prop} (hn : q.find t = none) (lower upper : κ) (index : IndexId)
    (hstale : q.Refuses .tabX t → q.dies t = false → q.otherHoldsX t = true)
    (hlost : q.RefusesGap t ⟨lower, upper, index, false⟩ → q.dies t = true → lost) :
    CallGrants t q (q.gapNew t ⟨lower, upper, index, false⟩).1
      (q.gapNew t ⟨lower, upper, index, false⟩).2 lost HeldGap := by
  have hwaits : ¬ (q.groupMode = .tabX ∧ q.requestQueue ≠ []) →
      gapConflicts q.insertKeys t ⟨lower, upper, index, false⟩ = true →
      CallGrants t q
        ((q.push ⟨t, .gap, false, [⟨lower, upper, index, true⟩]⟩).orDie t true).1
        ((q.push ⟨t, .gap, false, [⟨lower, upper, index, true⟩]⟩).orDie t true).2 lost
        HeldGap := by
    intro hno hc
    have hrefuses : q.RefusesGap t ⟨lower, upper, index, false⟩ := by
      unfold RefusesGap
      rw [if_neg hno]
      exact hc
    exact CallGrants.pushOrDie rfl (hlost hrefuses)
      fun _ => Or.inr (heldGap_of_gapConflicts rfl rfl (fun _ _ => rfl) hc)
  unfold gapNew
  split
  next hempty =>
    split
    next hc => exact hwaits (fun h => h.2 hempty) hc
    next => exact CallGrants.push .gap
  next hne =>
    split
    next hx =>
      have hrefuses : q.RefusesGap t ⟨lower, upper, index, false⟩ := by
        unfold RefusesGap
        rw [if_pos ⟨hx, hne⟩]
        exact Or.inl hn
      exact CallGrants.pushOrDie rfl (hlost hrefuses)
        fun hd => Or.inl (heldX_push rfl (hstale ⟨hx, hne, Or.inl hn⟩ hd))
    next hx =>
      split
      next hc => exact hwaits (fun h => hx h.1) hc
      next => exact CallGrants.push q.groupMode

theorem lockGAPOnTable_grants (hs : q.Single) (lower upper : κ) (index : IndexId)
    (hstale : q.Refuses .tabX t → q.dies t = false → q.otherHoldsX t = true) :
    CallGrants t q (q.lockGAPOnTable t lower upper index).1
      (q.lockGAPOnTable t lower upper index).2
      (q.RefusesGap t ⟨lower, upper, index, false⟩ ∧ q.dies t = true ∨
        q.groupMode ≠ .tabX ∧ q.ownHoldsX t = true) HeldGap := by
  obtain ⟨group, heq, hiff⟩ : ∃ group,
      (if q.groupMode ≠ .tabX then { q with groupMode := .gap } else q) =
        { q with groupMode := group } ∧ (group = .tabX ↔ q.groupMode = .tabX) := by
    by_cases hx : q.groupMode = .tabX
    · exact ⟨q.groupMode, if_neg (not_not.mpr hx), Iff.rfl⟩
    · exact ⟨.gap, by simp [hx], by simp [hx]⟩
  unfold lockGAPOnTable
  dsimp only
  rw [heq]
  have hsame : ∀ g, { q with groupMode := group }.RefusesGap t g ↔ q.RefusesGap t g := by
    intro g
    simp only [RefusesGap, hiff]
    exact Iff.rfl
  refine CallGrants.of_groupMode (?_ : CallGrants t { q with groupMode := group } _ _ _ _)
  split
  next hn =>
    exact gapNew_grants hn lower upper index (fun h => hstale ⟨hiff.mp h.1, h.2⟩)
      fun h hd => Or.inl ⟨(hsame _).mp h, hd⟩
  next a ha =>
    have hfind : q.find t = some a := ha
    obtain ⟨hmem, hat⟩ := find_mem hfind
    have hne : q.requestQueue ≠ [] := List.ne_nil_of_mem hmem
    have hkept : q.groupMode ≠ .tabX → (q.RefusesGap t ⟨lower, upper, index, false⟩ ∧
        q.dies t = true ∨ q.groupMode ≠ .tabX ∧ q.ownHoldsX t = true) ∨
        ∀ r o : LockRequest κ, ∀ g : Gap κ, o ∈ q.requestQueue → o.txnId = t →
          r.conflicts o = true →
          r.conflicts { o with lockMode := .gap, gaps := o.gaps ++ [g] } = true := by
      intro hx
      by_cases hown : q.ownHoldsX t = true
      · exact Or.inl (Or.inr ⟨hx, hown⟩)
      · exact Or.inr fun r o g ho hot hc =>
          conflicts_gaps g (Or.inr (not_holdsX_of_own ho hot hown)) hc
    split
    next hx =>
      split
      next hother =>
        have hrefuses : q.RefusesGap t ⟨lower, upper, index, false⟩ := by
          unfold RefusesGap
          rw [if_pos ⟨hiff.mp hx, hne⟩]
          exact Or.inr hother
        exact CallGrants.updateOrDie (q := { q with groupMode := group }) hs ha (by simp)
          (fun r g hg => List.mem_append_left _ hg) (fun hd => Or.inl ⟨hrefuses, hd⟩)
          (Or.inr (stillHeld_update_otherHoldsX hs (by simp) hother))
          (Or.inl (heldX_update (by simp) ha hother))
      next =>
        exact CallGrants.update (q := { q with groupMode := group }) hs group (by simp)
          (fun r g hg => List.mem_append_left _ hg)
          (Or.inr fun r o _ _ hc => conflicts_gaps _ (Or.inl rfl) hc)
    next hx =>
      have hx' : q.groupMode ≠ .tabX := fun h => hx (hiff.mpr h)
      split
      next hc =>
        have hrefuses : q.RefusesGap t ⟨lower, upper, index, false⟩ := by
          unfold RefusesGap
          rw [if_neg fun h => hx' h.1]
          exact hc
        refine CallGrants.updateOrDie (q := { q with groupMode := group }) hs ha (by simp)
          (fun r g hg => List.mem_append_left _ hg) (fun hd => Or.inl ⟨hrefuses, hd⟩)
          ((hkept hx').imp_right fun h =>
            StillHeld.update hs fun r o ho hot hc => h r o _ ho hot hc)
          (Or.inr (heldGap_of_gapConflicts hat List.getLast?_concat (fun _ _ => rfl) hc))
      next =>
        exact CallGrants.update (q := { q with groupMode := group }) hs group (by simp)
          (fun r g hg => List.mem_append_left _ hg)
          ((hkept hx').imp_right fun h r o ho hot hc => h r o _ ho hot hc)

end Order

end Table

end Grmdb
