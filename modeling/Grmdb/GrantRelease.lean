import Grmdb.LostGrants

namespace Grmdb

open LockRequestQueue Runs

variable {κ : Type} {locks locks' : Locks κ} {t u v : TxnId} {fd : Fd} {rid : Rid}

/-- A wait that is over stays so. -/
theorem LockWait.ready_eased {w : LockWait κ} {r r' : LockRequest κ} (h : Eased r r')
    (hr : w.ready r = true) : w.ready r' = true := by
  cases w with
  | gap fd isNew first =>
    have hgaps := h.gaps
    simp only [LockWait.ready] at hr ⊢
    generalize r.gaps = a at hgaps hr
    generalize r'.gaps = b at hgaps
    induction hgaps with
    | nil => exact hr
    | @cons g g' a b hrel hrest ih =>
      cases hrest with
      | nil =>
        rcases hrel with rfl | rfl
        · exact hr
        · rfl
      | cons hrel' hrest' =>
        rw [List.getLast?_cons_cons] at hr ⊢
        exact ih hr
  | shared | exclusiveGap | is | ix | exclusive => exact h.granted hr

/-- What `unlock` of a record leaves there: a request is granted, or a lock is in its way, or
`unlock` has left the exclusive requests alone. -/
theorem RecordUnlock.settled (h : RecordUnlock locks locks' t fd rid) {r : LockRequest κ}
    (hr : r ∈ (locks'.queue (.record fd rid)).requestQueue)
    (hm : r.lockMode = .shared ∨ r.lockMode = .exlucsive) :
    r.granted = true ∨ (∃ o ∈ (locks'.queue (.record fd rid)).requestQueue,
        o.granted = true ∧ (r.lockMode = .shared → o.holdsX = true)) ∨
      locks.tableTaken fd ∧ r.lockMode = .exlucsive := by
  have heased := h.eased_requests
  obtain ⟨q, hq, hreq, _⟩ := h.result
  rw [hreq] at hr heased ⊢
  generalize hrel : (locks.queue (.record fd rid)).releaseRecord t = released at *
  have hgroup : released.groupMode = groupRecord released.requestQueue := by
    rw [← hrel]
    exact releaseRecord_groupMode _ t
  rcases hm with hm | hm
  · by_cases hx : released.groupMode = .x
    · obtain ⟨o, ho, hholds⟩ := (groupRecord_holder released.requestQueue).2 (hgroup ▸ hx)
      obtain ⟨o', ho', he⟩ := MapM.forall₂_mem_left heased ho
      have hholds' := he.holdsX hholds
      have hg : o'.granted = true := by
        simp only [LockRequest.holdsX, Bool.and_eq_true] at hholds'
        exact hholds'.1
      exact Or.inr (Or.inl ⟨o', ho', hg, fun _ => hholds'⟩)
    · left
      have hfrom : ∃ r₁ ∈ released.grantLockRecord.requestQueue, Eased r₁ r := by
        rcases hq with rfl | ⟨_, rfl⟩
        · exact MapM.forall₂_mem_right (Eased.of_grants (regrantRecord_grants _ [] _ _)) hr
        · exact ⟨r, hr, Eased.refl r⟩
      obtain ⟨r₁, hr₁, he⟩ := hfrom
      exact he.granted (grantRecord_shared hx hr₁ (he.lockMode.symm.trans hm))
  · rcases hq with rfl | ⟨htaken, rfl⟩
    · have hholder : released.grantLockRecord.groupMode ≠ .noLock →
          ∃ o ∈ [] ++ released.grantLockRecord.requestQueue, o.granted = true := by
        refine grantRecord_group fun hne => ?_
        rw [hgroup] at hne
        exact (groupRecord_holder released.requestQueue).1 hne
      rcases regrantRecord_settled hholder (by simp) hr hm with hg | ⟨o, ho, hg⟩
      · exact Or.inl hg
      · exact Or.inr (Or.inl ⟨o, ho, hg, fun hs => by simp [hm] at hs⟩)
    · exact Or.inr (Or.inr ⟨htaken, hm⟩)

namespace LockState

variable {s s' : LockState κ} {w : LockWait κ} {r r' : LockRequest κ} {x : LockDataId}

theorem Waits.of_release (hone : s.OneEach) (hphase : s'.phase = s.phase)
    (hback : ∀ id, ∀ r' ∈ (s'.queue id).requestQueue, ∃ r ∈ (s.queue id).requestQueue, Eased r r')
    (h : s'.Waits u w r') : ∃ r, s.Waits u w r ∧ Eased r r' := by
  obtain ⟨hmem, hrt⟩ := h.mem
  obtain ⟨r, hr, he⟩ := hback w.id r' hmem
  have hru : r.txnId = u := he.txnId.symm.trans hrt
  refine ⟨r, ⟨hphase ▸ h.phase, hru ▸ hone.request hr, ?_⟩, he⟩
  by_contra hready
  have := LockWait.ready_eased he (by simpa using hready)
  simp [h.unready] at this

variable [LinearOrder κ]

theorem RequestInWay.release (h : s.RequestInWay w r v x)
    (hown : List.Forall₂ Eased ((s.queue x).own v) ((s'.queue x).own v)) (he : Eased r r') :
    s'.RequestInWay w r' v x := by
  obtain ⟨hne, o, ho, hot, hmeets⟩ := h
  obtain ⟨o', ho', heo⟩ := MapM.forall₂_mem_left hown (mem_own.mpr ⟨ho, hot⟩)
  obtain ⟨hmem, hot'⟩ := mem_own.mp ho'
  exact ⟨he.txnId ▸ hne, o', hmem, hot', LockWait.meets_eased he heo hmeets⟩

theorem KeyInWay.release (h : s.KeyInWay w r v x)
    (hkeys : ∀ k ∈ (s.queue x).insertKeys, k.txnId = v → k ∈ (s'.queue x).insertKeys)
    (he : Eased r r') : s'.KeyInWay w r' v x := by
  obtain ⟨hne, k, hk, hkt, hmeets⟩ := h
  exact ⟨he.txnId ▸ hne, k, hkeys k hk hkt, hkt, LockWait.meetsKey_eased he hmeets⟩

/-- Only a table has insert keys that someone waits for. -/
theorem KeyInWay.table (h : s.KeyInWay w r v x) : x = w.id ∧ ∃ fd, x = .table fd := by
  obtain ⟨_, k, _, _, hx, hkind⟩ := h
  refine ⟨hx, ?_⟩
  cases w with
  | gap fd | exclusive fd => exact ⟨fd, hx⟩
  | shared | exclusiveGap | is | ix => exact absurd hkind id

/-- A lock in the way is in the queue that is waited at, or is a gap on the table of a record. -/
theorem RequestInWay.place (h : s.RequestInWay w r v x) :
    x = w.id ∨ ∃ fd rid index key isNew, w = .exclusiveGap fd rid index key isNew ∧
      x = .table fd := by
  obtain ⟨_, o, _, _, hmeets⟩ := h
  rcases hmeets with ⟨hx, _⟩ | hgap
  · exact Or.inl hx
  · cases w with
    | exclusiveGap fd rid index key isNew => exact Or.inr ⟨fd, rid, index, key, isNew, rfl, hgap.1⟩
    | shared | gap | is | ix | exclusive => exact absurd hgap id

theorem AllBlocked.unlockRecord (hi : s.AllBlocked) (hone : s.OneEach)
    (hgood : s.KeepsGrants (.unlock t (.record fd rid)))
    (ids : TxnId → List LockDataId)
    (hone' : LockState.OneEach { s with
      locks := Grmdb.unlockRecord s.locks t fd rid, lockSet := ids }) :
    LockState.AllBlocked { s with
      locks := Grmdb.unlockRecord s.locks t fd rid, lockSet := ids } := by
  by_cases hfind : (s.locks.queue (.record fd rid)).find t = none
  · have heq := unlockRecord_none hfind
    refine hi.same (fun x => ?_) (fun x => ?_) fun _ _ hw => hw
    · show ((Grmdb.unlockRecord s.locks t fd rid).queue x).requestQueue = _
      rw [heq]
      rfl
    · show ((Grmdb.unlockRecord s.locks t fd rid).queue x).insertKeys = _
      rw [heq]
      rfl
  have h := unlockRecord_queues hfind
  obtain ⟨htaken, hkeysGood⟩ := hgood hfind
  generalize hs' : ({ s with
    locks := Grmdb.unlockRecord s.locks t fd rid, lockSet := ids } : LockState κ) = s' at *
  have hqueue : ∀ x, s'.queue x = (Grmdb.unlockRecord s.locks t fd rid).queue x := by
    intro x
    rw [← hs']
    rfl
  have hphase : s'.phase = s.phase := by rw [← hs']
  have hrequest : ∀ w r r' v x, s.RequestInWay w r v x → Eased r r' →
      v ≠ t ∨ x ≠ .record fd rid → s'.RequestInWay w r' v x := by
    intro w r r' v x hin he hx
    refine hin.release ?_ he
    rw [hqueue]
    exact h.eased hx
  have hkey : ∀ w r r' v x, s.KeyInWay w r v x → Eased r r' →
      v ≠ t ∨ x ≠ .table fd ∨ (s.queue (.record fd rid)).groupMode ≠ .x →
      s'.KeyInWay w r' v x := by
    intro w r r' v x hin he hx
    refine hin.release (fun k hk hkt => ?_) he
    rw [hqueue]
    by_cases htab : x = .table fd
    · subst htab
      rw [h.table]
      split
      next hg =>
        refine List.mem_filter.mpr ⟨hk, ?_⟩
        have hv : v ≠ t := by
          rcases hx with hx | hx | hx
          · exact hx
          · exact absurd rfl hx
          · exact absurd hg hx
        simpa [hkt] using hv
      next => exact hk
    · obtain ⟨-, fd', rfl⟩ := hin.table
      rw [h.others _ (by simp) htab]
      exact hk
  intro u w r' hwaits
  obtain ⟨r, hold, he⟩ := hwaits.of_release hone hphase fun id r' hr' => by
    rw [hqueue] at hr'
    exact h.back hr'
  obtain ⟨hmem', hrt'⟩ := hwaits.mem
  by_cases hid : w.id = .record fd rid
  · have hmode : r'.lockMode = .shared ∨ r'.lockMode = .exlucsive := by
      rw [hid] at hmem'
      exact hone'.records fd rid r' hmem'
    have hungranted : r'.granted = false := by
      have hunready := hwaits.unready
      cases w with
      | shared | exclusiveGap => exact hunready
      | gap | is | ix | exclusive => cases hid
    rw [hid, hqueue] at hmem'
    rcases h.settled hmem' hmode with hg | ⟨o, ho, hog, hox⟩ | ⟨htk, hx⟩
    · simp [hungranted] at hg
    · refine inWay_of_conflicts ⟨o, by rw [hid, hqueue]; exact ho, ?_⟩
      have hne : o.txnId ≠ r'.txnId := by
        intro heq
        rw [← hqueue] at hmem' ho
        obtain rfl := hone'.eq_of_txnId hmem' ho heq
        simp [hungranted] at hog
      rcases hmode with hm | hm
      · simp [LockRequest.conflicts, hne, hm, hox hm]
      · simp [LockRequest.conflicts, hne, hm, hog]
    · obtain ⟨v, x, hin, hvx⟩ := htaken htk u w r hold hid (he.lockMode ▸ hx)
      rcases hin with hin | hin
      · exact ⟨v, x, Or.inl (hrequest w r r' v x hin he hvx)⟩
      · obtain ⟨hx, fd', rfl⟩ := hin.table
        rw [hid] at hx
        cases hx
  · have hplace : ∀ v x, s.RequestInWay w r v x → x ≠ .record fd rid := by
      rintro v x hin rfl
      rcases hin.place with hx | ⟨fd', _, _, _, _, _, hx⟩
      · exact hid hx.symm
      · cases hx
    by_cases hkeys : w.id = .table fd ∧ (s.queue (.record fd rid)).groupMode = .x
    · obtain ⟨v, x, hin, hvx⟩ := hkeysGood hkeys.2 u w r hold hkeys.1
      rcases hvx with hv | hreq
      · rcases hin with hin | hin
        · exact ⟨v, x, Or.inl (hrequest w r r' v x hin he (Or.inl hv))⟩
        · exact ⟨v, x, Or.inr (hkey w r r' v x hin he (Or.inl hv))⟩
      · exact ⟨v, x, Or.inl (hrequest w r r' v x hreq he (Or.inr (hplace v x hreq)))⟩
    · obtain ⟨v, x, hin⟩ := hi u w r hold
      rcases hin with hin | hin
      · exact ⟨v, x, Or.inl (hrequest w r r' v x hin he (Or.inr (hplace v x hin)))⟩
      · refine ⟨v, x, Or.inr (hkey w r r' v x hin he (Or.inr ?_))⟩
        by_contra hno
        push Not at hno
        exact hkeys ⟨hin.table.1.symm.trans hno.1, hno.2⟩

omit [LinearOrder κ] in
theorem OneEach.nodup (h : s.OneEach) (id : LockDataId) :
    ((s.queue id).requestQueue.map (·.txnId)).Nodup := by
  rw [List.nodup_iff_count_le_one]
  intro u
  rw [List.count_eq_countP, List.countP_map, List.countP_eq_length_filter]
  exact h.single u id

theorem keyInGap_eased {q q' : LockRequestQueue κ}
    (h : List.Forall₂ Eased q.requestQueue q'.requestQueue) {index : IndexId} {key : κ}
    (hno : q.keyInGap u index key = false) : q'.keyInGap u index key = false := by
  rw [← Bool.not_eq_true] at hno ⊢
  refine fun hyes => hno ?_
  obtain ⟨o', ho', hhit⟩ := List.any_eq_true.mp hyes
  simp only [Bool.and_eq_true, decide_eq_true_eq] at hhit
  obtain ⟨o, ho, he⟩ := MapM.forall₂_mem_right h ho'
  obtain ⟨g', hg', hgap⟩ := List.any_eq_true.mp hhit.2
  obtain ⟨g, hg, hrel⟩ := MapM.forall₂_mem_right he.gaps hg'
  refine List.any_eq_true.mpr ⟨o, ho, ?_⟩
  simp only [Bool.and_eq_true, decide_eq_true_eq]
  refine ⟨he.txnId ▸ hhit.1, List.any_eq_true.mpr ⟨g, hg, ?_⟩⟩
  rcases hrel with rfl | rfl <;> exact hgap

/-- A gap that is still waited for has a key in it that another transaction has been given. -/
theorem Waits.gap_blocked {isNew first : Bool} (h : s'.Waits u (.gap fd isNew first) r')
    (hgaps : r'.gaps ≠ []) {keys : List (InsertKey κ)}
    (hall : ∀ g ∈ r'.gaps, g.conflicted = true → gapConflicts keys r'.txnId g = true)
    (hkeys : ∀ k ∈ keys, k.isWaited = false → k ∈ (s'.queue (.table fd)).insertKeys) :
    ∃ v x, s'.InWay (.gap fd isNew first) r' v x := by
  obtain ⟨g, hg⟩ : ∃ g, r'.gaps.getLast? = some g := by
    cases hl : r'.gaps.getLast? with
    | none => exact absurd (List.getLast?_eq_none_iff.mp hl) hgaps
    | some g => exact ⟨g, rfl⟩
  have hconf : g.conflicted = true := by
    have hunready := h.unready
    simpa [LockWait.ready, hg] using hunready
  obtain ⟨k, hk, hc⟩ := List.any_eq_true.mp (hall g (List.mem_of_getLast? hg) hconf)
  simp only [Bool.and_eq_true, Bool.not_eq_true', decide_eq_true_eq] at hc
  exact ⟨k.txnId, .table fd, Or.inr ⟨hc.1.2, k, hkeys k hk hc.1.1, rfl, rfl, hc.1.1, g, hg, hc.2⟩⟩

theorem AllBlocked.unlockTable (hi : s.AllBlocked) (hw : s.WaitShape) (hone : s.OneEach)
    (ht : s.phase t = .finishing) (hgood : s.KeepsGrants (.unlock t (.table fd)))
    {locks : Locks κ} (hu : Grmdb.unlockTable s.locks t fd = some locks)
    (ids : TxnId → List LockDataId)
    (hone' : LockState.OneEach { s with locks := locks, lockSet := ids }) :
    LockState.AllBlocked { s with locks := locks, lockSet := ids } := by
  by_cases hfind : (s.locks.queue (.table fd)).find t = none
  · have heq := unlockTable_none hfind hu
    refine hi.same (fun x => ?_) (fun x => ?_) fun _ _ hw => hw
    · show (locks.queue x).requestQueue = _
      rw [heq]
      rfl
    · show (locks.queue x).insertKeys = _
      rw [heq]
      rfl
  have h := unlockTable_queues hfind hu
  have hup := hw.upgrades_exclusive (.table fd)
  obtain ⟨hkeysGood, hgapGood⟩ := hgood hfind
  generalize hs' : ({ s with locks := locks, lockSet := ids } : LockState κ) = s' at *
  have hqueue : ∀ x, s'.queue x = locks.queue x := by
    intro x
    rw [← hs']
    rfl
  have hphase : s'.phase = s.phase := by rw [← hs']
  have hrequest : ∀ w r r' v x, s.RequestInWay w r v x → Eased r r' →
      v ≠ t ∨ x ≠ .table fd → s'.RequestInWay w r' v x := by
    intro w r r' v x hin he hx
    refine hin.release ?_ he
    rw [hqueue]
    exact h.eased hup hx
  intro u w r' hwaits
  obtain ⟨r, hold, he⟩ := hwaits.of_release hone hphase fun id r' hr' => by
    rw [hqueue] at hr'
    exact h.back hup hr'
  have hut : u ≠ t := by
    rintro rfl
    have hp := hold.phase
    rw [ht] at hp
    cases hp
  have hfits := hold.fits hw hone
  obtain ⟨hmem', hrt'⟩ := hwaits.mem
  by_cases hid : w.id = .table fd
  · have hmem := hmem'
    rw [hid, hqueue, h.requests] at hmem
    have hnodup := hone'.nodup (.table fd)
    rw [hqueue, h.requests] at hnodup
    have hshared : r'.lockMode ≠ .shared := by
      have hr := hold.mem.1
      rw [hid] at hr
      rw [he.lockMode]
      exact hw.tables fd r hr
    rcases ((regranted_settled t hup).2 r' hmem).blocked hmem hnodup hshared with hheld | hrest
    · refine inWay_of_conflicts ?_
      rw [hid, hqueue, HeldX, h.requests]
      exact hheld
    · have hungranted : w.ready r' = false := hwaits.unready
      by_cases hm : r'.lockMode = .gap
      · rw [if_pos hm] at hrest
        have hix : (∃ isNew, w = .is fd isNew ∨ w = .ix fd isNew) → ∃ v x, s'.InWay w r' v x := by
          intro hisix
          obtain ⟨v, x, hin, hv⟩ := hgapGood u w r hold hisix (he.lockMode ▸ hm)
          rcases hin with hin | ⟨_, _, _, _, _, hkind⟩
          · exact ⟨v, x, Or.inl (hrequest w r r' v x hin he (Or.inl hv))⟩
          · obtain ⟨isNew, rfl | rfl⟩ := hisix <;> exact absurd hkind id
        cases w with
        | gap fd' isNew first =>
          cases hid
          refine hwaits.gap_blocked (LockWait.fits_eased hfits he).2 hrest fun k hk hno => ?_
          rw [hqueue, h.keys]
          refine List.mem_map.mpr ⟨k, hk, if_neg ?_⟩
          simp [grantsKey, frees, hno]
        | is fd' isNew =>
          cases hid
          exact hix ⟨isNew, Or.inl rfl⟩
        | ix fd' isNew =>
          cases hid
          exact hix ⟨isNew, Or.inr rfl⟩
        | exclusive =>
          have hx : r'.lockMode = .exlucsive := he.lockMode.trans hfits
          simp [hm] at hx
        | shared | exclusiveGap => cases hid
      · rw [if_neg hm] at hrest
        cases w with
        | gap => exact absurd (he.lockMode.trans hfits.1) hm
        | is | ix | exclusive =>
          have hg : r'.granted = false := hungranted
          simp [hrest] at hg
        | shared | exclusiveGap => cases hid
  · by_cases hrec : ∃ rid index key isNew, w = .exclusiveGap fd rid index key isNew
    · obtain ⟨rid, index, key, isNew, rfl⟩ := hrec
      rcases hkeysGood u rid index key isNew r hold with ⟨v, x, hin, hvx⟩ |
        ⟨k, hk, rfl, rfl, hwaited, hfree⟩
      · rcases hin with hin | hin
        · exact ⟨v, x, Or.inl (hrequest _ r r' v x hin he hvx)⟩
        · obtain ⟨hx, fd', hfd⟩ := hin.table
          rw [hfd] at hx
          cases hx
      · -- the key waits for no gap any more, and so its request is granted
        have hkept : k ∈ ((s.locks.queue (.table fd)).releaseTable t).insertKeys := by
          rcases releaseTable_keys (s.locks.queue (.table fd)) t with heq | heq
          · rw [heq]
            exact hk
          · rw [heq]
            exact List.mem_filter.mpr ⟨hk, by simpa using hut⟩
        have hgrants : ((s.locks.queue (.table fd)).regranted t).grantsKey fd s.locks k =
            true := by
          have hno : ((s.locks.queue (.table fd)).regranted t).keyInGap k.txnId k.index
              k.insertKey = false := keyInGap_eased (regranted_settled t hup).1 hfree
          obtain ⟨hr, hrt⟩ := hold.mem
          have hfound : (s.queue (.record fd k.rid)).find k.txnId = some r := by
            rw [find_eq_head]
            have hown := hone.own_eq hr
            rw [hrt] at hown
            show ((s.queue (.record fd k.rid)).own k.txnId).head? = some r
            rw [show (s.queue (.record fd k.rid)).own k.txnId = [r] from hown]
            rfl
          have hm : r.lockMode = .exlucsive := hfits
          have hlocks : (s.locks (.record fd k.rid)).bind (fun q => q.find k.txnId) = some r := by
            unfold LockState.queue at hfound
            cases hq : s.locks (.record fd k.rid) with
            | none => simp [hq, empty, find] at hfound
            | some q => simpa [hq] using hfound
          simp [grantsKey, frees, hwaited, hno, hlocks, hm]
        obtain ⟨r'', hr'', hrt'', hx⟩ := h.given k hkept hgrants
        rw [← hqueue] at hr''
        obtain rfl := hwaits.eq_of_mem hone' hr'' hrt''
        have hg : r''.granted = false := hwaits.unready
        simp [LockRequest.holdsX, hg] at hx
    · obtain ⟨v, x, hin⟩ := hi u w r hold
      rcases hin with hin | hin
      · refine ⟨v, x, Or.inl (hrequest w r r' v x hin he (Or.inr ?_))⟩
        rintro rfl
        rcases hin.place with hx | ⟨fd', rid', index', key', isNew', rfl, hx⟩
        · exact hid hx.symm
        · cases hx
          exact hrec ⟨rid', index', key', isNew', rfl⟩
      · obtain ⟨hx, fd', rfl⟩ := hin.table
        refine ⟨v, _, Or.inr (hin.release (fun k hk _ => ?_) he)⟩
        rw [hqueue, h.others _ (fun heq => hid (hx.symm.trans heq)) (by simp)]
        exact hk

/-- What carries the grants through a run. -/
structure GrantInv (s : LockState κ) : Prop where
  account : s.AccountInv
  shape : s.WaitShape
  groups : s.RecordGroups
  blocked : s.AllBlocked

theorem grantInv_fresh : (fresh : LockState κ).GrantInv := by
  refine ⟨accountInv_fresh, waitShape_fresh, recordGroups_fresh, fun t w r h => ?_⟩
  have hp := h.phase
  cases hp

theorem allBlocked_step {e : LockEv κ} (hi : s.GrantInv) (hgood : s.KeepsGrants e)
    (hlock : ∀ t fd, e = .lockIXOnTable t fd → s.KeepsAccount (.lockIXOnTable t fd))
    (h : s.step e = some s') (hone' : s'.OneEach) : s'.AllBlocked := by
  have hone := hi.account.oneEach
  have hblocked := hi.blocked
  have hshape := hi.shape
  cases e with
  | lockSharedOnRecord t fd rid =>
    simp only [step] at h
    split at h
    next ht =>
      cases Option.some.inj h
      exact hblocked.sharedCall hshape hone hi.groups ht fd rid hone'
    next => simp at h
  | lockExclusiveOnRecordGap t fd rid index key =>
    simp only [step] at h
    split at h
    next ht =>
      cases Option.some.inj h
      exact hblocked.exclusiveCall hshape hone ht hgood rfl hone'
    next => simp at h
  | lockGAPOnTable t fd lower upper index =>
    simp only [step] at h
    split at h
    next ht =>
      cases Option.some.inj h
      refine hblocked.tableCall hshape hone ht (lockGAPOnTable_frame _ t lower upper index)
        (lockGAPOnTable_grants (hone.queueSingle (.table fd)) lower upper index hgood.2)
        hgood.1 hone' (fun _ => rfl) fun s₁ b r hheld => ?_
      rcases hheld with hheld | ⟨k, hk, hne, hno, hlast⟩
      · exact inWay_of_conflicts hheld
      · exact ⟨k.txnId, .table fd, Or.inr ⟨hne, k, hk, rfl, rfl, hno, hlast⟩⟩
    next => simp at h
  | lockISOnTable t fd =>
    simp only [step] at h
    split at h
    next ht =>
      obtain ⟨⟨q, out⟩, hcall, rfl⟩ := Option.map_eq_some_iff.mp h
      exact hblocked.tableCall hshape hone ht (lockISOnTable_frame hcall)
        (lockISOnTable_grants (hone.queueSingle (.table fd)) hgood.2 hcall) hgood.1 hone'
        (fun _ => rfl) fun s₁ b r hheld => inWay_of_conflicts hheld
    next => simp at h
  | lockIXOnTable t fd =>
    simp only [step] at h
    split at h
    next ht =>
      cases Option.some.inj h
      exact hblocked.tableCall hshape hone ht (lockIXOnTable_frame _ t)
        (lockIXOnTable_grants (hone.queueSingle (.table fd)) hgood.2 (hlock t fd rfl)) hgood.1
        hone' (fun _ => rfl) fun s₁ b r hheld => inWay_of_conflicts hheld
    next => simp at h
  | lockExclusiveOnTable t fd =>
    simp only [step] at h
    split at h
    next ht =>
      cases Option.some.inj h
      refine hblocked.tableCall hshape hone ht (lockExclusiveOnTable_frame _ t)
        (lockExclusiveOnTable_grants (hone.queueSingle (.table fd)) hgood.2) hgood.1 hone'
        (fun _ => rfl) fun s₁ b r hheld => ?_
      rcases hheld with hheld | ⟨k, hk, hne⟩
      · exact inWay_of_conflicts hheld
      · exact ⟨k.txnId, .table fd, Or.inr ⟨hne, k, hk, rfl, rfl, trivial⟩⟩
    next => simp at h
  | wake t =>
    simp only [step] at h
    split at h
    next w hp =>
      split at h
      next r hr =>
        split at h
        next =>
          cases Option.some.inj h
          exact hblocked.wake r _ _
        next => simp at h
      next => simp at h
    next => simp at h
  | finish t =>
    simp only [step] at h
    split at h
    next =>
      cases Option.some.inj h
      exact hblocked.finish
    next => simp at h
  | unlock t id =>
    simp only [step] at h
    split at h
    next ht =>
      cases id with
      | table fd =>
        obtain ⟨locks, hu, rfl⟩ := Option.map_eq_some_iff.mp h
        exact hblocked.unlockTable hshape hone ht.1 hgood hu _ hone'
      | record fd rid =>
        cases Option.some.inj h
        exact hblocked.unlockRecord hone hgood _ hone'
    next => simp at h

theorem grantInv_step {e : LockEv κ} (hi : s.GrantInv)
    (hgood : s.KeepsAccount e ∧ s.KeepsGrants e) (h : s.step e = some s') : s'.GrantInv := by
  have haccount := accountInv_step hi.account hgood.1 h
  have hone := hi.account.oneEach
  refine ⟨haccount, waitShape_step hi.shape hone h, recordGroups_step hi.groups hi.shape hone h,
    allBlocked_step hi hgood.2 (fun t fd he => ?_) h haccount.oneEach⟩
  subst he
  exact hgood.1

/-- The transaction still runs, waits, or has locks to give back. -/
def Live (s : LockState κ) (t : TxnId) : Prop :=
  ¬ (s.phase t = .finishing ∧ s.lockSet t = [])

/-- Every transaction that waits has a lock, a gap or an insert key of a live transaction in its
way. -/
def NoLostGrant (s : LockState κ) : Prop :=
  ∀ t w r, s.Waits t w r → ∃ u x, s.InWay w r u x ∧ s.Live u

theorem NoResidue.live (h : s.NoResidue) (hin : s.InWay w r v x) : s.Live v := by
  rintro ⟨hp, hset⟩
  obtain ⟨hrequests, hkeys, _⟩ := h v hp hset x
  rcases hin with ⟨_, o, ho, hov, _⟩ | ⟨_, k, hk, hkv, _⟩
  · exact hrequests o ho hov
  · exact hkeys k hk hkv

/-- Transaction 4 leaves the table while 1 waits for the record of 2. -/
def waitsAlong : List (LockEv Int) :=
  [.lockIXOnTable 2 3, .lockIXOnTable 1 3, .lockIXOnTable 4 3,
    .lockExclusiveOnRecordGap 2 3 ⟨1, 0⟩ 4 5, .lockExclusiveOnRecordGap 1 3 ⟨1, 0⟩ 4 6,
    .finish 4, .unlock 4 (.table 3)]

theorem keepsGrants_waitsAlong :
    MeetsAll step (fun s e => KeepsAccount s e ∧ KeepsGrants s e) fresh waitsAlong := by
  refine meetsAll_cons rfl ⟨by decide, ?_⟩ (meetsAll_cons rfl ⟨by decide, ?_⟩
    (meetsAll_cons rfl ⟨by decide, ?_⟩ (meetsAll_cons rfl ⟨by decide, ?_⟩
    (meetsAll_cons rfl ⟨by decide, ?_⟩ (meetsAll_cons rfl ⟨trivial, trivial⟩
    (meetsAll_cons rfl ⟨trivial, ?_⟩ trivial))))))
  · exact ⟨fun h => h.elim (fun h => absurd h.1.1 (by decide)) (fun h => absurd h.1 (by decide)),
      fun h => absurd h.1 (by decide)⟩
  · exact ⟨fun h => h.elim (fun h => absurd h.1.1 (by decide)) (fun h => absurd h.1 (by decide)),
      fun h => absurd h.1 (by decide)⟩
  · exact ⟨fun h => h.elim (fun h => absurd h.1.1 (by decide)) (fun h => absurd h.1 (by decide)),
      fun h => absurd h.1 (by decide)⟩
  · exact fun h => absurd h.1 (by decide)
  · exact fun _ => ⟨fun hno => absurd hno (by decide), fun _ hd => absurd hd (by decide),
      fun hno => absurd hno (by decide)⟩
  · intro _
    refine ⟨fun u rid index key isNew r h => Or.inl ?_, fun u w r h hw => ?_⟩
    · have hp := h.phase
      change (if u = 4 then TxnPhase.finishing else if u = 1 then
        .waiting (.exclusiveGap 3 ⟨1, 0⟩ 4 6 true) else .running) = _ at hp
      split at hp
      · cases hp
      · split at hp
        next hu =>
          subst hu
          cases hp
          have hr : some (⟨1, .exlucsive, false, []⟩ : LockRequest Int) = some r := h.request
          cases hr
          exact ⟨2, .record 3 ⟨1, 0⟩, Or.inl ⟨by decide, ⟨2, .exlucsive, true, []⟩,
            List.mem_cons_self, rfl, Or.inl ⟨rfl, rfl⟩⟩, Or.inl (by decide)⟩
        next => cases hp
    · have hp := h.phase
      change (if u = 4 then TxnPhase.finishing else if u = 1 then
        .waiting (.exclusiveGap 3 ⟨1, 0⟩ 4 6 true) else .running) = _ at hp
      split at hp
      · cases hp
      · split at hp
        · obtain ⟨isNew, rfl | rfl⟩ := hw <;> cases hp
        · cases hp

/-- The commit of 2 unlocks the record while the table is in group mode GAP. -/
def unlocksUnderGap : List (LockEv Int) :=
  [.lockIXOnTable 2 3, .lockIXOnTable 1 3, .lockExclusiveOnRecordGap 2 3 ⟨1, 0⟩ 4 5,
    .lockGAPOnTable 9 3 10 20 4, .lockExclusiveOnRecordGap 1 3 ⟨1, 0⟩ 4 6, .finish 2,
    .unlock 2 (.record 3 ⟨1, 0⟩), .unlock 2 (.table 3)]

end LockState

end Grmdb
