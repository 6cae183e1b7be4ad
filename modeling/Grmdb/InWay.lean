import Grmdb.RecordGroups

namespace Grmdb

open LockRequestQueue

variable {κ : Type}

section Order

variable [LinearOrder κ]

/-- A gap of the request that is not conflicted has the key in it. -/
def LockRequest.gapOver (o : LockRequest κ) (index : IndexId) (key : κ) : Bool :=
  o.gaps.any fun g => !g.conflicted && g.hits index key

/-- The request `o` in the queue of `x` is what `r`, with which a transaction waits as `w` says,
conflicts with. -/
def LockWait.meets (w : LockWait κ) (r : LockRequest κ) (x : LockDataId) (o : LockRequest κ) :
    Prop :=
  x = w.id ∧ r.conflicts o = true ∨
    match w with
    | .exclusiveGap fd _ index key _ => x = .table fd ∧ o.gapOver index key = true
    | _ => False

/-- The same for an insert key: a gap waits for the keys in it that have been given, the whole
table for all. -/
def LockWait.meetsKey (w : LockWait κ) (r : LockRequest κ) (x : LockDataId) (k : InsertKey κ) :
    Prop :=
  x = w.id ∧
    match w with
    | .gap _ _ _ => k.isWaited = false ∧
        ∃ g, r.gaps.getLast? = some g ∧ g.hits k.index k.insertKey = true
    | .exclusive _ _ => True
    | _ => False

theorem LockWait.meets_eased {w : LockWait κ} {r r' o o' : LockRequest κ} {x : LockDataId}
    (hr : Eased r r') (ho : Eased o o') (h : w.meets r x o) : w.meets r' x o' := by
  rcases h with ⟨hx, hc⟩ | h
  · exact Or.inl ⟨hx, ho.conflicts hr hc⟩
  · right
    cases w with
    | exclusiveGap fd rid index key isNew =>
      refine ⟨h.1, ?_⟩
      obtain ⟨g, hg, hhit⟩ := List.any_eq_true.mp h.2
      obtain ⟨g', hg', hrel⟩ := MapM.forall₂_mem_left ho.gaps hg
      refine List.any_eq_true.mpr ⟨g', hg', ?_⟩
      rcases hrel with rfl | rfl
      · exact hhit
      · simp only [Bool.and_eq_true] at hhit
        simpa [Gap.hits] using hhit.2
    | shared | gap | is | ix | exclusive => exact h

theorem Eased.getLast_hits {r r' : LockRequest κ} (h : Eased r r') {index : IndexId} {key : κ}
    (hg : ∃ g, r.gaps.getLast? = some g ∧ g.hits index key = true) :
    ∃ g, r'.gaps.getLast? = some g ∧ g.hits index key = true := by
  have hgaps := h.gaps
  generalize r.gaps = a at hgaps hg
  generalize r'.gaps = b at hgaps
  induction hgaps with
  | nil => simp at hg
  | @cons g g' a b hrel hrest ih =>
    cases hrest with
    | nil =>
      obtain ⟨g₀, hg₀, hhit⟩ := hg
      cases Option.some.inj hg₀
      refine ⟨g', rfl, ?_⟩
      rcases hrel with rfl | rfl <;> exact hhit
    | cons hrel' hrest' =>
      rw [List.getLast?_cons_cons] at hg ⊢
      exact ih hg

theorem LockWait.meetsKey_eased {w : LockWait κ} {r r' : LockRequest κ} {x : LockDataId}
    {k : InsertKey κ} (hr : Eased r r') (h : w.meetsKey r x k) : w.meetsKey r' x k := by
  refine ⟨h.1, ?_⟩
  have hkey := h.2
  cases w with
  | gap => exact ⟨hkey.1, hr.getLast_hits hkey.2⟩
  | shared | exclusiveGap | is | ix | exclusive => exact hkey

end Order

namespace LockState

variable {s s' : LockState κ} {t u v : TxnId} {w : LockWait κ} {r : LockRequest κ}
  {x : LockDataId}

/-- `t` waits as `w` says, and its request `r` is not what it waits for yet. -/
structure Waits (s : LockState κ) (t : TxnId) (w : LockWait κ) (r : LockRequest κ) : Prop where
  phase : s.phase t = .waiting w
  request : w.request (s.queue w.id) t = some r
  unready : w.ready r = false

theorem Waits.mem (h : s.Waits t w r) : r ∈ (s.queue w.id).requestQueue ∧ r.txnId = t :=
  request_mem h.request

theorem Waits.fits (h : s.Waits t w r) (hw : s.WaitShape) (hone : s.OneEach) : w.fits r := by
  obtain ⟨r', hmem, hrt, hfits⟩ := hw.waits t w h.phase
  have hreq := hone.request hmem
  rw [hrt, h.request] at hreq
  cases Option.some.inj hreq
  exact hfits

/-- What is still waited for has not been granted; a gap request need not be granted at all. -/
theorem Waits.ungranted (h : s.Waits t w r) (hw : s.WaitShape) (hone : s.OneEach) :
    r.granted = false ∨ r.lockMode = .gap := by
  have hfits := h.fits hw hone
  have hready := h.unready
  cases w with
  | gap => exact Or.inr hfits.1
  | shared | exclusiveGap | is | ix | exclusive => exact Or.inl hready

theorem Waits.of_own (hphase : s'.phase u = s.phase u)
    (hown : (s'.queue w.id).own u = (s.queue w.id).own u) (h : s'.Waits u w r) :
    s.Waits u w r := by
  refine ⟨hphase ▸ h.phase, ?_, h.unready⟩
  have hreq := h.request
  unfold LockWait.request at hreq ⊢
  rw [find_eq_head] at hreq ⊢
  rw [hown] at hreq
  have hlast : (s'.queue w.id).findLast u = (s.queue w.id).findLast u :=
    congrArg List.getLast? hown
  rw [hlast] at hreq
  exact hreq

variable [LinearOrder κ]

/-- A request of `u` in the queue of `x` is in the way of `r`. -/
def RequestInWay (s : LockState κ) (w : LockWait κ) (r : LockRequest κ) (u : TxnId)
    (x : LockDataId) : Prop :=
  u ≠ r.txnId ∧ ∃ o ∈ (s.queue x).requestQueue, o.txnId = u ∧ w.meets r x o

def KeyInWay (s : LockState κ) (w : LockWait κ) (r : LockRequest κ) (u : TxnId)
    (x : LockDataId) : Prop :=
  u ≠ r.txnId ∧ ∃ k ∈ (s.queue x).insertKeys, k.txnId = u ∧ w.meetsKey r x k

def InWay (s : LockState κ) (w : LockWait κ) (r : LockRequest κ) (u : TxnId) (x : LockDataId) :
    Prop :=
  s.RequestInWay w r u x ∨ s.KeyInWay w r u x

/-- Every transaction that waits has something in its way. -/
def AllBlocked (s : LockState κ) : Prop :=
  ∀ t w r, s.Waits t w r → ∃ u x, s.InWay w r u x

/-- Whoever else waits has more in its way than what `t` has in the queues of `xs`. -/
def StandsWithout (s : LockState κ) (t : TxnId) (xs : List LockDataId) : Prop :=
  ∀ u w r, u ≠ t → s.Waits u w r → ∃ v x, s.InWay w r v x ∧ (v ≠ t ∨ x ∉ xs)

end LockState

/-- Whoever waits for a lock of `t` in the queue has a lock of someone in its way afterwards. -/
def StillHeld (t : TxnId) (q q' : LockRequestQueue κ) : Prop :=
  ∀ r ∈ q.requestQueue, r.txnId ≠ t → r.granted = false ∨ r.lockMode = .gap →
    ∀ o ∈ q.requestQueue, o.txnId = t → r.conflicts o = true →
      ∃ o' ∈ q'.requestQueue, r.conflicts o' = true

/-- `t` keeps its gaps and insert keys. -/
structure KeepsGaps (t : TxnId) (q q' : LockRequestQueue κ) : Prop where
  gaps : ∀ o ∈ q.requestQueue, o.txnId = t → ∀ g ∈ o.gaps,
    ∃ o' ∈ q'.requestQueue, o'.txnId = t ∧ g ∈ o'.gaps
  keys : ∀ k ∈ q.insertKeys, k.txnId = t → k ∈ q'.insertKeys

namespace LockState

variable {s s' : LockState κ} {t u v : TxnId} {w : LockWait κ} {r : LockRequest κ}
  {x : LockDataId} [LinearOrder κ]

theorem InWay.call (h : s.InWay w r v x) (hr : r ∈ (s.queue w.id).requestQueue)
    (hrt : r.txnId ≠ t) (hungranted : r.granted = false ∨ r.lockMode = .gap)
    (hframe : CallFrame t (s.queue x) (s'.queue x))
    (hkeep : v ≠ t ∨ StillHeld t (s.queue x) (s'.queue x) ∧
      ∀ fd, x = .table fd → KeepsGaps t (s.queue x) (s'.queue x)) :
    ∃ v', s'.InWay w r v' x := by
  by_cases hv : v = t
  · obtain ⟨hheld, hgaps⟩ := hkeep.resolve_left (not_not.mpr hv)
    rcases h with ⟨hne, o, ho, hot, hmeets⟩ | ⟨hne, k, hk, hkt, hmeets⟩
    · rcases hmeets with ⟨hx, hc⟩ | hgap
      · subst hx
        obtain ⟨o', ho', hc'⟩ := hheld r hr hrt hungranted o ho (hot.trans hv) hc
        refine ⟨o'.txnId, Or.inl ⟨?_, o', ho', rfl, Or.inl ⟨rfl, hc'⟩⟩⟩
        simp only [LockRequest.conflicts, Bool.and_eq_true, decide_eq_true_eq] at hc'
        exact hc'.1
      · cases w with
        | exclusiveGap fd rid index key isNew =>
          obtain ⟨g, hg, hhit⟩ := List.any_eq_true.mp hgap.2
          obtain ⟨o', ho', hot', hg'⟩ := (hgaps fd hgap.1).gaps o ho (hot.trans hv) g hg
          exact ⟨v, Or.inl ⟨hne, o', ho', hot'.trans hv.symm,
            Or.inr ⟨hgap.1, List.any_eq_true.mpr ⟨g, hg', hhit⟩⟩⟩⟩
        | shared | gap | is | ix | exclusive => exact absurd hgap id
    · have htable : ∃ fd, x = .table fd := by
        have hx := hmeets.1
        have hkind := hmeets.2
        cases w with
        | gap fd | exclusive fd => exact ⟨fd, hx⟩
        | shared | exclusiveGap | is | ix => exact absurd hkind id
      obtain ⟨fd, hfd⟩ := htable
      exact ⟨v, Or.inr ⟨hne, k, (hgaps fd hfd).keys k hk (hkt.trans hv), hkt, hmeets⟩⟩
  · rcases h with ⟨hne, o, ho, hot, hmeets⟩ | ⟨hne, k, hk, hkt, hmeets⟩
    · have hown : o ∈ (s'.queue x).own v := by
        rw [hframe.own v hv]
        exact mem_own.mpr ⟨ho, hot⟩
      exact ⟨v, Or.inl ⟨hne, o, (mem_own.mp hown).1, hot, hmeets⟩⟩
    · have hown : k ∈ (s'.queue x).insertKeys.filter fun k => decide (k.txnId = v) := by
        rw [hframe.keys v hv]
        exact List.mem_filter.mpr ⟨hk, by simpa using hkt⟩
      exact ⟨v, Or.inr ⟨hne, k, (List.mem_filter.mp hown).1, hkt, hmeets⟩⟩

/-- A call of `t` that takes from the others at most what they wait for in the queues of `xs`. -/
theorem AllBlocked.call (hi : s.AllBlocked) (hw : s.WaitShape) (hone : s.OneEach)
    (hphase : ∀ u, u ≠ t → s'.phase u = s.phase u)
    (hframe : ∀ x, CallFrame t (s.queue x) (s'.queue x)) (xs : List LockDataId)
    (hheld : ∀ x, x ∉ xs → StillHeld t (s.queue x) (s'.queue x))
    (hgaps : ∀ fd, .table fd ∉ xs → KeepsGaps t (s.queue (.table fd)) (s'.queue (.table fd)))
    (hstands : xs ≠ [] → s.StandsWithout t xs)
    (hself : ∀ w r, s'.Waits t w r → ∃ u x, s'.InWay w r u x) : s'.AllBlocked := by
  intro u w r hwaits
  by_cases hu : u = t
  · subst hu
    exact hself w r hwaits
  · have hold := Waits.of_own (hphase u hu) ((hframe w.id).own u hu) hwaits
    obtain ⟨hr, hrt⟩ := hold.mem
    have hin : ∃ v x, s.InWay w r v x ∧ (v ≠ t ∨ x ∉ xs) := by
      by_cases hxs : xs = []
      · obtain ⟨v, x, h⟩ := hi u w r hold
        exact ⟨v, x, h, Or.inr (by simp [hxs])⟩
      · exact hstands hxs u w r hu hold
    obtain ⟨v, x, h, hx⟩ := hin
    obtain ⟨v', h'⟩ := h.call hr (fun h => hu (hrt.symm.trans h)) (hold.ungranted hw hone)
      (hframe x) (hx.imp_right fun hx => ⟨hheld x hx, fun fd hfd => by
        subst hfd
        exact hgaps fd hx⟩)
    exact ⟨v', x, h'⟩

end LockState

end Grmdb
