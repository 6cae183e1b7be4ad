import Mathlib

namespace UndoLog

variable {ρ ν τ : Type}

/-- One write of a transaction to a slot, with the value that it put in or took out. -/
inductive Write (ρ ν : Type) where
  | insert (slot : ρ) (value : ν)
  | delete (slot : ρ) (value : ν)
  deriving DecidableEq, Repr

namespace Write

def slot : Write ρ ν → ρ
  | .insert slot _ | .delete slot _ => slot

def before : Write ρ ν → Option ν
  | .insert .. => none
  | .delete _ value => some value

def after : Write ρ ν → Option ν
  | .insert _ value => some value
  | .delete .. => none

end Write

/-- Some write of the list, whose latest write is its head, is to the slot. -/
def Wrote (ws : List (Write ρ ν)) (slot : ρ) : Prop := ∃ w ∈ ws, w.slot = slot

@[simp] theorem not_wrote_nil {slot : ρ} : ¬ Wrote ([] : List (Write ρ ν)) slot := by simp [Wrote]

theorem wrote_cons {w : Write ρ ν} {ws : List (Write ρ ν)} {slot : ρ} :
    Wrote (w :: ws) slot ↔ w.slot = slot ∨ Wrote ws slot := by simp [Wrote]

variable [DecidableEq ρ]

/-- The value that the last write to the slot has left. -/
def lastWrite : List (Write ρ ν) → ρ → Option (Option ν)
  | [], _ => none
  | w :: ws, slot => if w.slot = slot then some w.after else lastWrite ws slot

/-- Every write, from the latest on, is found as it was left. -/
def Undoable : List (Write ρ ν) → (ρ → Option ν) → Prop
  | [], _ => True
  | w :: ws, m => m w.slot = w.after ∧ Undoable ws (Function.update m w.slot w.before)

def rollback : List (Write ρ ν) → (ρ → Option ν) → ρ → Option ν
  | [], m => m
  | w :: ws, m => rollback ws (Function.update m w.slot w.before)

variable {w : Write ρ ν} {ws : List (Write ρ ν)} {m m' : ρ → Option ν} {slot : ρ}

theorem lastWrite_eq_none : lastWrite ws slot = none ↔ ¬ Wrote ws slot := by
  induction ws with
  | nil => simp [lastWrite]
  | cons w ws ih =>
    rw [lastWrite, wrote_cons]
    split
    next h => simp [h]
    next h => simp [h, ih]

theorem mem_of_lastWrite {v : Option ν} (h : lastWrite ws slot = some v) :
    ∃ w ∈ ws, w.slot = slot ∧ w.after = v := by
  induction ws with
  | nil => simp [lastWrite] at h
  | cons w ws ih =>
    rw [lastWrite] at h
    split at h
    next hw => exact ⟨w, List.mem_cons_self, hw, Option.some.inj h⟩
    next hw =>
      obtain ⟨w', hmem, hslot, hafter⟩ := ih h
      exact ⟨w', List.mem_cons_of_mem w hmem, hslot, hafter⟩

/-- A slot that a transaction has left empty, it has deleted. -/
theorem delete_of_lastWrite (h : lastWrite ws slot = some none) :
    ∃ value, .delete slot value ∈ ws := by
  obtain ⟨w, hmem, rfl, hafter⟩ := mem_of_lastWrite h
  cases w with
  | insert slot value => cases hafter
  | delete slot value => exact ⟨value, hmem⟩

theorem insert_of_lastWrite {value : ν} (h : lastWrite ws slot = some (some value)) :
    .insert slot value ∈ ws := by
  obtain ⟨w, hmem, rfl, hafter⟩ := mem_of_lastWrite h
  cases w with
  | insert slot value' =>
    cases Option.some.inj hafter
    exact hmem
  | delete slot value' => cases hafter

theorem Undoable.congr (h : Undoable ws m) (same : ∀ slot, Wrote ws slot → m' slot = m slot) :
    Undoable ws m' := by
  induction ws generalizing m m' with
  | nil => trivial
  | cons w ws ih =>
    refine ⟨by rw [same _ (wrote_cons.mpr (.inl rfl)), h.1], ih h.2 fun slot hs => ?_⟩
    by_cases hw : slot = w.slot
    · simp [hw]
    · simp [hw, same slot (wrote_cons.mpr (.inr hs))]

theorem Undoable.last {v : Option ν} (h : Undoable ws m) (hv : lastWrite ws slot = some v) :
    m slot = v := by
  induction ws generalizing m with
  | nil => simp [lastWrite] at hv
  | cons w ws ih =>
    rw [lastWrite] at hv
    split at hv
    next hw =>
      rw [← hw, h.1]
      exact Option.some.inj hv
    next hw =>
      have hrest := ih h.2 hv
      rwa [Function.update_of_ne (Ne.symm hw)] at hrest

theorem rollback_of_not_wrote (h : ¬ Wrote ws slot) : rollback ws m slot = m slot := by
  induction ws generalizing m with
  | nil => rfl
  | cons w ws ih =>
    rw [wrote_cons, not_or] at h
    rw [rollback, ih h.2, Function.update_of_ne (Ne.symm h.1)]

/-- What a rollback leaves in a written slot does not depend on what it finds. -/
theorem rollback_of_wrote (h : Wrote ws slot) : rollback ws m slot = rollback ws m' slot := by
  induction ws generalizing m m' with
  | nil => exact absurd h not_wrote_nil
  | cons w ws ih =>
    by_cases hs : Wrote ws slot
    · exact ih hs
    · have hw := (wrote_cons.mp h).resolve_right hs
      rw [rollback, rollback, rollback_of_not_wrote hs, rollback_of_not_wrote hs, ← hw]
      simp

/-- The slots `m` are what `committed` says but for the writes of the transactions that have not
ended, each of which has its slots to itself and can be rolled back to `committed`. -/
structure Holds (committed : ρ → Option ν) (writes : τ → List (Write ρ ν)) (m : ρ → Option ν) :
    Prop where
  apart : ∀ {t u slot}, t ≠ u → Wrote (writes t) slot → ¬ Wrote (writes u) slot
  untouched : ∀ {slot}, (∀ t, ¬ Wrote (writes t) slot) → m slot = committed slot
  undoable : ∀ t, Undoable (writes t) m
  back : ∀ {t slot}, Wrote (writes t) slot → rollback (writes t) m slot = committed slot

/-- The values after `t` has committed its writes `ws`. -/
def commit (committed : ρ → Option ν) (ws : List (Write ρ ν)) : ρ → Option ν := fun slot =>
  (lastWrite ws slot).getD (committed slot)

theorem holds_start (m : ρ → Option ν) : Holds m (fun _ : τ => []) m :=
  ⟨fun _ h => absurd h not_wrote_nil, fun _ => rfl, fun _ => trivial,
    fun h => absurd h not_wrote_nil⟩

section Steps

variable {committed : ρ → Option ν} {writes : τ → List (Write ρ ν)} {t : τ}

theorem Holds.last (h : Holds committed writes m) {v : Option ν}
    (hv : lastWrite (writes t) slot = some v) : m slot = v := (h.undoable t).last hv

variable [DecidableEq τ]

/-- A write to a slot that no other open transaction has written. -/
theorem Holds.write (h : Holds committed writes m) (hw : m w.slot = w.before)
    (alone : ∀ u, u ≠ t → ¬ Wrote (writes u) w.slot) :
    Holds committed (Function.update writes t (w :: writes t))
      (Function.update m w.slot w.after) := by
  have undone : Function.update (Function.update m w.slot w.after) w.slot w.before = m := by
    rw [Function.update_idem, ← hw, Function.update_eq_self]
  have others : ∀ {u slot}, u ≠ t → Wrote (writes u) slot → slot ≠ w.slot := by
    rintro u slot hu hs rfl
    exact alone u hu hs
  refine ⟨?_, ?_, ?_, ?_⟩
  · intro u v slot huv hu
    by_cases hut : u = t
    · subst hut
      rw [Function.update_self] at hu
      rw [Function.update_of_ne huv.symm]
      rcases wrote_cons.mp hu with rfl | hu
      · exact alone v huv.symm
      · exact h.apart huv hu
    · rw [Function.update_of_ne hut] at hu
      by_cases hvt : v = t
      · subst hvt
        rw [Function.update_self, wrote_cons, not_or]
        exact ⟨(others hut hu).symm, h.apart huv hu⟩
      · rw [Function.update_of_ne hvt]
        exact h.apart huv hu
  · intro slot none
    have ht := none t
    rw [Function.update_self, wrote_cons, not_or] at ht
    rw [Function.update_of_ne (Ne.symm ht.1)]
    refine h.untouched fun u => ?_
    by_cases hu : u = t
    · exact hu ▸ ht.2
    · simpa [hu] using none u
  · intro u
    by_cases hu : u = t
    · subst hu
      rw [Function.update_self]
      refine ⟨by simp, ?_⟩
      rw [undone]
      exact h.undoable u
    · rw [Function.update_of_ne hu]
      refine (h.undoable u).congr fun slot hs => ?_
      exact Function.update_of_ne (others hu hs) _ _
  · intro u slot hs
    by_cases hu : u = t
    · subst hu
      rw [Function.update_self] at hs ⊢
      rw [rollback, undone]
      by_cases hold : Wrote (writes u) slot
      · exact h.back hold
      · have hslot := (wrote_cons.mp hs).resolve_right hold
        rw [rollback_of_not_wrote hold]
        refine h.untouched fun v => ?_
        by_cases hv : v = u
        · exact hv ▸ hold
        · exact hslot ▸ alone v hv
    · rw [Function.update_of_ne hu] at hs ⊢
      rw [@rollback_of_wrote _ _ _ _ _ m _ hs]
      exact h.back hs

/-- The latest write of `t` is taken back. -/
theorem Holds.undo (h : Holds committed writes m) (hw : writes t = w :: ws) :
    Holds committed (Function.update writes t ws) (Function.update m w.slot w.before) := by
  have mine : Wrote (writes t) w.slot := by
    rw [hw]
    exact wrote_cons.mpr (.inl rfl)
  have sub : ∀ {u slot}, Wrote (Function.update writes t ws u) slot → Wrote (writes u) slot := by
    intro u slot hs
    by_cases hu : u = t
    · subst hu
      rw [Function.update_self] at hs
      rw [hw]
      exact wrote_cons.mpr (.inr hs)
    · rwa [Function.update_of_ne hu] at hs
  have others : ∀ {u slot}, u ≠ t → Wrote (writes u) slot → slot ≠ w.slot := by
    rintro u slot hu hs rfl
    exact h.apart hu hs mine
  refine ⟨fun huv hu hv => h.apart huv (sub hu) (sub hv), ?_, ?_, ?_⟩
  · intro slot none
    have ht := none t
    rw [Function.update_self] at ht
    by_cases hslot : slot = w.slot
    · have hback := h.back mine
      rw [hw, rollback, rollback_of_not_wrote (hslot ▸ ht)] at hback
      rw [hslot]
      exact hback
    · rw [Function.update_of_ne hslot]
      refine h.untouched fun u => ?_
      by_cases hu : u = t
      · rw [hu, hw, wrote_cons, not_or]
        exact ⟨Ne.symm hslot, ht⟩
      · simpa [hu] using none u
  · intro u
    by_cases hu : u = t
    · subst hu
      rw [Function.update_self]
      have hown := h.undoable u
      rw [hw] at hown
      exact hown.2
    · rw [Function.update_of_ne hu]
      refine (h.undoable u).congr fun slot hs => ?_
      exact Function.update_of_ne (others hu hs) _ _
  · intro u slot hs
    have hback := h.back (sub hs)
    by_cases hu : u = t
    · subst hu
      rw [Function.update_self]
      rwa [hw, rollback] at hback
    · rw [Function.update_of_ne hu] at hs ⊢
      rw [@rollback_of_wrote _ _ _ _ _ m _ hs]
      exact hback

/-- `t` commits all its writes. -/
theorem Holds.commit (h : Holds committed writes m) (t : τ) :
    Holds (UndoLog.commit committed (writes t)) (Function.update writes t []) m := by
  have sub : ∀ {u slot}, Wrote (Function.update writes t [] u) slot →
      u ≠ t ∧ Wrote (writes u) slot := by
    intro u slot hs
    by_cases hu : u = t
    · subst hu
      simp at hs
    · exact ⟨hu, by rwa [Function.update_of_ne hu] at hs⟩
  have kept : ∀ {slot}, ¬ Wrote (writes t) slot →
      UndoLog.commit committed (writes t) slot = committed slot := by
    intro slot hs
    rw [UndoLog.commit, lastWrite_eq_none.mpr hs, Option.getD_none]
  refine ⟨fun huv hu hv => h.apart huv (sub hu).2 (sub hv).2, ?_, ?_, ?_⟩
  · intro slot none
    by_cases hs : Wrote (writes t) slot
    · cases hv : lastWrite (writes t) slot with
      | none => exact absurd hs (lastWrite_eq_none.mp hv)
      | some v =>
        rw [h.last hv, UndoLog.commit, hv, Option.getD_some]
    · rw [kept hs]
      refine h.untouched fun u => ?_
      by_cases hu : u = t
      · exact hu ▸ hs
      · simpa [hu] using none u
  · intro u
    by_cases hu : u = t
    · subst hu
      rw [Function.update_self]
      trivial
    · rw [Function.update_of_ne hu]
      exact h.undoable u
  · intro u slot hs
    obtain ⟨hu, hs⟩ := sub hs
    rw [Function.update_of_ne hu, h.back hs, kept (h.apart hu hs)]

end Steps

end UndoLog
