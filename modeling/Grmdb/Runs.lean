import Mathlib

namespace Runs

universe u v

variable {σ : Type u} {α : Type v}

/-- The state after the labels `tr`, when every step of them is enabled. -/
def run (step : σ → α → Option σ) : σ → List α → Option σ
  | s, [] => some s
  | s, a :: tr => (step s a).bind fun s' => run step s' tr

/-- Every step of the run from `s` along `tr` is taken in a state that meets `good`. -/
def MeetsAll (step : σ → α → Option σ) (good : σ → α → Prop) : σ → List α → Prop
  | _, [] => True
  | s, a :: tr => good s a ∧ ∀ s', step s a = some s' → MeetsAll step good s' tr

/-- Some step of the run from `s` along `tr` is taken in a state that meets `p`. -/
def SomeStep (step : σ → α → Option σ) (p : σ → α → Prop) : σ → List α → Prop
  | _, [] => False
  | s, a :: tr => p s a ∨ ∃ s', step s a = some s' ∧ SomeStep step p s' tr

variable {step : σ → α → Option σ} {good p : σ → α → Prop}

@[simp] theorem run_nil (s : σ) : run step s [] = some s := rfl

theorem run_cons_eq_some {s s'' : σ} {a : α} {tr : List α} :
    run step s (a :: tr) = some s'' ↔ ∃ s', step s a = some s' ∧ run step s' tr = some s'' := by
  simp [run, Option.bind_eq_some_iff]

theorem run_append {s : σ} {tr tr' : List α} :
    run step s (tr ++ tr') = (run step s tr).bind fun s' => run step s' tr' := by
  induction tr generalizing s with
  | nil => simp
  | cons a tr ih =>
    simp only [List.cons_append, run]
    cases step s a with
    | none => rfl
    | some s' => simpa using ih

/-- What the start has and every good step keeps, every state of a good run has. -/
theorem run_invariant {I : σ → Prop}
    (keep : ∀ s a s', I s → good s a → step s a = some s' → I s')
    {s s' : σ} {tr : List α} (start : I s) (all : MeetsAll step good s tr)
    (h : run step s tr = some s') : I s' := by
  induction tr generalizing s with
  | nil =>
    cases Option.some.inj h
    exact start
  | cons a tr ih =>
    obtain ⟨mid, hstep, hrest⟩ := run_cons_eq_some.mp h
    exact ih (keep s a mid start all.1 hstep) (all.2 mid hstep) hrest

theorem meetsAll_cons {s s' : σ} {a : α} {tr : List α} (hstep : step s a = some s')
    (hgood : good s a) (hrest : MeetsAll step good s' tr) : MeetsAll step good s (a :: tr) := by
  refine ⟨hgood, fun mid hmid => ?_⟩
  cases Option.some.inj (hstep.symm.trans hmid)
  exact hrest

theorem meetsAll_left {s : σ} {tr tr' : List α} (all : MeetsAll step good s (tr ++ tr')) :
    MeetsAll step good s tr := by
  induction tr generalizing s with
  | nil => trivial
  | cons a tr ih => exact ⟨all.1, fun s' hs' => ih (all.2 s' hs')⟩

theorem meetsAll_suffix {s s' : σ} {tr tr' : List α} (all : MeetsAll step good s (tr ++ tr'))
    (h : run step s tr = some s') : MeetsAll step good s' tr' := by
  induction tr generalizing s with
  | nil =>
    cases Option.some.inj h
    exact all
  | cons a tr ih =>
    obtain ⟨mid, hstep, hrest⟩ := run_cons_eq_some.mp h
    exact ih (all.2 mid hstep) hrest

theorem meetsAll_concat {s : σ} {tr : List α} {a : α} :
    MeetsAll step good s (tr ++ [a]) ↔
      MeetsAll step good s tr ∧ ∀ mid, run step s tr = some mid → good mid a := by
  induction tr generalizing s with
  | nil => simp [MeetsAll]
  | cons b tr ih =>
    simp only [List.cons_append, MeetsAll, ih, run_cons_eq_some]
    constructor
    · rintro ⟨hb, hrest⟩
      refine ⟨⟨hb, fun s' hs' => (hrest s' hs').1⟩, ?_⟩
      rintro mid ⟨s', hs', hrun⟩
      exact (hrest s' hs').2 mid hrun
    · rintro ⟨⟨hb, hrest⟩, hlast⟩
      exact ⟨hb, fun s' hs' => ⟨hrest s' hs', fun mid hrun => hlast mid ⟨s', hs', hrun⟩⟩⟩

theorem meetsAll_forall {ι : Type} {good : ι → σ → α → Prop} {s : σ} {tr : List α} :
    (∀ i, MeetsAll step (good i) s tr) ↔ MeetsAll step (fun s a => ∀ i, good i s a) s tr := by
  induction tr generalizing s with
  | nil => exact ⟨fun _ => trivial, fun _ _ => trivial⟩
  | cons a tr ih =>
    simp only [MeetsAll, forall_and, ← ih]
    exact and_congr_right fun _ => ⟨fun h s' hs' i => h i s' hs', fun h i s' hs' => h s' hs' i⟩

theorem meetsAll_congr {good' : σ → α → Prop} {I : σ → Prop} {s : σ} {tr : List α}
    (keep : ∀ s a s', I s → step s a = some s' → I s') (start : I s)
    (h : ∀ s a, I s → (good s a ↔ good' s a)) :
    MeetsAll step good s tr ↔ MeetsAll step good' s tr := by
  induction tr generalizing s with
  | nil => exact Iff.rfl
  | cons a tr ih =>
    exact and_congr (h s a start) (forall_congr' fun s' => forall_congr' fun hs' =>
      ih (keep s a s' start hs'))

/-- When good steps keep an invariant that gives `p`, and every other step breaks `p` at once, a
run passes through `p`-states only exactly if all its steps are good. -/
theorem forall_prefix_iff_meetsAll {I p : σ → Prop} (hp : ∀ s, I s → p s)
    (keep : ∀ s a s', I s → good s a → step s a = some s' → I s')
    (bad : ∀ s a s', I s → ¬ good s a → step s a = some s' → ¬ p s')
    {s s' : σ} {tr : List α} (start : I s) (h : run step s tr = some s') :
    (∀ tr₁ tr₂ s₁, tr = tr₁ ++ tr₂ → run step s tr₁ = some s₁ → p s₁) ↔
      MeetsAll step good s tr := by
  constructor
  · intro hall
    induction tr generalizing s with
    | nil => trivial
    | cons a tr ih =>
      obtain ⟨mid, hstep, hrest⟩ := run_cons_eq_some.mp h
      have hpmid : p mid := hall [a] tr mid rfl (by simp [run, hstep])
      have hgood : good s a := by
        by_contra hbad
        exact bad s a mid start hbad hstep hpmid
      refine meetsAll_cons hstep hgood (ih (keep s a mid start hgood hstep) hrest ?_)
      intro tr₁ tr₂ s₁ htr hrun
      exact hall (a :: tr₁) tr₂ s₁ (by rw [htr]; rfl) (run_cons_eq_some.mpr ⟨mid, hstep, hrun⟩)
  · rintro hall tr₁ tr₂ s₁ rfl hrun
    exact hp s₁ (run_invariant keep start (meetsAll_left hall) hrun)

theorem meetsAll_and {good' : σ → α → Prop} {s : σ} {tr : List α}
    (h : MeetsAll step good s tr) (h' : MeetsAll step good' s tr) :
    MeetsAll step (fun s a => good s a ∧ good' s a) s tr := by
  induction tr generalizing s with
  | nil => trivial
  | cons a tr ih => exact ⟨⟨h.1, h'.1⟩, fun s' hs => ih (h.2 s' hs) (h'.2 s' hs)⟩

theorem meetsAll_imp {good' : σ → α → Prop} {s : σ} {tr : List α}
    (h : ∀ s a, good s a → good' s a) (all : MeetsAll step good s tr) :
    MeetsAll step good' s tr := by
  induction tr generalizing s with
  | nil => trivial
  | cons a tr ih => exact ⟨h s a all.1, fun s' hs' => ih (all.2 s' hs')⟩

theorem meetsAll_of_mem {s : σ} {tr : List α} (h : ∀ a ∈ tr, ∀ s, good s a) :
    MeetsAll step good s tr := by
  induction tr generalizing s with
  | nil => trivial
  | cons a tr ih =>
    exact ⟨h a List.mem_cons_self s, fun s' _ => ih fun b hb => h b (List.mem_cons_of_mem a hb)⟩

/-- The rule for a step that is good in every state. -/
theorem run_invariant_all {I : σ → Prop}
    (keep : ∀ s a s', I s → step s a = some s' → I s')
    {s s' : σ} {tr : List α} (start : I s) (h : run step s tr = some s') : I s' := by
  have all : MeetsAll step (fun _ _ => True) s tr := meetsAll_of_mem fun _ _ _ => trivial
  exact run_invariant (fun s a s' hs _ => keep s a s' hs) start all h

instance decidableMeetsAll [∀ s a, Decidable (good s a)] (s : σ) (tr : List α) :
    Decidable (MeetsAll step good s tr) :=
  match tr with
  | [] => isTrue trivial
  | a :: tr =>
    match hs : step s a with
    | none => decidable_of_iff (good s a) ⟨fun h => ⟨h, by simp [hs]⟩, And.left⟩
    | some s' =>
      have := decidableMeetsAll s' tr
      decidable_of_iff (good s a ∧ MeetsAll step good s' tr) (by simp [MeetsAll, hs])

end Runs
