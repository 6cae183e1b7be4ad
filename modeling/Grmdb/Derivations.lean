import Mathlib.Computability.ContextFreeGrammar

namespace LR

/-- Derivation trees one after the other. A node has the number of its rule and the trees of the
right side. -/
inductive Forest (τ : Type) where
  | nil
  | leaf (token : τ) (rest : Forest τ)
  | node (rule : Nat) (children rest : Forest τ)
  deriving DecidableEq, Repr

variable {T N τ : Type} {rules : Nat → Option (ContextFreeRule T N)} {kind : τ → T}

/-- The tokens of the leaves. -/
def Forest.word : Forest τ → List τ
  | .nil => []
  | .leaf token rest => token :: rest.word
  | .node _ children rest => children.word ++ rest.word

/-- The trees derive the symbols, one tree for each of them. -/
inductive Forest.Derives (rules : Nat → Option (ContextFreeRule T N)) (kind : τ → T) :
    Forest τ → List (Symbol T N) → Prop where
  | nil : Derives rules kind .nil []
  | leaf {token : τ} {rest : Forest τ} {symbols : List (Symbol T N)} :
      Derives rules kind rest symbols →
      Derives rules kind (.leaf token rest) (.terminal (kind token) :: symbols)
  | node {r : Nat} {rule : ContextFreeRule T N} {children rest : Forest τ}
      {symbols : List (Symbol T N)} :
      rules r = some rule → Derives rules kind children rule.output →
      Derives rules kind rest symbols →
      Derives rules kind (.node r children rest) (.nonterminal rule.input :: symbols)

def Forest.append : Forest τ → Forest τ → Forest τ
  | .nil, last => last
  | .leaf token rest, last => .leaf token (rest.append last)
  | .node r children rest, last => .node r children (rest.append last)

theorem Forest.word_append (first last : Forest τ) :
    (first.append last).word = first.word ++ last.word := by
  induction first with
  | nil => rfl
  | leaf token rest ih => rw [append, word, ih, word, List.cons_append]
  | node r children rest _ ih => rw [append, word, ih, word, List.append_assoc]

theorem Forest.Derives.append {first last : Forest τ} {symbols symbols' : List (Symbol T N)}
    (hfirst : first.Derives rules kind symbols) (hlast : last.Derives rules kind symbols') :
    (first.append last).Derives rules kind (symbols ++ symbols') := by
  induction hfirst with
  | nil => exact hlast
  | leaf _ ih => exact .leaf ih
  | node hrule hchildren _ _ ih => exact .node hrule hchildren ih

theorem Forest.Derives.split {forest : Forest τ} {symbols symbols' : List (Symbol T N)}
    (h : forest.Derives rules kind (symbols ++ symbols')) :
    ∃ first last : Forest τ, forest = first.append last ∧ first.Derives rules kind symbols ∧
      last.Derives rules kind symbols' := by
  induction symbols generalizing forest with
  | nil => exact ⟨.nil, forest, rfl, .nil, h⟩
  | cons symbol symbols ih =>
    cases h with
    | @leaf token rest _ hrest =>
      obtain ⟨first, last, rfl, hfirst, hlast⟩ := ih hrest
      exact ⟨.leaf token first, last, rfl, .leaf hfirst, hlast⟩
    | @node r rule children rest _ hrule hchildren hrest =>
      obtain ⟨first, last, rfl, hfirst, hlast⟩ := ih hrest
      exact ⟨.node r children first, last, rfl, .node hrule hchildren hfirst, hlast⟩

section Language

variable {G : ContextFreeGrammar T} {rules : Nat → Option (ContextFreeRule T G.NT)}

/-- Trees are derivations of the grammar. -/
theorem Forest.Derives.derives {forest : Forest τ} {symbols : List (Symbol T G.NT)}
    (hrules : ∀ r rule, rules r = some rule → rule ∈ G.rules)
    (h : forest.Derives rules kind symbols) :
    G.Derives symbols (forest.word.map fun token => .terminal (kind token)) := by
  induction h with
  | nil => exact Relation.ReflTransGen.refl
  | leaf _ ih => exact ih.append_left [_]
  | @node r rule children rest symbols hrule _ _ ihchildren ihrest =>
    rw [word, List.map_append]
    have hstep : G.Produces (.nonterminal rule.input :: symbols) (rule.output ++ symbols) :=
      ⟨rule, hrules r rule hrule, .head symbols⟩
    exact hstep.trans_derives ((ihchildren.append_right symbols).trans (ihrest.append_left _))

theorem Forest.Derives.produced {forest : Forest τ} {before after : List (Symbol T G.NT)}
    (hrules : ∀ rule ∈ G.rules, ∃ r, rules r = some rule) (hstep : G.Produces before after)
    (h : forest.Derives rules kind after) :
    ∃ forest' : Forest τ, forest'.Derives rules kind before ∧ forest'.word = forest.word := by
  obtain ⟨rule, hrule, hrewrites⟩ := hstep
  obtain ⟨p, q, rfl, rfl⟩ := hrewrites.exists_parts
  obtain ⟨r, hr⟩ := hrules rule hrule
  obtain ⟨front, last, rfl, hfront, hlast⟩ := h.split
  obtain ⟨first, children, rfl, hfirst, hchildren⟩ := hfront.split
  refine ⟨(first.append (.node r children .nil)).append last,
    (hfirst.append (.node hr hchildren .nil)).append hlast, ?_⟩
  simp only [word_append, word, List.append_nil]

/-- Derivations of the grammar have trees. -/
theorem exists_forest (hrules : ∀ rule ∈ G.rules, ∃ r, rules r = some rule)
    {symbols : List (Symbol T G.NT)} {tokens : List τ}
    (h : G.Derives symbols (tokens.map fun token => .terminal (kind token))) :
    ∃ forest : Forest τ, forest.Derives rules kind symbols ∧ forest.word = tokens := by
  induction h using Relation.ReflTransGen.head_induction_on with
  | refl =>
    induction tokens with
    | nil => exact ⟨.nil, .nil, rfl⟩
    | cons token tokens ih =>
      obtain ⟨forest, hforest, hword⟩ := ih
      exact ⟨.leaf token forest, .leaf hforest, congrArg (token :: ·) hword⟩
  | head hstep _ ih =>
    obtain ⟨forest, hforest, hword⟩ := ih
    obtain ⟨forest', hforest', hword'⟩ := hforest.produced hrules hstep
    exact ⟨forest', hforest', hword'.trans hword⟩

end Language

end LR
