import Grmdb.ShiftReduceComplete

namespace LR

namespace Parser

variable {T N τ V E : Type} {p : Parser T N τ V E} {symbols symbols' : List (Symbol T N)}
  {tokens tokens' : List τ} {slots values values' : List V}

theorem result_cons {r : Nat} {rule : ContextFreeRule T N} (hrule : p.rules r = some rule) (v : V)
    (slots : List V) :
    p.result r (v :: slots) = p.make r ((v :: slots).take rule.output.length) v := by
  simp only [result, hrule]

theorem result_error {r : Nat} {e : E} (h : p.result r slots = .error e) :
    e = p.overflow ∨ ∃ r vs v, p.make r vs v = .error e := by
  rw [result.eq_def] at h
  split at h
  next => exact Or.inr ⟨_, _, _, h⟩
  next => exact Or.inl (Except.error.inj h).symm

/-- An error comes from the slots or from the making of a value. -/
theorem eval_error {forest : Forest τ} {e : E} (h : p.eval forest slots = .error e) :
    e = p.overflow ∨ ∃ r vs v, p.make r vs v = .error e := by
  have habove : ∀ {slots : List V}, p.above slots = .error e → e = p.overflow := by
    intro slots habove
    rw [above.eq_def] at habove
    split at habove
    · cases habove
    · exact (Except.error.inj habove).symm
  induction forest generalizing slots with
  | nil => cases h
  | leaf token rest ih =>
    rcases bind_eq_error.mp h with hslots | ⟨more, -, h⟩
    · exact Or.inl (habove hslots)
    · rcases bind_eq_error.mp h with hrest | ⟨values, -, h⟩
      · exact ih hrest
      · cases h
  | node r children rest ihchildren ihrest =>
    rcases bind_eq_error.mp h with hchildren | ⟨done, -, h⟩
    · exact ihchildren hchildren
    · rcases bind_eq_error.mp h with hresult | ⟨v, -, h⟩
      · exact result_error hresult
      · rcases bind_eq_error.mp h with hslots | ⟨more, -, h⟩
        · exact Or.inl (habove hslots)
        · rcases bind_eq_error.mp h with hrest | ⟨values, -, h⟩
          · exact ihrest hrest
          · cases h

theorem eval_append {first : Forest τ} (last : Forest τ)
    (h : first.Derives p.rules p.kind symbols) (heval : p.eval first slots = .ok values) :
    p.eval (first.append last) slots = (p.eval last (values.drop symbols.length)).map
      (values.take symbols.length ++ ·) := by
  induction h generalizing slots values with
  | nil =>
    cases heval
    rw [Forest.append, List.length_nil, List.drop_zero, List.take_zero]
    cases p.eval last slots with
    | error e => rfl
    | ok done => rfl
  | @leaf token forest symbols _ ih =>
    obtain ⟨more, habove, hmore⟩ := bind_eq_ok.mp heval
    obtain ⟨values, hvalues, heq⟩ := bind_eq_ok.mp hmore
    cases heq
    rw [Forest.append, eval, habove, List.length_cons, List.drop_succ_cons, List.take_succ_cons]
    change (p.eval _ more >>= fun values => _) = _
    rw [ih hvalues]
    cases p.eval last (values.drop symbols.length) with
    | error e => rfl
    | ok done => rfl
  | @node r rule children forest symbols _ _ _ _ ih =>
    obtain ⟨done, hdone, hmake⟩ := bind_eq_ok.mp heval
    obtain ⟨v, hresult, hafter⟩ := bind_eq_ok.mp hmake
    obtain ⟨more, habove, hmore⟩ := bind_eq_ok.mp hafter
    obtain ⟨values, hvalues, heq⟩ := bind_eq_ok.mp hmore
    cases heq
    rw [Forest.append, eval, hdone, List.length_cons, List.drop_succ_cons, List.take_succ_cons]
    change (p.result r done >>= fun v => _) = _
    rw [hresult]
    change (p.above done >>= fun more => _) = _
    rw [habove]
    change (p.eval _ more >>= fun values => _) = _
    rw [ih hvalues]
    cases p.eval last (values.drop symbols.length) with
    | error e => rfl
    | ok done => rfl

variable (p) in
/-- Trees of the symbols over the tokens turn the slots into `values`. -/
def Reads (symbols : List (Symbol T N)) (tokens : List τ) (slots values : List V) : Prop :=
  ∃ forest : Forest τ, forest.Derives p.rules p.kind symbols ∧ forest.word = tokens ∧
    p.eval forest slots = .ok values

theorem Reads.nil (slots : List V) : p.Reads [] [] slots slots := ⟨.nil, .nil, rfl, rfl⟩

theorem Reads.leaf (token : τ) (v next : V) (slots : List V) :
    p.Reads [.terminal (p.kind token)] [token] (v :: next :: slots)
      (p.value token :: next :: slots) := ⟨.leaf token .nil, .leaf .nil, rfl, rfl⟩

theorem Reads.append (h : p.Reads symbols tokens slots values)
    (h' : p.Reads symbols' tokens' (values.drop symbols.length) values') :
    p.Reads (symbols ++ symbols') (tokens ++ tokens') slots
      (values.take symbols.length ++ values') := by
  obtain ⟨first, hfirst, rfl, heval⟩ := h
  obtain ⟨last, hlast, rfl, heval'⟩ := h'
  refine ⟨first.append last, hfirst.append hlast, first.word_append last, ?_⟩
  rw [eval_append last hfirst heval, heval']
  rfl

theorem Reads.node {r : Nat} {rule : ContextFreeRule T N} {v : V} {more : List V}
    (hrule : p.rules r = some rule) (h : p.Reads rule.output tokens slots values)
    (hresult : p.result r values = .ok v) (habove : p.above values = .ok more) :
    p.Reads [.nonterminal rule.input] tokens slots (v :: more) := by
  obtain ⟨children, hchildren, rfl, heval⟩ := h
  refine ⟨.node r children .nil, .node hrule hchildren .nil, List.append_nil _, ?_⟩
  rw [eval, heval]
  change (p.result r values >>= fun v => _) = _
  rw [hresult]
  change (p.above values >>= fun more => _) = _
  rw [habove]
  rfl

variable [DecidableEq N] {code : T → Nat} {firsts : Firsts N}
  {items : Nat → List Item}

theorem Reads.ends (hc : p.toTables.Complete code firsts items) {r : Nat}
    {rule : ContextFreeRule T N} (hrule : p.rules r = some rule) (hinitial : rule.input = p.initial)
    (h : p.Reads rule.output tokens slots values) (rest : Stream' τ) :
    p.Ends ⟨[], slots, tokens ++ₛ rest⟩ (p.result r values) := by
  obtain ⟨children, hchildren, rfl, heval⟩ := h
  have hends : p.Ends ⟨[], slots, children.word ++ₛ rest⟩ (p.eval children slots >>= p.result r) :=
    ends_of_complete hc hrule hinitial hchildren rfl
  rw [heval] at hends
  exact hends

end Parser

end LR
