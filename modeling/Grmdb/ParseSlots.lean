import Mathlib.Data.List.Forall2
import Grmdb.ShiftReduceValues
import Grmdb.SqlTokens

namespace Grmdb

open LR

namespace Ast

/-- What an optional clause of a SELECT gets from the slot behind the stack if it is left out. -/
def Blank : Nat → SemValue → Prop
  | 0, v => v.svConds = []
  | 1, v => v.svGroupby = []
  | 2, v => v.svHavings = []
  | 3, v => v.svOrderby = none
  | _, _ => True

def Blanks (slots : List SemValue) : Prop := ∀ v ∈ slots, ∀ k, Blank k v

/-- A value that is put over another one keeps the blank clauses from `r` on. -/
def Keeps (r : Nat) (s v : SemValue) : Prop := ∀ k, r ≤ k → Blank k s → Blank k v

theorem Keeps.refl (r : Nat) (s : SemValue) : Keeps r s s := fun _ _ h => h

theorem Keeps.trans {r : Nat} {s v w : SemValue} (h : Keeps r s v) (h' : Keeps r v w) :
    Keeps r s w := fun k hk hblank => h' k hk (h k hk hblank)

theorem Keeps.of_same {r : Nat} {v w : SemValue} (hconds : r = 0 → w.svConds = v.svConds)
    (hgroupby : r ≤ 1 → w.svGroupby = v.svGroupby) (hhavings : r ≤ 2 → w.svHavings = v.svHavings)
    (horderby : w.svOrderby = v.svOrderby) : Keeps r v w := by
  intro k hk hblank
  match k with
  | 0 => exact (hconds (Nat.le_zero.mp hk)).trans hblank
  | 1 => exact (hgroupby hk).trans hblank
  | 2 => exact (hhavings hk).trans hblank
  | 3 => exact horderby.trans hblank
  | _ + 4 => trivial

/-- A value of which the action sets another field. -/
theorem Keeps.of_eq {r : Nat} {v w : SemValue} (h : w.svConds = v.svConds ∧
    w.svGroupby = v.svGroupby ∧ w.svHavings = v.svHavings ∧ w.svOrderby = v.svOrderby) :
    Keeps r v w := .of_same (fun _ => h.1) (fun _ => h.2.1) (fun _ => h.2.2.1) h.2.2.2

theorem Keeps.mono {r r' : Nat} {s v : SemValue} (hle : r ≤ r') (h : Keeps r s v) :
    Keeps r' s v := fun k hk => h k (hle.trans hk)

/-- Reading trees turned `slots` into `values`. A subquery spoils the slots behind its tables. -/
structure Leaves (nested : Bool) (r : Nat) (slots values : List SemValue) : Prop where
  length : values.length = slots.length
  keeps : ∀ n, (nested = true → n ≤ 4) → List.Forall₂ (Keeps r) (slots.take n) (values.take n)

variable {nested nested' : Bool} {r r' : Nat} {slots values values' : List SemValue}
  {s v : SemValue}

theorem Leaves.refl (nested : Bool) (r : Nat) (slots : List SemValue) :
    Leaves nested r slots slots :=
  ⟨rfl, fun _ _ => List.forall₂_same.mpr fun s _ => Keeps.refl r s⟩

theorem forall₂_trans {α : Type} {R : α → α → Prop} (htrans : ∀ a b c, R a b → R b c → R a c)
    {as bs cs : List α} (h : List.Forall₂ R as bs) (h' : List.Forall₂ R bs cs) :
    List.Forall₂ R as cs := by
  induction h generalizing cs with
  | nil => exact h'
  | cons hab _ ih =>
    obtain ⟨c, cs, hbc, hrest, rfl⟩ := List.forall₂_cons_left_iff.mp h'
    exact .cons (htrans _ _ _ hab hbc) (ih hrest)

theorem Leaves.trans (h : Leaves nested r slots values) (h' : Leaves nested' r values values') :
    Leaves (nested || nested') r slots values' := by
  refine ⟨h'.length.trans h.length, fun n hn => ?_⟩
  have hfirst := h.keeps n fun hnested => hn (by rw [hnested, Bool.true_or])
  have hlast := h'.keeps n fun hnested => hn (by rw [hnested, Bool.or_true])
  exact forall₂_trans (fun _ _ _ h h' => h.trans h') hfirst hlast

theorem Leaves.cons (hkeeps : Keeps r s v) (h : Leaves nested r slots values) :
    Leaves nested r (s :: slots) (v :: values) := by
  refine ⟨congrArg (· + 1) h.length, fun n hn => ?_⟩
  cases n with
  | zero => exact .nil
  | succ n => exact .cons hkeeps (h.keeps n fun hnested => by have := hn hnested; omega)

theorem Leaves.mono (hle : r ≤ r') (h : Leaves nested r slots values) :
    Leaves nested r' slots values :=
  ⟨h.length, fun n hn => (h.keeps n hn).imp fun _ _ => Keeps.mono hle⟩

theorem forall₂_blanks (h : List.Forall₂ (Keeps 0) slots values) (hslots : Blanks slots) :
    Blanks values := by
  intro v hv
  induction h with
  | nil => cases hv
  | @cons s w slots values hkeeps _ ih =>
    rcases List.mem_cons.mp hv with rfl | hin
    · exact fun k => hkeeps k (Nat.zero_le k) (hslots s List.mem_cons_self k)
    · exact ih (fun u hu => hslots u (List.mem_cons_of_mem s hu)) hin

theorem Leaves.blanks (h : Leaves false 0 slots values) (hslots : Blanks slots) :
    Blanks values := by
  have hall := h.keeps slots.length fun hfalse => Bool.noConfusion hfalse
  rw [List.take_length, ← h.length, List.take_length] at hall
  exact forall₂_blanks hall hslots

/-- The tokens of a symbol are read with a value that meets `P`, in `need` slots. -/
def Parses (nested : Bool) (r : Nat) (symbol : Symbol Terminal Nonterminal) (tokens : List YyToken)
    (need : Nat) (P : SemValue → Prop) : Prop :=
  ∀ s slots, need ≤ slots.length → (nested = true → Blanks (s :: slots)) →
    ∃ v values, yyparser.Reads [symbol] tokens (s :: slots) (v :: values) ∧ P v ∧ Keeps r s v ∧
      Leaves nested 0 (s :: slots) (s :: values)

/-- The tokens of some symbols one after the other. -/
def ParsesAll (nested : Bool) (r : Nat) (symbols : List (Symbol Terminal Nonterminal))
    (tokens : List YyToken) (need : Nat) (Q : List SemValue → Prop) : Prop :=
  ∀ slots, need < slots.length → (nested = true → Blanks slots) →
    ∃ vs values, yyparser.Reads symbols tokens slots (vs ++ values) ∧
      vs.length = symbols.length ∧ Q vs ∧ Leaves nested r slots (vs ++ values)

variable {symbol : Symbol Terminal Nonterminal} {symbols : List (Symbol Terminal Nonterminal)}
  {tokens tokens' : List YyToken} {need need' : Nat} {P : SemValue → Prop}
  {Q : List SemValue → Prop}

theorem Blank.of_empty (h : v.svConds = [] ∧ v.svGroupby = [] ∧ v.svHavings = [] ∧
    v.svOrderby = none) (k : Nat) : Blank k v := by
  match k with
  | 0 => exact h.1
  | 1 => exact h.2.1
  | 2 => exact h.2.2.1
  | 3 => exact h.2.2.2
  | _ + 4 => trivial

theorem blank_tok (t : Terminal) (k : Nat) : Blank k (tok t).2 :=
  .of_empty ⟨rfl, rfl, rfl, rfl⟩ k

theorem Parses.cast (h : Parses nested r symbol tokens need P) (htokens : tokens = tokens')
    (hnested : nested = nested') (hneed : need ≤ need') :
    Parses nested' r symbol tokens' need' P := by
  subst htokens hnested
  exact fun s slots hslots => h s slots (hneed.trans hslots)

theorem Parses.lift (h : Parses nested r symbol tokens need P) (r' : Nat) (hle : r ≤ r') :
    Parses nested r' symbol tokens need P := by
  intro s slots hneed hblanks
  obtain ⟨v, values, hreads, hv, hkeeps, hleaves⟩ := h s slots hneed hblanks
  exact ⟨v, values, hreads, hv, hkeeps.mono hle, hleaves⟩

theorem Parses.token (token : YyToken) (hblank : ∀ k, Blank k token.2) :
    Parses false 0 (.terminal token.1) [token] 1 (· = token.2) := by
  intro s slots hneed _
  obtain ⟨next, slots, rfl⟩ := List.exists_cons_of_length_pos hneed
  exact ⟨token.2, next :: slots, .leaf token s next slots, rfl, fun k _ _ => hblank k,
    .refl _ _ _⟩

theorem ParsesAll.nil : ParsesAll false r [] [] 0 (· = []) := by
  intro slots _ _
  exact ⟨[], slots, .nil slots, rfl, rfl, .refl _ _ _⟩

/-- What comes after a symbol starts with blank slots if it needs them. -/
theorem blanks_after {values : List SemValue} (hone : nested = false ∨ nested' = false)
    (hblanks : (nested || nested') = true → Blanks (s :: slots))
    (hleaves : Leaves nested 0 (s :: slots) (s :: values)) : nested' = true → Blanks values := by
  intro hnested'
  rcases hone with rfl | hfalse
  · have hall := hleaves.blanks (hblanks (by rw [hnested', Bool.or_true]))
    exact fun w hw => hall w (List.mem_cons_of_mem s hw)
  · rw [hfalse] at hnested'
    cases hnested'

theorem ParsesAll.cons (h : Parses nested r symbol tokens need P)
    (h' : ParsesAll nested' r symbols tokens' need' Q) (hone : nested = false ∨ nested' = false) :
    ParsesAll (nested || nested') r (symbol :: symbols) (tokens ++ tokens') (max need (need' + 1))
      (fun vs => ∃ v ws, vs = v :: ws ∧ P v ∧ Q ws) := by
  intro slots hneed hblanks
  cases slots with
  | nil => cases hneed
  | cons s slots =>
    rw [List.length_cons] at hneed
    obtain ⟨v, values, hreads, hv, hkeeps, hleaves⟩ := h s slots (by omega) fun hnested =>
      hblanks (by rw [hnested, Bool.true_or])
    have hlength : values.length = slots.length := by
      have hsame := hleaves.length
      rw [List.length_cons, List.length_cons] at hsame
      omega
    obtain ⟨ws, rest, hreads', hcount, hws, hleaves'⟩ :=
      h' values (by omega) (blanks_after hone hblanks hleaves)
    refine ⟨v :: ws, rest, hreads.append hreads', congrArg (· + 1) hcount,
      ⟨v, ws, rfl, hv, hws⟩, ?_⟩
    exact (hleaves.mono (Nat.zero_le r)).trans (.cons hkeeps hleaves')

theorem ParsesAll.token_cons (token : YyToken) (hblank : ∀ k, Blank k token.2)
    (h : ParsesAll nested r symbols tokens need Q) :
    ParsesAll nested r (.terminal token.1 :: symbols) (token :: tokens) (need + 1)
      (fun vs => ∃ ws, vs = token.2 :: ws ∧ Q ws) := by
  have htoken := (Parses.token token hblank).lift r (Nat.zero_le r)
  intro slots hneed hblanks
  obtain ⟨vs, values, hreads, hlength, ⟨v, ws, rfl, rfl, hws⟩, hleaves⟩ :=
    ParsesAll.cons htoken h (Or.inl rfl) slots (by omega) hblanks
  exact ⟨_, values, hreads, hlength, ⟨ws, rfl, hws⟩, hleaves⟩

/-- A symbol alone. -/
theorem Parses.all (h : Parses nested r symbol tokens need P) (hneed : 0 < need) :
    ParsesAll nested r [symbol] tokens need (fun vs => ∃ v, vs = [v] ∧ P v) := by
  intro slots hslots hblanks
  obtain ⟨vs, values, hreads, hlength, ⟨v, ws, rfl, hv, rfl⟩, hleaves⟩ :=
    ParsesAll.cons h .nil (Or.inr rfl) slots (by omega) (by rwa [Bool.or_false])
  rw [List.append_nil] at hreads
  rw [Bool.or_false] at hleaves
  exact ⟨[v], values, hreads, hlength, ⟨v, rfl, hv⟩, hleaves⟩

/-- A node with a right side that is not empty. -/
theorem Parses.node (yyn : Nat) {A : Nonterminal} {r' : Nat} {R : SemValue → Prop}
    (hrule : yyrule yyn = some ⟨A, symbol :: symbols⟩) (h : Parses nested r symbol tokens need P)
    (h' : ParsesAll nested' 0 symbols tokens' need' Q) (hone : nested = false ∨ nested' = false)
    (hle : r ≤ r') (hmake : ∀ v vs, P v → Q vs →
      ∃ w, yyaction yyn (v :: vs) v = .ok w ∧ R w ∧ Keeps r' v w) :
    Parses (nested || nested') r' (.nonterminal A) (tokens ++ tokens') (max need (need' + 1))
      R := by
  intro s slots hneed hblanks
  obtain ⟨v, values, hreads, hv, hkeeps, hleaves⟩ := h s slots (by omega) fun hnested =>
    hblanks (by rw [hnested, Bool.true_or])
  have hlength : values.length = slots.length := by
    have hsame := hleaves.length
    rw [List.length_cons, List.length_cons] at hsame
    omega
  obtain ⟨ws, rest, hreads', hcount, hws, hleaves'⟩ :=
    h' values (by omega) (blanks_after hone hblanks hleaves)
  obtain ⟨w, hw, hR, hkeeps'⟩ := hmake v ws hv hws
  obtain ⟨next, more, hmore⟩ := List.exists_cons_of_length_pos
    (l := ws ++ rest) (by rw [hleaves'.length]; omega)
  have hdone : yyparser.Reads (symbol :: symbols) (tokens ++ tokens') (s :: slots)
      (v :: (ws ++ rest)) := hreads.append hreads'
  have hrule' : yyparser.rules yyn = some ⟨A, symbol :: symbols⟩ := hrule
  refine ⟨w, ws ++ rest, .node hrule' hdone ?_ ?_, hR, (hkeeps.mono hle).trans hkeeps',
    hleaves.trans (.cons (.refl 0 s) hleaves')⟩
  · rw [Parser.result_cons hrule']
    change yyaction yyn ((v :: (ws ++ rest)).take (symbols.length + 1)) v = .ok w
    rw [List.take_succ_cons, ← hcount, List.take_left, hw]
  · rw [hmore]
    rfl

/-- A node over one token. -/
theorem Parses.of_token (yyn : Nat) {A : Nonterminal} (token : YyToken) {R : SemValue → Prop}
    (hrule : yyrule yyn = some ⟨A, [.terminal token.1]⟩) (hblank : ∀ k, Blank k token.2)
    (hmake : ∃ w, yyaction yyn [token.2] token.2 = .ok w ∧ R w ∧ Keeps 0 token.2 w) :
    Parses false 0 (.nonterminal A) [token] 1 R := by
  refine (Parses.node yyn hrule (.token token hblank) .nil (Or.inl rfl) le_rfl ?_).cast rfl rfl
    le_rfl
  intro v vs hv hvs
  subst hv hvs
  exact hmake

/-- A node over one nonterminal. -/
theorem Parses.of_one (yyn : Nat) {A B : Nonterminal} {r' : Nat} {R : SemValue → Prop}
    (hrule : yyrule yyn = some ⟨A, [.nonterminal B]⟩)
    (h : Parses nested r (.nonterminal B) tokens need P) (hneed : 0 < need) (hle : r ≤ r')
    (hmake : ∀ v, P v → ∃ w, yyaction yyn [v] v = .ok w ∧ R w ∧ Keeps r' v w) :
    Parses nested r' (.nonterminal A) tokens need R := by
  refine (Parses.node yyn hrule h .nil (Or.inr rfl) hle ?_).cast (List.append_nil _)
    (Bool.or_false _) (by omega)
  intro v vs hv hvs
  subst hvs
  exact hmake v hv

/-- The two rules of a list and what their actions do. -/
structure ListRules {α : Type} (one more : Nat) (A B : Nonterminal) (sep : Terminal) (r : Nat)
    (get : SemValue → α) (gets : SemValue → List α) : Prop where
  oneRule : yyrule one = some ⟨A, [.nonterminal B]⟩
  moreRule : yyrule more = some ⟨A, [.nonterminal A, .terminal sep, .nonterminal B]⟩
  first : ∀ v, ∃ w, yyaction one [v] v = .ok w ∧ gets w = [get v] ∧ Keeps r v w
  next : ∀ v s e, ∃ w, yyaction more [v, s, e] v = .ok w ∧ gets w = gets v ++ [get e] ∧ Keeps r v w

section Lists

variable {α : Type} {one more : Nat} {A B : Nonterminal} {sep : Terminal} {get : SemValue → α}
  {gets : SemValue → List α} {elem : α → List YyToken} {as : List α}

/-- A list of elements of which at most one is nested. -/
theorem ListRules.parses {isNested : α → Bool} (h : ListRules one more A B sep r get gets)
    (hneed : 0 < need) (hnil : as ≠ [])
    (helem : ∀ a ∈ as, Parses (isNested a) 0 (.nonterminal B) (elem a) need (get · = a))
    (honce : as.countP isNested ≤ 1) :
    Parses (as.any isNested) r (.nonterminal A) (sepBy sep elem as) (need + 2) (gets · = as) := by
  induction as using List.reverseRecOn with
  | nil => exact absurd rfl hnil
  | append_singleton as b ih =>
    have hlast := helem b (List.mem_append_right as List.mem_cons_self)
    cases as with
    | nil =>
      refine (Parses.of_one one h.oneRule hlast hneed (Nat.zero_le r) ?_).cast ?_ ?_ (by omega)
      · intro v hv
        obtain ⟨w, hw, hgets, hkeeps⟩ := h.first v
        exact ⟨w, hw, by rw [hgets, hv, List.nil_append], hkeeps⟩
      · exact (List.append_nil _).symm
      · exact (Bool.or_false _).symm
    | cons a as =>
      rw [List.countP_append, List.countP_singleton] at honce
      have hfront := ih (by simp) (fun c hc => helem c (List.mem_append_left [b] hc)) (by omega)
      have hdisjoint : (a :: as).any isNested = false ∨ isNested b = false := by
        cases hb : isNested b with
        | false => exact Or.inr rfl
        | true =>
          rw [hb, if_pos rfl] at honce
          have hnone : (a :: as).countP isNested = 0 := by omega
          rw [List.countP_eq_zero] at hnone
          exact Or.inl (by simpa using hnone)
      refine (Parses.node more h.moreRule hfront
        (.token_cons (tok sep) (blank_tok sep) (hlast.all hneed)) hdisjoint le_rfl ?_).cast ?_ ?_
        (by omega)
      · intro v vs hv hvs
        obtain ⟨_, rfl, e, rfl, he⟩ := hvs
        obtain ⟨w, hw, hgets, hkeeps⟩ := h.next v (tok sep).2 e
        exact ⟨w, hw, by rw [hgets, hv, he], hkeeps⟩
      · simp [sepBy]
      · simp [Bool.or_assoc]

/-- A list without subqueries. -/
theorem ListRules.parsesPlain (h : ListRules one more A B sep r get gets) (hneed : 0 < need)
    (hnil : as ≠ [])
    (helem : ∀ a ∈ as, Parses false 0 (.nonterminal B) (elem a) need (get · = a)) :
    Parses false r (.nonterminal A) (sepBy sep elem as) (need + 2) (gets · = as) := by
  have hlist : Parses (as.any fun _ => false) r (.nonterminal A) (sepBy sep elem as) (need + 2)
      (gets · = as) := h.parses hneed hnil helem (by simp)
  exact hlist.cast rfl (by simp) le_rfl

end Lists

end Ast

end Grmdb
