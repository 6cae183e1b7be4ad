import Mathlib

namespace TokenStream

/-- What `isspace` accepts in the C locale. -/
def isSpace (c : Char) : Bool := c.toNat = 32 || 9 ≤ c.toNat && c.toNat ≤ 13

def IsWord (w : List Char) : Prop := w ≠ [] ∧ ∀ c ∈ w, isSpace c = false

/-- The words of a text, whatever white space there is between them. -/
def words (s : List Char) : List (List Char) := (s.splitOnP isSpace).filter fun w => w ≠ []

/-- An extraction from a stream; `none` stands for a stream that has failed. -/
abbrev Reader : Type → Type := StateT (List Char) Option

/-- `>>` of a string. -/
def getWord : Reader (List Char) := fun s =>
  let s := s.dropWhile isSpace
  let w := s.takeWhile fun c => !isSpace c
  if w = [] then none else some (w, s.dropWhile fun c => !isSpace c)

/-- A decimal number behind white space, with its sign. -/
def getNumeral : Reader (Bool × Nat) := fun s =>
  let s := s.dropWhile isSpace
  let neg := s.head? = some '-'
  let s := if s.head? = some '-' ∨ s.head? = some '+' then s.tail else s
  let digits := s.takeWhile Char.isDigit
  if digits = [] then none
  else some ((neg, Nat.ofDigitChars 10 digits 0), s.dropWhile Char.isDigit)

/-- `>>` of a signed number of `bits` bits. -/
def getInt (bits : Nat) : Reader Int := do
  let (neg, n) ← getNumeral
  let i : Int := if neg then -n else n
  if -2 ^ (bits - 1) ≤ i ∧ i < 2 ^ (bits - 1) then pure i else failure

/-- `>>` of an unsigned number of `bits` bits. A sign turns the number round. -/
def getNat (bits : Nat) : Reader Nat := do
  let (neg, n) ← getNumeral
  if n < 2 ^ bits then pure (if neg then (2 ^ bits - n) % 2 ^ bits else n) else failure

/-- `>>` of a `bool`. -/
def getBool : Reader Bool := do
  let i ← getInt 64
  if i = 0 then pure false else if i = 1 then pure true else failure

/-- `n` extractions, one after the other. -/
def getMany {α : Type} (get : Reader α) : Nat → Reader (List α)
  | 0 => pure []
  | n + 1 => do
    let a ← get
    let as ← getMany get n
    pure (a :: as)

def putNat (n : Nat) : List Char := Nat.toDigits 10 n

def putInt : Int → List Char
  | .ofNat n => putNat n
  | .negSucc n => '-' :: putNat (n + 1)

def putBool (b : Bool) : List Char := putNat b.toNat

section Words

variable {s t w : List Char} {c : Char}

@[simp] theorem words_nil : words [] = [] := rfl

theorem words_append_space (a b : List Char) (hc : isSpace c = true) :
    words (a ++ c :: b) = words a ++ words b := by
  rw [words, List.splitOnP_append_cons _ _ hc, List.filter_append]
  rfl

theorem words_space (hc : isSpace c = true) : words (c :: s) = words s :=
  words_append_space [] s hc

theorem words_word (hw : IsWord w) : words w = [w] := by
  rw [words, List.splitOnP_eq_singleton hw.2, List.filter_cons_of_pos (by simpa using hw.1)]
  rfl

/-- A word that ends at white space or with the text. -/
theorem words_word_append (hw : IsWord w) (ht : ∀ c ∈ t.head?, isSpace c = true) :
    words (w ++ t) = w :: words t := by
  cases t with
  | nil => rw [List.append_nil, words_word hw, words_nil]
  | cons c t =>
    have hc : isSpace c = true := ht c rfl
    rw [words_append_space w t hc, words_space hc, words_word hw, List.singleton_append]

theorem words_word_space (hw : IsWord w) (hc : isSpace c = true) :
    words (w ++ c :: s) = w :: words s := by
  rw [words_append_space w s hc, words_word hw, List.singleton_append]

/-- What a text with a first word looks like. -/
theorem words_eq_cons {rest : List (List Char)} (h : words s = w :: rest) :
    ∃ t, s.dropWhile isSpace = w ++ t ∧ IsWord w ∧ (∀ c ∈ t.head?, isSpace c = true) ∧
      words t = rest := by
  induction s with
  | nil => cases h
  | cons c s ih =>
    by_cases hc : isSpace c = true
    · rw [words_space hc] at h
      rw [List.dropWhile_cons_of_pos hc]
      exact ih h
    · have hdrop := @List.dropWhile_cons_of_neg _ isSpace c s hc
      have hsplit := (List.takeWhile_append_dropWhile (p := fun c => !isSpace c) (l := c :: s)).symm
      have hword : IsWord ((c :: s).takeWhile fun c => !isSpace c) := by
        refine ⟨?_, fun d hd => ?_⟩
        · rw [List.takeWhile_cons_of_pos (by simpa using hc)]
          exact List.cons_ne_nil _ _
        · simpa using List.mem_takeWhile_imp hd
      have hend : ∀ d ∈ ((c :: s).dropWhile fun c => !isSpace c).head?, isSpace d = true := by
        intro d hd
        have hnot := List.head?_dropWhile_not (fun c => !isSpace c) (c :: s)
        rw [Option.mem_def.mp hd] at hnot
        simpa using hnot
      rw [hsplit, words_word_append hword hend, List.cons.injEq] at h
      obtain ⟨rfl, hrest⟩ := h
      exact ⟨_, hdrop.trans hsplit, hword, hend, hrest⟩

/-- Lines, each with a new line behind it. -/
theorem words_lines {α : Type} {put : α → List Char} {wordsOf : α → List (List Char)}
    {as : List α} (h : ∀ a ∈ as, words (put a) = wordsOf a) (hc : isSpace c = true) :
    words (as.flatMap (fun a => put a ++ [c]) ++ s) = as.flatMap wordsOf ++ words s := by
  induction as with
  | nil => rfl
  | cons a as ih =>
    have hrest := ih fun a ha => h a (List.mem_cons_of_mem _ ha)
    rw [List.flatMap_cons, List.append_assoc, List.append_assoc, List.singleton_append,
      words_append_space _ _ hc, hrest, h a List.mem_cons_self, List.flatMap_cons,
      List.append_assoc]

/-- Lines, each with a new line in front of it. -/
theorem words_newLines {α : Type} {put : α → List Char} {wordsOf : α → List (List Char)}
    {as : List α} (h : ∀ a ∈ as, words (put a) = wordsOf a) (hc : isSpace c = true) :
    words (s ++ as.flatMap fun a => c :: put a) = words s ++ as.flatMap wordsOf := by
  induction as generalizing s with
  | nil => simp
  | cons a as ih =>
    have hrest := @ih (s ++ c :: put a) fun a ha => h a (List.mem_cons_of_mem _ ha)
    rw [List.flatMap_cons, ← List.append_assoc, hrest, words_append_space _ _ hc,
      h a List.mem_cons_self, List.flatMap_cons, List.append_assoc]

end Words

/-- From a text that begins with the words `ws`, `get` takes just these and gives `a`. -/
def Takes {α : Type} (get : Reader α) (ws : List (List Char)) (a : α) : Prop :=
  ∀ s rest, words s = ws ++ rest → ∃ s', get s = some (a, s') ∧ words s' = rest

namespace Takes

variable {α β : Type}

theorem pure (a : α) : Takes (Pure.pure a) [] a := fun s _ h => ⟨s, rfl, h⟩

theorem bind {get : Reader α} {next : α → Reader β} {ws ws' : List (List Char)} {a : α} {b : β}
    (h : Takes get ws a) (h' : Takes (next a) ws' b) : Takes (get >>= next) (ws ++ ws') b := by
  intro s rest hs
  obtain ⟨s₁, hget, hs₁⟩ := h s (ws' ++ rest) (by rw [hs, List.append_assoc])
  obtain ⟨s', hnext, hs'⟩ := h' s₁ rest hs₁
  refine ⟨s', ?_, hs'⟩
  change (get s).bind (fun p => next p.1 p.2) = _
  rw [hget]
  exact hnext

/-- The last extraction takes nothing more. -/
theorem map {get : Reader α} {ws : List (List Char)} {a : α} (h : Takes get ws a) (f : α → β) :
    Takes (get >>= fun a => Pure.pure (f a)) ws (f a) := by
  have hbind := @bind α β get (fun a => Pure.pure (f a)) ws [] a (f a) h (pure (f a))
  rwa [List.append_nil] at hbind

theorem many {get : Reader α} {wordsOf : α → List (List Char)} {as : List α}
    (h : ∀ a ∈ as, Takes get (wordsOf a) a) :
    Takes (getMany get as.length) (as.flatMap wordsOf) as := by
  induction as with
  | nil => exact pure []
  | cons a as ih =>
    have hrest := ih fun a ha => h a (List.mem_cons_of_mem _ ha)
    exact (h a List.mem_cons_self).bind (hrest.map fun as => a :: as)

theorem word (w : List Char) : Takes getWord [w] w := by
  intro s rest hs
  obtain ⟨t, hdrop, hw, ht, hrest⟩ := words_eq_cons hs
  have hall : ∀ c ∈ w, (!isSpace c) = true := fun c hc => by rw [hw.2 c hc]; rfl
  have htake : (w ++ t).takeWhile (fun c => !isSpace c) = w := by
    rw [List.takeWhile_append_of_pos hall]
    cases t with
    | nil => simp
    | cons c t => simp [ht c rfl]
  have hskip : (w ++ t).dropWhile (fun c => !isSpace c) = t := by
    rw [List.dropWhile_append_of_pos hall]
    cases t with
    | nil => rfl
    | cons c t => simp [ht c rfl]
  refine ⟨t, ?_, hrest⟩
  simp only [getWord, hdrop, htake, hskip, hw.1, if_false]

theorem not_isDigit_of_isSpace {c : Char} (h : isSpace c = true) : c.isDigit = false := by
  simp only [isSpace, Bool.or_eq_true, decide_eq_true_eq, Bool.and_eq_true] at h
  rw [Bool.eq_false_iff]
  intro hdigit
  rw [Char.isDigit_iff_toNat, show '0'.toNat = 48 from rfl, show '9'.toNat = 57 from rfl] at hdigit
  omega

/-- The digits of a number are read up to the end of the word. -/
theorem digits_spec (n : Nat) {t : List Char} (ht : ∀ c ∈ t.head?, isSpace c = true) :
    (putNat n ++ t).takeWhile Char.isDigit = putNat n ∧
      (putNat n ++ t).dropWhile Char.isDigit = t := by
  have hall : ∀ c ∈ putNat n, c.isDigit = true := fun c hc =>
    Nat.isDigit_of_mem_toDigits (by decide) (by decide) hc
  rw [List.takeWhile_append_of_pos hall, List.dropWhile_append_of_pos hall]
  cases t with
  | nil => simp
  | cons c t => simp [not_isDigit_of_isSpace (ht c rfl)]

/-- A number begins with a digit. -/
theorem head_putNat (n : Nat) : ∃ c, (putNat n).head? = some c ∧ c.isDigit = true := by
  obtain ⟨c, digits, heq⟩ := List.exists_cons_of_ne_nil (@Nat.toDigits_ne_nil n 10)
  refine ⟨c, by rw [putNat, heq]; rfl, ?_⟩
  exact Nat.isDigit_of_mem_toDigits (by decide) (by decide) (heq ▸ List.mem_cons_self)

theorem numeral (n : Nat) : Takes getNumeral [putNat n] (false, n) := by
  intro s rest hs
  obtain ⟨t, hdrop, hw, ht, hrest⟩ := words_eq_cons hs
  obtain ⟨c, hhead, hdigit⟩ := head_putNat n
  have hhead' : (putNat n ++ t).head? = some c := by rw [List.head?_append, hhead]; rfl
  have hminus : c ≠ '-' := by
    rintro rfl
    exact absurd hdigit (by decide)
  have hplus : c ≠ '+' := by
    rintro rfl
    exact absurd hdigit (by decide)
  obtain ⟨htake, hskip⟩ := digits_spec n ht
  refine ⟨t, ?_, hrest⟩
  simp only [getNumeral, hdrop, hhead', Option.some.injEq, hminus, hplus, or_self, if_false, htake,
    hskip, hw.1, decide_false]
  rw [putNat, Nat.ofDigitChars_ten_toDigits]

theorem numeral_neg (n : Nat) : Takes getNumeral ['-' :: putNat n] (true, n) := by
  intro s rest hs
  obtain ⟨t, hdrop, -, ht, hrest⟩ := words_eq_cons hs
  have hne : putNat n ≠ [] := Nat.toDigits_ne_nil
  obtain ⟨htake, hskip⟩ := digits_spec n ht
  refine ⟨t, ?_, hrest⟩
  simp only [getNumeral, hdrop, List.cons_append, List.head?_cons, true_or, if_true, List.tail_cons,
    htake, hskip, hne, if_false, decide_true]
  rw [putNat, Nat.ofDigitChars_ten_toDigits]

theorem int {bits : Nat} {i : Int} (hlo : -2 ^ (bits - 1) ≤ i) (hhi : i < 2 ^ (bits - 1)) :
    Takes (getInt bits) [putInt i] i := by
  intro s rest hs
  cases i with
  | ofNat n =>
    obtain ⟨s', hget, hs'⟩ := numeral n s rest hs
    refine ⟨s', ?_, hs'⟩
    change (getNumeral s).bind _ = _
    rw [hget]
    exact congrFun (if_pos ⟨hlo, hhi⟩) s'
  | negSucc n =>
    obtain ⟨s', hget, hs'⟩ := numeral_neg (n + 1) s rest hs
    refine ⟨s', ?_, hs'⟩
    change (getNumeral s).bind _ = _
    rw [hget]
    exact congrFun (if_pos ⟨hlo, hhi⟩) s'

theorem nat {bits n : Nat} (h : n < 2 ^ bits) : Takes (getNat bits) [putNat n] n := by
  intro s rest hs
  obtain ⟨s', hget, hs'⟩ := numeral n s rest hs
  refine ⟨s', ?_, hs'⟩
  change (getNumeral s).bind _ = _
  rw [hget]
  exact congrFun (if_pos h) s'

theorem bool (b : Bool) : Takes getBool [putBool b] b := by
  have hint : Takes (getInt 64) [putBool b] b.toNat := by
    cases b with
    | true => exact @int 64 1 (by decide) (by decide)
    | false => exact @int 64 0 (by decide) (by decide)
  intro s rest hs
  obtain ⟨s', hget, hs'⟩ := hint s rest hs
  refine ⟨s', ?_, hs'⟩
  change (getInt 64 s).bind _ = _
  rw [hget]
  cases b with
  | true => rfl
  | false => rfl

end Takes

/-- The text of a number is one word. -/
theorem isWord_putNat (n : Nat) : IsWord (putNat n) := by
  refine ⟨Nat.toDigits_ne_nil, fun c hc => ?_⟩
  have hdigit := Nat.isDigit_of_mem_toDigits (by decide) (by decide) hc
  by_contra hspace
  rw [Takes.not_isDigit_of_isSpace (by simpa using hspace)] at hdigit
  cases hdigit

theorem isWord_putInt (i : Int) : IsWord (putInt i) := by
  cases i with
  | ofNat n => exact isWord_putNat n
  | negSucc n =>
    refine ⟨List.cons_ne_nil _ _, fun c hc => ?_⟩
    rcases List.mem_cons.mp hc with rfl | hc
    · decide
    · exact (isWord_putNat (n + 1)).2 c hc

theorem isWord_putBool (b : Bool) : IsWord (putBool b) := isWord_putNat _

end TokenStream
