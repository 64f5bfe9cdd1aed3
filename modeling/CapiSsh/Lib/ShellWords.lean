import Mathlib.Data.List.Basic

/-!
# Words of a shell

`shlex.quote`, and how a shell reads a word without expansions: quotes of both kinds can
stand anywhere in it, and it ends at a blank or at an operator outside of them. What was
quoted is read back.
-/
namespace ShellWords

def apostrophe : Char := Char.ofNat 39

def doubleQuote : Char := Char.ofNat 34

/-- The characters that `shlex.quote` leaves bare. -/
def isSafe (c : Char) : Bool := c.isAlphanum || ['_', '@', '%', '+', '=', ':', ',', '.', '/', '-'].contains c

/-- An apostrophe is put between double quotes, outside of the single ones. -/
def escape : List Char → List Char
  | [] => []
  | c :: s =>
    if c = apostrophe then apostrophe :: doubleQuote :: apostrophe :: doubleQuote :: apostrophe :: escape s
    else c :: escape s

/-- `shlex.quote` -/
def quote (s : List Char) : List Char :=
  if s = [] then [apostrophe, apostrophe]
  else if s.all isSafe then s
  else apostrophe :: (escape s ++ [apostrophe])

inductive Quoting where
  | bare | single | double
  deriving DecidableEq, Repr

/-- Blanks and operators. -/
def endsWord (c : Char) : Bool := [' ', '\t', '\n', ';', '&', '|', '<', '>', '(', ')'].contains c

/-- A word, with what follows. -/
def word : Quoting → List Char → List Char × List Char
  | _, [] => ([], [])
  | .bare, c :: s =>
    if c = apostrophe then word .single s
    else if c = doubleQuote then word .double s
    else if endsWord c then ([], c :: s)
    else (c :: (word .bare s).1, (word .bare s).2)
  | .single, c :: s =>
    if c = apostrophe then word .bare s else (c :: (word .single s).1, (word .single s).2)
  | .double, c :: s =>
    if c = doubleQuote then word .bare s else (c :: (word .double s).1, (word .double s).2)

variable {s rest : List Char} {c : Char}

theorem word_end (h : endsWord c = true) : word .bare (c :: rest) = ([], c :: rest) := by
  have h₁ : c ≠ apostrophe := by
    rintro rfl
    revert h
    decide
  have h₂ : c ≠ doubleQuote := by
    rintro rfl
    revert h
    decide
  simp [word, h₁, h₂, h]

@[simp] theorem word_opens : word .bare (apostrophe :: s) = word .single s := by
  rw [word, if_pos rfl]

@[simp] theorem word_closes : word .single (apostrophe :: s) = word .bare s := by
  rw [word, if_pos rfl]

theorem safe_bare (h : isSafe c = true) : c ≠ apostrophe ∧ c ≠ doubleQuote ∧ endsWord c = false := by
  refine ⟨?_, ?_, ?_⟩
  · rintro rfl
    revert h
    decide
  · rintro rfl
    revert h
    decide
  · cases he : endsWord c with
    | false => rfl
    | true =>
      simp only [endsWord, List.contains_eq_mem, decide_eq_true_eq, List.mem_cons, List.not_mem_nil, or_false] at he
      obtain rfl | rfl | rfl | rfl | rfl | rfl | rfl | rfl | rfl | rfl := he <;> revert h <;> decide

/-- Bare characters stand for themselves, by induction on them. -/
theorem word_safe (hs : s.all isSafe = true) (h : endsWord c = true) :
    word .bare (s ++ c :: rest) = (s, c :: rest) := by
  induction s with
  | nil => exact word_end h
  | cons a s ih =>
    rw [List.all_cons, Bool.and_eq_true] at hs
    obtain ⟨h₁, h₂, h₃⟩ := safe_bare hs.1
    simp [word, h₁, h₂, h₃, ih hs.2]

theorem word_escape (h : endsWord c = true) :
    word .single (escape s ++ apostrophe :: c :: rest) = (s, c :: rest) := by
  induction s with
  | nil =>
    rw [escape, List.nil_append, word_closes]
    exact word_end h
  | cons a s ih =>
    by_cases ha : a = apostrophe
    · subst ha
      have hne : apostrophe ≠ doubleQuote := by decide
      simp [escape, word, hne, ih, hne.symm]
    · simp [escape, word, ha, ih]

/-- A quoted text is read back as one word. -/
theorem word_quote (s : List Char) (h : endsWord c = true) : word .bare (quote s ++ c :: rest) = (s, c :: rest) := by
  by_cases hn : s = []
  · subst hn
    rw [quote, if_pos rfl, List.cons_append, List.cons_append, List.nil_append, word_opens, word_closes]
    exact word_end h
  by_cases hs : s.all isSafe = true
  · rw [quote, if_neg hn, if_pos hs]
    exact word_safe hs h
  · rw [quote, if_neg hn, if_neg hs]
    simpa using word_escape h

theorem word_length (q : Quoting) (s : List Char) : (word q s).2.length ≤ s.length := by
  induction s generalizing q with
  | nil => simp [word]
  | cons a s ih =>
    have hb := ih .bare
    have hs := ih .single
    have hd := ih .double
    cases q with
    | bare =>
      rw [word, List.length_cons]
      split
      · omega
      · split
        · omega
        · split
          · simp
          · exact Nat.le_succ_of_le hb
    | single =>
      rw [word, List.length_cons]
      split
      · omega
      · exact Nat.le_succ_of_le hs
    | double =>
      rw [word, List.length_cons]
      split
      · omega
      · exact Nat.le_succ_of_le hd

end ShellWords
