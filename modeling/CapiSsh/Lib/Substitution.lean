import Mathlib.Data.List.Basic

/-!
# Substitution in a text

`re.sub` for a pattern that is given as a matcher: what is put in the place of a match that
starts at the head of a text, the last character of the match and the text behind it. The
matcher sees the character before its place, as a word boundary needs it.
-/
namespace Substitution

structure Hit (α : Type) where
  put : List α
  last : Option α
  rest : List α
  deriving DecidableEq, Repr

abbrev Matcher (α : Type) := Option α → List α → Option (Hit α)

variable {α : Type} {m : Matcher α} {before : Option α} {c : α} {s p : List α} {h : Hit α} {n : Nat}

/-- The leftmost matches are replaced, none of them overlapping. -/
def rewriteFrom (m : Matcher α) : Nat → Option α → List α → List α
  | 0, _, _ => []
  | _ + 1, _, [] => []
  | n + 1, before, c :: s =>
    match m before (c :: s) with
    | some h => h.put ++ rewriteFrom m n h.last h.rest
    | none => c :: rewriteFrom m n (some c) s

/-- `pattern.sub` -/
def rewrite (m : Matcher α) (before : Option α) (s : List α) : List α :=
  rewriteFrom m s.length before s

/-- No match is empty. -/
def Advances (m : Matcher α) : Prop :=
  ∀ before s h, m before s = some h → h.rest.length < s.length

/-- The matcher does not look at the character before its place. -/
def Blind (m : Matcher α) : Prop := ∀ a b s, m a s = m b s

@[simp] theorem rewrite_nil : rewrite m before [] = [] := rfl

theorem rewriteFrom_enough (hm : Advances m) (hn : s.length ≤ n) :
    rewriteFrom m n before s = rewrite m before s := by
  induction n using Nat.strongRecOn generalizing before s with
  | ind n ih =>
    cases s with
    | nil => cases n <;> rfl
    | cons c s =>
      cases n with
      | zero => simp at hn
      | succ n =>
        simp only [List.length_cons, Nat.add_le_add_iff_right] at hn
        simp only [rewrite, List.length_cons, rewriteFrom]
        cases hc : m before (c :: s) with
        | none =>
          dsimp only
          rw [ih n (by omega) hn]
          rfl
        | some h =>
          dsimp only
          have hl := hm _ _ _ hc
          simp only [List.length_cons] at hl
          rw [ih n (by omega) (by omega)]
          by_cases hs : s.length = n
          · rw [hs, ih n (by omega) (by omega)]
          · rw [ih s.length (by omega) (by omega)]

/-- What stands at a place without a match is copied. -/
theorem rewrite_none (hc : m before (c :: s) = none) :
    rewrite m before (c :: s) = c :: rewrite m (some c) s := by
  simp [rewrite, rewriteFrom, hc]

theorem rewrite_some (hm : Advances m) (hs : m before s = some h) :
    rewrite m before s = h.put ++ rewrite m h.last h.rest := by
  have hl := hm _ _ _ hs
  cases s with
  | nil => simp at hl
  | cons c s =>
    simp only [rewrite, List.length_cons, rewriteFrom, hs]
    rw [rewriteFrom_enough hm (by simpa [Nat.lt_succ_iff] using hl)]
    rfl

theorem rewrite_blind (hm : Blind m) (a b : Option α) (s : List α) : rewrite m a s = rewrite m b s := by
  cases s with
  | nil => rfl
  | cons c s => simp only [rewrite, List.length_cons, rewriteFrom, hm a b]

/-- A matcher without memory copies a text in which no match starts. -/
theorem rewrite_append (hm : Blind m) (hp : ∀ q, q ≠ [] → q <:+ p → m none (q ++ s) = none) :
    rewrite m before (p ++ s) = p ++ rewrite m none s := by
  induction p generalizing before with
  | nil => exact rewrite_blind hm _ _ _
  | cons c p ih =>
    have hc : m before (c :: (p ++ s)) = none := by
      rw [hm before none]
      exact hp (c :: p) (by simp) (List.suffix_refl _)
    rw [List.cons_append, rewrite_none hc,
      ih fun q hq hs => hp q hq (hs.trans (List.suffix_cons c p))]
    rfl

/-- Characters at which no match starts are copied. -/
theorem rewrite_copy (before : Option α) (hp : ∀ c ∈ p, ∀ before s, m before (c :: s) = none) :
    ∃ b, rewrite m before (p ++ s) = p ++ rewrite m b s := by
  induction p generalizing before with
  | nil => exact ⟨before, rfl⟩
  | cons c p ih =>
    obtain ⟨b, hb⟩ := ih (some c) fun d hd => hp d (List.mem_cons_of_mem c hd)
    refine ⟨b, ?_⟩
    rw [List.cons_append, rewrite_none (hp c List.mem_cons_self _ _), hb]
    rfl

end Substitution
