import Mathlib.Logic.Basic

/-!
# A value under compare-and-swap

One stored value with a version that is new at every write. Who has read a version knows
its value for good, however much time passes and whatever others write.
-/
namespace VersionedCell

variable {α : Type}

structure Cell (α : Type) where
  stored : Option (Nat × α)
  next : Nat

namespace Cell

def put (c : Cell α) (a : α) : Cell α := ⟨some (c.next, a), c.next + 1⟩

def WellFormed (c : Cell α) : Prop := ∀ v a, c.stored = some (v, a) → v < c.next

/-- Any number of writes, and removals, have happened meanwhile. -/
def Later (c c' : Cell α) : Prop :=
  c.next ≤ c'.next ∧ (c'.stored = c.stored ∨ ∀ v a, c'.stored = some (v, a) → c.next ≤ v)

/-- If the version is still the stored one, then so is the value. -/
def Known (v : Nat) (a : α) (c : Cell α) : Prop := v < c.next ∧ ∀ a', c.stored = some (v, a') → a' = a

variable {c c' c'' : Cell α} {v : Nat} {a : α}

theorem later_refl (c : Cell α) : c.Later c := ⟨Nat.le_refl _, .inl rfl⟩

theorem Later.trans (h : c.Later c') (h' : c'.Later c'') : c.Later c'' := by
  refine ⟨Nat.le_trans h.1 h'.1, ?_⟩
  obtain hs | hn := h'.2
  · rw [hs]
    exact h.2
  · exact .inr fun v a hv => Nat.le_trans h.1 (hn v a hv)

theorem later_put (c : Cell α) (a : α) : c.Later (c.put a) := by
  refine ⟨Nat.le_succ _, .inr ?_⟩
  rintro v b ⟨⟩
  exact Nat.le_refl _

theorem wellFormed_put (c : Cell α) (a : α) : (c.put a).WellFormed := by
  rintro v b ⟨⟩
  exact Nat.lt_succ_self _

/-- What a read knows. -/
theorem known_read (hc : c.WellFormed) (h : c.stored = some (v, a)) : Known v a c := by
  refine ⟨hc v a h, fun a' h' => ?_⟩
  rw [h] at h'
  cases h'
  rfl

theorem Known.later (h : Known v a c) (hl : c.Later c') : Known v a c' := by
  refine ⟨Nat.lt_of_lt_of_le h.1 hl.1, fun a' ha => ?_⟩
  obtain hs | hn := hl.2
  · rw [hs] at ha
    exact h.2 a' ha
  · have := h.1
    have := hn v a' ha
    omega

end Cell

end VersionedCell
