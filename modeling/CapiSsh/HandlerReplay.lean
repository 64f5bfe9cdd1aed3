import CapiSsh.HandlerRuns
import CapiSsh.Replay

/-!
# Replaying handlers

The same for attempts that may overlap: a run of handlers is determined by the turns that
its attempts take, and a run that meets a condition is one whose every call has passed a
check.
-/
namespace CapiSsh

open Effect Interference

inductive Turn (ι : Type) where
  | change : Change → Turn ι
  | start : ι → Attempt → Turn ι
  | call : ι → Choice → Turn ι
  | usual : ι → Nat → Turn ι
  | finish : ι → Turn ι
  | crash : ι → Turn ι

variable {ι : Type} [DecidableEq ι]

/-- The next call of an attempt, answered by `choice`, if it passes the check. -/
def takeCall (S : Setting) (who : ι → MachineRef) (check : ι → Exchange → Site ι → Bool) (k : ι)
    (choice : World → Op → Choice) (c : Crew ι) : Option (Crew ι) :=
  match c.thread k with
  | some (.call op kont) =>
    let w := c.world.meets who k
    (answer S.boots (who k) op (choice w op) w).bind fun r =>
      if check k ⟨op, r.1, w, r.2⟩ c.world then
        some (c.set k (some (kont r.1)) (c.world.record k (who k) ⟨op, r.1, w, r.2⟩))
      else none
  | _ => none

def takeUsual (S : Setting) (who : ι → MachineRef) (check : ι → Exchange → Site ι → Bool) (u : Usual) (k : ι) :
    Nat → Crew ι → Option (Crew ι)
  | 0, c => some c
  | n + 1, c => (takeCall S who check k (u.choice S.boots) c).bind (takeUsual S who check u k n)

def takeTurn (S : Setting) (who : ι → MachineRef) (check : ι → Exchange → Site ι → Bool) (u : Usual) :
    Turn ι → Crew ι → Option (Crew ι)
  | .change e, c => (c.world.world.change S.trust e).map fun w => ⟨{ c.world with world := w }, c.thread⟩
  | .start k a, c =>
    if (c.thread k).isNone ∧ a.admitted (who k) c.world.world then
      some (c.set k (some (a.handled S.tools S.timeout (who k)))
        (c.world.put k (.fresh a c.world.world) (c.world.world.restage (who k) Patch.empty)))
    else none
  | .call k choice, c => takeCall S who check k (fun _ _ => choice) c
  | .usual k n, c => takeUsual S who check u k n c
  | .finish k, c => ((c.thread k).bind Prog.result).map fun _ => c.set k none c.world
  | .crash k, c => (c.thread k).map fun _ => c.set k none c.world

def takes (S : Setting) (who : ι → MachineRef) (check : ι → Exchange → Site ι → Bool) (u : Usual) :
    List (Turn ι) → Crew ι → Option (Crew ι)
  | [], c => some c
  | t :: ts, c => (takeTurn S who check u t c).bind (takes S who check u ts)

variable {S : Setting} {who : ι → MachineRef} {check : ι → Exchange → Site ι → Bool} {C : RunCondition ι} {u : Usual}
  {k : ι} {c c' : Crew ι}

theorem takeCall_step {choice : World → Op → Choice}
    (hC : ∀ k op s r w', check k ⟨op, r, s.meets who k, w'⟩ s = true →
      C k op s r (s.record k (who k) ⟨op, r, s.meets who k, w'⟩))
    (h : takeCall S who check k choice c = some c') : Step ((handlers S who).limit C) c c' := by
  unfold takeCall at h
  split at h
  · rename_i op kont hk
    obtain ⟨⟨r, w'⟩, ha, he⟩ := Option.bind_eq_some_iff.mp h
    split at he
    · rename_i hcheck
      cases he
      exact .call hk ⟨⟨_, w', ha, rfl⟩, hC _ _ _ _ _ hcheck⟩
    · cases he
  · cases h

theorem takeUsual_reachable {n : Nat}
    (hC : ∀ k op s r w', check k ⟨op, r, s.meets who k, w'⟩ s = true →
      C k op s r (s.record k (who k) ⟨op, r, s.meets who k, w'⟩))
    (h : takeUsual S who check u k n c = some c') : Reachable ((handlers S who).limit C) c c' := by
  induction n generalizing c with
  | zero => cases h; exact .refl
  | succ n ih =>
    obtain ⟨c₁, h₁, h₂⟩ := Option.bind_eq_some_iff.mp h
    exact .head (takeCall_step hC h₁) (ih h₂)

theorem takeTurn_reachable {t : Turn ι}
    (hC : ∀ k op s r w', check k ⟨op, r, s.meets who k, w'⟩ s = true →
      C k op s r (s.record k (who k) ⟨op, r, s.meets who k, w'⟩))
    (h : takeTurn S who check u t c = some c') : Reachable ((handlers S who).limit C) c c' := by
  cases t with
  | change e =>
    obtain ⟨w, hw, rfl⟩ := Option.map_eq_some_iff.mp h
    exact .single (.env ⟨e, w, hw, rfl⟩)
  | start k a =>
    simp only [takeTurn] at h
    split at h
    · rename_i ha
      cases h
      exact .single (.start (by simpa using ha.1) ⟨a, ha.2, rfl, rfl⟩)
    · cases h
  | call k choice =>
    have h : takeCall S who check k (fun _ _ => choice) c = some c' := h
    exact .single (takeCall_step hC h)
  | usual k n => exact takeUsual_reachable hC h
  | finish k =>
    obtain ⟨r, hr, rfl⟩ := Option.map_eq_some_iff.mp h
    obtain ⟨p, hp, hr⟩ := Option.bind_eq_some_iff.mp hr
    exact .single (.finish hp hr rfl)
  | crash k =>
    obtain ⟨p, hp, rfl⟩ := Option.map_eq_some_iff.mp h
    exact .single (.crash hp rfl)

/-- What a checked replay comes to is reachable by a run that meets the condition. -/
theorem takes_limited {ts : List (Turn ι)}
    (hC : ∀ k op s r w', check k ⟨op, r, s.meets who k, w'⟩ s = true →
      C k op s r (s.record k (who k) ⟨op, r, s.meets who k, w'⟩))
    (h : takes S who check u ts c = some c') : Reachable ((handlers S who).limit C) c c' := by
  induction ts generalizing c with
  | nil => cases h; exact .refl
  | cons t ts ih =>
    obtain ⟨c₁, h₁, h₂⟩ := Option.bind_eq_some_iff.mp h
    exact (takeTurn_reachable hC h₁).trans (ih h₂)

theorem takes_limited_exists {ts : List (Turn ι)} {f : Crew ι → Bool}
    (hC : ∀ k op s r w', check k ⟨op, r, s.meets who k, w'⟩ s = true →
      C k op s r (s.record k (who k) ⟨op, r, s.meets who k, w'⟩))
    (h : (takes S who check u ts c).any f = true) :
    ∃ c', Reachable ((handlers S who).limit C) c c' ∧ f c' = true := by
  cases hp : takes S who check u ts c with
  | none => rw [hp] at h; cases h
  | some c' => rw [hp] at h; exact ⟨c', takes_limited hC hp, h⟩

/-- Every call passes. -/
def unchecked (_ : ι) (_ : Exchange) (_ : Site ι) : Bool := true

theorem takes_exists {ts : List (Turn ι)} {f : Crew ι → Bool}
    (h : (takes S who unchecked u ts c).any f = true) : ∃ c', Reachable (handlers S who) c c' ∧ f c' = true := by
  obtain ⟨c', hc, hf⟩ := takes_limited_exists (C := fun _ _ _ _ _ => True) (fun _ _ _ _ _ _ => trivial) h
  exact ⟨c', limit_reachable hc, hf⟩

/-- A bootstrapped Machine. -/
def bootstrapped : List (Turn MachineRef) :=
  [.change (.createMachine (smallMachine "m" (some "a"))), .start (smallRef "m" 1) .reconcile,
    .usual (smallRef "m" 1) 44, .finish (smallRef "m" 1)]

/-- Attempts that need not wait for each other. -/
abbrev Replica := MachineRef × Nat

end CapiSsh
