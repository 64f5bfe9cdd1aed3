import CapiSsh.Lib.Effect

/-!
# Programs over another interface

A program is carried over to other operations by a program for each of its own. This is a
map of monads, and it keeps what is caught and what is closed.
-/
namespace Effect.Prog

variable {Op Op' : Type} {Res : Op → Type} {Res' : Op' → Type} {ε α β : Type}

def interpret (h : (op : Op) → Prog Op' Res' ε (Res op)) : Prog Op Res ε α → Prog Op' Res' ε α
  | .pure a => .pure a
  | .throw e => .throw e
  | .call op k => (h op).attempt.bind fun r => (k r).interpret h

variable {h : (op : Op) → Prog Op' Res' ε (Res op)}

theorem bind_assoc {γ : Type} (p : Prog Op Res ε α) (f : α → Prog Op Res ε β) (g : β → Prog Op Res ε γ) :
    (p.bind f).bind g = p.bind fun a => (f a).bind g := by
  induction p with
  | pure a => rfl
  | throw e => rfl
  | call op k ih => simp [bind, ih]

/-- Raising again what was attempted gives the program back. -/
theorem attempt_raise (p : Prog Op Res ε α) : (p.attempt.bind fun r => match r with
    | .ok a => .pure a
    | .error e => .throw e) = p := by
  induction p with
  | pure a => rfl
  | throw e => rfl
  | call op k ih => simp [attempt, bind, ih]

/-- An attempted sequence stops where its first part fails. -/
theorem attempt_bind (p : Prog Op Res ε α) (f : α → Prog Op Res ε β) :
    (p.bind f).attempt = p.attempt.bind fun r => match r with
      | .ok a => (f a).attempt
      | .error e => .pure (.error e) := by
  induction p with
  | pure a => rfl
  | throw e => rfl
  | call op k ih => simp [attempt, bind, ih]

/-- An attempt never fails. -/
theorem attempt_attempt (p : Prog Op Res ε α) : p.attempt.attempt = p.attempt.bind fun r => .pure (.ok r) := by
  induction p with
  | pure a => rfl
  | throw e => rfl
  | call op k ih => simp [attempt, bind, ih]

@[simp] theorem interpret_pure (a : α) : (Prog.pure a : Prog Op Res ε α).interpret h = .pure a := rfl

@[simp] theorem interpret_throw (e : ε) : (Prog.throw e : Prog Op Res ε α).interpret h = .throw e := rfl

/-- Interpretation goes through a sequence, an attempt and a handler. -/
@[simp] theorem interpret_bind (p : Prog Op Res ε α) (f : α → Prog Op Res ε β) :
    (p.bind f).interpret h = (p.interpret h).bind fun a => (f a).interpret h := by
  induction p with
  | pure a => rfl
  | throw e => rfl
  | call op k ih => simp [bind, interpret, ih, bind_assoc]

@[simp] theorem interpret_perform (op : Op) : (perform op : Prog Op Res ε (Res op)).interpret h = h op := by
  refine Eq.trans ?_ (attempt_raise (h op))
  rw [perform, interpret]
  congr 1
  funext r
  cases r <;> rfl

@[simp] theorem interpret_attempt (p : Prog Op Res ε α) : p.attempt.interpret h = (p.interpret h).attempt := by
  induction p with
  | pure a => rfl
  | throw e => rfl
  | call op k ih =>
    simp only [attempt, interpret, ih]
    rw [attempt_bind, attempt_attempt, bind_assoc]
    rfl

@[simp] theorem interpret_handle (p : Prog Op Res ε α) (f : ε → Prog Op Res ε α) :
    (p.handle f).interpret h = (p.interpret h).handle fun e => (f e).interpret h := by
  rw [handle, handle, interpret_bind, interpret_attempt]
  congr 1
  funext r
  cases r <;> rfl

/-- An interpreted program performs what the operations are interpreted as. -/
theorem only_interpret {S : Op → Prop} {S' : Op' → Prop} {p : Prog Op Res ε α} (hp : p.Only S)
    (hS : ∀ op, S op → (h op).Only S') : (p.interpret h).Only S' := by
  induction p with
  | pure a => trivial
  | throw e => trivial
  | call op k ih => exact only_bind (only_attempt (hS op hp.1)) fun r => ih r (hp.2 r)

/-- Whatever the calls become, the same values can be returned. -/
theorem returns_interpret {Q : α → Prop} {p : Prog Op Res ε α} (hq : p.Returns Q) : (p.interpret h).Returns Q := by
  induction p with
  | pure a => exact hq
  | throw e => trivial
  | call op k ih => exact returns_last fun r => ih r (hq r)

end Effect.Prog
