import Mathlib.Logic.Basic

/-!
# Programs that call an environment

A program is a tree of calls. Each call names an operation and has one continuation for
every reply, errors included, so a program says nothing about what its environment does.
Exceptions follow the usual host languages: `attempt` turns a raised error into a value,
and handlers and `finally` blocks are derived from it.
-/
namespace Effect

inductive Prog (Op : Type) (Res : Op → Type) (ε α : Type) where
  | pure : α → Prog Op Res ε α
  | throw : ε → Prog Op Res ε α
  | call : (op : Op) → (Except ε (Res op) → Prog Op Res ε α) → Prog Op Res ε α

namespace Prog

variable {Op : Type} {Res : Op → Type} {ε α β : Type}

def bind : Prog Op Res ε α → (α → Prog Op Res ε β) → Prog Op Res ε β
  | .pure a, f => f a
  | .throw e, _ => .throw e
  | .call op k, f => .call op (fun r => (k r).bind f)

/-- Run a program to its end and return what it returned or raised. -/
def attempt : Prog Op Res ε α → Prog Op Res ε (Except ε α)
  | .pure a => .pure (.ok a)
  | .throw e => .pure (.error e)
  | .call op k => .call op (fun r => (k r).attempt)

instance : Monad (Prog Op Res ε) where
  pure := .pure
  bind := bind

/-- A handler sees every error; one that wants only some of them raises the others again. -/
def handle (p : Prog Op Res ε α) (h : ε → Prog Op Res ε α) : Prog Op Res ε α :=
  p.attempt.bind fun r => match r with
    | .ok a => .pure a
    | .error e => h e

instance : MonadExceptOf ε (Prog Op Res ε) where
  throw := .throw
  tryCatch := handle

/-- `finally`: the closing part runs on every exit, and its own error replaces the outcome. -/
def andFinally (p : Prog Op Res ε α) (fin : Prog Op Res ε Unit) : Prog Op Res ε α :=
  p.attempt.bind fun r => fin.bind fun _ => match r with
    | .ok a => .pure a
    | .error e => .throw e

/-- One call whose error reply is raised. -/
def perform (op : Op) : Prog Op Res ε (Res op) :=
  .call op fun r => match r with
    | .ok a => .pure a
    | .error e => .throw e

/-- What a program that makes no further call has come to. -/
def result : Prog Op Res ε α → Option (Except ε α)
  | .pure a => some (.ok a)
  | .throw e => some (.error e)
  | .call _ _ => none

/-- Every call that the program can make is one of `S`. -/
def Only (S : Op → Prop) : Prog Op Res ε α → Prop
  | .pure _ | .throw _ => True
  | .call op k => S op ∧ ∀ r, (k r).Only S

/-- Every value that the program can return satisfies `Q`. -/
def Returns (Q : α → Prop) : Prog Op Res ε α → Prop
  | .pure a => Q a
  | .throw _ => True
  | .call _ k => ∀ r, (k r).Returns Q

/-- What a program comes to where every call has a fixed reply. -/
def eval (reply : (op : Op) → Except ε (Res op)) : Prog Op Res ε α → Except ε α
  | .pure a => .ok a
  | .throw e => .error e
  | .call op k => (k (reply op)).eval reply

/-- The same calls, whatever is made of their end. -/
inductive Same : Prog Op Res ε α → Prog Op Res ε β → Prop
  | leaf {p : Prog Op Res ε α} {q : Prog Op Res ε β} : p.result ≠ none → q.result ≠ none → Same p q
  | call {op : Op} {k : Except ε (Res op) → Prog Op Res ε α} {k' : Except ε (Res op) → Prog Op Res ε β} :
      (∀ r, Same (k r) (k' r)) → Same (.call op k) (.call op k')

@[simp] theorem pure_bind (a : α) (f : α → Prog Op Res ε β) :
    (Prog.pure a : Prog Op Res ε α).bind f = f a := rfl
@[simp] theorem throw_bind (e : ε) (f : α → Prog Op Res ε β) :
    (Prog.throw e : Prog Op Res ε α).bind f = .throw e := rfl

/-- The notation for sequencing, and below those for raising and catching, are the functions here. -/
@[simp] theorem bind_eq (p : Prog Op Res ε α) (f : α → Prog Op Res ε β) : p >>= f = p.bind f := rfl
@[simp] theorem pure_eq (a : α) : (Pure.pure a : Prog Op Res ε α) = .pure a := rfl
@[simp] theorem throw_eq (e : ε) : (MonadExcept.throw e : Prog Op Res ε α) = .throw e := rfl
@[simp] theorem throwThe_eq (e : ε) : (throwThe ε e : Prog Op Res ε α) = .throw e := rfl
@[simp] theorem tryCatch_eq (p : Prog Op Res ε α) (h : ε → Prog Op Res ε α) :
    MonadExcept.tryCatch p h = p.handle h := rfl
@[simp] theorem tryCatchThe_eq (p : Prog Op Res ε α) (h : ε → Prog Op Res ε α) :
    tryCatchThe ε p h = p.handle h := rfl

/-- Programs that agree after each value agree. -/
theorem same_bind {γ : Type} (p : Prog Op Res ε γ) {f : γ → Prog Op Res ε α} {g : γ → Prog Op Res ε β}
    (h : ∀ a, (f a).Same (g a)) : (p.bind f).Same (p.bind g) := by
  induction p with
  | pure a => exact h a
  | throw e => exact .leaf (by rintro ⟨⟩) (by rintro ⟨⟩)
  | call op k ih => exact .call ih

section eval

variable {reply : (op : Op) → Except ε (Res op)}

/-- Evaluation goes through a sequence. -/
@[simp] theorem eval_bind (p : Prog Op Res ε α) (f : α → Prog Op Res ε β) :
    (p.bind f).eval reply = (p.eval reply).bind fun a => (f a).eval reply := by
  induction p with
  | pure a => rfl
  | throw e => rfl
  | call op k ih => exact ih (reply op)

@[simp] theorem eval_perform (op : Op) : (perform op : Prog Op Res ε (Res op)).eval reply = reply op := by
  rw [perform, eval]
  cases reply op <;> rfl

end eval

section only

variable {S : Op → Prop}

theorem only_pure (a : α) : (Prog.pure a : Prog Op Res ε α).Only S := trivial

/-- Fewer operations are allowed operations. -/
theorem only_mono {S' : Op → Prop} {p : Prog Op Res ε α} (hp : p.Only S) (h : ∀ op, S op → S' op) : p.Only S' := by
  induction p with
  | pure a => trivial
  | throw e => trivial
  | call op k ih => exact ⟨h op hp.1, fun r => ih r (hp.2 r)⟩

theorem only_perform {op : Op} (h : S op) : (perform op : Prog Op Res ε (Res op)).Only S := by
  refine ⟨h, fun r => ?_⟩
  cases r <;> trivial

/-- A sequence performs what its parts perform. -/
theorem only_bind {p : Prog Op Res ε α} {f : α → Prog Op Res ε β} (hp : p.Only S) (hf : ∀ a, (f a).Only S) :
    (p.bind f).Only S := by
  induction p with
  | pure a => exact hf a
  | throw e => trivial
  | call op k ih => exact ⟨hp.1, fun r => ih r (hp.2 r)⟩

theorem only_attempt {p : Prog Op Res ε α} (hp : p.Only S) : p.attempt.Only S := by
  induction p with
  | pure a => trivial
  | throw e => trivial
  | call op k ih => exact ⟨hp.1, fun r => ih r (hp.2 r)⟩

/-- A handler adds its own operations. -/
theorem only_handle {p : Prog Op Res ε α} {h : ε → Prog Op Res ε α} (hp : p.Only S) (hh : ∀ e, (h e).Only S) :
    (p.handle h).Only S := by
  refine only_bind (only_attempt hp) ?_
  rintro (e | a)
  · exact hh e
  · trivial

end only

section returns

variable {Q : α → Prop} {R : β → Prop}

theorem returns_of (h : ∀ a, Q a) (p : Prog Op Res ε α) : p.Returns Q := by
  induction p with
  | pure a => exact h a
  | throw e => trivial
  | call op k ih => exact ih

/-- What comes next need only fit the values that can be returned. -/
theorem only_returns {S : Op → Prop} {p : Prog Op Res ε α} {f : α → Prog Op Res ε β} (hp : p.Only S)
    (hq : p.Returns Q) (hf : ∀ a, Q a → (f a).Only S) : (p.bind f).Only S := by
  induction p with
  | pure a => exact hf a hq
  | throw e => trivial
  | call op k ih => exact ⟨hp.1, fun r => ih r (hp.2 r) (hq r)⟩

/-- What a sequence returns is what its last part returns after a value of the first. -/
theorem returns_bind {p : Prog Op Res ε α} {f : α → Prog Op Res ε β} (hp : p.Returns Q)
    (hf : ∀ a, Q a → (f a).Returns R) : (p.bind f).Returns R := by
  induction p with
  | pure a => exact hf a hp
  | throw e => trivial
  | call op k ih => exact fun r => ih r (hp r)

/-- What comes first does not matter. -/
theorem returns_last {p : Prog Op Res ε α} {f : α → Prog Op Res ε β} (hf : ∀ a, (f a).Returns R) :
    (p.bind f).Returns R :=
  returns_bind (Q := fun _ => True) (returns_of (fun _ => trivial) p) fun a _ => hf a

end returns

end Prog

end Effect
