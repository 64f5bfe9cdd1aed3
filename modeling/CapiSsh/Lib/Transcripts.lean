import CapiSsh.Lib.Effect
import Mathlib.Data.List.Basic

/-!
# Transcripts

What a program does against an environment that may answer anything is the list of its
calls with their replies. A transcript may stop at any call, so what holds of every
transcript holds of every prefix of every run. `Meets` is its calculus: one fact that every
transcript keeps, and one that holds where the program returns.
-/
namespace Effect

/-- A call and its reply. -/
abbrev Event (Op : Type) (Res : Op → Type) (ε : Type) := Σ op : Op, Except ε (Res op)

namespace Prog

variable {Op : Type} {Res : Op → Type} {ε α β : Type}

/-- The outcome is missing where the program has not come to its end. -/
inductive Transcript : Prog Op Res ε α → List (Event Op Res ε) → Option (Except ε α) → Prop
  | stopped {p : Prog Op Res ε α} : Transcript p [] none
  | pure {a : α} : Transcript (.pure a) [] (some (.ok a))
  | throw {e : ε} : Transcript (.throw e) [] (some (.error e))
  | call {op : Op} {k : Except ε (Res op) → Prog Op Res ε α} {r : Except ε (Res op)}
      {es : List (Event Op Res ε)} {o : Option (Except ε α)} :
      Transcript (k r) es o → Transcript (.call op k) (⟨op, r⟩ :: es) o

/-- The calls that a program makes where every call has a fixed reply. -/
def events (reply : (op : Op) → Except ε (Res op)) : Prog Op Res ε α → List (Event Op Res ε)
  | .pure _ | .throw _ => []
  | .call op k => ⟨op, reply op⟩ :: (k (reply op)).events reply

theorem transcript_events (reply : (op : Op) → Except ε (Res op)) (p : Prog Op Res ε α) :
    p.Transcript (p.events reply) (some (p.eval reply)) := by
  induction p with
  | pure a => exact .pure
  | throw e => exact .throw
  | call op k ih => exact .call (ih (reply op))

/-- After the calls `h`, the program keeps `E` and returns only with `A`. -/
def Meets (A : α → List (Event Op Res ε) → Prop) (E : List (Event Op Res ε) → Prop) :
    Prog Op Res ε α → List (Event Op Res ε) → Prop
  | .pure a, h => E h ∧ A a h
  | .throw _, h => E h
  | .call op k, h => E h ∧ ∀ r, (k r).Meets A E (h ++ [⟨op, r⟩])

variable {A : α → List (Event Op Res ε) → Prop} {B : β → List (Event Op Res ε) → Prop}
  {E : List (Event Op Res ε) → Prop} {h : List (Event Op Res ε)}

theorem meets_now {p : Prog Op Res ε α} (hp : p.Meets A E h) : E h := by
  cases p with
  | pure a => exact hp.1
  | throw e => exact hp
  | call op k => exact hp.1

theorem meets_mono {A' : α → List (Event Op Res ε) → Prop} {p : Prog Op Res ε α} (hp : p.Meets A E h)
    (hA : ∀ a h', E h' → A a h' → A' a h') : p.Meets A' E h := by
  induction p generalizing h with
  | pure a => exact ⟨hp.1, hA a h hp.1 hp.2⟩
  | throw e => exact hp
  | call op k ih => exact ⟨hp.1, fun r => ih r (hp.2 r)⟩

theorem meets_bind {p : Prog Op Res ε α} {f : α → Prog Op Res ε β}
    (hp : p.Meets (fun a h' => (f a).Meets B E h') E h) : (p.bind f).Meets B E h := by
  induction p generalizing h with
  | pure a => exact hp.2
  | throw e => exact hp
  | call op k ih => exact ⟨hp.1, fun r => ih r (hp.2 r)⟩

theorem meets_perform {op : Op} {A : Res op → List (Event Op Res ε) → Prop} (hE : E h)
    (hr : ∀ r, E (h ++ [⟨op, r⟩])) (ha : ∀ a, A a (h ++ [⟨op, .ok a⟩])) :
    (perform op : Prog Op Res ε (Res op)).Meets A E h := by
  refine ⟨hE, ?_⟩
  intro r
  cases r with
  | error e => exact hr (.error e)
  | ok a => exact ⟨hr (.ok a), ha a⟩

/-- Every transcript keeps what the calculus has shown, by induction on the program. -/
theorem meets_transcript {p : Prog Op Res ε α} {es : List (Event Op Res ε)} {o : Option (Except ε α)}
    (hp : p.Meets A E h) (ht : p.Transcript es o) : E (h ++ es) := by
  induction ht generalizing h with
  | stopped => simpa using meets_now hp
  | pure => simpa using hp.1
  | throw => simpa [Meets] using hp
  | @call op k r es o _ ih => simpa using ih (hp.2 r)

end Prog

end Effect
