import CapiSsh.Lib.Effect
import Mathlib.Logic.Relation

/-!
# Threads that share a world

Any number of programs run over one world, one call at a time and in any order. A thread
can vanish between two calls, and the environment moves on its own. A `Discipline` is a
rely-guarantee proof rule: an invariant of the world together with what each thread may
assume about the steps of all others. A program that keeps to it under every reply of its
calls (`wp`) keeps to it in every interleaving (`Discipline.reachable`).
-/
namespace Interference

open Effect

variable {ι Op : Type} {Res : Op → Type} {ε α β σ : Type}

/-- What the threads `ι` run on. `exec i op w r w'` says that the call of `op` by `i` can
answer `r` and leave the world `w'`; `leave i` is the end of thread `i`, by its last
outcome or, when there is none, by a crash. -/
structure Runtime (ι Op : Type) (Res : Op → Type) (ε α σ : Type) where
  exec : ι → (op : Op) → σ → Except ε (Res op) → σ → Prop
  env : σ → σ → Prop
  start : ι → Prog Op Res ε α → σ → σ → Prop
  leave : ι → Option (Except ε α) → σ → σ → Prop

/-- An invariant of the world and, for each thread, what the steps of all others keep. -/
structure Discipline (ι σ : Type) where
  inv : σ → Prop
  rely : ι → σ → σ → Prop
  refl : ∀ i w, inv w → rely i w w
  trans : ∀ i w₁ w₂ w₃, rely i w₁ w₂ → rely i w₂ w₃ → rely i w₁ w₃

namespace Discipline

variable (D : Discipline ι σ)

/-- A step of thread `i` keeps the invariant and what every other thread relies on. -/
def Allows (i : ι) (w w' : σ) : Prop := D.inv w' ∧ ∀ j, j ≠ i → D.rely j w w'

theorem allows_refl {i : ι} {w : σ} (h : D.inv w) : D.Allows i w w := ⟨h, fun j _ => D.refl j w h⟩

/-- A fact that no other thread can disturb. -/
def Stable (i : ι) (K : σ → Prop) : Prop := ∀ w w', K w → D.rely i w w' → D.inv w' → K w'

end Discipline

/-- Every call of the program is allowed whatever it answers, and the outcome satisfies `Q`. -/
def wp (T : Runtime ι Op Res ε β σ) (D : Discipline ι σ) (i : ι) :
    Prog Op Res ε α → (Except ε α → σ → Prop) → σ → Prop
  | .pure a, Q, w => Q (.ok a) w
  | .throw e, Q, w => Q (.error e) w
  | .call op k, Q, w => ∀ w₁, D.rely i w w₁ → D.inv w₁ → ∀ r w₂, T.exec i op w₁ r w₂ →
      D.Allows i w₁ w₂ ∧ wp T D i (k r) Q w₂

section rules

variable {T : Runtime ι Op Res ε β σ} {D : Discipline ι σ} {i : ι} {γ : Type}

/-- The outcome may use the invariant of the world it is reached in. -/
theorem wp_mono {p : Prog Op Res ε α} {Q Q' : Except ε α → σ → Prop} {w : σ} (hw : D.inv w)
    (h : wp T D i p Q w) (hQ : ∀ r w', D.inv w' → Q r w' → Q' r w') : wp T D i p Q' w := by
  induction p generalizing w with
  | pure a => exact hQ _ _ hw h
  | throw e => exact hQ _ _ hw h
  | call op k ih =>
    intro w₁ hr hi r w₂ he
    obtain ⟨ha, hk⟩ := h w₁ hr hi r w₂ he
    exact ⟨ha, ih r ha.1 hk⟩

theorem wp_bind {p : Prog Op Res ε α} {f : α → Prog Op Res ε γ} {Q : Except ε γ → σ → Prop} {w : σ}
    (hw : D.inv w) (h : wp T D i p (fun r w' => D.inv w' → match r with
      | .ok a => wp T D i (f a) Q w'
      | .error e => Q (.error e) w') w) : wp T D i (p.bind f) Q w := by
  induction p generalizing w with
  | pure a => exact h hw
  | throw e => exact h hw
  | call op k ih =>
    intro w₁ hr hi r w₂ he
    obtain ⟨ha, hk⟩ := h w₁ hr hi r w₂ he
    exact ⟨ha, ih r ha.1 hk⟩

theorem wp_attempt {p : Prog Op Res ε α} {Q : Except ε (Except ε α) → σ → Prop} {w : σ}
    (h : wp T D i p (fun r => Q (.ok r)) w) : wp T D i p.attempt Q w := by
  induction p generalizing w with
  | pure a => exact h
  | throw e => exact h
  | call op k ih =>
    intro w₁ hr hi r w₂ he
    obtain ⟨ha, hk⟩ := h w₁ hr hi r w₂ he
    exact ⟨ha, ih r hk⟩

/-- What is done with the result makes no further call. -/
theorem wp_of_bind_pure {p : Prog Op Res ε α} {f : α → γ} {Q : Except ε γ → σ → Prop} {w : σ}
    (h : wp T D i (p.bind fun a => .pure (f a)) Q w) : wp T D i p (fun r => Q (r.map f)) w := by
  induction p generalizing w with
  | pure a => exact h
  | throw e => exact h
  | call op k ih =>
    intro w₁ hr hi r w₂ he
    obtain ⟨ha, hk⟩ := h w₁ hr hi r w₂ he
    exact ⟨ha, ih r hk⟩

/-- From every world with `K`, the program keeps to the discipline and ends in `Q`. -/
def Triple (T : Runtime ι Op Res ε β σ) (D : Discipline ι σ) (i : ι) (K : σ → Prop)
    (p : Prog Op Res ε α) (Q : Except ε α → σ → Prop) : Prop :=
  ∀ w, D.inv w → K w → wp T D i p Q w

/-- One outcome for a returned value, another one for an error. -/
def post (A : α → σ → Prop) (E : ε → σ → Prop) : Except ε α → σ → Prop
  | .ok a, w => A a w
  | .error e, w => E e w

@[simp] theorem post_ok (A : α → σ → Prop) (E : ε → σ → Prop) (a : α) (w : σ) :
    post A E (.ok a) w = A a w := rfl
@[simp] theorem post_error (A : α → σ → Prop) (E : ε → σ → Prop) (e : ε) (w : σ) :
    post A E (.error e) w = E e w := rfl

variable {K K' : σ → Prop} {A A' : α → σ → Prop} {B : γ → σ → Prop} {E E' : ε → σ → Prop}

theorem triple_pure {a : α} (h : ∀ w, D.inv w → K w → A a w) :
    Triple T D i K (.pure a) (post A E) := h

theorem triple_throw {e : ε} (h : ∀ w, D.inv w → K w → E e w) :
    Triple T D i K (.throw e : Prog Op Res ε α) (post A E) := h

theorem triple_conseq {p : Prog Op Res ε α} (h : Triple T D i K p (post A E))
    (hK : ∀ w, D.inv w → K' w → K w) (hA : ∀ a w, D.inv w → A a w → A' a w)
    (hE : ∀ e w, D.inv w → E e w → E' e w) : Triple T D i K' p (post A' E') := by
  intro w hw hk
  refine wp_mono hw (h w hw (hK w hw hk)) ?_
  rintro (e | a) w' hw' hq
  · exact hE e w' hw' hq
  · exact hA a w' hw' hq

theorem triple_weaken {p : Prog Op Res ε α} {Q : Except ε α → σ → Prop} (h : Triple T D i K p Q)
    (hK : ∀ w, D.inv w → K' w → K w) : Triple T D i K' p Q :=
  fun w hw hk => h w hw (hK w hw hk)

theorem triple_bind {p : Prog Op Res ε α} {f : α → Prog Op Res ε γ} (hp : Triple T D i K p (post A E))
    (hf : ∀ a, Triple T D i (A a) (f a) (post B E)) : Triple T D i K (p.bind f) (post B E) := by
  intro w hw hk
  refine wp_bind hw (wp_mono hw (hp w hw hk) ?_)
  rintro (e | a) w' _ hq hw'
  · exact hq
  · exact hf a w' hw' hq

theorem triple_handle {p : Prog Op Res ε α} {h : ε → Prog Op Res ε α} (hp : Triple T D i K p (post A E))
    (hh : ∀ e, Triple T D i (E e) (h e) (post A E')) : Triple T D i K (p.handle h) (post A E') := by
  intro w hw hk
  refine wp_bind hw (wp_attempt (wp_mono hw (hp w hw hk) ?_))
  rintro (e | a) w' _ hq hw'
  · exact hh e w' hw' hq
  · exact hq

/-- What is known of each outcome is known of it as a value. -/
theorem triple_attempt {p : Prog Op Res ε α} {F : ε → σ → Prop} (hp : Triple T D i K p (post A E)) :
    Triple T D i K p.attempt (post (fun r w => post A E r w) F) := by
  intro w hw hk
  exact wp_attempt (wp_mono hw (hp w hw hk) fun _ _ _ h => h)

/-- A closing part that keeps both outcomes, and whose own error is as good as one of the body. -/
theorem triple_andFinally {p : Prog Op Res ε α} {fin : Prog Op Res ε Unit}
    (hp : Triple T D i K p (post A E))
    (hA : ∀ a, Triple T D i (A a) fin (post (fun _ => A a) E'))
    (hE : ∀ e, Triple T D i (E e) fin (post (fun _ => E' e) E')) :
    Triple T D i K (p.andFinally fin) (post A E') := by
  intro w hw hk
  refine wp_bind hw (wp_attempt (wp_mono hw (hp w hw hk) ?_))
  rintro (e | a) w' _ hq hw'
  · refine wp_bind hw' (wp_mono hw' (hE e w' hw' hq) ?_)
    rintro (e' | u) w'' _ hq' _
    · exact hq'
    · exact hq'
  · refine wp_bind hw' (wp_mono hw' (hA a w' hw' hq) ?_)
    rintro (e' | u) w'' _ hq' _
    · exact hq'
    · exact hq'

theorem triple_perform {op : Op} {A : Res op → σ → Prop} (hK : D.Stable i K)
    (h : ∀ w r w', D.inv w → K w → T.exec i op w r w' → D.Allows i w w' ∧ post A E r w') :
    Triple T D i K (Prog.perform op) (post A E) := by
  intro w _ hk w₁ hr hi r w₂ he
  obtain ⟨ha, hq⟩ := h w₁ r w₂ hi (hK w w₁ hk hr hi) he
  refine ⟨ha, ?_⟩
  cases r <;> exact hq

/-- A program whose calls all keep a fact that no other thread can disturb. -/
theorem triple_only {S : Op → Prop} {p : Prog Op Res ε α} (hp : p.Only S) (hK : D.Stable i K)
    (h : ∀ op, S op → ∀ w r w', D.inv w → K w → T.exec i op w r w' → D.Allows i w w' ∧ K w') :
    Triple T D i K p (post (fun _ => K) fun _ => K) := by
  induction p with
  | pure a => exact triple_pure fun _ _ hk => hk
  | throw e => exact triple_throw fun _ _ hk => hk
  | call op k ih =>
    intro w _ hk w₁ hr hi r w₂ he
    obtain ⟨ha, hk'⟩ := h op hp.1 w₁ r w₂ hi (hK w w₁ hk hr hi) he
    exact ⟨ha, ih r (hp.2 r) w₂ ha.1 hk'⟩

/-- A returned value is known to be one that the program can return. -/
theorem triple_returns {p : Prog Op Res ε α} {Q : α → Prop} (hq : p.Returns Q)
    (h : Triple T D i K p (post A E)) : Triple T D i K p (post (fun a w => A a w ∧ Q a) E) := by
  intro w hw hk
  have hwp := h w hw hk
  clear h hk
  induction p generalizing w with
  | pure a => exact ⟨hwp, hq⟩
  | throw e => exact hwp
  | call op k ih =>
    intro w₁ hr hi r w₂ he
    obtain ⟨ha, hk⟩ := hwp w₁ hr hi r w₂ he
    exact ⟨ha, ih r (hq r) w₂ ha.1 hk⟩

/-- Facts that do not mention the world can be taken out of what is known. -/
theorem triple_intro {φ : Prop} {p : Prog Op Res ε α} {Q : Except ε α → σ → Prop}
    (h : φ → Triple T D i K p Q) : Triple T D i (fun w => φ ∧ K w) p Q :=
  fun w hw hk => h hk.1 w hw hk.2

theorem triple_exists {δ : Type} {P : δ → σ → Prop} {p : Prog Op Res ε α} {Q : Except ε α → σ → Prop}
    (h : ∀ d, Triple T D i (P d) p Q) : Triple T D i (fun w => ∃ d, P d w) p Q := by
  rintro w hw ⟨d, hk⟩
  exact h d w hw hk

end rules

section interleavings

variable [DecidableEq ι]

structure Config (ι Op : Type) (Res : Op → Type) (ε α σ : Type) where
  world : σ
  thread : ι → Option (Prog Op Res ε α)

/-- No thread is running yet. -/
def idle (w : σ) : Config ι Op Res ε α σ := ⟨w, fun _ => none⟩

def Config.set (c : Config ι Op Res ε α σ) (i : ι) (p : Option (Prog Op Res ε α)) (w : σ) :
    Config ι Op Res ε α σ := ⟨w, fun j => if j = i then p else c.thread j⟩

@[simp] theorem set_world (c : Config ι Op Res ε α σ) (i : ι) (p : Option (Prog Op Res ε α)) (w : σ) :
    (c.set i p w).world = w := rfl
@[simp] theorem set_same (c : Config ι Op Res ε α σ) (i : ι) (p : Option (Prog Op Res ε α)) (w : σ) :
    (c.set i p w).thread i = p := by simp [Config.set]
theorem set_other (c : Config ι Op Res ε α σ) (i j : ι) (p : Option (Prog Op Res ε α)) (w : σ)
    (h : j ≠ i) : (c.set i p w).thread j = c.thread j := by simp [Config.set, h]

inductive Step (T : Runtime ι Op Res ε α σ) : Config ι Op Res ε α σ → Config ι Op Res ε α σ → Prop
  | env {c w'} : T.env c.world w' → Step T c ⟨w', c.thread⟩
  | start {c i p w'} : c.thread i = none → T.start i p c.world w' → Step T c (c.set i (some p) w')
  | call {c i op k r w'} : c.thread i = some (.call op k) → T.exec i op c.world r w' →
      Step T c (c.set i (some (k r)) w')
  | finish {c i p r w'} : c.thread i = some p → p.result = some r → T.leave i (some r) c.world w' →
      Step T c (c.set i none w')
  | crash {c i p w'} : c.thread i = some p → T.leave i none c.world w' → Step T c (c.set i none w')

abbrev Reachable (T : Runtime ι Op Res ε α σ) : Config ι Op Res ε α σ → Config ι Op Res ε α σ → Prop :=
  Relation.ReflTransGen (Step T)

variable {T : Runtime ι Op Res ε α σ} {D : Discipline ι σ}

/-- Every running thread keeps to the discipline from some world that only the other
threads have changed since. -/
def Sound (T : Runtime ι Op Res ε α σ) (D : Discipline ι σ) (Q : ι → Except ε α → σ → Prop)
    (c : Config ι Op Res ε α σ) : Prop :=
  D.inv c.world ∧ ∀ i p, c.thread i = some p → ∃ w, D.rely i w c.world ∧ wp T D i p (Q i) w

variable {Q : ι → Except ε α → σ → Prop}

omit [DecidableEq ι] in
/-- The next call of a thread is one that its discipline allows. -/
theorem sound_call {c : Config ι Op Res ε α σ} {i : ι} {op : Op} {k : Except ε (Res op) → Prog Op Res ε α}
    {r : Except ε (Res op)} {w' : σ} (h : Sound T D Q c) (hp : c.thread i = some (.call op k))
    (he : T.exec i op c.world r w') : D.Allows i c.world w' := by
  obtain ⟨w, hw, hq⟩ := h.2 _ _ hp
  exact (hq _ hw h.1 _ _ he).1

/-- Replacing one thread keeps the others sound when the step is one they rely on. -/
theorem sound_set {c : Config ι Op Res ε α σ} {i : ι} {p : Option (Prog Op Res ε α)} {w' : σ}
    (h : Sound T D Q c) (ha : D.Allows i c.world w') (hp : ∀ q, p = some q → wp T D i q (Q i) w') :
    Sound T D Q (c.set i p w') := by
  refine ⟨ha.1, ?_⟩
  intro j q hj
  by_cases hji : j = i
  · subst hji
    rw [set_same] at hj
    exact ⟨w', D.refl j w' ha.1, hp q hj⟩
  · rw [set_other _ _ _ _ _ hji] at hj
    obtain ⟨w, hr, hq⟩ := h.2 j q hj
    exact ⟨w, D.trans j _ _ _ hr (ha.2 j hji), hq⟩

/-- What a discipline asks of the steps that are not calls of a program. -/
structure Respects (T : Runtime ι Op Res ε α σ) (D : Discipline ι σ) (Q : ι → Except ε α → σ → Prop) :
    Prop where
  env : ∀ w w', D.inv w → T.env w w' → D.inv w' ∧ ∀ i, D.rely i w w'
  start : ∀ i p w w', D.inv w → T.start i p w w' → D.Allows i w w' ∧ wp T D i p (Q i) w'
  finish : ∀ i r w₀ w w', D.inv w → Q i r w₀ → D.rely i w₀ w → T.leave i (some r) w w' → D.Allows i w w'
  crash : ∀ i w w', D.inv w → T.leave i none w w' → D.Allows i w w'

theorem sound_step (hD : Respects T D Q) {c c' : Config ι Op Res ε α σ} (h : Sound T D Q c)
    (hs : Step T c c') : Sound T D Q c' := by
  cases hs with
  | env he =>
    obtain ⟨hi, hr⟩ := hD.env _ _ h.1 he
    refine ⟨hi, ?_⟩
    intro i p hp
    obtain ⟨w, hw, hq⟩ := h.2 i p hp
    exact ⟨w, D.trans i _ _ _ hw (hr i), hq⟩
  | start hn hs =>
    obtain ⟨ha, hq⟩ := hD.start _ _ _ _ h.1 hs
    exact sound_set h ha (by rintro q ⟨⟩; exact hq)
  | call hp he =>
    obtain ⟨w, hw, hq⟩ := h.2 _ _ hp
    obtain ⟨ha, hk⟩ := hq _ hw h.1 _ _ he
    exact sound_set h ha (by rintro q ⟨⟩; exact hk)
  | @finish i p r _ hp hr hl =>
    obtain ⟨w, hw, hq⟩ := h.2 _ _ hp
    have hQ : Q i r w := by
      cases p with
      | pure a => cases hr; exact hq
      | throw e => cases hr; exact hq
      | call op k => cases hr
    exact sound_set h (hD.finish _ _ _ _ _ h.1 hQ hw hl) (by rintro q ⟨⟩)
  | crash hp hl => exact sound_set h (hD.crash _ _ _ h.1 hl) (by rintro q ⟨⟩)

/-- The invariant holds in every world that some interleaving reaches. -/
theorem Discipline.reachable (hD : Respects T D Q) {w : σ} (hw : D.inv w) {c : Config ι Op Res ε α σ}
    (hc : Reachable T (idle w) c) : Sound T D Q c := by
  induction hc with
  | refl => exact ⟨hw, by rintro i p ⟨⟩⟩
  | tail _ hs ih => exact sound_step hD ih hs

end interleavings

end Interference
