import CapiSsh.Lib.Interference

/-!
# What one thread sees

A thread of a concurrent run can be followed on its own. A view of the world belongs to one
thread, only its own calls change it, and each of them is a call of a local runtime that
has no other threads. What the program does there, whatever is answered, it does in every
interleaving. A run can also be limited to calls that meet some condition.
-/
namespace Interference

open Effect

variable {ι Op : Type} {Res : Op → Type} {ε α β σ τ : Type}

/-- The runs whose calls all satisfy `C`. -/
def Runtime.limit (T : Runtime ι Op Res ε α σ) (C : ι → (op : Op) → σ → Except ε (Res op) → σ → Prop) :
    Runtime ι Op Res ε α σ :=
  { T with exec := fun i op w r w' => T.exec i op w r w' ∧ C i op w r w' }

/-- Nobody else takes a step. -/
def alone (inv : τ → Prop) : Discipline Unit τ where
  inv := inv
  rely _ w w' := w = w'
  refl _ _ _ := rfl
  trans _ _ _ _ := Eq.trans

theorem alone_allows {inv : τ → Prop} {w w' : τ} (h : inv w') : (alone inv).Allows () w w' :=
  ⟨h, fun _ hj => absurd rfl hj⟩

theorem alone_stable {inv : τ → Prop} (K : τ → Prop) : (alone inv).Stable () K := by
  rintro w w' h rfl -
  exact h

/-- A call that nobody can get in front of. -/
theorem alone_perform {U : Runtime Unit Op Res ε β τ} {inv : τ → Prop} {op : Op} {K : τ → Prop}
    {A : Res op → τ → Prop} {E : ε → τ → Prop}
    (h : ∀ w r w', inv w → K w → U.exec () op w r w' → inv w' ∧ post A E r w') :
    Triple U (alone inv) () K (Prog.perform op) (post A E) := by
  refine triple_perform (alone_stable K) fun w r w' hw hk he => ?_
  obtain ⟨hi, hq⟩ := h w r w' hw hk he
  exact ⟨alone_allows hi, hq⟩

theorem alone_only {U : Runtime Unit Op Res ε β τ} {inv : τ → Prop} {S : Op → Prop} {p : Prog Op Res ε α}
    {K : τ → Prop} (hp : p.Only S)
    (h : ∀ op, S op → ∀ w r w', inv w → K w → U.exec () op w r w' → inv w' ∧ K w') :
    Triple U (alone inv) () K p (post (fun _ => K) fun _ => K) := by
  refine triple_only hp (alone_stable K) fun op hop w r w' hw hk he => ?_
  obtain ⟨hi, hk'⟩ := h op hop w r w' hw hk he
  exact ⟨alone_allows hi, hk'⟩

section views

variable [DecidableEq ι]

theorem limit_step {T : Runtime ι Op Res ε α σ} {C : ι → (op : Op) → σ → Except ε (Res op) → σ → Prop}
    {c c' : Config ι Op Res ε α σ} (h : Step (T.limit C) c c') : Step T c c' := by
  cases h with
  | env h => exact .env h
  | start hn h => exact .start hn h
  | call hp h => exact .call hp h.1
  | finish hp hr h => exact .finish hp hr h
  | crash hp h => exact .crash hp h

theorem limit_reachable {T : Runtime ι Op Res ε α σ} {C : ι → (op : Op) → σ → Except ε (Res op) → σ → Prop}
    {c c' : Config ι Op Res ε α σ} (h : Reachable (T.limit C) c c') : Reachable T c c' :=
  Relation.ReflTransGen.mono (fun _ _ => limit_step) _ _ h

/-- A condition that every call meets limits nothing. -/
theorem reachable_limit {T : Runtime ι Op Res ε α σ} {C : ι → (op : Op) → σ → Except ε (Res op) → σ → Prop}
    (hC : ∀ i op w r w', C i op w r w') {c c' : Config ι Op Res ε α σ} (h : Reachable T c c') :
    Reachable (T.limit C) c c' := by
  induction h with
  | refl => exact .refl
  | tail _ hs ih =>
    refine ih.tail ?_
    cases hs with
    | env h => exact .env h
    | start hn h => exact .start hn h
    | call hp h => exact .call hp ⟨h, hC _ _ _ _ _⟩
    | finish hp hr h => exact .finish hp hr h
    | crash hp h => exact .crash hp h

/-- While `I` holds, the steps of `T` are steps of each thread in its own view. -/
structure Views (T : Runtime ι Op Res ε α σ) (U : ι → Runtime Unit Op Res ε α τ) (view : ι → σ → τ)
    (I : Config ι Op Res ε α σ → Prop) : Prop where
  env : ∀ c w', I c → T.env c.world w' → ∀ i, view i w' = view i c.world
  start : ∀ c i p w', I c → T.start i p c.world w' →
    (U i).start () p (view i c.world) (view i w') ∧ ∀ j, j ≠ i → view j w' = view j c.world
  exec : ∀ c i op k r w', I c → c.thread i = some (.call op k) → T.exec i op c.world r w' →
    (U i).exec () op (view i c.world) r (view i w') ∧ ∀ j, j ≠ i → view j w' = view j c.world
  leave : ∀ c i r w', I c → T.leave i r c.world w' → ∀ j, view j w' = view j c.world

variable {T : Runtime ι Op Res ε α σ} {U : ι → Runtime Unit Op Res ε α τ} {view : ι → σ → τ}
  {I : Config ι Op Res ε α σ → Prop} {inv : ι → τ → Prop} {Q : ι → Except ε α → τ → Prop}

/-- Every running thread keeps to its own discipline from what it sees. -/
def Followed (U : ι → Runtime Unit Op Res ε α τ) (view : ι → σ → τ) (inv : ι → τ → Prop)
    (Q : ι → Except ε α → τ → Prop) (c : Config ι Op Res ε α σ) : Prop :=
  ∀ i, inv i (view i c.world) ∧
    ∀ p, c.thread i = some p → wp (U i) (alone (inv i)) () p (Q i) (view i c.world)

theorem followed_set {c : Config ι Op Res ε α σ} {i : ι} {p : Option (Prog Op Res ε α)} {w' : σ}
    (h : Followed U view inv Q c) (hv : ∀ j, j ≠ i → view j w' = view j c.world) (hi : inv i (view i w'))
    (hp : ∀ q, p = some q → wp (U i) (alone (inv i)) () q (Q i) (view i w')) :
    Followed U view inv Q (c.set i p w') := by
  intro j
  by_cases hj : j = i
  · subst hj
    refine ⟨hi, fun q hq => ?_⟩
    rw [set_same] at hq
    exact hp q hq
  · rw [set_world, hv j hj]
    refine ⟨(h j).1, fun q hq => ?_⟩
    rw [set_other _ _ _ _ _ hj] at hq
    exact (h j).2 q hq

theorem followed_step (hV : Views T U view I)
    (hs : ∀ i p w w', (U i).start () p w w' → inv i w' ∧ wp (U i) (alone (inv i)) () p (Q i) w')
    {c c' : Config ι Op Res ε α σ} (hI : I c) (h : Followed U view inv Q c) (hc : Step T c c') :
    Followed U view inv Q c' := by
  cases hc with
  | env he =>
    intro i
    rw [hV.env _ _ hI he i]
    exact h i
  | start hn he =>
    obtain ⟨hst, hv⟩ := hV.start _ _ _ _ hI he
    obtain ⟨hi, hq⟩ := hs _ _ _ _ hst
    exact followed_set h hv hi (by rintro q ⟨⟩; exact hq)
  | @call i op k r w' hp he =>
    obtain ⟨hst, hv⟩ := hV.exec _ _ _ _ _ _ hI hp he
    obtain ⟨ha, hk⟩ := (h i).2 _ hp _ rfl (h i).1 _ _ hst
    exact followed_set h hv ha.1 (by rintro q ⟨⟩; exact hk)
  | finish hp hr he =>
    have hv := hV.leave _ _ _ _ hI he
    exact followed_set h (fun j _ => hv j) (by rw [hv]; exact (h _).1) (by rintro q ⟨⟩)
  | crash hp he =>
    have hv := hV.leave _ _ _ _ hI he
    exact followed_set h (fun j _ => hv j) (by rw [hv]; exact (h _).1) (by rintro q ⟨⟩)

/-- What every program keeps to on its own, it keeps to in every interleaving. -/
theorem Views.reachable (hV : Views T U view I)
    (hs : ∀ i p w w', (U i).start () p w w' → inv i w' ∧ wp (U i) (alone (inv i)) () p (Q i) w')
    {w : σ} (hI : ∀ c, Reachable T (idle w) c → I c) (hw : ∀ i, inv i (view i w))
    {c : Config ι Op Res ε α σ} (hc : Reachable T (idle w) c) : Followed U view inv Q c := by
  induction hc with
  | refl => exact fun i => ⟨hw i, by rintro p ⟨⟩⟩
  | tail hr hs' ih => exact followed_step hV hs (hI _ hr) ih hs'

end views

end Interference
