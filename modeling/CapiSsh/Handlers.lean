import CapiSsh.Lib.Views
import CapiSsh.Runs

/-!
# Handlers on several replicas

Attempts of one Machine that need not wait for each other: the reconcile lock expires
after 120 seconds and is not renewed. An attempt has a number of its own, or, where the
lock serializes them, is known by its Machine. What an attempt has seen is kept with the
worlds before and after each of its calls, so that one can look back at what it knew.
-/
namespace CapiSsh

open Effect Interference

/-- A call of an attempt, with the worlds that it met and left. -/
structure Exchange where
  op : Op
  reply : Except Exc (Reply op)
  before : World
  after : World

/-- What one attempt has done, latest call first, and what it has staged. -/
structure Local where
  kind : Attempt
  calls : List Exchange
  staged : Patch
  seen : World

def Local.fresh (a : Attempt) (w : World) : Local := ⟨a, [], Patch.empty, w⟩

def Local.push (l : Local) (i : MachineRef) (e : Exchange) : Local :=
  ⟨l.kind, e :: l.calls, e.after.staged i, e.after⟩

/-- A handler and Kopf's application of what it staged, whatever becomes of that. -/
def Attempt.handled (tools : PayloadTools) (timeout : Time) (i : MachineRef) (a : Attempt) :
    Act (Except Exc (Option Binding)) := do
  let outcome ← (a.body tools timeout i).attempt
  let _ ← (call (.applyStaged i.key)).attempt
  return outcome

/-- A call of the past, with the calls that the same attempt had made before it. -/
structure Made where
  machine : MachineRef
  kind : Attempt
  exchange : Exchange
  earlier : List Exchange

/-- The cluster with what its attempts have seen, and all their calls. -/
structure Site (ι : Type) where
  world : World
  attempts : ι → Local
  history : List Made

def Site.empty (ι : Type) : Site ι := ⟨World.empty, fun _ => .fresh .bind World.empty, []⟩

section

variable {ι : Type} [DecidableEq ι]

def Site.put (s : Site ι) (k : ι) (l : Local) (w : World) : Site ι :=
  ⟨w, fun j => if j = k then l else s.attempts j, s.history⟩

/-- The attempt `k` of `i` has made a call. -/
def Site.record (s : Site ι) (k : ι) (i : MachineRef) (e : Exchange) : Site ι :=
  { s.put k ((s.attempts k).push i e) e.after with
    history := ⟨i, (s.attempts k).kind, e, (s.attempts k).calls⟩ :: s.history }

/-- Each attempt works on the patch that it stages itself. -/
def handlers (S : Setting) (who : ι → MachineRef) :
    Runtime ι Op Reply Exc (Except Exc (Option Binding)) (Site ι) where
  exec k op s r s' :=
    let w := s.world.restage (who k) (s.attempts k).staged
    ∃ c w', answer S.boots (who k) op c w = some (r, w') ∧ s' = s.record k (who k) ⟨op, r, w, w'⟩
  env s s' := ∃ c w', s.world.change S.trust c = some w' ∧ s' = { s with world := w' }
  start k p s s' := ∃ a : Attempt, a.admitted (who k) s.world ∧ p = a.handled S.tools S.timeout (who k) ∧
    s' = s.put k (.fresh a s.world) (s.world.restage (who k) Patch.empty)
  leave _ _ s s' := s' = s

@[simp] theorem put_world (s : Site ι) (k : ι) (l : Local) (w : World) : (s.put k l w).world = w := rfl
@[simp] theorem put_same (s : Site ι) (k : ι) (l : Local) (w : World) : (s.put k l w).attempts k = l := by
  simp [Site.put]

/-- The attempts of others stay as they are. -/
theorem put_other {k j : ι} (s : Site ι) (l : Local) (w : World) (h : j ≠ k) :
    (s.put k l w).attempts j = s.attempts j := by simp [Site.put, h]
@[simp] theorem recorded_world (s : Site ι) (k : ι) (i : MachineRef) (e : Exchange) :
    (s.record k i e).world = e.after := rfl
@[simp] theorem recorded_same (s : Site ι) (k : ι) (i : MachineRef) (e : Exchange) :
    (s.record k i e).attempts k = (s.attempts k).push i e := by simp [Site.record, Site.put]

/-- A recorded call belongs to one attempt. -/
theorem recorded_other {k j : ι} (s : Site ι) (i : MachineRef) (e : Exchange) (h : j ≠ k) :
    (s.record k i e).attempts j = s.attempts j := by simp [Site.record, Site.put, h]

end

/-- An attempt of `i` in a world that changes before every call, as far as `Known` tells. -/
def solo (S : Setting) (Known : MachineRef → Local → Exchange → Prop) (i : MachineRef) :
    Runtime Unit Op Reply Exc (Except Exc (Option Binding)) Local where
  exec _ op l r l' := ∃ c w w', w.staged i = l.staged ∧ answer S.boots i op c w = some (r, w') ∧
    Known i l ⟨op, r, w, w'⟩ ∧ l' = l.push i ⟨op, r, w, w'⟩
  env _ _ := False
  start _ p _ l' := ∃ (a : Attempt) (w : World), a.admitted i w ∧ p = a.handled S.tools S.timeout i ∧
    l' = .fresh a w
  leave _ _ l l' := l' = l

/-- Every call is made as `G` demands, given the calls before it. -/
def Guarded (G : Attempt → Exchange → List Exchange → Prop) (l : Local) : Prop :=
  ∀ later e earlier, l.calls = later ++ e :: earlier → G l.kind e earlier

section

variable {G : Attempt → Exchange → List Exchange → Prop} {l : Local} {i : MachineRef} {e : Exchange}

/-- An attempt that has called nothing is guarded. -/
theorem guarded_fresh {a : Attempt} {w : World} : Guarded G (.fresh a w) := by
  intro later e earlier h
  cases later <;> cases h

/-- A guarded call after guarded ones. -/
theorem guarded_push (h : Guarded G l) (he : G l.kind e l.calls) : Guarded G (l.push i e) := by
  intro later e' earlier hc
  cases later with
  | nil =>
    cases hc
    exact he
  | cons e'' later =>
    have hc : e :: l.calls = e'' :: (later ++ e' :: earlier) := hc
    exact h later e' earlier (List.cons.inj hc).2

end

section

variable {S : Setting} {Known : MachineRef → Local → Exchange → Prop} {i : MachineRef}
  {G : Attempt → Exchange → List Exchange → Prop} {K : Local → Prop} {E : Exc → Local → Prop}

/-- What an attempt knows before and after a part of its program, whose calls are all made
as `G` demands. -/
def Walks (S : Setting) (Known : MachineRef → Local → Exchange → Prop) (i : MachineRef)
    (G : Attempt → Exchange → List Exchange → Prop) (K : Local → Prop) (p : Act α)
    (A : α → Local → Prop) (E : Exc → Local → Prop) : Prop :=
  Triple (solo S Known i) (alone (Guarded G)) () K p (post A E)

/-- The rule of a call: what is known when it is made has to yield its guard and the
post-condition. -/
theorem walks_call {op : Op} {A : Reply op → Local → Prop}
    (h : ∀ l c w r w', K l → w.staged i = l.staged → answer S.boots i op c w = some (r, w') →
      Known i l ⟨op, r, w, w'⟩ → G l.kind ⟨op, r, w, w'⟩ l.calls ∧ post A E r (l.push i ⟨op, r, w, w'⟩)) :
    Walks S Known i G K (call op) A E := by
  refine alone_perform ?_
  rintro l r l' hl hk ⟨c, w, w', hs, ha, hkn, rfl⟩
  obtain ⟨hg, hq⟩ := h l c w r w' hk hs ha hkn
  exact ⟨guarded_push hl hg, hq⟩

/-- What every call of some kind keeps, a program of such calls keeps. -/
theorem walks_only {s : Op → Prop} {p : Act α} (hp : p.Only s)
    (h : ∀ op, s op → ∀ l c w r w', K l → w.staged i = l.staged → answer S.boots i op c w = some (r, w') →
      Known i l ⟨op, r, w, w'⟩ → G l.kind ⟨op, r, w, w'⟩ l.calls ∧ K (l.push i ⟨op, r, w, w'⟩)) :
    Walks S Known i G K p (fun _ => K) (fun _ => K) := by
  refine alone_only hp ?_
  rintro op hop l r l' hl hk ⟨c, w, w', hs, ha, hkn, rfl⟩
  obtain ⟨hg, hk'⟩ := h op hop l c w r w' hk hs ha hkn
  exact ⟨guarded_push hl hg, hk'⟩

end

end CapiSsh
