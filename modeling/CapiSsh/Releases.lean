import CapiSsh.Powers
import CapiSsh.Replay

/-!
# Releases that are repeated

Machines bind hosts of the pool, mark their phases and release them, in any interleaving;
users leave the claims to them. A release that has cleared its claim may be repeated: what
the repetition makes of the host depends on who claims it by then.
-/
namespace CapiSsh

open Effect Interference

/-- What a Machine does to the inventory. -/
inductive PoolAct where
  | bind : MachineSpec → MachineStatus → PoolAct
  | phase : Binding → HostPhase → String → PoolAct
  | release : Binding → PoolAct

def PoolAct.program (i : MachineRef) : PoolAct → Act Unit
  | .bind spec status => do
    let _ ← bindMachine spec status i.key i.uid
  | .phase binding new reason => setHostPhase binding i.key i.uid new reason
  | .release binding => releaseHost binding i.key i.uid

def PoolAct.releases : PoolAct → Prop
  | .release _ => True
  | _ => False

instance (a : PoolAct) : Decidable a.releases := by
  cases a <;> unfold PoolAct.releases <;> infer_instance

/-- The world, and for each worker what it does and the calls that it has made for it. -/
structure Pool (ι : Type) where
  world : World
  act : ι → PoolAct
  calls : ι → List Exchange

section

variable {ι : Type} [DecidableEq ι]

def Pool.begin (s : Pool ι) (k : ι) (a : PoolAct) : Pool ι :=
  ⟨s.world, fun j => if j = k then a else s.act j, fun j => if j = k then [] else s.calls j⟩

def Pool.made (s : Pool ι) (k : ι) (e : Exchange) : Pool ι :=
  ⟨e.after, s.act, fun j => if j = k then e :: s.calls j else s.calls j⟩

def claimsTrusted : Trust := ⟨true, false, fun h => by cases h⟩

/-- Workers act for the Machines `who`, each time with an act that it may do. -/
def pool (boots : Target → Nat → String) (who : ι → MachineRef) (may : ι → PoolAct → Prop) :
    Runtime ι Op Reply Exc Unit (Pool ι) where
  exec k op s r s' := ∃ c w', answer boots (who k) op c s.world = some (r, w') ∧ s' = s.made k ⟨op, r, s.world, w'⟩
  env s s' := ∃ c w', s.world.change claimsTrusted c = some w' ∧ s' = { s with world := w' }
  start k p s s' := ∃ a, may k a ∧ p = a.program (who k) ∧ s' = s.begin k a
  leave _ _ s s' := s' = s

/-- Whatever each worker wants. -/
abbrev anyAct (_ : ι) (_ : PoolAct) : Prop := True

/-- Workers of `i` only release; the others do anything. -/
def onlyReleases (who : ι → MachineRef) (i : MachineRef) (k : ι) (a : PoolAct) : Prop := who k = i → a.releases

instance (k : ι) (a : PoolAct) : Decidable (anyAct k a) := inferInstanceAs (Decidable True)

instance (who : ι → MachineRef) (i : MachineRef) (k : ι) (a : PoolAct) : Decidable (onlyReleases who i k a) :=
  inferInstanceAs (Decidable (who k = i → a.releases))

end

def Op.claimsFor (i : MachineRef) : Op → Prop
  | .patchHost _ _ (some ref) => ref = i.consumer
  | _ => True

def Op.claimsNothing : Op → Prop
  | .patchHost _ _ (some _) => False
  | _ => True

theorem claimsNothing_for {i : MachineRef} {op : Op} (h : op.claimsNothing) : op.claimsFor i := by
  cases op with
  | patchHost key pre claim =>
    cases claim with
    | none => trivial
    | some ref => exact h.elim
  | _ => trivial

/-- The powers of an inventory act that claims no host. -/
def Powers.unclaiming : Powers where
  look := True
  allocate := True
  own := True
  record := True
  clean := True
  report := True
  provision := True
  claim := False
  mark := True
  dial := True
  bootstrap := True
  reboot := True
  reset := True
  apply := True
  uploads _ := True

theorem unclaiming_nothing {i : MachineRef} {op : Op} (h : Powers.unclaiming.allows i op) : op.claimsNothing := by
  cases op with
  | patchHost key pre claim => exact h.elim
  | _ => trivial

variable {i : MachineRef} {spec : MachineSpec} {status : MachineStatus} {binding : Binding}

theorem unclaims_releaseHost : (releaseHost binding i.key i.uid).Only Op.claimsNothing := by
  unfold releaseHost
  split
  · trivial
  · exact Prog.only_bind (Prog.only_perform trivial) fun _ => Prog.only_bind only_raiseIf fun _ => only_onlyIf
      (Prog.only_bind only_raiseIf fun _ => Prog.only_bind (Prog.only_perform trivial) fun _ =>
        Prog.only_bind (Prog.only_perform trivial) fun _ => trivial)

theorem claims_claimFirst (labels : List (String × String)) (hosts : List Host) :
    (claimFirst labels i.key i.uid hosts).Only (Op.claimsFor i) := by
  induction hosts with
  | nil => trivial
  | cons host rest ih =>
    unfold claimFirst
    split
    · exact ih
    · refine Prog.only_handle (Prog.only_perform rfl) fun e => ?_
      split
      · split
        · exact ih
        · trivial
      · trivial

theorem claims_unclaiming {p : Act α} (h : p.Only (Powers.unclaiming.allows i)) : p.Only (Op.claimsFor i) :=
  Prog.only_mono h fun _ hop => claimsNothing_for (unclaiming_nothing hop)

theorem claims_selectHost : (selectHost spec status i.key i.uid).Only (Op.claimsFor i) := by
  refine Prog.only_bind (Prog.only_perform trivial) fun hosts => ?_
  split
  · trivial
  · trivial
  · exact Prog.only_bind only_raiseIf fun _ => Prog.only_bind only_raiseIf fun _ => claims_claimFirst _ _

theorem claims_deriveBinding : (deriveBinding spec status i.key i.uid).Only (Op.claimsFor i) := by
  unfold deriveBinding
  split
  · exact claims_unclaiming may_checkAllocation
  · unfold newBinding
    split
    · exact Prog.only_bind claims_selectHost fun _ => Prog.only_bind only_raiseIf fun _ => trivial
    · split
      · trivial
      · split <;> trivial

theorem claims_bindMachine : (bindMachine spec status i.key i.uid).Only (Op.claimsFor i) :=
  Prog.only_bind claims_deriveBinding fun _ =>
    Prog.only_bind (only_onlyIf (claims_unclaiming (may_commitBinding trivial trivial))) fun _ =>
      Prog.only_bind (Prog.only_perform trivial) fun _ =>
        Prog.only_bind (claims_unclaiming (may_setHostPhase trivial)) fun _ => trivial

/-- Every program claims hosts for its own Machine only. -/
theorem claims_program (a : PoolAct) : (a.program i).Only (Op.claimsFor i) := by
  cases a with
  | bind spec status => exact Prog.only_bind claims_bindMachine fun _ => trivial
  | phase binding new reason => exact claims_unclaiming (may_setHostPhase trivial)
  | release binding => exact Prog.only_mono unclaims_releaseHost fun _ => claimsNothing_for

theorem releases_program {a : PoolAct} (h : a.releases) : (a.program i).Only Op.claimsNothing := by
  cases a with
  | release binding => exact unclaims_releaseHost
  | bind spec status => exact h.elim
  | phase binding new reason => exact h.elim

/-- What remains of a program after calls that it has made, the latest first. -/
inductive Remains (p₀ : Act Unit) : List Exchange → Act Unit → Prop
  | start : Remains p₀ [] p₀
  | call {calls op k r w w'} : Remains p₀ calls (.call op k) → Remains p₀ (⟨op, r, w, w'⟩ :: calls) (k r)

theorem remains_only {s : Op → Prop} {p₀ p : Act Unit} {calls : List Exchange} (hp : p₀.Only s)
    (h : Remains p₀ calls p) : p.Only s := by
  induction h with
  | start => exact hp
  | call _ ih => exact ih.2 _

/-- Calls that only read, by what they leave of the program. -/
def OnlyReads (calls : List Exchange) : Prop := ∀ e ∈ calls, e.after = e.before

variable {w w' : World} {op : Op}

/-- All claims are those of Machines. -/
def Claimed (w : World) : Prop :=
  ∀ key h, w.hosts.lookup key = some h → h.spec.consumerRef = none ∨ ∃ j : MachineRef, h.spec.consumerRef = some j.consumer

/-- The claims of hosts after a call: as before, cleared, or made by the caller. -/
theorem written_claims (h : Written i op w w') (hop : op.claimsFor i) {key : ObjectKey} {x : Host}
    (hl : w'.hosts.lookup key = some x) :
    (∃ x₀, w.hosts.lookup key = some x₀ ∧ x.spec.consumerRef = x₀.spec.consumerRef) ∨ x.spec.consumerRef = none ∨
      x.spec.consumerRef = some i.consumer ∧ ¬ op.claimsNothing := by
  cases h with
  | @claim key' pre ref old hkey hold hpre =>
    subst hkey
    by_cases hk : key = key'
    · subst hk
      simp only [World.note, World.storeHost, AList.lookup_insert, Option.some.injEq] at hl
      subst hl
      cases ref with
      | none => exact .inr (.inl rfl)
      | some r =>
        obtain rfl : r = i.consumer := hop
        exact .inr (.inr ⟨rfl, id⟩)
    · simp only [World.note, World.storeHost, AList.lookup_insert_ne hk] at hl
      exact .inl ⟨x, hl, rfl⟩
  | @phase key' pre phase inUse reason old hkey hold hpre =>
    by_cases hk : key = key'
    · subst hk
      simp only [World.note, World.storeHost, AList.lookup_insert, Option.some.injEq] at hl
      subst hl
      exact .inl ⟨old, hold, rfl⟩
    · simp only [World.note, World.storeHost, AList.lookup_insert_ne hk] at hl
      exact .inl ⟨x, hl, rfl⟩
  | _ => exact .inl ⟨x, hl, rfl⟩

/-- Users claim nothing. -/
theorem change_claims {c : Change} (h : w.change claimsTrusted c = some w') {key : ObjectKey} {x : Host}
    (hl : w'.hosts.lookup key = some x) :
    (∃ x₀, w.hosts.lookup key = some x₀ ∧ x.spec.consumerRef = x₀.spec.consumerRef) ∨ x.spec.consumerRef = none := by
  cases c with
  | createMachine m =>
    simp only [World.change] at h
    split at h
    · cases h
      exact .inl ⟨x, hl, rfl⟩
    · cases h
  | editMachine k spec metadata =>
    obtain ⟨m, -, h⟩ := Option.bind_eq_some_iff.mp h
    split at h <;> cases h <;> exact .inl ⟨x, hl, rfl⟩
  | deleteMachine k t =>
    obtain ⟨m, -, h⟩ := Option.bind_eq_some_iff.mp h
    cases h
    exact .inl ⟨x, hl, rfl⟩
  | dropMachine k =>
    cases h
    exact .inl ⟨x, hl, rfl⟩
  | createHost new =>
    simp only [World.change] at h
    split at h
    · rename_i hfree
      cases h
      by_cases hk : key = new.metadata.key
      · subst hk
        simp only [World.storeHost, AList.lookup_insert, Option.some.injEq] at hl
        subst hl
        exact .inr (hfree.2 rfl)
      · simp only [World.storeHost, AList.lookup_insert_ne hk] at hl
        exact .inl ⟨x, hl, rfl⟩
    · cases h
  | editHost k new =>
    obtain ⟨old, hold, h⟩ := Option.bind_eq_some_iff.mp h
    split at h
    · rename_i hsame
      cases h
      by_cases hk : key = k
      · subst hk
        simp only [World.storeHost, AList.lookup_insert, Option.some.injEq] at hl
        subst hl
        exact .inl ⟨old, hold, hsame.1 rfl⟩
      · simp only [World.storeHost, AList.lookup_insert_ne hk] at hl
        exact .inl ⟨x, hl, rfl⟩
    · cases h
  | dropHost k =>
    cases h
    exact .inl ⟨x, lookup_of_erase hl, rfl⟩
  | rebootHost t =>
    cases h
    exact .inl ⟨x, hl, rfl⟩

section runs

variable {ι : Type} [DecidableEq ι] {boots : Target → Nat → String} {who : ι → MachineRef} {may : ι → PoolAct → Prop}

abbrev PoolRun (ι : Type) := Config ι Op Reply Exc Unit (Pool ι)

/-- Claims are those of Machines, and every worker is somewhere in its act. -/
structure Working (boots : Target → Nat → String) (who : ι → MachineRef) (c : PoolRun ι) : Prop where
  claimed : Claimed c.world.world
  remains : ∀ k p, c.thread k = some p → Remains ((c.world.act k).program (who k)) (c.world.calls k) p
  answered : ∀ k e, e ∈ c.world.calls k → Claimed e.before ∧ ∃ ch, answer boots (who k) e.op ch e.before = some (e.reply, e.after)

theorem claimed_written (hw : Claimed w) (h : Written i op w w') (hop : op.claimsFor i) : Claimed w' := by
  intro key x hl
  rcases written_claims h hop hl with ⟨x₀, hl₀, heq⟩ | hnone | ⟨hown, -⟩
  · rw [heq]
    exact hw key x₀ hl₀
  · exact .inl hnone
  · exact .inr ⟨i, hown⟩

theorem claimed_change {c : Change} (hw : Claimed w) (h : w.change claimsTrusted c = some w') : Claimed w' := by
  intro key x hl
  rcases change_claims h hl with ⟨x₀, hl₀, heq⟩ | hnone
  · rw [heq]
    exact hw key x₀ hl₀
  · exact .inl hnone

/-- One worker moves on, the others stay where they are. -/
theorem Working.set {c : PoolRun ι} (h : Working boots who c) {k : ι} {p : Option (Act Unit)} {s' : Pool ι}
    (hw : Claimed s'.world) (hother : ∀ j, j ≠ k → s'.act j = c.world.act j ∧ s'.calls j = c.world.calls j)
    (hp : ∀ q, p = some q → Remains ((s'.act k).program (who k)) (s'.calls k) q)
    (ha : ∀ e ∈ s'.calls k, Claimed e.before ∧ ∃ ch, answer boots (who k) e.op ch e.before = some (e.reply, e.after)) :
    Working boots who (c.set k p s') := by
  refine ⟨hw, fun j q hj => ?_, fun j e he => ?_⟩
  · by_cases hjk : j = k
    · subst hjk
      rw [set_same] at hj
      exact hp q hj
    · rw [set_other _ _ _ _ _ hjk] at hj
      rw [set_world, (hother j hjk).1, (hother j hjk).2]
      exact h.remains j q hj
  · rw [set_world] at he
    by_cases hjk : j = k
    · subst hjk
      exact ha e he
    · rw [(hother j hjk).2] at he
      exact h.answered j e he

theorem begin_other (s : Pool ι) (a : PoolAct) {j k : ι} (h : j ≠ k) :
    (s.begin k a).act j = s.act j ∧ (s.begin k a).calls j = s.calls j := by simp [Pool.begin, h]

theorem made_other (s : Pool ι) (e : Exchange) {j k : ι} (h : j ≠ k) :
    (s.made k e).act j = s.act j ∧ (s.made k e).calls j = s.calls j := by simp [Pool.made, h]

@[simp] theorem begin_act (s : Pool ι) (k : ι) (a : PoolAct) : (s.begin k a).act k = a := by simp [Pool.begin]
@[simp] theorem begin_calls (s : Pool ι) (k : ι) (a : PoolAct) : (s.begin k a).calls k = [] := by simp [Pool.begin]
@[simp] theorem made_act (s : Pool ι) (k : ι) (e : Exchange) : (s.made k e).act = s.act := rfl
@[simp] theorem made_calls (s : Pool ι) (k : ι) (e : Exchange) : (s.made k e).calls k = e :: s.calls k := by
  simp [Pool.made]

theorem working_step {c c' : PoolRun ι} (h : Working boots who c) (hs : Step (pool boots who may) c c') :
    Working boots who c' := by
  cases hs with
  | env he =>
    obtain ⟨ch, w', hc, rfl⟩ := he
    exact ⟨claimed_change h.claimed hc, h.remains, h.answered⟩
  | @start k p s' hn he =>
    obtain ⟨a, -, rfl, rfl⟩ := he
    refine h.set h.claimed (fun j => begin_other _ _) ?_ (by simp)
    rintro q ⟨⟩
    simpa using Remains.start
  | @call k op kont r s' hk he =>
    obtain ⟨ch, w', ha, rfl⟩ := he
    have hrem := h.remains k _ hk
    refine h.set (claimed_written h.claimed (answer_written ha) (remains_only (claims_program _) hrem).1)
      (fun j => made_other _ _) ?_ ?_
    · rintro q ⟨⟩
      simpa using hrem.call
    · intro e he
      rcases List.mem_cons.mp (made_calls c.world k _ ▸ he) with rfl | he
      · exact ⟨h.claimed, ch, ha⟩
      · exact h.answered k e he
  | @finish k p r s' hk _ he =>
    obtain rfl := he
    exact h.set h.claimed (fun _ _ => ⟨rfl, rfl⟩) (by rintro q ⟨⟩) (h.answered k)
  | @crash k p s' hk he =>
    obtain rfl := he
    exact h.set h.claimed (fun _ _ => ⟨rfl, rfl⟩) (by rintro q ⟨⟩) (h.answered k)

theorem reachable_working {c c' : PoolRun ι} (h : Working boots who c) (hr : Reachable (pool boots who may) c c') :
    Working boots who c' := by
  induction hr with
  | refl => exact h
  | tail _ hs ih => exact working_step ih hs

def Pool.empty (ι : Type) : Pool ι := ⟨World.empty, fun _ => .release ⟨"", 0, "", ⟨none, none⟩, ⟨none, none⟩, 0, none, none⟩, fun _ => []⟩

omit [DecidableEq ι] in
theorem working_empty : Working boots who (idle (Pool.empty ι)) := by
  refine ⟨fun key x hl => ?_, ?_, ?_⟩
  · have hl : (∅ : AList fun _ : ObjectKey => Host).lookup key = some x := hl
    rw [AList.lookup_empty] at hl
    cases hl
  · rintro k p ⟨⟩
  · rintro k e ⟨⟩

/-- A release of `i` clears its claim of a host; its response may still be lost. -/
def Clears (boots : Target → Nat → String) (who : ι → MachineRef) (i : MachineRef) (ref : ObjectKey)
    (c c₀ : PoolRun ι) : Prop :=
  ∃ k pre kont lost r w', who k = i ∧ (c.world.act k).releases ∧ c.thread k = some (.call (.patchHost ref pre none) kont) ∧
    answer boots i (.patchHost ref pre none) (.commit lost) c.world.world = some (r, w') ∧
    c₀ = c.set k (some (kont r)) (c.world.made k ⟨.patchHost ref pre none, r, c.world.world, w'⟩)

/-- Since then `i` has not claimed the host again, and nobody has read that it did. -/
structure Since (who : ι → MachineRef) (i : MachineRef) (ref : ObjectKey) (c₀ c : PoolRun ι) : Prop where
  free : ∀ x, c.world.world.hosts.lookup ref = some x → x.spec.consumerRef ≠ some i.consumer
  acts : ∀ k p, c.thread k = some p → who k = i → (c.world.act k).releases
  reads : ∀ k e, e ∈ c.world.calls k → e ∉ c₀.world.calls k → ∀ x, e.before.hosts.lookup ref = some x →
    x.spec.consumerRef ≠ some i.consumer

variable {i : MachineRef} {ref : ObjectKey} {c₁ c₀ c : PoolRun ι}

theorem since_clears (h : Clears boots who i ref c₁ c₀)
    (hacts : ∀ k p, c₁.thread k = some p → who k = i → (c₁.world.act k).releases) : Since who i ref c₀ c₀ := by
  obtain ⟨k, pre, kont, lost, r, w', hwho, hrel, hk, ha, rfl⟩ := h
  refine ⟨fun x hx => ?_, fun j p hj hji => ?_, fun j e he hne => absurd he hne⟩
  · rw [set_world] at hx
    simp only [answer] at ha
    split at ha
    · cases ha
    · rename_i hp
      obtain ⟨r', -, he⟩ := Option.map_eq_some_iff.mp ha
      cases he
      obtain ⟨hl, -, -, -, rfl⟩ := patchHost_cases hp
      simp only [Pool.made, World.note, World.storeHost, AList.lookup_insert, Option.some.injEq] at hx
      subst hx
      rintro ⟨⟩
  · by_cases hjk : j = k
    · subst hjk
      exact hrel
    · rw [set_other _ _ _ _ _ hjk] at hj
      exact hacts j p hj hji

theorem Since.set (h : Since who i ref c₀ c) {k : ι} {p : Option (Act Unit)} {s' : Pool ι}
    (hfree : ∀ x, s'.world.hosts.lookup ref = some x → x.spec.consumerRef ≠ some i.consumer)
    (hother : ∀ j, j ≠ k → s'.act j = c.world.act j ∧ s'.calls j = c.world.calls j)
    (hact : ∀ q, p = some q → who k = i → (s'.act k).releases)
    (hread : ∀ e ∈ s'.calls k, e ∉ c₀.world.calls k → ∀ x, e.before.hosts.lookup ref = some x →
      x.spec.consumerRef ≠ some i.consumer) : Since who i ref c₀ (c.set k p s') := by
  refine ⟨hfree, fun j q hj hji => ?_, fun j e he hne => ?_⟩
  · by_cases hjk : j = k
    · subst hjk
      rw [set_same] at hj
      exact hact q hj hji
    · rw [set_other _ _ _ _ _ hjk] at hj
      rw [set_world, (hother j hjk).1]
      exact h.acts j q hj hji
  · rw [set_world] at he
    by_cases hjk : j = k
    · subst hjk
      exact hread e he hne
    · rw [(hother j hjk).2] at he
      exact h.reads j e he hne

theorem since_step (hw : Working boots who c) (h : Since who i ref c₀ c) {c' : PoolRun ι}
    (hs : Step (pool boots who (onlyReleases who i)) c c') : Since who i ref c₀ c' := by
  cases hs with
  | env he =>
    obtain ⟨ch, w', hc, rfl⟩ := he
    refine ⟨fun x hx => ?_, h.acts, h.reads⟩
    rcases change_claims hc hx with ⟨x₀, hl₀, heq⟩ | hnone
    · rw [heq]
      exact h.free x₀ hl₀
    · rw [hnone]
      rintro ⟨⟩
  | @start k p s' hn he =>
    obtain ⟨a, hmay, rfl, rfl⟩ := he
    refine h.set h.free (fun j => begin_other _ _) ?_ (by simp)
    rintro q - hki
    rw [begin_act]
    exact hmay hki
  | @call k op kont r s' hk he =>
    obtain ⟨ch, w', ha, rfl⟩ := he
    have hrem := hw.remains k _ hk
    refine h.set (fun x hx => ?_) (fun j => made_other _ _) (fun _ _ => h.acts k _ hk) fun e he hne => ?_
    · rcases written_claims (answer_written ha) (remains_only (claims_program _) hrem).1 hx with
        ⟨x₀, hl₀, heq⟩ | hnone | ⟨hown, hclaims⟩
      · rw [heq]
        exact h.free x₀ hl₀
      · rw [hnone]
        rintro ⟨⟩
      · rw [hown]
        intro hi
        have hki : who k = i := consumer_injective (Option.some.inj hi)
        exact hclaims (remains_only (releases_program (h.acts k _ hk hki)) hrem).1
    · rcases List.mem_cons.mp (made_calls c.world k _ ▸ he) with rfl | he
      · exact h.free
      · exact h.reads k e he hne
  | @finish k p r s' hk _ he =>
    obtain rfl := he
    exact h.set h.free (fun _ _ => ⟨rfl, rfl⟩) (by rintro q ⟨⟩) (h.reads k)
  | @crash k p s' hk he =>
    obtain rfl := he
    exact h.set h.free (fun _ _ => ⟨rfl, rfl⟩) (by rintro q ⟨⟩) (h.reads k)

theorem since_reachable (hw : Working boots who c₀) (h : Since who i ref c₀ c₀)
    (hr : Reachable (pool boots who (onlyReleases who i)) c₀ c) : Since who i ref c₀ c := by
  induction hr with
  | refl => exact h
  | tail hr hs ih => exact since_step (reachable_working hw hr) ih hs

/-- The first call of a program and what remains after it. -/
theorem remains_first {p₀ p : Act Unit} {calls : List Exchange} (h : Remains p₀ calls p) :
    (calls = [] ∧ p = p₀) ∨ ∃ (op : Op) (k : Except Exc (Reply op) → Act Unit) (r : Except Exc (Reply op))
      (w w' : World) (later : List Exchange), p₀ = .call op k ∧ calls = later ++ [⟨op, r, w, w'⟩] ∧
        Remains (k r) later p := by
  induction h with
  | start => exact .inl ⟨rfl, rfl⟩
  | @call calls op k r w w' h ih =>
    refine .inr ?_
    rcases ih with ⟨rfl, rfl⟩ | ⟨op₀, k₀, r₀, w₀, w₀', later, hp, rfl, hrem⟩
    · exact ⟨op, k, r, w, w', [], rfl, rfl, .start⟩
    · exact ⟨op₀, k₀, r₀, w₀, w₀', _ :: later, hp, rfl, hrem.call⟩

theorem remains_ended {p₀ p : Act Unit} {calls : List Exchange} (h : Remains p₀ calls p) (hend : p₀.result ≠ none) :
    calls = [] ∧ p = p₀ := by
  rcases remains_first h with h | ⟨op, k, r, w, w', later, rfl, -, -⟩
  · exact h
  · exact absurd rfl hend

theorem remains_calls {s : Op → Prop} {p₀ p : Act Unit} {calls : List Exchange} (hp : p₀.Only s)
    (h : Remains p₀ calls p) : ∀ e ∈ calls, s e.op := by
  induction h with
  | start => simp
  | call h ih =>
    intro e he
    rcases List.mem_cons.mp he with rfl | he
    · exact (remains_only hp h).1
    · exact ih e he

/-- What a release does with the host that it has read. -/
def releaseRead (binding : Binding) (i : MachineRef) (ref : ObjectKey) (host : Host) : Act Unit := do
  raiseIf (some host.metadata.uid ≠ binding.hostUID) (.temporary "Host UID changed before release" 15)
  onlyIf (host.spec.consumerRef.isSome = true) do
    raiseIf (sameConsumer host.spec.consumerRef i.key i.uid = false)
      (.temporary "Cannot release another Machine UID's host" 15)
    let host ← call (.patchHostStatus ref host.precondition .available false "")
    let _ ← call (.patchHost ref host.precondition none)

theorem releaseHost_reads (href : binding.hostRef = some ref) :
    releaseHost binding i.key i.uid = (call (.readHost ref) >>= releaseRead binding i ref) := by
  unfold releaseHost
  rw [href]
  rfl

def Op.readsHost : Op → Prop
  | .readHost _ => True
  | _ => False

theorem releaseRead_only {host : Host} : (releaseRead binding i ref host).Only fun op => ¬ op.readsHost :=
  Prog.only_bind only_raiseIf fun _ => only_onlyIf (Prog.only_bind only_raiseIf fun _ =>
    Prog.only_bind (Prog.only_perform id) fun _ => Prog.only_bind (Prog.only_perform id) fun _ => trivial)

def releaseRefused : Exc := .temporary "Cannot release another Machine UID's host" 15

/-- A release that has read the host: it is done, or refused, or the claim is still its own. -/
theorem release_outcome {calls : List Exchange} {p : Act Unit} {r : Except Exc Unit} (href : binding.hostRef = some ref)
    (h : Remains (releaseHost binding i.key i.uid) calls p) (hend : p.result = some r) {x : Host}
    (hread : ⟨.readHost ref, .ok x, w, w'⟩ ∈ calls) (huid : some x.metadata.uid = binding.hostUID) :
    (x.spec.consumerRef = none ∧ r = .ok () ∧ calls = [⟨.readHost ref, .ok x, w, w'⟩]) ∨
    (x.spec.consumerRef.isSome = true ∧ r = .error releaseRefused) ∨ x.spec.consumerRef = some i.consumer := by
  rw [releaseHost_reads href] at h
  rcases remains_first h with ⟨rfl, -⟩ | ⟨op, k, r₀, w₀, w₀', later, hp, rfl, hrem⟩
  · cases hread
  · injection hp with hop hk
    subst hop
    obtain rfl := eq_of_heq hk
    cases r₀ with
    | error e =>
      obtain ⟨rfl, rfl⟩ := remains_ended hrem (by rintro ⟨⟩)
      rw [List.nil_append, List.mem_singleton] at hread
      cases hread
    | ok host =>
      have hrem : Remains (releaseRead binding i ref host) later p := hrem
      -- no other call reads a host
      have hx : (⟨.readHost ref, .ok x, w, w'⟩ : Exchange) = ⟨.readHost ref, .ok host, w₀, w₀'⟩ := by
        rcases List.mem_append.mp hread with hl | hl
        · exact absurd trivial (remains_calls releaseRead_only hrem _ hl)
        · exact List.mem_singleton.mp hl
      cases hx
      unfold releaseRead raiseIf onlyIf at hrem
      rw [if_neg (not_not.mpr huid)] at hrem
      cases hc : x.spec.consumerRef with
      | none =>
        rw [hc, if_neg (by simp)] at hrem
        obtain ⟨rfl, rfl⟩ := remains_ended hrem (by rintro ⟨⟩)
        cases hend
        exact .inl ⟨rfl, rfl, rfl⟩
      | some claim =>
        by_cases hs : sameConsumer (some claim) i.key i.uid = true
        · exact .inr (.inr (sameConsumer_iff.mp hs))
        · rw [hc] at hrem
          simp only [Option.isSome_some, if_true] at hrem
          rw [if_pos (by simpa using hs)] at hrem
          obtain ⟨rfl, rfl⟩ := remains_ended hrem (by rintro ⟨⟩)
          cases hend
          exact .inr (.inl ⟨rfl, rfl⟩)

/-- A release that `i` repeats after it has cleared its claim ends without an error and leaves
the host alone exactly if no other Machine claims the host when it looks; otherwise it is
refused. -/
theorem release_repeated (h₁ : Reachable (pool boots who anyAct) (idle (Pool.empty ι)) c₁)
    (hacts : ∀ k p, c₁.thread k = some p → who k = i → (c₁.world.act k).releases)
    (hclears : Clears boots who i ref c₁ c₀) (h : Reachable (pool boots who (onlyReleases who i)) c₀ c) {k : ι}
    {p : Act Unit} {r : Except Exc Unit} {x : Host} (hk : c.thread k = some p) (hend : p.result = some r) (hwho : who k = i)
    (hact : c.world.act k = .release binding) (href : binding.hostRef = some ref)
    (hread : ⟨.readHost ref, .ok x, w, w'⟩ ∈ c.world.calls k)
    (hsince : (⟨.readHost ref, .ok x, w, w'⟩ : Exchange) ∉ c₀.world.calls k)
    (huid : some x.metadata.uid = binding.hostUID) :
    (r = .ok () ∧ OnlyReads (c.world.calls k)) ↔ ∀ j : MachineRef, j ≠ i → x.spec.consumerRef ≠ some j.consumer := by
  have hw₁ : Working boots who c₁ := reachable_working working_empty h₁
  have hw₀ : Working boots who c₀ := by
    obtain ⟨k₁, pre, kont, lost, r', w₁, rfl, -, hk₁, ha, rfl⟩ := hclears
    have hstep : Step (pool boots who anyAct) c₁ _ := .call hk₁ ⟨_, _, ha, rfl⟩
    exact working_step hw₁ hstep
  have hw := reachable_working hw₀ h
  have hsi := since_reachable hw₀ (since_clears hclears hacts) h
  obtain ⟨hclaimed, ch, ha⟩ := hw.answered k _ hread
  obtain ⟨hsame, hlook⟩ := answer_readHost ha
  have hx := hlook x rfl
  have hown := hsi.reads k _ hread hsince x hx
  have hrem := hw.remains k p hk
  rw [hact, hwho] at hrem
  rcases release_outcome href hrem hend hread huid with ⟨hnone, hr, hcalls⟩ | ⟨hsome, hr⟩ | hmine
  · refine iff_of_true ⟨hr, ?_⟩ (by rw [hnone]; rintro j - ⟨⟩)
    rw [hcalls]
    simpa [OnlyReads] using hsame
  · refine iff_of_false (by rintro ⟨hok, -⟩; rw [hr] at hok; cases hok) fun hfree => ?_
    rcases hclaimed ref x hx with hnone | ⟨j, hj⟩
    · rw [hnone] at hsome
      cases hsome
    · exact hfree j (fun hji => hown (hji ▸ hj)) hj
  · exact absurd hmine hown

inductive PoolTurn (ι : Type) where
  | change : Change → PoolTurn ι
  | start : ι → PoolAct → PoolTurn ι
  | usual : ι → PoolTurn ι
  | crash : ι → PoolTurn ι

def poolCall (boots : Target → Nat → String) (who : ι → MachineRef) (u : Usual) (k : ι) (c : PoolRun ι) :
    Option (PoolRun ι) :=
  match c.thread k with
  | some (.call op kont) =>
    (answer boots (who k) op (u.choice boots c.world.world op) c.world.world).map fun r =>
      c.set k (some (kont r.1)) (c.world.made k ⟨op, r.1, c.world.world, r.2⟩)
  | _ => none

def poolTurn (boots : Target → Nat → String) (who : ι → MachineRef) (may : ι → PoolAct → Prop)
    [∀ k a, Decidable (may k a)] (u : Usual) : PoolTurn ι → PoolRun ι → Option (PoolRun ι)
  | .change e, c => (c.world.world.change claimsTrusted e).map fun w => ⟨{ c.world with world := w }, c.thread⟩
  | .start k a, c =>
    if (c.thread k).isNone ∧ may k a then some (c.set k (some (a.program (who k))) (c.world.begin k a)) else none
  | .usual k, c => poolCall boots who u k c
  | .crash k, c => (c.thread k).map fun _ => c.set k none c.world

def poolTurns (boots : Target → Nat → String) (who : ι → MachineRef) (may : ι → PoolAct → Prop)
    [∀ k a, Decidable (may k a)] (u : Usual) : List (PoolTurn ι) → PoolRun ι → Option (PoolRun ι)
  | [], c => some c
  | t :: ts, c => (poolTurn boots who may u t c).bind (poolTurns boots who may u ts)

variable [∀ k a, Decidable (may k a)] {u : Usual} {c' : PoolRun ι}

theorem poolTurn_step {t : PoolTurn ι} (h : poolTurn boots who may u t c = some c') : Step (pool boots who may) c c' := by
  cases t with
  | change e =>
    obtain ⟨w, hw, rfl⟩ := Option.map_eq_some_iff.mp h
    exact .env ⟨e, w, hw, rfl⟩
  | start k a =>
    simp only [poolTurn] at h
    split at h
    · rename_i ha
      cases h
      exact .start (by simpa using ha.1) ⟨a, ha.2, rfl, rfl⟩
    · cases h
  | usual k =>
    simp only [poolTurn, poolCall] at h
    split at h
    · rename_i op kont hk
      obtain ⟨⟨r, w⟩, ha, rfl⟩ := Option.map_eq_some_iff.mp h
      exact .call hk ⟨_, w, ha, rfl⟩
    · cases h
  | crash k =>
    obtain ⟨p, hp, rfl⟩ := Option.map_eq_some_iff.mp h
    exact .crash hp rfl

theorem poolTurns_reachable {ts : List (PoolTurn ι)} (h : poolTurns boots who may u ts c = some c') :
    Reachable (pool boots who may) c c' := by
  induction ts generalizing c with
  | nil => cases h; exact .refl
  | cons t ts ih =>
    obtain ⟨c₁, h₁, h₂⟩ := Option.bind_eq_some_iff.mp h
    exact .head (poolTurn_step h₁) (ih h₂)

/-- The next call of `k` clears a claim of the host and is committed. -/
def clearing (u : Usual) (boots : Target → Nat → String) (ref : ObjectKey) (k : ι) (c : PoolRun ι) : Bool :=
  match c.thread k with
  | some (.call (.patchHost key pre none) _) =>
    decide (key = ref) && (match u.choice boots c.world.world (.patchHost key pre none) with
      | .commit _ => true
      | _ => false)
  | _ => false

omit [∀ k a, Decidable (may k a)] in
theorem clears_of_clearing {k : ι} (hwho : who k = i) (hact : (c.world.act k).releases)
    (hc : clearing u boots ref k c = true) (h : poolCall boots who u k c = some c') : Clears boots who i ref c c' := by
  unfold clearing at hc
  unfold poolCall at h
  split at hc
  · rename_i key pre kont hk
    rw [Bool.and_eq_true, decide_eq_true_eq] at hc
    obtain ⟨rfl, hcommit⟩ := hc
    rw [hk] at h
    obtain ⟨⟨r, w⟩, ha, rfl⟩ := Option.map_eq_some_iff.mp h
    split at hcommit
    · rename_i lost hlost
      rw [hlost, hwho] at ha
      exact ⟨k, pre, kont, lost, r, w, hwho, hact, hk, ha, rfl⟩
    · cases hcommit
  · cases hc

end runs

/-- The first and the third of three workers act for one Machine. -/
def threeWorkers (k : Fin 3) : MachineRef := if k = 1 then smallRef "b" 8 else smallRef "a" 7

def smallBinding : Binding :=
  ⟨"10.0.0.1", 22, "root", smallSecret, smallSecret, 7, some 1, some ⟨"n", "h"⟩⟩

/-- A claim and a release, as far as its last write. -/
def claimedAndReleasing : List (PoolTurn (Fin 3)) :=
  [.change (.createHost (smallHost "h" "10.0.0.1")), .start 0 (.bind (smallSpec none) .empty), .usual 0, .usual 0, .crash 0,
    .start 0 (.release smallBinding), .usual 0, .usual 0]

def Exchange.found (ref : ObjectKey) (P : Host → Bool) : Exchange → Bool
  | ⟨.readHost key, .ok x, _, _⟩ => decide (key = ref) && P x
  | _ => false

theorem found_read {ref : ObjectKey} {P : Host → Bool} {e : Exchange} (h : e.found ref P = true) :
    ∃ x w w', e = ⟨.readHost ref, .ok x, w, w'⟩ ∧ P x = true := by
  unfold Exchange.found at h
  split at h
  · rename_i key x w w'
    rw [Bool.and_eq_true, decide_eq_true_eq] at h
    obtain ⟨rfl, hP⟩ := h
    exact ⟨x, w, w', rfl, hP⟩
  · cases h

/-- A claim of the host that was given back. -/
def Exchange.gaveBack (ref : ObjectKey) : Exchange → Bool
  | ⟨.patchHost key _ none, .ok _, _, _⟩ => decide (key = ref)
  | _ => false

/-- A claim, its release, some turns of the other Machine, and the release once more by the
third worker, which then finds a host with `P` and ends as `R` says. -/
def repeats (turns : List (PoolTurn (Fin 3))) (P : PoolRun (Fin 3) → Host → Bool) (R : Except Exc Unit → Bool) : Bool :=
  (poolTurns smallSetting.boots threeWorkers anyAct smallUsual claimedAndReleasing (idle (Pool.empty (Fin 3)))).any fun c₁ =>
    decide (∀ k, (c₁.thread k).isSome = true → threeWorkers k = smallRef "a" 7 → (c₁.world.act k).releases) &&
    clearing smallUsual smallSetting.boots ⟨"n", "h"⟩ 0 c₁ &&
    (poolCall smallSetting.boots threeWorkers smallUsual 0 c₁).any fun c₀ =>
      (c₀.world.calls 2).isEmpty && (c₀.world.calls 1).isEmpty &&
      (poolTurns smallSetting.boots threeWorkers (onlyReleases threeWorkers (smallRef "a" 7)) smallUsual
        (turns ++ [.start 2 (.release smallBinding), .usual 2]) c₀).any fun c =>
        (match c.world.act 2 with
          | .release b => decide (b = smallBinding)
          | _ => false) &&
        ((c.world.calls 2).any fun e => e.found ⟨"n", "h"⟩ fun x => decide (x.metadata.uid = 1) && P c x) &&
        (((c.thread 2).bind Prog.result).any R)

theorem repeats_run {turns : List (PoolTurn (Fin 3))} {P : PoolRun (Fin 3) → Host → Bool} {R : Except Exc Unit → Bool}
    (h : repeats turns P R = true) : ∃ (c₁ c₀ c : PoolRun (Fin 3)) (p : Act Unit) (r : Except Exc Unit) (x : Host) (w w' : World),
      Reachable (pool smallSetting.boots threeWorkers anyAct) (idle (Pool.empty (Fin 3))) c₁ ∧
      (∀ k p, c₁.thread k = some p → threeWorkers k = smallRef "a" 7 → (c₁.world.act k).releases) ∧
      Clears smallSetting.boots threeWorkers (smallRef "a" 7) ⟨"n", "h"⟩ c₁ c₀ ∧
      Reachable (pool smallSetting.boots threeWorkers (onlyReleases threeWorkers (smallRef "a" 7))) c₀ c ∧
      c.thread 2 = some p ∧ p.result = some r ∧ c.world.act 2 = .release smallBinding ∧
      ⟨.readHost ⟨"n", "h"⟩, .ok x, w, w'⟩ ∈ c.world.calls 2 ∧
      (⟨.readHost ⟨"n", "h"⟩, .ok x, w, w'⟩ : Exchange) ∉ c₀.world.calls 2 ∧ c₀.world.calls 1 = [] ∧
      some x.metadata.uid = smallBinding.hostUID ∧ P c x = true ∧ R r = true := by
  obtain ⟨c₁, h₁, h⟩ := (Option.any_eq_true _ _).mp h
  simp only [Bool.and_eq_true, decide_eq_true_eq] at h
  obtain ⟨⟨hacts, hclear⟩, h⟩ := h
  obtain ⟨c₀, h₀, h⟩ := (Option.any_eq_true _ _).mp h
  simp only [Bool.and_eq_true] at h
  obtain ⟨⟨hnone, hother⟩, h⟩ := h
  obtain ⟨c, hc, h⟩ := (Option.any_eq_true _ _).mp h
  simp only [Bool.and_eq_true] at h
  obtain ⟨⟨hact, hfound⟩, hend⟩ := h
  obtain ⟨r, hr, hR⟩ := (Option.any_eq_true _ _).mp hend
  obtain ⟨p, hp, hr⟩ := Option.bind_eq_some_iff.mp hr
  obtain ⟨e, he, hfound⟩ := List.any_eq_true.mp hfound
  obtain ⟨x, w, w', rfl, hx⟩ := found_read hfound
  rw [Bool.and_eq_true, decide_eq_true_eq] at hx
  have hrel : (c₁.world.act 0).releases := by
    have hwhere : c₁.thread 0 ≠ none := by
      intro hthread
      simp [clearing, hthread] at hclear
    exact hacts 0 (Option.isSome_iff_ne_none.mpr hwhere) (by decide)
  refine ⟨c₁, c₀, c, p, r, x, w, w', poolTurns_reachable h₁, fun k q hk => hacts k (by simp [hk]),
    clears_of_clearing (by decide) hrel hclear h₀, poolTurns_reachable hc, hp, hr, ?_, he, ?_,
    List.isEmpty_iff.mp hother, congrArg some hx.1, hx.2, hR⟩
  · split at hact
    · rename_i b hb
      rw [hb, of_decide_eq_true hact]
    · cases hact
  · rw [List.isEmpty_iff.mp hnone]
    exact List.not_mem_nil

/-- The other Machine has claimed the host and given it back: the repeated release is done. -/
theorem release_repeated_free : ∃ (c₀ c : PoolRun (Fin 3)) (p : Act Unit),
    Reachable (pool smallSetting.boots threeWorkers (onlyReleases threeWorkers (smallRef "a" 7))) c₀ c ∧
      (c₀.world.calls 1 = [] ∧ ∃ e ∈ c.world.calls 1, e.gaveBack ⟨"n", "h"⟩ = true) ∧
      c.thread 2 = some p ∧ p.result = some (.ok ()) ∧ OnlyReads (c.world.calls 2) := by
  have h : repeats [.start 1 (.bind (smallSpec none) .empty), .usual 1, .usual 1, .crash 1, .start 1 (.release smallBinding),
      .usual 1, .usual 1, .usual 1]
      (fun c x => x.spec.consumerRef.isNone && (c.world.calls 1).any fun e => e.gaveBack ⟨"n", "h"⟩)
      (fun _ => true) = true := by
    decide +kernel
  obtain ⟨c₁, c₀, c, p, r, x, w, w', h₁, hacts, hclears, hc, hp, hr, hact, hread, hsince, hother, huid, hx, -⟩ := repeats_run h
  rw [Bool.and_eq_true] at hx
  have hdone := (release_repeated h₁ hacts hclears hc hp hr rfl hact rfl hread hsince huid).mpr
    (by rintro j - hj; simp [hj] at hx)
  exact ⟨c₀, c, p, hc, ⟨hother, List.any_eq_true.mp hx.2⟩, hp, hdone.1 ▸ hr, hdone.2⟩

def raised : Except Exc Unit → Bool
  | .ok _ => false
  | .error _ => true

/-- The other Machine has claimed it: the repeated release raises an error. -/
theorem release_repeated_refused : ∃ (c₁ c₀ c : PoolRun (Fin 3)) (p : Act Unit) (r : Except Exc Unit) (x : Host) (w w' : World),
    Reachable (pool smallSetting.boots threeWorkers anyAct) (idle (Pool.empty (Fin 3))) c₁ ∧
    (∀ k p, c₁.thread k = some p → threeWorkers k = smallRef "a" 7 → (c₁.world.act k).releases) ∧
    Clears smallSetting.boots threeWorkers (smallRef "a" 7) ⟨"n", "h"⟩ c₁ c₀ ∧
    Reachable (pool smallSetting.boots threeWorkers (onlyReleases threeWorkers (smallRef "a" 7))) c₀ c ∧
    c.thread 2 = some p ∧ p.result = some r ∧ c.world.act 2 = .release smallBinding ∧
    ⟨.readHost ⟨"n", "h"⟩, .ok x, w, w'⟩ ∈ c.world.calls 2 ∧
    (⟨.readHost ⟨"n", "h"⟩, .ok x, w, w'⟩ : Exchange) ∉ c₀.world.calls 2 ∧
    some x.metadata.uid = smallBinding.hostUID ∧ ¬ (r = .ok () ∧ OnlyReads (c.world.calls 2)) := by
  have h : repeats [.start 1 (.bind (smallSpec none) .empty), .usual 1, .usual 1] (fun _ _ => true)
      raised = true := by
    decide +kernel
  obtain ⟨c₁, c₀, c, p, r, x, w, w', h₁, hacts, hclears, hc, hp, hr, hact, hread, hsince, -, huid, -, hR⟩ := repeats_run h
  refine ⟨c₁, c₀, c, p, r, x, w, w', h₁, hacts, hclears, hc, hp, hr, hact, hread, hsince, huid, ?_⟩
  rintro ⟨rfl, -⟩
  cases hR

end CapiSsh
