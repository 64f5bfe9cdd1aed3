import CapiSsh.Cluster

/-!
# Replaying a run

A run of the cluster is determined by the moves of a scheduler: what users do, which
attempt makes its next call, and how the call is answered. `plays` performs a list of
moves, and what it comes to is reachable.
-/
namespace CapiSsh

open Effect Interference

abbrev Configuration := Config MachineRef Op Reply Exc (Option Binding) World

instance (i : MachineRef) (w : World) : DecidablePred fun a : Attempt => a.admitted i w := fun a => by
  cases a <;> unfold Attempt.admitted <;> infer_instance

/-- What a replay answers where its moves do not say otherwise: every call succeeds. -/
structure Usual where
  object : CapiObject
  secret : List (String × String)
  time : Time

/-- The output of a command that does what it is meant to. -/
def usualOutput (boot : String) : Command → Completed
  | .owned o => ⟨some 0, ⟨.text (if o.script = .bootID then boot else ""), ""⟩, ""⟩
  | .observe _ => ⟨some 0, ⟨.capiExit (some 0), ""⟩, ""⟩
  | _ => ⟨some 0, ⟨.text "", ""⟩, ""⟩

def Usual.choice (u : Usual) (boots : Target → Nat → String) (w : World) : Op → Choice
  | .readMachine _ | .readHost _ | .leaseRelease _ | .connect .. | .upload .. | .close _ | .staged => .ok
  | .patchMachine .. | .patchMachineStatus .. | .patchHost .. | .patchHostStatus .. => .commit none
  | .listHosts ns => .listing ((w.hosts.entries.map Sigma.snd).filter fun h => h.metadata.key.ns = ns)
  | .readCapi .. => .object u.object
  | .readSecret _ => .secret u.secret
  | .acquireLock _ | .releaseLock _ | .leaseAcquire _ | .leaseRenew _ => .flag true
  | .leaseLost _ => .flag false
  | .run conn command => .ran true (usualOutput (boots conn.target conn.session) command)
  | .now | .stage _ => .time u.time
  | .uuid => .text ""
  | .applyStaged _ => .applied true true none

inductive Move where
  | change : Change → Move
  | start : MachineRef → Attempt → Move
  | call : MachineRef → Choice → Move
  | usual : MachineRef → Nat → Move
  | finish : MachineRef → Move
  | crash : MachineRef → Move

/-- The next call of an attempt, answered by `choice`. -/
def playCall (S : Setting) (i : MachineRef) (choice : World → Op → Choice) (c : Configuration) : Option Configuration :=
  match c.thread i with
  | some (.call op k) => (answer S.boots i op (choice c.world op) c.world).map fun r => c.set i (some (k r.1)) r.2
  | _ => none

def playUsual (S : Setting) (u : Usual) (i : MachineRef) : Nat → Configuration → Option Configuration
  | 0, c => some c
  | n + 1, c => (playCall S i (u.choice S.boots) c).bind (playUsual S u i n)

def play (S : Setting) (u : Usual) : Move → Configuration → Option Configuration
  | .change e, c => (c.world.change S.trust e).map fun w => ⟨w, c.thread⟩
  | .start i a, c =>
    if (c.thread i).isNone ∧ a.admitted i c.world then
      some (c.set i (some (a.program S.tools S.timeout i)) (c.world.restage i Patch.empty))
    else none
  | .call i choice, c => playCall S i (fun _ _ => choice) c
  | .usual i n, c => playUsual S u i n c
  | .finish i, c => ((c.thread i).bind Prog.result).map fun _ => c.set i none c.world
  | .crash i, c => (c.thread i).map fun _ => c.set i none c.world

def plays (S : Setting) (u : Usual) : List Move → Configuration → Option Configuration
  | [], c => some c
  | m :: ms, c => (play S u m c).bind (plays S u ms)

variable {S : Setting} {u : Usual} {i : MachineRef} {c c' : Configuration}

theorem playCall_step {choice : World → Op → Choice} (h : playCall S i choice c = some c') : Step (cluster S) c c' := by
  unfold playCall at h
  split at h
  · rename_i op k hc
    obtain ⟨⟨r, w⟩, ha, rfl⟩ := Option.map_eq_some_iff.mp h
    exact .call hc ⟨_, ha⟩
  · cases h

theorem playUsual_reachable {n : Nat} (h : playUsual S u i n c = some c') : Reachable (cluster S) c c' := by
  induction n generalizing c with
  | zero => cases h; exact .refl
  | succ n ih =>
    obtain ⟨c₁, h₁, h₂⟩ := Option.bind_eq_some_iff.mp h
    exact .head (playCall_step h₁) (ih h₂)

theorem play_reachable {m : Move} (h : play S u m c = some c') : Reachable (cluster S) c c' := by
  cases m with
  | change e =>
    obtain ⟨w, hw, rfl⟩ := Option.map_eq_some_iff.mp h
    exact .single (.env ⟨e, hw⟩)
  | start i a =>
    simp only [play] at h
    split at h
    · rename_i ha
      cases h
      exact .single (.start (by simpa using ha.1) ⟨a, ha.2, rfl, rfl⟩)
    · cases h
  | call i choice =>
    have h : playCall S i (fun _ _ => choice) c = some c' := h
    exact .single (playCall_step h)
  | usual i n => exact playUsual_reachable h
  | finish i =>
    obtain ⟨r, hr, rfl⟩ := Option.map_eq_some_iff.mp h
    obtain ⟨p, hp, hr⟩ := Option.bind_eq_some_iff.mp hr
    exact .single (.finish hp hr rfl)
  | crash i =>
    obtain ⟨p, hp, rfl⟩ := Option.map_eq_some_iff.mp h
    exact .single (.crash hp rfl)

/-- What a replay comes to is reachable. -/
theorem plays_reachable {ms : List Move} (h : plays S u ms c = some c') : Reachable (cluster S) c c' := by
  induction ms generalizing c with
  | nil => cases h; exact .refl
  | cons m ms ih =>
    obtain ⟨c₁, h₁, h₂⟩ := Option.bind_eq_some_iff.mp h
    exact (play_reachable h₁).trans (ih h₂)

/-- A replay that ends in a configuration with some property shows that one is reachable. -/
theorem plays_exists {ms : List Move} {f : Configuration → Bool} (h : (plays S u ms c).any f = true) :
    ∃ c', Reachable (cluster S) c c' ∧ f c' = true := by
  cases hp : plays S u ms c with
  | none => rw [hp] at h; cases h
  | some c' => rw [hp] at h; exact ⟨c', plays_reachable hp, h⟩

/-- One owner, one Secret and three boots of every target. -/
def smallSetting : Setting where
  trust := ⟨true, true, fun _ => rfl⟩
  boots _ session := ["00000000-0000-0000-0000-000000000000", "11111111-1111-1111-1111-111111111111"].getD session
    "22222222-2222-2222-2222-222222222222"
  tools := ⟨fun _ _ _ => .ok "", fun _ _ _ _ script => script⟩
  timeout := 10

def smallUsual : Usual where
  object := ⟨none, false, [], none, some "s"⟩
  secret := [("value", "k"), ("known_hosts", "k")]
  time := 0

def smallMeta (name : String) : ObjectMeta :=
  ⟨⟨"n", name⟩, 0, 0, none, none, [], [("l", "v")], [⟨some "cluster.x-k8s.io/v1beta1", "Machine", "o", none⟩]⟩

def smallSecret : SecretRef := ⟨some "s", none⟩

/-- A Machine with an address of its own, or one that selects a host. -/
def smallSpec (address : Option String) : MachineSpec :=
  ⟨address, none, none, smallSecret, smallSecret, if address = none then some [("l", "v")] else none, none, false, none,
    none, none, false, none⟩

def smallMachine (name : String) (address : Option String) : Machine := ⟨smallMeta name, smallSpec address, .empty⟩

def smallHost (name address : String) : Host :=
  ⟨smallMeta name, ⟨address, none, none, smallSecret, smallSecret, none⟩, ⟨none, none, none, none⟩⟩

/-- The first object that is created has UID 1. -/
def smallRef (name : String) (uid : Uid) : MachineRef := ⟨⟨"n", name⟩, uid⟩

end CapiSsh
