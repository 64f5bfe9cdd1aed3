import CapiSsh.Journal
import CapiSsh.Lib.Interference
import CapiSsh.Reconcile
import Mathlib.Data.List.AList

/-!
# The cluster that the handlers run in

The API server's objects, the boots of the SSH targets, and Kopf's patches, with every
outcome that a call can have: `answer` is a function of a `Choice`, so that a run can be
replayed, and a step of the cluster is some choice. A write with a stale UID or resource
version is refused, any call can fail, and a committed write can lose its response; a
refusal by HTTP status is never one of a write that was committed. The reconcile lock and
the host Leases answer anything here; what they write to the Machine's annotations is a
user's edit like any other.
-/
namespace CapiSsh

open Effect Interference

structure World where
  rev : Nat
  machines : AList fun _ : ObjectKey => Machine
  hosts : AList fun _ : ObjectKey => Host
  session : Target → Nat
  staged : MachineRef → Patch
  log : List (MachineRef × Event)

def World.empty : World := ⟨0, ∅, ∅, fun _ => 0, fun _ => Patch.empty, []⟩

def journal (i : MachineRef) (w : World) : Journal :=
  w.log.filterMap fun e => if e.1 = i then some e.2 else none

def Machine.stamp (m : Machine) (rev : Nat) : Machine :=
  { m with metadata := { m.metadata with resourceVersion := rev } }

def Host.stamp (h : Host) (rev : Nat) : Host :=
  { h with metadata := { h.metadata with resourceVersion := rev } }

def World.storeMachine (w : World) (key : ObjectKey) (m : Machine) : World :=
  { w with rev := w.rev + 1, machines := w.machines.insert key (m.stamp (w.rev + 1)) }

def World.storeHost (w : World) (key : ObjectKey) (h : Host) : World :=
  { w with rev := w.rev + 1, hosts := w.hosts.insert key (h.stamp (w.rev + 1)) }

def World.note (w : World) (i : MachineRef) (e : Event) : World := { w with log := (i, e) :: w.log }

def World.restage (w : World) (i : MachineRef) (p : Patch) : World :=
  { w with staged := fun j => if j = i then p else w.staged j }

/-- The event of a write to `spec.consumerRef`. -/
def Host.claimEvent (old : Host) : Option ConsumerRef → Event
  | some ref => .claim old.metadata.uid (some ref) old.status.phase
  | none => .unclaim old.metadata.uid old.spec.consumerRef

/-- What decides the outcome of a call. -/
inductive Choice where
  | ok : Choice
  | fail : Exc → Choice
  | commit : Option Exc → Choice
  | object : CapiObject → Choice
  | secret : List (String × String) → Choice
  | flag : Bool → Choice
  | listing : List Host → Choice
  | text : String → Choice
  | time : Time → Choice
  | ran : Bool → Completed → Choice
  | raised : Bool → Exc → Choice
  | applied : Bool → Bool → Option Exc → Choice

/-- The response to a write that was committed. -/
def settle (a : α) : Option Exc → Option (Except Exc α)
  | none => some (.ok a)
  | some (.api 404) | some (.api 409) => none
  | some e => some (.error e)

def ObjectMeta.meets (m : ObjectMeta) (pre : Precondition) : Bool :=
  m.uid == pre.uid && m.resourceVersion == pre.resourceVersion

def World.patchMachine (w : World) (key : ObjectKey) (pre : Precondition) (f : Machine → Machine) :
    Option (Machine × World) :=
  match w.machines.lookup key with
  | none => none
  | some m =>
    if m.metadata.meets pre then some ((f m).stamp (w.rev + 1), w.storeMachine key (f m)) else none

def World.patchHost (w : World) (key : ObjectKey) (pre : Precondition) (f : Host → Host) :
    Option (Host × Host × World) :=
  match w.hosts.lookup key with
  | none => none
  | some h =>
    if h.metadata.meets pre then some (h, (f h).stamp (w.rev + 1), w.storeHost key (f h)) else none

def Completed.outcome (c : Completed) : RunOutcome :=
  match c.exitStatus with
  | none => .closed
  | some code => .exited code

/-- What the journal keeps of a command that returned. The shell reports success of the
reboot command exactly when it was accepted, and of the boot ID command after its output. -/
def ranEvent (boot : String) (target : Target) (accepted : Bool) (c : Completed) : Command → Option (Option Event)
  | .owned o => match o.script with
    | .reboot =>
      if (c.exitStatus = some 0 ∧ accepted = false) ∨ (∃ code ∈ c.exitStatus, code ≠ 0 ∧ accepted = true) then none
      else some (some (.reboot target (if accepted then some boot else none) c.outcome))
    | .reset => some (some (.reset target c.outcome))
    | .bootID =>
      if c.exitStatus = some 0 then
        if strip c.stdout.line = boot then some (some (.observed target boot)) else none
      else some none
    | _ => some none
  | _ => some none

/-- A command whose execution raised an error may have had its effect. -/
def raisedEvent (boot : String) (target : Target) (accepted : Bool) : Command → Option Event
  | .owned o => match o.script with
    | .reboot => some (.reboot target (if accepted then some boot else none) .raised)
    | .reset => some (.reset target .raised)
    | _ => none
  | _ => none

def World.noteAll (w : World) (i : MachineRef) : Option Event → World
  | none => w
  | some e => w.note i e

/-- `boots` are the boot IDs of a target by session; a connection does not survive its boot. -/
def answer (boots : Target → Nat → String) (i : MachineRef) :
    (op : Op) → Choice → World → Option (Except Exc (Reply op) × World)
  | .readMachine key, .ok, w => (w.machines.lookup key).map fun m => (.ok m, w)
  | .readMachine _, .fail e, w => some (.error e, w)
  | .patchMachine key pre p, .commit lost, w =>
    match w.patchMachine key pre fun m => { m with spec := p.apply m.spec } with
    | none => none
    | some (m, w') => (settle m lost).map fun r => (r, w')
  | .patchMachine .., .fail e, w => some (.error e, w)
  | .patchMachineStatus key pre p, .commit lost, w =>
    match w.patchMachine key pre fun m => { m with status := p.apply m.status } with
    | none => none
    | some (m, w') => (settle m lost).map fun r => (r, w'.note ⟨key, pre.uid⟩ (.status p))
  | .patchMachineStatus .., .fail e, w => some (.error e, w)
  | .readHost key, .ok, w => (w.hosts.lookup key).map fun h => (.ok h, w)
  | .readHost _, .fail e, w => some (.error e, w)
  | .listHosts ns, .listing l, w =>
    if l.isPerm ((w.hosts.entries.map Sigma.snd).filter fun h => h.metadata.key.ns = ns) then some (.ok l, w)
    else none
  | .listHosts _, .fail e, w => some (.error e, w)
  | .patchHost key pre claim, .commit lost, w =>
    match w.patchHost key pre fun h => { h with spec := { h.spec with consumerRef := claim } } with
    | none => none
    | some (old, h, w') => (settle h lost).map fun r => (r, w'.note i (old.claimEvent claim))
  | .patchHost .., .fail e, w => some (.error e, w)
  | .patchHostStatus key pre phase inUse reason, .commit lost, w =>
    match w.patchHost key pre fun h => { h with status := { h.status with
      phase := some phase, inUse := some inUse, cleanupReason := some reason } } with
    | none => none
    | some (old, h, w') => (settle h lost).map fun r =>
      (r, w'.note i (.phase old.metadata.uid old.spec.consumerRef old.status.phase phase))
  | .patchHostStatus .., .fail e, w => some (.error e, w)
  | .readCapi .., .object o, w => some (.ok o, w)
  | .readCapi .., .fail e, w => some (.error e, w)
  | .readSecret _, .secret data, w => some (.ok data, w)
  | .readSecret _, .fail e, w => some (.error e, w)
  | .acquireLock _, .flag b, w | .releaseLock _, .flag b, w | .leaseAcquire _, .flag b, w
  | .leaseRenew _, .flag b, w | .leaseLost _, .flag b, w => some (.ok b, w)
  | .acquireLock _, .fail e, w | .releaseLock _, .fail e, w | .leaseAcquire _, .fail e, w
  | .leaseRenew _, .fail e, w => some (.error e, w)
  | .leaseRelease _, .ok, w | .upload .., .ok, w | .close _, .ok, w => some (.ok (), w)
  | .leaseRelease _, .fail e, w | .upload .., .fail e, w | .close _, .fail e, w => some (.error e, w)
  | .connect target .., .ok, w => some (.ok ⟨target, w.session target⟩, w)
  | .connect .., .fail e, w => some (.error e, w)
  | .run conn command, .ran accepted c, w =>
    if conn.session = w.session conn.target then
      (ranEvent (boots conn.target conn.session) conn.target accepted c command).map fun e =>
        (.ok c, w.noteAll i e)
    else none
  | .run conn command, .raised accepted e, w =>
    if accepted → conn.session = w.session conn.target then
      some (.error e, w.noteAll i (raisedEvent (boots conn.target conn.session) conn.target accepted command))
    else none
  | .now, .time t, w => some (.ok t, w)
  | .uuid, .text s, w => some (.ok s, w)
  | .staged, .ok, w => some (.ok (w.staged i), w)
  | .stage f, .time t, w => some (.ok (), w.restage i (f t (w.staged i)))
  | .applyStaged key, .applied spec status error, w =>
    let w' := match w.machines.lookup key with
      | none => w
      | some m =>
        if m.metadata.uid = i.uid then
          let m := if spec then { m with spec := (w.staged i).spec.apply m.spec } else m
          let m := if status then { m with status := (w.staged i).status.apply m.status } else m
          let w := w.storeMachine key m
          if status then w.note ⟨key, i.uid⟩ (.status (w.staged i).status) else w
        else w
    some (match error with
      | none => .ok ()
      | some e => .error e, w')
  | _, _, _ => none

inductive Change where
  | createMachine : Machine → Change
  | editMachine : ObjectKey → MachineSpec → ObjectMeta → Change
  | deleteMachine : ObjectKey → Time → Change
  | dropMachine : ObjectKey → Change
  | createHost : Host → Change
  | editHost : ObjectKey → Host → Change
  | dropHost : ObjectKey → Change
  | rebootHost : Target → Change

/-- Users create, edit, mark and remove objects, and hosts reboot. The status of a Machine
is the provider's; of a host, `T` says what is. -/
def World.change (T : Trust) (w : World) : Change → Option World
  | .createMachine m =>
    if (w.machines.lookup m.metadata.key).isNone then
      some ((w.storeMachine m.metadata.key { m with
        metadata := { m.metadata with uid := w.rev + 1, deletionTimestamp := none }
        status := .empty }).note ⟨m.metadata.key, w.rev + 1⟩ (.requested m.spec.requestedAt))
    else none
  | .editMachine key spec metadata => do
    let m ← w.machines.lookup key
    let w' := w.storeMachine key { m with
      spec := spec
      metadata := { metadata with
        key := m.metadata.key
        uid := m.metadata.uid
        deletionTimestamp := m.metadata.deletionTimestamp } }
    return if spec.requestedAt = m.spec.requestedAt then w'
      else w'.note ⟨key, m.metadata.uid⟩ (.requested spec.requestedAt)
  | .deleteMachine key t => do
    let m ← w.machines.lookup key
    return (w.storeMachine key { m with metadata := { m.metadata with deletionTimestamp := some t } }).note
      ⟨key, m.metadata.uid⟩ .marked
  | .dropMachine key => some { w with machines := w.machines.erase key }
  | .createHost h =>
    if (w.hosts.lookup h.metadata.key).isNone ∧ (T.claims = true → h.spec.consumerRef = none) then
      some (w.storeHost h.metadata.key { h with metadata := { h.metadata with uid := w.rev + 1 } })
    else none
  | .editHost key h => do
    let old ← w.hosts.lookup key
    if (T.claims = true → h.spec.consumerRef = old.spec.consumerRef) ∧
        (T.phases = true → h.status.phase = old.status.phase) then
      some (w.storeHost key { h with metadata := { h.metadata with
        key := old.metadata.key
        uid := old.metadata.uid } })
    else none
  | .dropHost key => some { w with hosts := w.hosts.erase key }
  | .rebootHost target =>
    some { w with session := fun t => if t = target then w.session t + 1 else w.session t }

inductive Attempt where
  | bind | reboot | reconcile | delete
  deriving DecidableEq

/-- The part of an attempt that starts from the live object. -/
def withLive (i : MachineRef) (f : Machine → Act (Option Binding)) : Act (Option Binding) := do
  let m ← call (.readMachine i.key)
  if m.metadata.uid = i.uid then f m else return none

def Attempt.body (tools : PayloadTools) (timeout : Time) (i : MachineRef) : Attempt → Act (Option Binding)
  | .bind => withLive i fun m => do
    let binding ← bindMachine m.spec m.status i.key i.uid
    return some binding
  | .reboot => withLive i fun m => do
    reconcileReboot m.spec m.status m.metadata false
    return none
  | .reconcile => do
    sshmachineReconcile tools i.key i.uid .reconcile timeout
    return none
  | .delete => do
    sshmachineDelete tools i.key i.uid timeout
    return none

/-- Kopf applies what a handler has staged when it ends, however it ends. -/
def Attempt.program (tools : PayloadTools) (timeout : Time) (i : MachineRef) (a : Attempt) : Act (Option Binding) :=
  (a.body tools timeout i).andFinally (call (.applyStaged i.key))

/-- Handlers run for objects that exist or existed, deletion for those that are marked. -/
def Attempt.admitted (i : MachineRef) (w : World) : Attempt → Prop
  | .delete => Event.marked ∈ journal i w
  | _ => journal i w ≠ []

/-- What does not change in a run: the boot IDs of every target, the text processing of
payloads and the timeout of commands. -/
structure Setting where
  trust : Trust
  boots : Target → Nat → String
  tools : PayloadTools
  timeout : Time

def cluster (S : Setting) : Runtime MachineRef Op Reply Exc (Option Binding) World where
  exec i op w r w' := ∃ c, answer S.boots i op c w = some (r, w')
  env w w' := ∃ c, w.change S.trust c = some w'
  start i p w w' :=
    ∃ a : Attempt, a.admitted i w ∧ p = a.program S.tools S.timeout i ∧ w' = w.restage i Patch.empty
  leave _ _ w w' := w' = w

end CapiSsh
