import CapiSsh.Cluster
import CapiSsh.Lib.Interpretation

/-!
# The probe of a host

`controllers/sshhost.py`, and one host with everything that writes whether it is in use:
claims and releases compare the resource version, and Kopf applies what a probe has staged
to whatever is stored by then.
-/
namespace CapiSsh

open Effect Interference

/-- The status keys that only the probe writes. -/
structure ProbeStatus where
  lastProbeTime : Option Time
  lastProbeSuccess : Option Bool
  conditions : List Condition
  deriving DecidableEq, Repr

/-- What a probe stages. -/
structure ProbePatch where
  inUse : Bool
  ready : Bool
  lastProbeTime : Time
  lastProbeSuccess : Bool
  conditions : List Condition
  deriving DecidableEq, Repr

def reachableCondition (now : Time) (status reason message : String) : Condition where
  type := "SSHReachable"
  status := status
  reason := reason
  message := message
  lastTransitionTime := some now
  observedGeneration := none

/-- `is_paused` of a host, whose spec has no such key. -/
def hostPaused (metadata : ObjectMeta) : Act Bool :=
  if hasKey pausedAnnotation metadata.annotations then return true
  else isPausedOwners metadata.key.ns metadata.ownerReferences (metadata.labels.lookup clusterLabel) "v1beta1"

/-- `sshhost_probe`; `shown` is the text of an exception. A probe that is skipped stages nothing. -/
def sshhostProbe (shown : Exc → String) (host : Host) (conditions : List Condition) : Act (Option ProbePatch) := do
  if ← hostPaused host.metadata then return none
  let ns := host.metadata.key.ns
  let port := host.spec.port.getD 22
  match filled (some host.spec.address), filled host.spec.sshKeyRef.name with
  | some address, some secret =>
    let now ← call .now
    let other := conditions.filter fun c => c.type ≠ "SSHReachable"
    let staged (ready : Bool) (status reason message : String) : ProbePatch :=
      ⟨host.spec.consumerRef.isSome, ready, now, ready, other ++ [reachableCondition now status reason message]⟩
    let read : Except Exc (String × String) ← Prog.attempt do
      let sshKey ← readSshKey ns secret (host.spec.sshKeyRef.key.getD "value")
      let knownHosts ← readKnownHosts ns host.spec.sshHostKeyRef
      return (sshKey, knownHosts)
    match read with
    | .error e => do
      raiseIf (e = .cancelled) e
      return some (staged false "False" "SSHKeyReadError" ("Failed to read SSH key: " ++ shown e))
    | .ok (sshKey, knownHosts) =>
      let tested : Except Exc Unit ← Prog.attempt do
        let conn ← call (.connect ⟨address, port⟩ (host.spec.user.getD "root") sshKey knownHosts)
        call (.close conn)
      match tested with
      | .ok () => return some (staged true "True" "ProbeSucceeded" s!"SSH probe to {address}:{port} succeeded")
      | .error e => do
        raiseIf (e = .cancelled) e
        return some (staged false "False" "ProbeFailed" (s!"SSH probe to {address}:{port} failed: " ++ shown e))
  | _, _ => return none

inductive HostOp where
  | api : Op → HostOp
  | readProbe : ObjectKey → HostOp
  | applyProbe : ObjectKey → ProbePatch → HostOp

def HostOp.Reply : HostOp → Type
  | .api op => CapiSsh.Reply op
  | .readProbe _ => Host × List Condition
  | .applyProbe _ _ => Unit

abbrev HostAct := Prog HostOp HostOp.Reply Exc

def hostCall (op : HostOp) : HostAct op.Reply := Prog.perform op

def apiCall (op : Op) : HostAct (Reply op) := hostCall (.api op)

def onHost {α : Type} (p : Act α) : HostAct α := p.interpret apiCall

/-- What a write to the host was. -/
inductive HostWrite where
  | claimed | phase | available | unclaimed | probed
  deriving DecidableEq, Repr

/-- The host, the writes to it, last one first, who is running, and what the probe of a
thread has read last. -/
structure HostWorld (ι : Type) where
  host : Host
  probe : ProbeStatus
  writes : List (ι × HostWrite)
  active : ι → Bool
  seen : ι → Option Host

section World

variable {ι : Type} [DecidableEq ι]

def HostWorld.key (w : HostWorld ι) : ObjectKey := w.host.metadata.key

def HostWorld.version (w : HostWorld ι) : Nat := w.host.metadata.resourceVersion

def HostWorld.store (w : HostWorld ι) (i : ι) (write : HostWrite) (spec : HostSpec) (status : HostStatus) :
    HostWorld ι :=
  { w with
    host := { metadata := { w.host.metadata with resourceVersion := w.version + 1 }, spec := spec, status := status }
    writes := (i, write) :: w.writes }

def HostWorld.patchClaim (w : HostWorld ι) (i : ι) (claim : Option ConsumerRef) : HostWorld ι :=
  w.store i (if claim.isSome then .claimed else .unclaimed) { w.host.spec with consumerRef := claim } w.host.status

def HostWorld.patchStatus (w : HostWorld ι) (i : ι) (phase : HostPhase) (inUse : Bool) (reason : String) :
    HostWorld ι :=
  w.store i (if inUse then .phase else .available) w.host.spec
    { w.host.status with phase := some phase, inUse := some inUse, cleanupReason := some reason }

/-- A merge patch without a resource version. -/
def HostWorld.applyProbe (w : HostWorld ι) (i : ι) (p : ProbePatch) : HostWorld ι :=
  { w.store i .probed w.host.spec { w.host.status with inUse := some p.inUse, ready := some p.ready } with
    probe := ⟨some p.lastProbeTime, some p.lastProbeSuccess, p.conditions⟩ }

def HostWorld.look (w : HostWorld ι) (i : ι) : HostWorld ι :=
  { w with seen := fun j => if j = i then some w.host else w.seen j }

/-- The host is claimed, or unclaimed, as the probe of the thread has read it. -/
def HostWorld.asRead (w : HostWorld ι) (i : ι) : Bool :=
  (w.seen i).all fun h => h.spec.consumerRef.isSome == w.host.spec.consumerRef.isSome

/-- A write that was committed is answered with the object, or its response is lost. -/
def Responds {α : Type} (a : α) (r : Except Exc α) : Prop :=
  r = .ok a ∨ ∃ e, r = .error e ∧ e ≠ .api 404 ∧ e ≠ .api 409

/-- The call of a thread; what is not about this host can be answered with anything. With
`heeded`, a probe is only applied to a claim as it was read. -/
def HostWorld.Answers (heeded : Prop) (i : ι) :
    (op : HostOp) → HostWorld ι → Except Exc op.Reply → HostWorld ι → Prop
  | .api (.readHost k), w, r, w' => w' = w ∧ ∀ h, r = .ok h → k = w.key → h = w.host
  | .api (.listHosts _), w, r, w' => w' = w ∧ ∀ l : List Host, r = .ok l → ∀ h ∈ l, h.metadata.key = w.key → h = w.host
  | .api (.patchHost k pre claim), w, r, w' =>
    w' = w ∧ (k = w.key → ∃ e, r = .error e) ∨
      k = w.key ∧ w.host.metadata.meets pre = true ∧ w' = w.patchClaim i claim ∧ Responds w'.host r
  | .api (.patchHostStatus k pre phase inUse reason), w, r, w' =>
    w' = w ∧ (k = w.key → ∃ e, r = .error e) ∨
      k = w.key ∧ w.host.metadata.meets pre = true ∧ w' = w.patchStatus i phase inUse reason ∧ Responds w'.host r
  | .api _, w, _, w' => w' = w
  | .readProbe k, w, r, w' =>
    w' = w ∧ (k = w.key → ∃ e, r = .error e) ∨ k = w.key ∧ r = .ok (w.host, w.probe.conditions) ∧ w' = w.look i
  | .applyProbe k p, w, r, w' =>
    w' = w ∧ (k = w.key → ∃ e, r = .error e) ∨
      k = w.key ∧ (heeded → w.asRead i = true) ∧ w' = w.applyProbe i p ∧ Responds () r

/-- Whatever changes the host besides leaves its claim and `inUse` alone. -/
def HostWorld.Edited (w w' : HostWorld ι) : Prop :=
  ∃ h : Host, w' = { w with host := h } ∧ h.metadata.key = w.key ∧ w.version < h.metadata.resourceVersion ∧
    h.spec.consumerRef = w.host.spec.consumerRef ∧ h.status.inUse = w.host.status.inUse

/-- The last write to the host is the first of two that the thread makes. -/
def HostWorld.Opened (w : HostWorld ι) (i : ι) : Prop :=
  w.writes.head? = some (i, .claimed) ∨ w.writes.head? = some (i, .available)

end World

/-- The handlers that bind and release hosts, with any arguments, and the probe. -/
inductive HostAttempt where
  | bind : MachineSpec → MachineStatus → ObjectKey → Uid → HostAttempt
  | phase : Binding → ObjectKey → Uid → HostPhase → String → HostAttempt
  | release : Binding → ObjectKey → Uid → HostAttempt
  | probe : (Exc → String) → HostAttempt

def HostAttempt.program (key : ObjectKey) : HostAttempt → HostAct Unit
  | .bind spec status machine uid => do
    let _ ← onHost (bindMachine spec status machine uid)
    return ()
  | .phase binding machine uid next reason => onHost (setHostPhase binding machine uid next reason)
  | .release binding machine uid => onHost (releaseHost binding machine uid)
  | .probe shown => do
    let read ← hostCall (.readProbe key)
    match ← onHost (sshhostProbe shown read.1 read.2) with
    | none => return ()
    | some patch => hostCall (.applyProbe key patch)

/-- Any number of threads on one host. With `heeded`, a thread that is cut short by an
error or a crash does not leave its first write as the last one. -/
def hostRuns (ι : Type) [DecidableEq ι] (heeded : Prop) : Runtime ι HostOp HostOp.Reply Exc Unit (HostWorld ι) where
  exec i op w r w' := w.Answers heeded i op r w'
  env w w' := w.Edited w'
  start i p w w' := w.active i = false ∧ (∃ a : HostAttempt, p = a.program w.key) ∧
    w' = { w with active := fun j => if j = i then true else w.active j }
  leave i o w w' := (heeded → o = some (.ok ()) ∨ ¬ w.Opened i) ∧
    w' = { w with active := fun j => if j = i then false else w.active j }

/-- `inUse` is true exactly for a host that is claimed. -/
def HostWorld.Mirrors {ι : Type} (w : HostWorld ι) : Prop :=
  w.host.status.inUse = some true ↔ w.host.spec.consumerRef.isSome

end CapiSsh
