import CapiSsh.Contracts
import CapiSsh.Lib.Interference
import CapiSsh.Lib.Keyed

/-!
# The SSHCluster controller

`controllers/sshcluster.py`, and one SSHCluster with the attempts of its handlers. Timers
run beside the handlers of the object, and each attempt works on the version of the object
that Kopf has handed to it. What it stages is merged into whatever is stored when it ends.
-/
namespace CapiSsh

open Effect Interference Keyed

def clusterInfrastructureReadyCondition : String := "InfrastructureReady"
def clusterEndpointReadyCondition : String := "ControlPlaneEndpointReady"

structure ControlPlaneEndpoint where
  host : Option String
  port : Option Nat
  deriving DecidableEq, Repr

structure ClusterSpec where
  controlPlaneEndpoint : Option ControlPlaneEndpoint
  paused : Bool
  deriving DecidableEq, Repr

structure ClusterStatus where
  provisioned : Option Bool
  ready : Option Bool
  conditions : List Condition
  deriving DecidableEq, Repr

def ClusterStatus.empty : ClusterStatus := ⟨none, none, []⟩

structure SSHCluster where
  metadata : ObjectMeta
  spec : ClusterSpec
  status : ClusterStatus
  deriving DecidableEq, Repr

/-- The keys that a cluster's patch can have are keys of a Machine's. -/
def ClusterStatus.shared (s : ClusterStatus) : MachineStatus :=
  { MachineStatus.empty with provisioned := s.provisioned, ready := s.ready, conditions := s.conditions }

def ClusterStatus.merge (s : ClusterStatus) (p : StatusPatch) : ClusterStatus where
  provisioned := p.provisioned.or s.provisioned
  ready := p.ready.or s.ready
  conditions := p.conditions.getD s.conditions

def hasCapiClusterOwner (ownerReferences : List OwnerReference) : Bool :=
  ownerReferences.any fun ref => (capiOwnerApiVersion ref).isSome && ref.kind == "Cluster"

def ClusterSpec.endpoint (spec : ClusterSpec) : ControlPlaneEndpoint := spec.controlPlaneEndpoint.getD ⟨none, none⟩

def ClusterSpec.host (spec : ClusterSpec) : String := spec.endpoint.host.getD ""

def ClusterSpec.port (spec : ClusterSpec) : Nat := spec.endpoint.port.getD 0

namespace SSHCluster

/-- `is_paused`, of a spec with no other key that it reads. -/
def isPaused (c : SSHCluster) : Act Bool :=
  if c.spec.paused || hasKey pausedAnnotation c.metadata.annotations then return true
  else isPausedOwners c.metadata.key.ns c.metadata.ownerReferences (c.metadata.labels.lookup clusterLabel) "v1beta1"

/-- `_condition`, which reads the clock itself. -/
def timedCondition (type status reason message : String) : Act Condition := do
  let now ← call .now
  return ⟨type, status, reason, message, some now, none⟩

def clusterLifecycleConditions (ready : Bool) (readyReason readyMessage : String)
    (infrastructureReady : Bool) (infrastructureReason infrastructureMessage : String)
    (endpointReady : Bool) (endpointReason endpointMessage : String) : Act (List Condition) := do
  let ready ← timedCondition "Ready" (if ready then "True" else "False") readyReason readyMessage
  let infrastructure ← timedCondition clusterInfrastructureReadyCondition
    (if infrastructureReady then "True" else "False") infrastructureReason infrastructureMessage
  let endpoint ← timedCondition clusterEndpointReadyCondition
    (if endpointReady then "True" else "False") endpointReason endpointMessage
  return [ready, infrastructure, endpoint]

def stageReady (ready : Bool) : Act Unit :=
  stage fun _ patch => { patch with status.ready := some ready }

def stageProvisioned (provisioned : Bool) : Act Unit :=
  stage fun _ patch => { patch with status.provisioned := some provisioned }

/-- `_reconcile`. -/
def reconcile (c : SSHCluster) : Act Unit := do
  if ← reportPause c.status.shared c.metadata c.isPaused then
    return ()
  if !(hasCapiClusterOwner c.metadata.ownerReferences) then
    let message := "No CAPI Cluster ownerReference found"
    let reason := "WaitingForClusterOwner"
    stageProvisioned false
    stageReady false
    let conditions ← clusterLifecycleConditions false reason message false reason message false reason
      "Control plane endpoint cannot be evaluated before owner is available"
    patchConditions c.status.shared c.metadata conditions
  else if c.spec.host = "" ∨ c.spec.port = 0 then
    let reason := "InvalidEndpoint"
    let message := s!"Invalid controlPlaneEndpoint: {c.spec.host}:{c.spec.port}"
    stageProvisioned false
    stageReady false
    let conditions ← clusterLifecycleConditions false reason message false reason message false reason message
    patchConditions c.status.shared c.metadata conditions
  else
    let message := s!"Control plane endpoint {c.spec.host}:{c.spec.port} registered"
    stageProvisioned true
    stageReady true
    let conditions ← clusterLifecycleConditions true "Provisioned" message true "Provisioned" message
      true "EndpointConfigured" message
    patchConditions c.status.shared c.metadata conditions

/-- `sshcluster_create` and `sshcluster_update`, the timer's handler too. -/
def sshclusterUpdate (c : SSHCluster) : Act Unit := c.reconcile

def sshclusterDelete (c : SSHCluster) : Act Unit := do
  stageReady false
  patchConditions c.status.shared c.metadata
    [condition "Ready" "False" "Deleting" "Cluster infrastructure is deleting",
      condition "InfrastructureReady" "False" "Deleting" "Cluster infrastructure is deleting",
      condition "CleanupSucceeded" "False" "Deleting" "Cluster deletion is awaiting pause checks"]
  let paused ← reportPause c.status.shared c.metadata c.isPaused
  raiseIf paused (.temporary "Cluster deletion is paused by CAPI" 15)
  stageProvisioned false
  patchConditions c.status.shared c.metadata
    [condition "ControlPlaneEndpointReady" "False" "Deleting" "Control plane endpoint is being removed",
      condition "CleanupSucceeded" "True" "CleanupNotRequired" "SSHCluster has no provider-owned resources to clean up"]

end SSHCluster

inductive ClusterAttempt where
  | update | delete
  deriving DecidableEq, Repr

def ClusterAttempt.handler (c : SSHCluster) : ClusterAttempt → Act Unit
  | .update => c.sshclusterUpdate
  | .delete => c.sshclusterDelete

/-- Kopf applies what a handler has staged when it ends, however it ends. -/
def ClusterAttempt.program (a : ClusterAttempt) (c : SSHCluster) : Act Unit :=
  (a.handler c).andFinally (call (.applyStaged c.metadata.key))

/-- An attempt and the version of the object that it was given. -/
abbrev ClusterRun := ClusterAttempt × SSHCluster

/-- The object, every version that it has had, those of them that are not the provider's,
and the attempts that are running. Of the stored ones, `decided` is the last that said
whether the cluster is ready. -/
structure ClusterWorld (ι : Type) where
  object : SSHCluster
  versions : List SSHCluster
  edits : List SSHCluster
  staged : ι → Patch
  active : ι → Option ClusterRun
  decided : Option ClusterRun

section World

variable {ι : Type} [DecidableEq ι]

def ClusterWorld.new (ι : Type) (c : SSHCluster) : ClusterWorld ι :=
  ⟨c, [c], [c], fun _ => Patch.empty, fun _ => none, none⟩

/-- The API server has one more version of the object. -/
def ClusterWorld.store (w : ClusterWorld ι) (c : SSHCluster) : ClusterWorld ι :=
  { w with object := c, versions := c :: w.versions }

def ClusterWorld.restage (w : ClusterWorld ι) (i : ι) (p : Patch) : ClusterWorld ι :=
  { w with staged := fun j => if j = i then p else w.staged j }

def ClusterWorld.activate (w : ClusterWorld ι) (i : ι) (run : Option ClusterRun) : ClusterWorld ι :=
  { w with active := fun j => if j = i then run else w.active j }

/-- A merge patch without a resource version. -/
def ClusterWorld.applyStaged (w : ClusterWorld ι) (i : ι) : ClusterWorld ι :=
  let patch := (w.staged i).status
  { w.store { w.object with status := w.object.status.merge patch } with
    decided := if patch.ready.isSome then w.active i else w.decided }

/-- The owner chain, the clock and the patch of a thread; every other call is not one of
the cluster's handlers. -/
def ClusterWorld.Answers (i : ι) : (op : Op) → ClusterWorld ι → Except Exc (Reply op) → ClusterWorld ι → Prop
  | .readCapi .., w, _, w' => w' = w
  | .now, w, r, w' => w' = w ∧ ∃ t, r = .ok t
  | .stage f, w, r, w' => r = .ok () ∧ ∃ t, w' = w.restage i (f t (w.staged i))
  | .applyStaged _, w, _, w' => w' = w ∨ w' = w.applyStaged i
  | _, _, _, _ => False

/-- The condition types that the controller writes. -/
def clusterConditionTypes : List String :=
  ["Ready", clusterInfrastructureReadyCondition, clusterEndpointReadyCondition, "CleanupSucceeded", "Paused"]

def ownConditions (cs : List Condition) : List Condition := cs.filter fun c => clusterConditionTypes.contains c.type

/-- The conditions of other controllers. -/
def foreignConditions (cs : List Condition) : List Condition :=
  cs.filter fun c => !(clusterConditionTypes.contains c.type) && c.type != ""

/-- Users edit the spec and the metadata, once marked for deletion the object stays so,
and other controllers write conditions of their own. With `quiet`, they do not while an
attempt is running. -/
def ClusterWorld.Edited (quiet : Prop) (w w' : ClusterWorld ι) : Prop :=
  ∃ c : SSHCluster, w' = { w.store c with edits := c :: w.edits } ∧
    (w.object.metadata.deletionTimestamp.isSome → c.metadata.deletionTimestamp.isSome) ∧
    c.status.provisioned = w.object.status.provisioned ∧ c.status.ready = w.object.status.ready ∧
    Distinct Condition.type c.status.conditions ∧
    ownConditions c.status.conditions = ownConditions w.object.status.conditions ∧
    (quiet → (∃ i, w.active i ≠ none) →
      foreignConditions c.status.conditions = foreignConditions w.object.status.conditions)

def ClusterAttempt.admitted (a : ClusterAttempt) (c : SSHCluster) : Prop :=
  c.metadata.deletionTimestamp.isSome ↔ a = .delete

/-- Any number of attempts, each with some version of the object. With `serial` they come
one after another, each with the version that is stored. -/
def clusterRuns (ι : Type) [DecidableEq ι] (serial quiet : Prop) : Runtime ι Op Reply Exc Unit (ClusterWorld ι) where
  exec i op w r w' := w.Answers i op r w'
  env w w' := w.Edited quiet w'
  start i p w w' := ∃ (a : ClusterAttempt) (c : SSHCluster), c ∈ w.versions ∧ a.admitted c ∧
    (serial → c = w.object ∧ ∀ j, w.active j = none) ∧
    p = a.program c ∧ w' = (w.restage i Patch.empty).activate i (some (a, c))
  leave i _ w w' := w' = w.activate i none

end World

end CapiSsh
