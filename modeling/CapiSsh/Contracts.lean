import CapiSsh.Conditions

/-!
# Pause, identity and persistence

`contracts.py`: the pause state of the owner chain, status writes fenced by UID and
resource version, and the trust entries of a target.
-/
namespace CapiSsh

open Effect

def pausedAnnotation : String := "cluster.x-k8s.io/paused"
def clusterLabel : String := "cluster.x-k8s.io/cluster-name"
def capiGroup : String := "cluster.x-k8s.io"

/-- The version of a `group/version` text of the CAPI group; anything else is not CAPI. -/
def capiOwnerApiVersion (owner : OwnerReference) : Option String := do
  let apiVersion ← owner.apiVersion
  let group := String.ofList (apiVersion.toList.takeWhile (· != '/'))
  let version := (apiVersion.toList.dropWhile (· != '/')).tail
  if group = capiGroup ∧ version ≠ [] ∧ '/' ∉ version then some (String.ofList version) else none

def hasKey (k : String) (entries : List (String × String)) : Bool := entries.any (fun e => e.1 == k)

def CapiObject.isPaused (obj : CapiObject) : Bool := obj.paused || hasKey pausedAnnotation obj.annotations

/-- A read of an owner: a missing one blocks work, any other refusal is retried. -/
def readOwner (plural version : String) (key : ObjectKey) (message : String) : Act (Option CapiObject) :=
  try
    let obj ← call (.readCapi plural version key)
    pure (some obj)
  catch e => match e with
    | .api 404 => pure none
    | .api _ => throw (.temporary message 15)
    | _ => throw e

/-- The owner references from the first one on, with the cluster that earlier ones name. -/
def isPausedOwners (ns : String) : List OwnerReference → Option String → String → Act Bool
  | [], clusterName, clusterVersion =>
    match filled clusterName with
    | none => return false
    | some name => do
      match ← readOwner "clusters" clusterVersion ⟨ns, name⟩ "Cannot establish Cluster pause state" with
      | none => return true
      | some cluster => return cluster.isPaused
  | owner :: rest, clusterName, clusterVersion =>
    match capiOwnerApiVersion owner with
    | none => isPausedOwners ns rest clusterName clusterVersion
    | some version =>
      if owner.kind ≠ "Machine" ∧ owner.kind ≠ "Cluster" then
        isPausedOwners ns rest clusterName clusterVersion
      else do
        let plural := if owner.kind = "Machine" then "machines" else "clusters"
        match ← readOwner plural version ⟨ns, owner.name⟩ "Cannot establish CAPI owner pause state" with
        | none => return true
        | some obj =>
          if owner.uid.isSome ∧ obj.uid ≠ owner.uid then
            throw (.temporary "CAPI owner UID changed; waiting for a current owner reference" 15)
          else if obj.isPaused then return true
          else if owner.kind = "Cluster" then return false
          else isPausedOwners ns rest ((filled obj.clusterName).or clusterName) version

def isPaused (spec : MachineSpec) (metadata : ObjectMeta) (ns : String) : Act Bool :=
  if spec.paused || hasKey pausedAnnotation metadata.annotations then return true
  else isPausedOwners ns metadata.ownerReferences (metadata.labels.lookup clusterLabel) "v1beta1"

/-- Commit lifecycle state before any remote side effect. -/
def persistMachineStatus (key : ObjectKey) (uid : Uid) (changes : StatusPatch) : Act Machine := do
  let current ← call (.readMachine key)
  raiseIf (current.metadata.uid ≠ uid) (.temporary "SSHMachine UID changed before status persistence" 15)
  let now ← call .now
  let conditions := changes.conditions.map (fun items => mergeConditions now current.status.conditions items none)
  try
    call (.patchMachineStatus key ⟨uid, current.metadata.resourceVersion⟩ { changes with conditions := conditions })
  catch e => match e with
    | .api _ => throw (.temporary "Lifecycle state could not be persisted; no new remote operation started" 15)
    | _ => throw e

/-- Independently verified OpenSSH entries of a target. -/
def readKnownHosts (ns : String) (ref : SecretRef) : Act String :=
  match filled ref.name with
  | none => throw (.permanent "spec.sshHostKeyRef.name is required; automatic host-key trust is disabled")
  | some name => do
    let data ← call (.readSecret ⟨ns, name⟩)
    match filled (data.lookup (ref.key.getD "known_hosts")) with
    | none => throw (.permanent "Host trust Secret does not contain the configured known_hosts entry")
    | some entries => return entries

end CapiSsh
