import CapiSsh.Contracts
import Mathlib.Data.List.Sort

/-!
# Host allocation

`inventory.py`: claims of pool hosts by Machine UID, the binding of a Machine, and the two
writes that give a host back.
-/
namespace CapiSsh

open Effect

def consumerRef (key : ObjectKey) (uid : Uid) : ConsumerRef := ⟨"SSHMachine", key.name, key.ns, some uid⟩

def sameConsumer (ref : Option ConsumerRef) (key : ObjectKey) (uid : Uid) : Bool :=
  match ref with
  | some r => decide (r.uid = some uid ∧ r.kind = "SSHMachine" ∧ r.name = key.name ∧ r.ns = key.ns)
  | none => false

/-- `connection_spec`; only a Machine can lack an address. -/
structure Connection where
  address : Option String
  port : Nat
  user : String
  sshKeyRef : SecretRef
  sshHostKeyRef : SecretRef
  deriving DecidableEq, Repr

def HostSpec.connection (s : HostSpec) : Connection :=
  ⟨some s.address, s.port.getD 22, s.user.getD "root", s.sshKeyRef, s.sshHostKeyRef⟩

def MachineSpec.connection (s : MachineSpec) : Connection :=
  ⟨s.address, s.port.getD 22, s.user.getD "root", s.sshKeyRef, s.sshHostKeyRef⟩

def Host.precondition (host : Host) : Precondition := ⟨host.metadata.uid, host.metadata.resourceVersion⟩

def setHostPhase (binding : Binding) (key : ObjectKey) (uid : Uid) (phase : HostPhase) (reason : String) :
    Act Unit :=
  match binding.hostRef with
  | none => return ()
  | some ref => do
    let host ← call (.readHost ref)
    raiseIf (some host.metadata.uid ≠ binding.hostUID ∨ sameConsumer host.spec.consumerRef key uid = false)
      (.temporary "Host ownership changed; refusing lifecycle state mutation" 15)
    let _ ← call (.patchHostStatus ref host.precondition phase true reason)

/-- Called after proven cleanup or for an operation that never started; the claim goes last. -/
def releaseHost (binding : Binding) (key : ObjectKey) (uid : Uid) : Act Unit :=
  match binding.hostRef with
  | none => return ()
  | some ref => do
    let host ← call (.readHost ref)
    raiseIf (some host.metadata.uid ≠ binding.hostUID) (.temporary "Host UID changed before release" 15)
    -- a missing claim is the retry of a release that was already committed
    onlyIf (host.spec.consumerRef.isSome = true) do
      raiseIf (sameConsumer host.spec.consumerRef key uid = false)
        (.temporary "Cannot release another Machine UID's host" 15)
      let host ← call (.patchHostStatus ref host.precondition .available false "")
      let _ ← call (.patchHost ref host.precondition none)

/-- The binding of a claimed host. -/
def poolBinding (host : Host) (uid : Uid) : Binding where
  address := host.spec.address
  port := host.spec.connection.port
  user := host.spec.connection.user
  sshKeyRef := host.spec.sshKeyRef
  sshHostKeyRef := host.spec.sshHostKeyRef
  machineUID := uid
  hostUID := some host.metadata.uid
  hostRef := some host.metadata.key

/-- Find the claim that a crash left behind; never select another host. -/
def recoverUnstartedClaim (key : ObjectKey) (uid : Uid) : Act (Option Binding) := do
  let hosts ← call (.listHosts key.ns)
  match hosts.filter (fun h => sameConsumer h.spec.consumerRef key uid) with
  | [] => return none
  | [host] => return some (poolBinding host uid)
  | _ => throw (.temporary "Multiple UID claims require inventory recovery before deletion" 30)

/-- Healthy hosts first, then by name. -/
def hostOrder (a b : Host) : Prop :=
  (a.status.ready = some true ∧ b.status.ready ≠ some true) ∨
    ((a.status.ready = some true ↔ b.status.ready = some true) ∧ a.metadata.key.name ≤ b.metadata.key.name)

instance : DecidableRel hostOrder := fun a b => by unfold hostOrder; infer_instance

/-- What keeps a host from being claimed by selection. -/
def skipHost (labels : List (String × String)) (host : Host) : Bool :=
  host.metadata.deletionTimestamp.isSome ||
    !(labels.all fun l => host.metadata.labels.lookup l.1 == some l.2) ||
    host.spec.consumerRef.isSome ||
    !(host.status.phase == none || host.status.phase == some .available) ||
    host.status.ready == some false

def claimFirst (labels : List (String × String)) (key : ObjectKey) (uid : Uid) : List Host → Act Host
  | [] => throw (.temporary "No available SSHHost matches the selector" 30)
  | host :: rest =>
    if skipHost labels host then claimFirst labels key uid rest
    else
      try call (.patchHost host.metadata.key host.precondition (some (consumerRef key uid)))
      catch e => match e with
        | .api status => if status = 404 ∨ status = 409 then claimFirst labels key uid rest else throw e
        | _ => throw e

def selectHost (spec : MachineSpec) (status : MachineStatus) (key : ObjectKey) (uid : Uid) : Act Host := do
  let hosts ← call (.listHosts key.ns)
  match hosts.filter (fun h => sameConsumer h.spec.consumerRef key uid) with
  | [host] => return host
  | _ :: _ :: _ =>
    throw (.permanent "Multiple hosts claimed by this Machine UID; explicit inventory repair required")
  | [] => do
    raiseIf (spec.hostRef.isSome ∨ (filled spec.providerID).isSome ∨ status.provisioned = some true)
      (.permanent "Existing machine has no matching UID-bound host claim; automatic replacement is forbidden")
    let labels := spec.hostSelector.getD []
    raiseIf (labels = []) (.permanent "hostSelector.matchLabels must not be empty")
    claimFirst labels key uid (hosts.insertionSort hostOrder)

def unclean (phase : Option HostPhase) : Bool := phase == some .quarantined || phase == some .cleaning

def providerIDOf (address : String) : String := "ssh://" ++ address

/-- The checks of an allocation that exists; only the references to credentials rotate. -/
def checkAllocation (binding : Binding) (spec : MachineSpec) (key : ObjectKey) (uid : Uid) : Act Binding := do
  raiseIf (binding.machineUID ≠ uid) (.permanent "Allocation belongs to a different Machine UID")
  raiseIf (spec.address.isSome ∧ spec.address ≠ some binding.address)
    (.permanent "Allocated address is immutable; create a replacement Machine")
  raiseIf (spec.port.isSome ∧ spec.port ≠ some binding.port)
    (.permanent "Allocated port is immutable; create a replacement Machine")
  raiseIf (spec.hostRef.isSome ∧ spec.hostRef ≠ binding.hostRef)
    (.permanent "Allocated hostRef is immutable; create a replacement Machine")
  raiseIf ((filled spec.providerID).isSome ∧ spec.providerID ≠ some (providerIDOf binding.address))
    (.permanent "providerID does not match the allocated target")
  match binding.hostRef with
  | some ref =>
    let host ← call (.readHost ref)
    raiseIf (some host.metadata.uid ≠ binding.hostUID ∨ sameConsumer host.spec.consumerRef key uid = false)
      (.permanent "Allocated SSHHost identity/claim changed; replacement is forbidden")
    raiseIf (host.spec.address ≠ binding.address) (.permanent "SSHHost address changed after allocation")
    raiseIf (host.spec.connection.port ≠ binding.port) (.permanent "SSHHost port changed after allocation")
    raiseIf (unclean host.status.phase = true)
      (.temporary "Allocated host awaits cleanup or quarantine recovery" 30)
    let target := host.spec.connection
    return { binding with user := target.user, sshKeyRef := target.sshKeyRef, sshHostKeyRef := target.sshHostKeyRef }
  | none =>
    let target := spec.connection
    return { binding with user := target.user, sshKeyRef := target.sshKeyRef, sshHostKeyRef := target.sshHostKeyRef }

/-- A first binding: a claimed host of the pool, or the address of the Machine itself. -/
def newBinding (spec : MachineSpec) (status : MachineStatus) (key : ObjectKey) (uid : Uid) : Act Binding :=
  if spec.hostSelector.isSome || spec.hostRef.isSome then do
    let host ← selectHost spec status key uid
    raiseIf (unclean host.status.phase = true) (.temporary "Host claim is quarantined or cleaning" 30)
    return poolBinding host uid
  else
    match filled spec.address with
    | none => throw (.permanent "Either address or hostSelector must be provided")
    | some address =>
      if (filled spec.providerID).isSome ∧ spec.providerID ≠ some (providerIDOf address) then
        throw (.permanent "providerID does not match the target")
      else return {
        address := address
        port := spec.connection.port
        user := spec.connection.user
        sshKeyRef := spec.sshKeyRef
        sshHostKeyRef := spec.sshHostKeyRef
        machineUID := uid
        hostUID := none
        hostRef := none }

def selectedFields (binding : Binding) : SpecPatch where
  address := some binding.address
  port := some binding.port
  user := some binding.user
  sshKeyRef := some binding.sshKeyRef
  sshHostKeyRef := some binding.sshHostKeyRef
  hostRef := binding.hostRef
  providerID := none

/-- Selected fields first, so that no crash leaves the default port on another endpoint. -/
def commitBinding (binding : Binding) (key : ObjectKey) (uid : Uid) : Act Unit := do
  let current ← call (.readMachine key)
  raiseIf (current.metadata.uid ≠ uid) (.temporary "Machine identity changed during allocation" 15)
  let _ ← call (.patchMachine key ⟨uid, current.metadata.resourceVersion⟩ (selectedFields binding))
  let _ ← persistMachineStatus key uid { StatusPatch.empty with allocation := some binding }

def Patch.bind (binding : Binding) (patch : Patch) : Patch where
  spec := { selectedFields binding with
    hostRef := binding.hostRef.or patch.spec.hostRef
    providerID := patch.spec.providerID }
  status := { patch.status with allocation := some binding }

/-- The target that exists, checked, or the first one. -/
def deriveBinding (spec : MachineSpec) (status : MachineStatus) (key : ObjectKey) (uid : Uid) : Act Binding :=
  match status.allocation with
  | some allocated => checkAllocation allocated spec key uid
  | none => newBinding spec status key uid

/-- Persist an immutable target before bootstrap; never change an existing allocation. -/
def bindMachine (spec : MachineSpec) (status : MachineStatus) (key : ObjectKey) (uid : Uid) : Act Binding := do
  let binding ← deriveBinding spec status key uid
  onlyIf (status.allocation ≠ some binding) (commitBinding binding key uid)
  stage fun _ patch => patch.bind binding
  setHostPhase binding key uid .claimed ""
  return binding

end CapiSsh
