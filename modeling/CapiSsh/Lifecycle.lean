import CapiSsh.Inventory
import CapiSsh.Operations

/-!
# Reboot and cleanup

`lifecycle.py`: the write-ahead record of a reboot, and the deletion of a Machine, which
keeps its claim until a cleanup receipt is committed.
-/
namespace CapiSsh

open Effect

def connect (binding : Binding) (ns : String) : Act Conn :=
  match filled binding.sshKeyRef.name with
  | none => throw (.permanent "Allocated target has no SSH key reference")
  | some name => do
    let data ← call (.readSecret ⟨ns, name⟩)
    match data.lookup (binding.sshKeyRef.key.getD "value") with
    | none => throw (.other "KeyError")
    | some key =>
      let knownHosts ← readKnownHosts ns binding.sshHostKeyRef
      call (.connect ⟨binding.address, binding.port⟩ binding.user key knownHosts)

/-- `async with host_operation(..) as operation, await connect(..) as conn`. -/
def withHost (binding : Binding) (uid : Uid) (ns : String) (body : HostLeaseRef → Conn → Act α) : Act (Exit α) :=
  hostOperation binding uid fun operation => withConn (connect binding ns) (body operation)

def checkCurrent (key : ObjectKey) (uid : Uid) : Act Machine := do
  let current ← call (.readMachine key)
  raiseIf (current.metadata.uid ≠ uid) (.temporary "Machine identity changed before remote execution" 15)
  let paused ← isPaused current.spec current.metadata key.ns
  raiseIf (paused = true) (.temporary "Machine operation is paused by CAPI" 15)
  return current

def stageReboot (state : RebootState) : Act Unit :=
  stage fun _ patch => { patch with status := { patch.status with reboot := some state } }

def writeReboot (key : ObjectKey) (uid : Uid) (state : RebootState) : Act Unit := do
  let _ ← persistMachineStatus key uid { StatusPatch.empty with reboot := some state }
  stageReboot state

def RebootPhase.pending : RebootPhase → Bool
  | .prepared | .submitted | .unknown => true
  | .succeeded | .failed => false

/-- The record waits for the host to come back with another boot ID. -/
def Reboot.pending (r : Reboot) : Bool := (r.phase.map RebootPhase.pending).getD false

def isHex (c : Char) : Bool := c.isDigit || ('a' ≤ c && c ≤ 'f') || ('A' ≤ c && c ≤ 'F') || c == '-'

/-- The text has the form of a Linux boot ID. -/
def isBootID (s : String) : Bool := s.length == 36 && s.toList.all isHex

def preparedState (requested : String) (bootID : String) (now : Time) : RebootState where
  lastRequestedAt := some requested
  phase := some .prepared
  previousBootID := some bootID
  startedAt := some now
  success := some false
  lastCompletedAt := .remove
  observedBootID := none
  message := some "Reboot intent persisted before command submission"

def succeededState (previous : Reboot) (bootID : String) (now : Time) : RebootState :=
  { previous.toState with
    phase := some .succeeded
    success := some true
    lastCompletedAt := .set now
    observedBootID := some bootID
    message := some "A new host boot ID was observed" }

def unobservedState (previous : Reboot) : RebootState :=
  { previous.toState with
    phase := some .unknown
    success := some false
    message := some "No new boot observed; request will not be replayed automatically" }

def RebootState.update (state : RebootState) (phase : RebootPhase) (message : String) : RebootState :=
  { state with phase := some phase, message := some message }

def observeBoot (conn : Conn) (uid : Uid) : Act String := do
  let observed ← execute conn (.owned (ownedCommand uid .bootID false false false))
  let bootID := strip observed.stdout.line
  raiseIf (observed.success = false ∨ isBootID bootID = false)
    (.temporary "Cannot establish host boot identity" 15)
  return bootID

/-- Send the command of a new request, between its write-ahead record and its outcome. The
staged record is the dictionary that is updated, so it changes before each write. -/
def submitReboot (operation : HostLeaseRef) (conn : Conn) (key : ObjectKey) (uid : Uid)
    (requested bootID : String) : Act Unit := do
  let now ← call .now
  let state := preparedState requested bootID now
  writeReboot key uid state
  checkLease operation
  let result ← try execute conn (.owned (ownedCommand uid .reboot false false false)) catch e => do
    raiseIf (e = .cancelled) e
    let state := state.update .unknown "Command outcome unknown; observe boot ID before retrying"
    stageReboot state
    writeReboot key uid state
    throw (.temporary "Reboot submission outcome is unknown" 15)
  let state := if !result.success then
      state.update .failed s!"Reboot command rejected (exit {result.exitCode})"
    else state.update .submitted "Reboot submitted; completion not yet observed"
  stageReboot state
  writeReboot key uid state

/-- What an attempt does once the boot ID of the host is known. -/
def advanceReboot (operation : HostLeaseRef) (conn : Conn) (key : ObjectKey) (uid : Uid) (previous : Reboot)
    (requested bootID : String) (observeOnly : Bool) : Act Unit := do
  let sameRequest := previous.lastRequestedAt = some requested
  if previous.pending then
    if some bootID ≠ previous.previousBootID then
      let now ← call .now
      writeReboot key uid (succeededState previous bootID now)
    else if sameRequest then
      let now : Time ← call .now
      match previous.startedAt with
      | none => throw (.other "KeyError")
      | some startedAt =>
        if startedAt + 300 ≤ now then writeReboot key uid (unobservedState previous)
        else throw (.temporary "Waiting to observe the requested host reboot" 15)
    else if previous.phase ≠ some .unknown then
      throw (.temporary "A previous reboot is still in progress" 15)
    else if observeOnly then return ()
    else submitReboot operation conn key uid requested bootID
  else if observeOnly then return ()
  else submitReboot operation conn key uid requested bootID

def reconcileReboot (spec : MachineSpec) (status : MachineStatus) (metadata : ObjectMeta)
    (observeOnly : Bool) : Act Unit := do
  let key := metadata.key
  let previous := status.reboot.getD .empty
  match filled (if observeOnly then previous.lastRequestedAt else spec.requestedAt) with
  | none => return ()
  | some requested =>
    if ← isPaused spec metadata key.ns then return ()
    else if spec.dryRun && !observeOnly then return ()
    else
      let uid := metadata.uid
      raiseIf ((status.bootstrapOwnership.map fun o => o.machineUID) ≠ some uid ∨ status.provisioned ≠ some true)
        (.temporary "Reboot requires a provisioned, UID-owned allocation" 15)
      let binding ← bindMachine spec status key uid
      if previous.lastRequestedAt = some requested ∧
          (previous.phase = some .succeeded ∨ previous.phase = some .failed) then return ()
      else
        let exit ← withHost binding uid key.ns fun operation conn => do
          let _ ← checkCurrent key uid
          checkLease operation
          let bootID ← observeBoot conn uid
          advanceReboot operation conn key uid previous requested bootID observeOnly
        exit.value

def cleanupConditions (reason message : String) (succeeded : Bool) : List Condition :=
  let settled := succeeded && (reason == "Deleting" || reason == "DeletionPaused")
  [condition "Ready" "False" reason message,
    condition "InfrastructureReady" "False" reason message,
    condition "CleanupSucceeded" (if succeeded then "True" else "False")
      (if settled then "CleanupCompleted" else reason)
      (if settled then "Host cleanup completed" else message)]

/-- Publish status and receipt together before the next side effect. The staged patch must
not overwrite a terminal receipt whose response is lost. -/
def recordCleanup (metadata : ObjectMeta) (phase : CleanupPhase) (reason message : String) : Act Unit := do
  let patch : Patch ← call .staged
  let paused := (patch.status.conditions.getD []).filter (fun c => c.type = "Paused")
  let updates := cleanupConditions reason message (phase == .succeeded) ++ paused
  stage fun _ patch => { patch with status := { patch.status with
    cleanup := none
    conditions := if phase = .running then patch.status.conditions else none } }
  let now ← call .now
  let current ← persistMachineStatus metadata.key metadata.uid { StatusPatch.empty with
    ready := some false
    cleanup := some phase
    conditions := some (mergeConditions now [] updates metadata.generation) }
  stage fun _ patch => { patch with status := { patch.status with
    ready := some false
    conditions := some current.status.conditions } }

def releaseCleanedHost (binding : Option Binding) (metadata : ObjectMeta) (status : MachineStatus) : Act Unit :=
  match binding with
  | none => return ()
  | some binding =>
    try releaseHost binding metadata.key metadata.uid
    catch e => do
      raiseIf (e = .cancelled) e
      patchConditions status metadata
        [condition "Ready" "False" "HostReleasePending" "Cleanup completed; host claim release is pending",
          condition "InfrastructureReady" "False" "HostReleasePending"
            "Cleanup completed; host claim release is pending"]
      throw (.temporary "Cleanup completed; retrying host claim release without another reset" 30)

def blocked (status : MachineStatus) (metadata : ObjectMeta) (message : String) : Act α := do
  patchConditions status metadata (cleanupConditions "CleanupBlocked" message false)
  throw (.temporary message 30)

def recoverIf (needed : Bool) (key : ObjectKey) (uid : Uid) : Act (Option Binding) :=
  if needed then recoverUnstartedClaim key uid else return none

/-- A claim that a crash has left behind is persisted as the allocation that it was for. -/
def adoptClaim (spec : MachineSpec) (status : MachineStatus) (metadata : ObjectMeta) :
    Option Binding → Act Unit
  | none => pure ()
  | some binding => do
    onlyIf (spec.hostRef.isSome ∧ spec.hostRef ≠ binding.hostRef)
      (blocked status metadata "Unstarted host claim differs from the selected host")
    let _ ← persistMachineStatus metadata.key metadata.uid { StatusPatch.empty with allocation := some binding }

/-- A Machine that was provisioned before ownership was recorded needs its operator. -/
def refuseLegacy (status : MachineStatus) (metadata : ObjectMeta) (binding : Option Binding) : Act Unit := do
  match binding with
  | none => pure ()
  | some binding => setHostPhase binding metadata.key metadata.uid .quarantined "LegacyOwnershipUnverified"
  blocked status metadata "Legacy host ownership is unverified; explicit recovery required"

/-- Deletion of a Machine that never recorded bootstrap ownership: nothing to reset. -/
def deleteUnowned (spec : MachineSpec) (status : MachineStatus) (metadata : ObjectMeta) : Act Unit := do
  let key := metadata.key
  let uid := metadata.uid
  let provisioned := status.provisioned == some true || (filled spec.providerID).isSome
  let unbound := !provisioned && status.allocation.isNone && (spec.hostRef.isSome || spec.hostSelector.isSome)
  let recovered ← recoverIf unbound key uid
  adoptClaim spec status metadata recovered
  let binding := status.allocation.or recovered
  onlyIf (provisioned = true ∨ (spec.hostRef.isSome ∧ binding.isNone)) (refuseLegacy status metadata binding)
  recordCleanup metadata .succeeded "CleanupNotRequired"
    "No remote mutation was recorded; host cleanup is not required"
  releaseCleanedHost binding metadata status

/-- The guarded reset; its receipt is committed before the connection is closed. -/
def resetHost (operation : HostLeaseRef) (conn : Conn) (metadata : ObjectMeta) : Act Unit := do
  let _ ← checkCurrent metadata.key metadata.uid
  checkLease operation
  let result ← execute conn (.owned (ownedCommand metadata.uid .reset false true false))
  raiseIf (result.success = false) (.temporary s!"Host cleanup failed (exit {result.exitCode})" 30)
  recordCleanup metadata .succeeded "CleanupCompleted" "Host cleanup completed"

/-- The API may have committed the receipt before its response was lost; if this read fails
as well, receipt and claim stay for the next attempt to observe. -/
def cleanupFailed (binding : Binding) (metadata : ObjectMeta) : Act Unit := do
  let current ← call (.readMachine metadata.key)
  raiseIf (current.metadata.uid ≠ metadata.uid)
    (.temporary "Machine identity changed during cleanup finalization" 15)
  if current.status.cleanup = some .succeeded then
    stage fun _ patch => { patch with status := { patch.status with
      conditions := some current.status.conditions } }
    throw (.temporary "Cleanup completed; retrying finalization without another reset" 30)
  else
    setHostPhase binding metadata.key metadata.uid .quarantined "CleanupFailed"
    recordCleanup metadata .failed "CleanupFailed" "Cleanup incomplete; host remains claimed and quarantined"
    throw (.temporary "Cleanup incomplete; host remains claimed and quarantined" 30)

/-- The body of the reset has returned exactly when its receipt was acknowledged. -/
def cleanHost (binding : Binding) (status : MachineStatus) (metadata : ObjectMeta) : Act Unit := do
  setHostPhase binding metadata.key metadata.uid .cleaning ""
  recordCleanup metadata .running "CleanupInProgress" "Host cleanup is in progress"
  let exit ←
    try withHost binding metadata.uid metadata.key.ns fun operation conn => resetHost operation conn metadata
    catch e => pure ⟨none, .error e⟩
  match exit.outcome with
  | .ok _ => releaseCleanedHost (some binding) metadata status
  | .error .cancelled => throw .cancelled
  | .error _ =>
    raiseIf (exit.returned.isSome = true)
      (.temporary "Cleanup completed; retrying finalization without another reset" 30)
    cleanupFailed binding metadata

/-- Deletion of a Machine that recorded bootstrap ownership. -/
def deleteOwned (spec : MachineSpec) (status : MachineStatus) (metadata : ObjectMeta)
    (ownership : Ownership) : Act Unit :=
  match status.allocation with
  | none => blocked status metadata "Cannot establish bootstrap ownership for cleanup"
  | some binding => do
    onlyIf (ownership.machineUID ≠ metadata.uid)
      (blocked status metadata "Cannot establish bootstrap ownership for cleanup")
    onlyIf (ownership.address ≠ binding.address ∨ ownership.port ≠ binding.port ∨
        ownership.hostUID ≠ binding.hostUID)
      (blocked status metadata "Cleanup target differs from bootstrap ownership")
    if status.cleanup = some .succeeded then
      recordCleanup metadata .succeeded "CleanupCompleted" "Host cleanup completed"
      releaseCleanedHost (some binding) metadata status
    else if (status.reboot.getD .empty).pending then
      patchConditions status metadata
        (cleanupConditions "WaitingForReboot" "Cleanup waits for a resolved reboot outcome" false)
      reconcileReboot spec status metadata true
      throw (.temporary "Cleanup waits for a resolved reboot outcome" 15)
    else cleanHost binding status metadata

/-- Retain claim and finalizer until cleanup succeeds, including partial bootstrap. -/
def deleteMachine (spec : MachineSpec) (status : MachineStatus) (metadata : ObjectMeta) : Act Unit := do
  let cleaned := status.cleanup == some .succeeded
  stage fun _ patch => { patch with status := { patch.status with ready := some false } }
  patchConditions status metadata (cleanupConditions "Deleting" "Deletion is awaiting cleanup checks" cleaned)
  let paused ← reportPause status metadata (isPaused spec metadata metadata.key.ns)
  onlyIf (paused = true) do
    patchConditions status metadata (cleanupConditions "DeletionPaused" "Deletion is paused by CAPI" cleaned)
    throw (.temporary "Deletion is paused by CAPI" 15)
  onlyIf ((status.allocation.map fun b => b.machineUID != metadata.uid) = some true)
    (blocked status metadata "Cannot delete a different Machine UID's allocation")
  match status.bootstrapOwnership with
  | none => deleteUnowned spec status metadata
  | some ownership => deleteOwned spec status metadata ownership

end CapiSsh
