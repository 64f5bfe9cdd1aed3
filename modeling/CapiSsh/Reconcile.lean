import CapiSsh.Lifecycle

/-!
# SSHMachine reconciliation

`controllers/sshmachine.py`: bootstrap of a Machine and the serialized entry point that
bootstrap, reboot and deletion share. How bootstrap data becomes a script is text
processing that no call depends on, so it is a parameter here and defined with the payloads.
-/
namespace CapiSsh

open Effect

/-- A configuration or payload that is refused, with the condition texts of its branch, or
an error that no branch handles. -/
inductive PayloadError where
  | refused (reason message bootstrapMessage : String)
  | raised (e : Exc)
  deriving DecidableEq, Repr

/-- `render spec data providerID` prepares the script, and `certificates config ca cert key`
puts the external etcd files in front of it. -/
structure PayloadTools where
  render : MachineSpec → String → String → Except PayloadError String
  certificates : ExternalEtcd → String → String → String → String → String

def timedCondition (now : Time) (type status reason message : String) : Condition :=
  ⟨type, status, reason, message, some now, none⟩

/-- `_machine_lifecycle_conditions`: readiness, infrastructure, bootstrap. -/
structure LifecycleReport where
  ready : Bool
  readyReason : String
  readyMessage : String
  infrastructureReason : String
  infrastructureMessage : String
  bootstrapSucceeded : Bool
  bootstrapReason : String
  bootstrapMessage : String
  extras : List (String × String × String)

def boolText (b : Bool) : String := if b then "True" else "False"

/-- Infrastructure is always as ready as the Machine, but may say so in other words. -/
def machineLifecycleConditions (now : Time) (r : LifecycleReport) : List Condition :=
  [timedCondition now "Ready" (boolText r.ready) r.readyReason r.readyMessage,
    timedCondition now "InfrastructureReady" (boolText r.ready) r.infrastructureReason r.infrastructureMessage,
    timedCondition now "BootstrapExecSucceeded" (boolText r.bootstrapSucceeded) r.bootstrapReason
      r.bootstrapMessage] ++
    r.extras.map fun e => timedCondition now e.1 "True" e.2.1 e.2.2

def reportLifecycle (status : MachineStatus) (metadata : ObjectMeta) (r : LifecycleReport) : Act Unit := do
  let now ← call .now
  patchConditions status metadata (machineLifecycleConditions now r)

def stageReady (ready provisioned : Bool) : Act Unit :=
  stage fun _ patch => { patch with status := { patch.status with
    ready := some ready, provisioned := some provisioned } }

/-- The exits before and during bootstrap all report the Machine as not provisioned. -/
def reportNotReady (status : MachineStatus) (metadata : ObjectMeta) (reason message bootstrapReason
    bootstrapMessage : String) : Act Unit := do
  stageReady false false
  reportLifecycle status metadata ⟨false, reason, message, reason, message, false, bootstrapReason,
    bootstrapMessage, []⟩

def isMachineOwner (ref : OwnerReference) : Bool := (capiOwnerApiVersion ref).isSome && ref.kind == "Machine"

def normalizeBootstrapCheckStrategy (spec : MachineSpec) : Option String :=
  match spec.bootstrapCheckStrategy with
  | none => some "ssh"
  | some raw =>
    let strategy := lower (strip raw)
    if strategy = "ssh" ∨ strategy = "none" then some strategy else none

def readSshKey (ns name key : String) : Act String := do
  let data ← call (.readSecret ⟨ns, name⟩)
  match data.lookup key with
  | none => throw (.permanent s!"Secret {ns}/{name} missing key '{key}'")
  | some value => return value

/-- A missing object means that it is not there yet. -/
def orMissing (read : Act α) : Act (Option α) :=
  try some <$> read catch e => match e with
    | .api 404 => pure none
    | _ => throw e

/-- An empty text is no data, as a missing one. -/
def readBootstrapData (ns machineName : String) : Act (Option String) := do
  match ← orMissing (call (.readCapi "machines" "v1beta1" ⟨ns, machineName⟩)) with
  | none => return none
  | some machine =>
    match filled machine.dataSecretName with
    | none => return none
    | some name =>
      match ← orMissing (call (.readSecret ⟨ns, name⟩)) with
      | none => return none
      | some data => return filled (data.lookup "value")

def readSecretValue (ns : String) (ref : SecretRef) : Act String :=
  readSshKey ns (ref.name.getD "") (ref.key.getD "value")

/-- `_external_etcd_files_script`: the staged certificates go in front of the script. -/
def externalEtcdFilesScript (tools : PayloadTools) (ns : String) (config : ExternalEtcd) (script : String) :
    Act String := do
  let ca ← readSecretValue ns config.caCertRef
  let cert ← readSecretValue ns config.clientCertRef
  let key ← readSecretValue ns config.clientKeyRef
  return tools.certificates config ca cert key script

/-- The script that is uploaded. -/
def stagedScript (tools : PayloadTools) (ns : String) (config : Option ExternalEtcd) (script : String) :
    Act String :=
  match config with
  | none => return script
  | some config => externalEtcdFilesScript tools ns config script

def isAlreadyProvisioned (status : MachineStatus) : Bool := status.provisioned == some true

def hasConditionStatus (status : MachineStatus) (type value : String) : Bool :=
  status.conditions.any fun c => c.type == type && lower c.status == lower value

def lifecycleTypes : List String := ["Ready", "InfrastructureReady", "BootstrapExecSucceeded"]

def backfillProvisionedFields (spec : MachineSpec) (status : MachineStatus) (metadata : ObjectMeta)
    (providerID address : String) : Act Unit := do
  stage fun _ patch => { patch with
    spec := { patch.spec with
      providerID := if spec.providerID = some providerID then patch.spec.providerID else some providerID }
    status := { patch.status with ready := some true } }
  let stale := status.conditions.any fun c =>
    lifecycleTypes.contains c.type && c.observedGeneration != metadata.generation
  onlyIf (((lifecycleTypes.all fun t => hasConditionStatus status t "True") && !stale) = false) do
    let message := s!"Machine {address} already provisioned with providerID {providerID}"
    reportLifecycle status metadata ⟨true, "Provisioned", message, "Provisioned", message, true,
      "BootstrapCompleted", "Bootstrap execution has completed for this machine", []⟩

/-- `_read_current_sshmachine`. -/
def readCurrentSshmachine (key : ObjectKey) : Act (Option Machine) := orMissing (call (.readMachine key))

def ensureBootstrapOwnership (conn : Conn) (binding : Binding) (key : ObjectKey) (uid : Uid)
    (status : MachineStatus) : Act Unit := do
  let now : Time ← call .now
  let ownership := status.bootstrapOwnership.getD { toBinding := binding, startedAt := some now }
  raiseIf (ownership.machineUID ≠ uid) (.permanent "Bootstrap ownership belongs to a different Machine UID")
  let _ ← persistMachineStatus key uid { StatusPatch.empty with bootstrapOwnership := some ownership }
  stage fun _ patch => { patch with status := { patch.status with bootstrapOwnership := some ownership } }
  let claim ← execute conn (.owned (ownedCommand uid .noop true false false))
  onlyIf (claim.success = false) do
    onlyIf (claim.exitCode = 78) do
      setHostPhase binding key uid .quarantined "RemoteOwnershipMismatch"
      throw (.permanent "Remote host identity is not owned by this Machine UID")
    throw (.temporary "Remote host operation is still busy" 15)

/-- The two looks at the live Machine on the way to bootstrap: `false` ends it quietly. -/
def stillWanted (key : ObjectKey) (uid : Uid) (message : String) : Act Bool := do
  match ← readCurrentSshmachine key with
  | none => throw (.temporary message 15)
  | some latest =>
    raiseIf (latest.metadata.uid ≠ uid) (.temporary message 15)
    let paused ← isPaused latest.spec latest.metadata key.ns
    return !paused && latest.metadata.deletionTimestamp.isNone

/-- The part of bootstrap under the host Lease; `false` when the Machine is not wanted now. -/
def bootstrapUnderLease (tools : PayloadTools) (operation : HostLeaseRef) (conn : Conn) (spec : MachineSpec)
    (status : MachineStatus) (metadata : ObjectMeta) (binding : Binding) (script strategy : String)
    (timeout : Time) : Act Bool := do
  let key := metadata.key
  let uid := metadata.uid
  if ← stillWanted key uid "Machine identity changed before bootstrap" then
    checkLease operation
    ensureBootstrapOwnership conn binding key uid status
    let script ← stagedScript tools key.ns spec.externalEtcd script
    let suffix : String ← call .uuid
    let path := s!"/var/lib/capi-provider-ssh/bootstrap-{suffix}.sh"
    checkLease operation
    call (.upload conn script path)
    checkLease operation
    if ← stillWanted key uid "Machine identity changed before bootstrap execution" then
      let result ← durableBootstrap (execute conn) (call .now) (pure ()) id uid path timeout
      onlyIf (result.success = false) do
        setHostPhase binding key uid .quarantined "BootstrapFailed"
        reportNotReady status metadata "BootstrapFailed" result.stderr "BootstrapFailed" result.stderr
        throw (.temporary s!"Bootstrap failed (exit {result.exitCode})" 30)
      onlyIf (strategy = "ssh") do
        let readiness ← execute conn .readiness
        onlyIf (readiness.success = false) do
          let message := "Bootstrap script completed; waiting for kubelet readiness checks to pass"
          stageReady false false
          reportLifecycle status metadata ⟨false, "KubeletNotReady", readiness.stderr, "KubeletNotReady",
            readiness.stderr, true, "BootstrapCompleted", message, [("Bootstrapped", "BootstrapCompleted", message)]⟩
          throw (.temporary s!"Post-bootstrap readiness check failed (exit {readiness.exitCode})" 30)
      return true
    else return false
  else return false

/-- kopf's own errors pass; a timeout and any other error are reported first. -/
def bootstrapError (status : MachineStatus) (metadata : ObjectMeta) : Exc → Act α
  | .timeout => do
    reportNotReady status metadata "SSHTimeout" Exc.timeout.text "SSHTimeout"
      "Bootstrap execution was interrupted by SSH timeout"
    throw (.temporary s!"SSH timeout: {Exc.timeout.text}" 30)
  | e@(.other _) | e@(.api _) => do
    reportNotReady status metadata "SSHError" s!"SSH connection failed: {e.text}" "SSHError"
      "Bootstrap execution could not proceed due to SSH error"
    throw (.temporary s!"SSH error: {e.text}" 30)
  | e => throw e

/-- `async with host_operation(..) as operation, await SSHClient.connect(..) as conn`. -/
def withTarget (binding : Binding) (uid : Uid) (key knownHosts : String)
    (body : HostLeaseRef → Conn → Act α) : Act (Exit α) :=
  hostOperation binding uid fun operation =>
    withConn (call (.connect ⟨binding.address, binding.port⟩ binding.user key knownHosts)) (body operation)

def reportProvisioned (status : MachineStatus) (metadata : ObjectMeta) (address providerID strategy : String) :
    Act Unit := do
  stage fun _ patch => { patch with spec := { patch.spec with providerID := some providerID } }
  stageReady true true
  let message := if strategy = "none" then
      "Bootstrap execution completed; post-bootstrap readiness checks skipped (bootstrapCheckStrategy=none)"
    else "Bootstrap execution and readiness checks completed successfully"
  let extras := if strategy = "none" then
      [("BootstrapCheckSkipped", "StrategyNone",
        "Post-bootstrap readiness checks skipped by spec.bootstrapCheckStrategy=none")]
    else []
  let provisioned := s!"Machine {address} provisioned with providerID {providerID}"
  reportLifecycle status metadata ⟨true, "Provisioned", provisioned, "Provisioned", provisioned, true,
    "BootstrapCompleted", message, extras⟩

/-- Dry-run only opens and closes a connection. -/
def dryRun (status : MachineStatus) (metadata : ObjectMeta) (binding : Binding) (sshKey knownHosts : String) :
    Act Unit := do
  try
    let conn ← call (.connect ⟨binding.address, binding.port⟩ binding.user sshKey knownHosts)
    call (.close conn)
  catch e => do
    raiseIf (e = .cancelled) e
    reportNotReady status metadata "DryRunSSHFailed" s!"SSH connectivity check failed: {e.text}" "DryRunMode"
      "Bootstrap execution is skipped in dry-run mode"
    throw (.temporary s!"Dry-run SSH failed: {e.text}" 30)
  stageReady false false
  reportLifecycle status metadata ⟨false, "DryRunMode", "Dry-run mode does not provision infrastructure",
    "DryRunMode", "Dry-run mode validates prerequisites without provisioning", false, "DryRunMode",
    "Bootstrap execution is skipped in dry-run mode",
    [("DryRunValidated", "PreflightPassed", s!"Dry-run passed: SSH to {binding.address}, bootstrap data ready")]⟩

/-- From the bound target to the provisioned Machine. -/
def bootstrapMachine (tools : PayloadTools) (spec : MachineSpec) (status : MachineStatus)
    (metadata : ObjectMeta) (owner : OwnerReference) (binding : Binding) (strategy : String)
    (timeout : Time) : Act Unit := do
  let key := metadata.key
  let uid := metadata.uid
  let providerID := providerIDOf binding.address
  match ← readBootstrapData key.ns owner.name with
  | none =>
    let message := s!"Bootstrap data not yet available for {owner.name}"
    reportNotReady status metadata "WaitingForBootstrapData" message "WaitingForBootstrapData" message
    throw (.temporary "Bootstrap data not ready" 15)
  | some data =>
    match tools.render spec data providerID with
    | .error (.refused reason message bootstrapMessage) =>
      reportNotReady status metadata reason message "BootstrapNotStarted" bootstrapMessage
      throw (.permanent message)
    | .error (.raised e) => throw e
    | .ok script =>
      match filled binding.sshKeyRef.name with
      | none =>
        reportNotReady status metadata "InvalidConfiguration" "Missing sshKeyRef.name" "BootstrapNotStarted"
          "Bootstrap has not started because SSH key reference is missing"
        throw (.permanent "spec.sshKeyRef.name is required")
      | some secret =>
        let (sshKey, knownHosts) ←
          try
            let sshKey ← readSshKey key.ns secret (binding.sshKeyRef.key.getD "value")
            let knownHosts ← readKnownHosts key.ns binding.sshHostKeyRef
            pure (sshKey, knownHosts)
          catch e => do
            raiseIf (e.isPermanent = true ∨ e = .cancelled) e
            reportNotReady status metadata "SSHKeyReadError" s!"Failed to read SSH key secret: {e.text}"
              "BootstrapNotStarted" "Bootstrap has not started because SSH key retrieval failed"
            throw (.temporary s!"SSH key read failed: {e.text}" 30)
        if spec.dryRun then dryRun status metadata binding sshKey knownHosts
        else
          let wanted ←
            try
              let exit ← withTarget binding uid sshKey knownHosts fun operation conn =>
                bootstrapUnderLease tools operation conn spec status metadata binding script strategy timeout
              exit.value
            catch e => bootstrapError status metadata e
          if wanted then reportProvisioned status metadata binding.address providerID strategy

def sshmachineReconcileImpl (tools : PayloadTools) (spec : MachineSpec) (status : MachineStatus)
    (metadata : ObjectMeta) (timeout : Time) : Act Unit := do
  let paused ← reportPause status metadata (isPaused spec metadata metadata.key.ns)
  if paused || metadata.deletionTimestamp.isSome then return ()
  else
    match metadata.ownerReferences.find? isMachineOwner with
    | none =>
      reportNotReady status metadata "WaitingForMachineOwner" "No CAPI Machine ownerReference found"
        "BootstrapNotStarted" "Bootstrap has not started because machine ownerReference is missing"
    | some owner =>
      match normalizeBootstrapCheckStrategy spec with
      | none =>
        let message := "spec.bootstrapCheckStrategy must be one of: ssh, none"
        reportNotReady status metadata "InvalidConfiguration" message "BootstrapNotStarted"
          "Bootstrap has not started due to invalid bootstrapCheckStrategy configuration"
        throw (.permanent message)
      | some strategy =>
        let binding ← bindMachine spec status metadata.key metadata.uid
        if isAlreadyProvisioned status then
          backfillProvisionedFields spec status metadata (providerIDOf binding.address) binding.address
        else bootstrapMachine tools spec status metadata owner binding strategy timeout

inductive Action where
  | reconcile | delete
  deriving DecidableEq, Repr

def acquireDistributedLockOrRequeue (key : ObjectKey) : Act Unit := do
  let acquired : Bool ← try call (.acquireLock key) catch e =>
    if e = .cancelled then throw e
    else throw (.temporary "distributed reconcile lock acquisition failed" 5)
  raiseIf (acquired = false) (.temporary "distributed reconcile lock is held by another controller" 5)

/-- A release that fails or finds another holder is only logged. -/
def releaseDistributedLockWithLogging (key : ObjectKey) : Act Unit := do
  let _ ← try call (.releaseLock key) catch e => if e = .cancelled then throw e else pure false

/-- The part under the lock, on the live object. -/
def reconcileLatest (tools : PayloadTools) (latest : Machine) (action : Action) (timeout : Time) : Act Unit :=
  match action with
  | .delete => deleteMachine latest.spec latest.status latest.metadata
  | .reconcile => do
    sshmachineReconcileImpl tools latest.spec latest.status latest.metadata timeout
    if latest.metadata.deletionTimestamp.isNone then
      reconcileReboot latest.spec latest.status latest.metadata false

/-- `sshmachine_reconcile` for the object that the event named: a stale event ends quietly. -/
def sshmachineReconcile (tools : PayloadTools) (key : ObjectKey) (eventUID : Uid) (action : Action)
    (timeout : Time) : Act Unit := do
  acquireDistributedLockOrRequeue key
  Prog.andFinally
    (do
      let latest ← try readCurrentSshmachine key catch e =>
        if e = .cancelled then throw e
        else throw (.temporary "failed to refresh live SSHMachine state under reconcile lock" 15)
      match latest with
      | none => return ()
      | some live =>
        if live.metadata.uid ≠ eventUID then return ()
        else reconcileLatest tools live action timeout)
    (releaseDistributedLockWithLogging key)

def sshmachineDelete (tools : PayloadTools) (key : ObjectKey) (eventUID : Uid) (timeout : Time) : Act Unit :=
  sshmachineReconcile tools key eventUID .delete timeout

end CapiSsh
