import Mathlib.Data.List.Basic

/-!
# Stored objects and the patches that change them

The fields of SSHMachine and SSHHost that the provider reads or writes. A field which may
be missing is an `Option`; the provider's dictionaries that become JSON merge patches keep
three cases apart (`Field`): a key left out, an explicit null, and a value. A host reference
is written `namespace/name` by the provider and only ever compared or split again, so it
is the pair itself.
-/
namespace CapiSsh

/-- Assigned by the API server and never empty. -/
abbrev Uid := Nat
abbrev Time := Nat

structure ObjectKey where
  ns : String
  name : String
  deriving DecidableEq, Repr

/-- A key of a merge patch: left out, null, or a value. -/
inductive Field (α : Type) where
  | keep : Field α
  | remove : Field α
  | set : α → Field α
  deriving DecidableEq, Repr

def Field.apply : Field α → Option α → Option α
  | .keep, old => old
  | .remove, _ => none
  | .set a, _ => some a

/-- Python's truth value of an optional text. -/
def filled : Option String → Option String
  | some s => if s = "" then none else some s
  | none => none

/-- `str.isspace` of one character. -/
def isSpace (c : Char) : Bool :=
  (9 ≤ c.val && c.val ≤ 13) || (28 ≤ c.val && c.val ≤ 32) || (8192 ≤ c.val && c.val ≤ 8202) ||
    [133, 160, 5760, 8232, 8233, 8239, 8287, 12288].contains c.val

/-- `str.strip`. -/
def strip (s : String) : String :=
  String.ofList (((s.toList.dropWhile isSpace).reverse.dropWhile isSpace).reverse)

/-- `str.lower`, for texts that are compared with ASCII ones. -/
def lower (s : String) : String := String.ofList (s.toList.map Char.toLower)

structure OwnerReference where
  apiVersion : Option String
  kind : String
  name : String
  uid : Option Uid
  deriving DecidableEq, Repr

structure ObjectMeta where
  key : ObjectKey
  uid : Uid
  resourceVersion : Nat
  generation : Option Nat
  deletionTimestamp : Option Time
  annotations : List (String × String)
  labels : List (String × String)
  ownerReferences : List OwnerReference
  deriving DecidableEq, Repr

/-- A missing reference is the empty dictionary. -/
structure SecretRef where
  name : Option String
  key : Option String
  deriving DecidableEq, Repr

def SecretRef.merge (old new : SecretRef) : SecretRef :=
  ⟨new.name.or old.name, new.key.or old.key⟩

/-- The claim of a host. A claim without a UID was not made by this provider. -/
structure ConsumerRef where
  kind : String
  name : String
  ns : String
  uid : Option Uid
  deriving DecidableEq, Repr

structure HostSpec where
  address : String
  port : Option Nat
  user : Option String
  sshKeyRef : SecretRef
  sshHostKeyRef : SecretRef
  consumerRef : Option ConsumerRef
  deriving DecidableEq, Repr

inductive HostPhase where
  | available | claimed | cleaning | quarantined
  deriving DecidableEq, Repr

structure HostStatus where
  phase : Option HostPhase
  ready : Option Bool
  inUse : Option Bool
  cleanupReason : Option String
  deriving DecidableEq, Repr

structure Host where
  metadata : ObjectMeta
  spec : HostSpec
  status : HostStatus
  deriving DecidableEq, Repr

/-- `externalEtcd`; a missing list of endpoints is empty. -/
structure ExternalEtcd where
  endpoints : List String
  caFile : Option String
  certFile : Option String
  keyFile : Option String
  caCertRef : SecretRef
  clientCertRef : SecretRef
  clientKeyRef : SecretRef
  deriving DecidableEq, Repr

/-- `hostSelector` holds its `matchLabels`, and an empty `externalEtcd` is none. -/
structure MachineSpec where
  address : Option String
  port : Option Nat
  user : Option String
  sshKeyRef : SecretRef
  sshHostKeyRef : SecretRef
  hostSelector : Option (List (String × String))
  hostRef : Option ObjectKey
  dryRun : Bool
  bootstrapCheckStrategy : Option String
  requestedAt : Option String
  providerID : Option String
  paused : Bool
  externalEtcd : Option ExternalEtcd
  deriving DecidableEq, Repr

/-- The target of a Machine, as `status.allocation` stores it. -/
structure Binding where
  address : String
  port : Nat
  user : String
  sshKeyRef : SecretRef
  sshHostKeyRef : SecretRef
  machineUID : Uid
  hostUID : Option Uid
  hostRef : Option ObjectKey
  deriving DecidableEq, Repr

/-- What of a binding is decided once and for all. -/
structure Identity where
  machineUID : Uid
  address : String
  port : Nat
  hostUID : Option Uid
  hostRef : Option ObjectKey
  deriving DecidableEq, Repr

def Binding.identity (b : Binding) : Identity := ⟨b.machineUID, b.address, b.port, b.hostUID, b.hostRef⟩

/-- Merge a binding into the stored one; keys that the new one leaves out stay. -/
def Binding.merge (old new : Binding) : Binding where
  address := new.address
  port := new.port
  user := new.user
  sshKeyRef := old.sshKeyRef.merge new.sshKeyRef
  sshHostKeyRef := old.sshHostKeyRef.merge new.sshHostKeyRef
  machineUID := new.machineUID
  hostUID := new.hostUID.or old.hostUID
  hostRef := new.hostRef.or old.hostRef

/-- `status.bootstrapOwnership`: the binding it was taken from and when. -/
structure Ownership extends Binding where
  startedAt : Option Time
  deriving DecidableEq, Repr

def Ownership.merge (old new : Ownership) : Ownership where
  toBinding := old.toBinding.merge new.toBinding
  startedAt := new.startedAt.or old.startedAt

inductive RebootPhase where
  | prepared | submitted | succeeded | failed | unknown
  deriving DecidableEq, Repr

/-- `status.remediation.reboot`. -/
structure Reboot where
  lastRequestedAt : Option String
  phase : Option RebootPhase
  previousBootID : Option String
  startedAt : Option Time
  success : Option Bool
  lastCompletedAt : Option Time
  observedBootID : Option String
  message : Option String
  deriving DecidableEq, Repr

/-- The dictionary that `reconcile_reboot` builds for `write_reboot`. -/
structure RebootState where
  lastRequestedAt : Option String
  phase : Option RebootPhase
  previousBootID : Option String
  startedAt : Option Time
  success : Option Bool
  lastCompletedAt : Field Time
  observedBootID : Option String
  message : Option String
  deriving DecidableEq, Repr

def Reboot.empty : Reboot := ⟨none, none, none, none, none, none, none, none⟩

def Reboot.toState (r : Reboot) : RebootState where
  lastRequestedAt := r.lastRequestedAt
  phase := r.phase
  previousBootID := r.previousBootID
  startedAt := r.startedAt
  success := r.success
  lastCompletedAt := match r.lastCompletedAt with
    | some t => .set t
    | none => .keep
  observedBootID := r.observedBootID
  message := r.message

def Reboot.merge (old : Reboot) (new : RebootState) : Reboot where
  lastRequestedAt := new.lastRequestedAt.or old.lastRequestedAt
  phase := new.phase.or old.phase
  previousBootID := new.previousBootID.or old.previousBootID
  startedAt := new.startedAt.or old.startedAt
  success := new.success.or old.success
  lastCompletedAt := new.lastCompletedAt.apply old.lastCompletedAt
  observedBootID := new.observedBootID.or old.observedBootID
  message := new.message.or old.message

inductive CleanupPhase where
  | running | succeeded | failed
  deriving DecidableEq, Repr

structure Condition where
  type : String
  status : String
  reason : String
  message : String
  lastTransitionTime : Option Time
  observedGeneration : Option Nat
  deriving DecidableEq, Repr

structure MachineStatus where
  allocation : Option Binding
  bootstrapOwnership : Option Ownership
  cleanup : Option CleanupPhase
  reboot : Option Reboot
  provisioned : Option Bool
  ready : Option Bool
  conditions : List Condition
  deriving DecidableEq, Repr

def MachineStatus.empty : MachineStatus := ⟨none, none, none, none, none, none, []⟩

structure Machine where
  metadata : ObjectMeta
  spec : MachineSpec
  status : MachineStatus
  deriving DecidableEq, Repr

/-- The spec keys that the provider patches on a Machine. -/
structure SpecPatch where
  address : Option String
  port : Option Nat
  user : Option String
  sshKeyRef : Option SecretRef
  sshHostKeyRef : Option SecretRef
  hostRef : Option ObjectKey
  providerID : Option String
  deriving DecidableEq, Repr

def SpecPatch.empty : SpecPatch := ⟨none, none, none, none, none, none, none⟩

def SpecPatch.apply (p : SpecPatch) (s : MachineSpec) : MachineSpec :=
  { s with
    address := p.address.or s.address
    port := p.port.or s.port
    user := p.user.or s.user
    sshKeyRef := (p.sshKeyRef.map s.sshKeyRef.merge).getD s.sshKeyRef
    sshHostKeyRef := (p.sshHostKeyRef.map s.sshHostKeyRef.merge).getD s.sshHostKeyRef
    hostRef := p.hostRef.or s.hostRef
    providerID := p.providerID.or s.providerID }

/-- The status keys that the provider patches on a Machine. A list is replaced as a whole. -/
structure StatusPatch where
  allocation : Option Binding
  bootstrapOwnership : Option Ownership
  cleanup : Option CleanupPhase
  reboot : Option RebootState
  provisioned : Option Bool
  ready : Option Bool
  conditions : Option (List Condition)
  deriving DecidableEq, Repr

def StatusPatch.empty : StatusPatch := ⟨none, none, none, none, none, none, none⟩

/-- Merge one nested dictionary into its stored value, which may be missing. -/
def mergeKey (merge : α → β → α) (first : β → α) (old : Option α) : Option β → Option α
  | none => old
  | some b => some (match old with
    | some a => merge a b
    | none => first b)

def StatusPatch.apply (p : StatusPatch) (s : MachineStatus) : MachineStatus where
  allocation := mergeKey Binding.merge id s.allocation p.allocation
  bootstrapOwnership := mergeKey Ownership.merge id s.bootstrapOwnership p.bootstrapOwnership
  cleanup := p.cleanup.or s.cleanup
  reboot := mergeKey Reboot.merge Reboot.empty.merge s.reboot p.reboot
  provisioned := p.provisioned.or s.provisioned
  ready := p.ready.or s.ready
  conditions := p.conditions.getD s.conditions

/-- `kopf.Patch`: what a handler stages for the framework to apply when it has ended. -/
structure Patch where
  spec : SpecPatch
  status : StatusPatch
  deriving DecidableEq, Repr

def Patch.empty : Patch := ⟨.empty, .empty⟩

/-- A key that is left out of every dictionary stays as it is. -/
@[simp] theorem status_apply_empty (s : MachineStatus) : StatusPatch.empty.apply s = s := by
  cases s; simp [StatusPatch.apply, StatusPatch.empty, mergeKey]

@[simp] theorem spec_apply_empty (s : MachineSpec) : SpecPatch.empty.apply s = s := by
  cases s; simp [SpecPatch.apply, SpecPatch.empty]

/-- The stored target of a merge is the new one, except for pool keys that it leaves out. -/
theorem binding_merge_identity (old new : Binding) (hu : new.hostUID = none → old.hostUID = none)
    (hr : new.hostRef = none → old.hostRef = none) : (old.merge new).identity = new.identity := by
  have h₁ : new.hostUID.or old.hostUID = new.hostUID := by
    cases h : new.hostUID with
    | none => simpa using hu h
    | some u => rfl
  have h₂ : new.hostRef.or old.hostRef = new.hostRef := by
    cases h : new.hostRef with
    | none => simpa using hr h
    | some k => rfl
  simp [Binding.identity, Binding.merge, h₁, h₂]

/-- Merging a binding for the same target changes nothing of its identity. -/
theorem binding_merge_same (old new : Binding) (h : new.identity = old.identity) :
    (old.merge new).identity = old.identity := by
  simp only [Binding.identity, Identity.mk.injEq] at h
  rw [binding_merge_identity old new (by rw [h.2.2.2.1]; exact id) (by rw [h.2.2.2.2]; exact id)]
  simp only [Binding.identity, Identity.mk.injEq]
  exact h

end CapiSsh
