import CapiSsh.Lifecycle

/-!
# The journal of a Machine

What the API server and the hosts have seen of one Machine, latest event first: its status
writes, the writes to hosts that it claims, the commands that reached its host, and two
events that its user causes. The status that is stored, the claims that it holds and the
boots that it still waits for are functions of this list. `Law` says which event may come
next; `Lawful` journals have the lifecycle guarantees, and the rest of the development
shows that the handlers write no other journals.
-/
namespace CapiSsh

/-- A Machine object; a recreated one of the same name has another UID. -/
structure MachineRef where
  key : ObjectKey
  uid : Uid
  deriving DecidableEq, Repr

def MachineRef.consumer (i : MachineRef) : ConsumerRef := consumerRef i.key i.uid

theorem consumer_injective {i j : MachineRef} (h : i.consumer = j.consumer) : i = j := by
  obtain ⟨⟨ns, name⟩, uid⟩ := i
  obtain ⟨⟨ns', name'⟩, uid'⟩ := j
  simp only [MachineRef.consumer, consumerRef, ConsumerRef.mk.injEq, Option.some.injEq] at h
  simp [h.2.1, h.2.2.1, h.2.2.2]

/-- How the execution of a remote command ended. -/
inductive RunOutcome where
  | raised | closed
  | exited : Int → RunOutcome
  deriving DecidableEq, Repr

/-- The exit code that `SSHConnection.execute` reports. -/
def RunOutcome.code : RunOutcome → Option Int
  | .raised => none
  | .closed => some (-1)
  | .exited code => some code

/-- The execution reported an exit status other than zero. -/
def RunOutcome.isError (o : RunOutcome) : Bool := o.code.any (· != 0)

inductive Event where
  | requested : Option String → Event
  | marked : Event
  | status : StatusPatch → Event
  | claim : Uid → Option ConsumerRef → Option HostPhase → Event
  | phase : Uid → Option ConsumerRef → Option HostPhase → HostPhase → Event
  | unclaim : Uid → Option ConsumerRef → Event
  | observed : Target → String → Event
  | reboot : Target → Option String → RunOutcome → Event
  | reset : Target → RunOutcome → Event
  deriving DecidableEq, Repr

abbrev Journal := List Event

/-- What nobody but the provider writes: the claims of hosts, and their phases. -/
structure Trust where
  claims : Bool
  phases : Bool
  closed : phases = true → claims = true

/-- Events that the Machine's own attempts do not cause. -/
def Event.isUser : Event → Bool
  | .requested _ | .marked => true
  | _ => false

def statusOf : Journal → MachineStatus
  | [] => .empty
  | .status p :: j => p.apply (statusOf j)
  | _ :: j => statusOf j

theorem statusOf_other {j : Journal} {e : Event} (h : ∀ p, e ≠ .status p) :
    statusOf (e :: j) = statusOf j := by
  cases e with
  | status p => exact absurd rfl (h p)
  | _ => rfl

def record (j : Journal) : Reboot := (statusOf j).reboot.getD .empty

def owned (j : Journal) : Prop := (statusOf j).bootstrapOwnership.isSome

/-- `spec.remediation.reboot.requestedAt` as it is now. -/
def requestOf : Journal → Option String
  | [] => none
  | .requested v :: _ => v
  | _ :: j => requestOf j

/-- The requests under which a reboot command was sent since that value was written. -/
def sentOf : Journal → List (Option String)
  | [] => []
  | .requested _ :: _ => []
  | .reboot .. :: j => (record j).lastRequestedAt :: sentOf j
  | _ :: j => sentOf j

/-- The phase that the Machine last saw on a host that it still claims. -/
def heldOf (x : Uid) : Journal → Option (Option HostPhase)
  | [] => none
  | .claim y _ p :: j => if y = x then some p else heldOf x j
  | .phase y _ _ p :: j => if y = x then (heldOf x j).map fun _ => some p else heldOf x j
  | .unclaim y _ :: j => if y = x then none else heldOf x j
  | _ :: j => heldOf x j

def Event.startsCleanup : Event → Bool
  | .phase _ _ _ p => p == .cleaning
  | .status p => p.cleanup.isSome
  | .reset .. => true
  | _ => false

/-- Some part of a cleanup attempt has had an effect. -/
def started : Journal → Prop
  | [] => False
  | .requested _ :: j => started j
  | .marked :: j => started j
  | e :: j => e.startsCleanup = true ∨ started j

def preparesReboot (p : StatusPatch) : Bool := (p.reboot.bind fun r => r.phase) == some .prepared

/-- The boot that the host showed last, unless a reboot command was sent since. -/
def seenOf : Journal → Option String
  | [] => none
  | .observed _ b :: _ => some b
  | .reboot .. :: _ => none
  | _ :: j => seenOf j

/-- What was observed of the host since a reboot was last prepared. -/
def observedOf : Journal → List (Target × String)
  | [] => []
  | .observed t b :: j => (t, b) :: observedOf j
  | .status p :: j => if preparesReboot p then [] else observedOf j
  | _ :: j => observedOf j

/-- The last reboot command, if one was sent since a reboot was last prepared. -/
def lastRunOf : Journal → Option (Option String × RunOutcome)
  | [] => none
  | .reboot _ accepted outcome :: _ => some (accepted, outcome)
  | .status p :: j => if preparesReboot p then none else lastRunOf j
  | _ :: j => lastRunOf j

/-- The boots in which the host accepted a reboot command and that no later observation of
another boot has shown to be over. -/
def unresolvedOf : Journal → List String
  | [] => []
  | .reboot _ (some b) _ :: j => b :: unresolvedOf j
  | .observed _ b :: j => (unresolvedOf j).filter (fun a => a == b)
  | _ :: j => unresolvedOf j

/-- The target that status records. -/
def Binding.target (b : Binding) : Target := ⟨b.address, b.port⟩

/-- The cleanup command of the recorded target has returned exit status zero. -/
def resetDone (j : Journal) : Prop :=
  ∃ b, (statusOf j).allocation = some b ∧ Event.reset b.target (.exited 0) ∈ j

/-- A successful receipt was committed after that. -/
def cleaned (j : Journal) : Prop :=
  ∃ j₁ p j₂, j = j₁ ++ .status p :: j₂ ∧ p.cleanup = some .succeeded ∧ resetDone j₂

/-- A new request may be served: nothing was sent for it since its value was written. -/
def fresh (j : Journal) (r : String) : Prop := ∀ q ∈ sentOf j, some r = requestOf j ∧ q ≠ some r

/-- The host of the allocation is known to be claimed, and closed to bootstrap. -/
def confined (j : Journal) : Prop :=
  ∀ b x, (statusOf j).allocation = some b → b.hostUID = some x → ∃ p, heldOf x j = some p ∧ unclean p = true

/-- The target is the one that bootstrap ownership was taken for. -/
def owns (j : Journal) (t : Target) : Prop :=
  ∃ o, (statusOf j).bootstrapOwnership = some o ∧ t = o.target

/-- A write that carries the record of the current request on. -/
structure Updates (j : Journal) (s : RebootState) : Prop where
  request : s.lastRequestedAt = (record j).lastRequestedAt
  previous : s.previousBootID = (record j).previousBootID
  outcome : ((record j).pending = true ∧ s.phase.map RebootPhase.pending = some true) ∨
    (s.phase = some .succeeded ∧ ((record j).phase = some .succeeded ∨
        ∃ b, seenOf j = some b ∧ (record j).previousBootID ≠ some b) ∧
      ∃ t b, (t, b) ∈ observedOf j ∧ (record j).previousBootID ≠ some b) ∨
    (s.phase = some .failed ∧ ∃ a o, lastRunOf j = some (a, o) ∧ o.isError = true)
  unsettled : s.phase = some .failed → (record j).phase ≠ some .succeeded
  waiting : s.phase ≠ some .succeeded → s.success = some false ∧
    ((record j).merge s).observedBootID = (record j).observedBootID ∧
    (((record j).merge s).lastCompletedAt = none ∨
      ((record j).merge s).lastCompletedAt = (record j).lastCompletedAt)
  completed : s.phase = some .succeeded → s.success = some true ∧
    ∃ b t, s.observedBootID = some b ∧ s.lastCompletedAt = .set t ∧ s.previousBootID ≠ some b

/-- The write-ahead record of a new request. -/
structure Prepares (j : Journal) (s : RebootState) : Prop where
  phase : s.phase = some .prepared
  started : s.startedAt.isSome ∧ s.message.isSome
  cleared : s.success = some false ∧ s.lastCompletedAt = .remove ∧ s.observedBootID = none
  request : ∃ r, s.lastRequestedAt = some r ∧ fresh j r
  previous : ∃ b, s.previousBootID = some b ∧ seenOf j = some b

structure StatusLaw (T : Trust) (i : MachineRef) (j : Journal) (p : StatusPatch) : Prop where
  allocation : ∀ b, p.allocation = some b → b.machineUID = i.uid ∧ (b.hostRef = none → b.hostUID = none) ∧
    match (statusOf j).allocation with
    | some old => b.identity = old.identity
    | none => T.claims = true → ∀ x, b.hostUID = some x → (heldOf x j).isSome
  ownership : ∀ o, p.bootstrapOwnership = some o →
    (∃ b, (statusOf j).allocation = some b ∧ o.identity = b.identity) ∧
      (owned j ∨ ¬ started j ∧ p.cleanup = none)
  cleanup : ∀ c, p.cleanup = some c → Event.marked ∈ j ∧
    if c = .succeeded then owned j → (statusOf j).cleanup = some .succeeded ∨ resetDone j
    else (statusOf j).cleanup ≠ some .succeeded ∧ (T.phases = true → confined j)
  reboot : ∀ s, p.reboot = some s → Updates j s ∨ Prepares j s

/-- What may happen next. Releasing a host needs the receipt of its cleanup; the cleanup
command needs a host that no accepted reboot can still hit. -/
def Law (T : Trust) (i : MachineRef) (j : Journal) : Event → Prop
  | .requested _ | .marked => True
  | .status p => StatusLaw T i j p
  | .claim x ref _ => T.claims = true → ref = some i.consumer ∧ heldOf x j = none
  | .phase x ref old new =>
    (new = .cleaning → Event.marked ∈ j ∧ ∃ b, (statusOf j).allocation = some b ∧ b.hostUID = some x) ∧
    (new = .available → (statusOf j).cleanup = some .succeeded) ∧
    (T.claims = true → ref = some i.consumer ∧ ∃ p, heldOf x j = some p ∧
      (T.phases = true → p = old ∧ (new = .claimed → unclean old = false)))
  | .unclaim x ref => (statusOf j).cleanup = some .succeeded ∧
    (T.claims = true → ref = some i.consumer ∧ (heldOf x j).isSome)
  | .observed t _ => owns j t
  | .reboot t accepted _ => owns j t ∧ (record j).phase = some .prepared ∧
    (∃ r, (record j).lastRequestedAt = some r ∧ fresh j r) ∧
    ∀ b, accepted = some b → (record j).previousBootID = some b
  | .reset t _ => owns j t ∧ Event.marked ∈ j ∧ (record j).pending = false ∧
    (T.phases = true → confined j)

inductive Lawful (T : Trust) (i : MachineRef) : Journal → Prop
  | nil : Lawful T i []
  | cons {j e} : Lawful T i j → Law T i j e → Lawful T i (e :: j)

end CapiSsh
