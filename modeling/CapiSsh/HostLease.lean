import CapiSsh.Lib.Interference
import CapiSsh.Lib.VersionedCell
import CapiSsh.Objects

/-!
# The Lease of a host

`HostLease` of `operations.py`: one Kubernetes Lease for a normalised address and port, and
the calls that `acquire`, `renew` and `release` make on it. Any number of threads make these
calls, for any number of `HostLease` objects; a write can take effect although its caller
sees an error.
-/
namespace CapiSsh.Leases

open Effect Interference VersionedCell

/-- `holder_identity`: the Machine and a token of the `HostLease` object. -/
structure LeaseHolder where
  uid : Uid
  token : Nat
  deriving DecidableEq, Repr

structure LeaseSpec where
  holder : Option LeaseHolder
  duration : Option Nat
  acquireTime : Option Time
  renewTime : Option Time
  deriving DecidableEq, Repr

def leaseSeconds : Nat := 60

inductive LeaseOp where
  | now
  | read
  | create (spec : LeaseSpec)
  | replace (version : Nat) (spec : LeaseSpec)
  deriving DecidableEq, Repr

abbrev LeaseOp.Reply : LeaseOp → Type
  | .now => Time
  | .read => Nat × LeaseSpec
  | .create _ | .replace .. => Unit

inductive LeaseExc where
  | api (status : Nat)
  | other
  deriving DecidableEq, Repr

abbrev LeaseProg (α : Type) := Prog LeaseOp LeaseOp.Reply LeaseExc α

/-- `spec.lease_duration_seconds or 60` -/
def LeaseSpec.seconds (spec : LeaseSpec) : Nat := if spec.duration.getD 0 = 0 then 60 else spec.duration.getD 0

/-- The recorded holder still has the Lease at this time. -/
def LeaseSpec.heldAt (spec : LeaseSpec) (now : Time) : Bool :=
  match spec.holder, spec.renewTime.or spec.acquireTime with
  | some _, some renewed => decide (now < renewed + spec.seconds)
  | _, _ => false

def acquiredSpec (holder : LeaseHolder) (now : Time) : LeaseSpec := ⟨some holder, some leaseSeconds, some now, some now⟩

def now : LeaseProg Time := Prog.perform LeaseOp.now
def read : LeaseProg (Nat × LeaseSpec) := Prog.perform LeaseOp.read
def create (spec : LeaseSpec) : LeaseProg Unit := Prog.perform (LeaseOp.create spec)
def replace (version : Nat) (spec : LeaseSpec) : LeaseProg Unit := Prog.perform (LeaseOp.replace version spec)

def readOrMissing : LeaseProg (Option (Nat × LeaseSpec)) :=
  read.attempt.bind fun r =>
    match r with
    | .ok current => .pure (some current)
    | .error e => if e = .api 404 then .pure none else .throw e

def writeLease (current : Option (Nat × LeaseSpec)) (spec : LeaseSpec) : LeaseProg Unit :=
  match current with
  | some current => replace current.1 spec
  | none => create spec

/-- A conflict means that somebody else was faster. -/
def unlessConflict (write : LeaseProg Unit) : LeaseProg Bool :=
  write.attempt.bind fun r =>
    match r with
    | .ok _ => .pure true
    | .error e => if e = .api 409 then .pure false else .throw e

def acquire (holder : LeaseHolder) : LeaseProg Bool :=
  now.bind fun t => readOrMissing.bind fun current =>
    if (current.any fun c => c.2.heldAt t) then .pure false
    else unlessConflict (writeLease current (acquiredSpec holder t))

def renew (holder : LeaseHolder) : LeaseProg Bool :=
  read.bind fun current =>
    if current.2.holder = some holder then
      now.bind fun t => (replace current.1 { current.2 with renewTime := some t }).bind fun _ => .pure true
    else .pure false

def release (holder : LeaseHolder) : LeaseProg Unit :=
  read.bind fun current =>
    if current.2.holder = some holder then replace current.1 { current.2 with holder := none } else .pure ()

structure LeaseWrite where
  holder : LeaseHolder
  before : Option LeaseSpec
  after : LeaseSpec

variable {ι : Type} [DecidableEq ι]

/-- `kept` is the last renewal of each object that took effect, until it has released;
`wrote` is what the present call of a thread has written. -/
structure LeaseWorld (ι : Type) where
  cell : Cell LeaseSpec
  clock : Time
  kept : LeaseHolder → Option Time
  wrote : ι → Option LeaseSpec
  log : List LeaseWrite

def LeaseWorld.write (w : LeaseWorld ι) (i : ι) (holder : LeaseHolder) (spec : LeaseSpec) : LeaseWorld ι where
  cell := w.cell.put spec
  clock := w.clock
  kept X := if X = holder then (if spec.holder = some holder then spec.renewTime else none) else w.kept X
  wrote j := if j = i then some spec else w.wrote j
  log := ⟨holder, w.cell.stored.map Prod.snd, spec⟩ :: w.log

/-- A call fails, or takes effect and may fail all the same. -/
def LeaseExec (holder : LeaseHolder) (i : ι) (op : LeaseOp) (w : LeaseWorld ι) (r : Except LeaseExc op.Reply)
    (w' : LeaseWorld ι) : Prop :=
  (∃ e, r = .error e ∧ w' = w) ∨
  match op, r with
  | .now, r => r = .ok w.clock ∧ w' = w
  | .read, r => w' = w ∧ ∃ current, w.cell.stored = some current ∧ r = .ok current
  | .create spec, _ => w.cell.stored = none ∧ w' = w.write i holder spec
  | .replace version spec, _ => (∃ old, w.cell.stored = some (version, old)) ∧ w' = w.write i holder spec

/-- The calls of the threads of `HostLease` objects: `who i` is the object of thread `i`. -/
inductive LeaseCall (holder : LeaseHolder) : LeaseProg Bool → Prop where
  | acquire : LeaseCall holder (acquire holder)
  | renew : LeaseCall holder (renew holder)
  | release : LeaseCall holder ((release holder).bind fun _ => .pure false)

/-- Time passes between the calls. -/
def leaseRuntime (who : ι → LeaseHolder) : Runtime ι LeaseOp LeaseOp.Reply LeaseExc Bool (LeaseWorld ι) where
  exec i op w r w' := LeaseExec (who i) i op w r w'
  env w w' := ∃ n, w' = { w with clock := w.clock + n }
  start i p w w' := LeaseCall (who i) p ∧ w' = { w with wrote := fun j => if j = i then none else w.wrote j }
  leave _ _ w w' := w' = w

/-- Before any of the objects, with the Lease that somebody else may have left. -/
def LeaseWorld.new (ι : Type) (left : Option LeaseSpec) (clock : Time) : LeaseWorld ι :=
  ⟨⟨left.map (Prod.mk 0), 1⟩, clock, fun _ => none, fun _ => none, []⟩

/-- The object has renewed within the Lease's duration and has not released. -/
def LeaseWorld.Holds (w : LeaseWorld ι) (X : LeaseHolder) : Prop :=
  ∃ t, w.kept X = some t ∧ w.clock < t + leaseSeconds

/-- What a write that takes effect has found: an acquisition no Lease, or one without a
holder or that has run out at its clock reading; a renewal or a release its own Lease. -/
inductive LeaseWrite.Due (clock : Time) : LeaseWrite → Prop where
  | acquired (X : LeaseHolder) (now : Time) (before : Option LeaseSpec) : now ≤ clock →
      (∀ s, before = some s → s.heldAt now = false) → Due clock ⟨X, before, acquiredSpec X now⟩
  | renewed (X : LeaseHolder) (now : Time) (s : LeaseSpec) : now ≤ clock → s.holder = some X →
      Due clock ⟨X, some s, { s with renewTime := some now }⟩
  | released (X : LeaseHolder) (s : LeaseSpec) : s.holder = some X → Due clock ⟨X, some s, { s with holder := none }⟩

end CapiSsh.Leases
