import CapiSsh.BootstrapJob
import CapiSsh.Lib.Interference
import CapiSsh.Lib.VersionedCell
import CapiSsh.Objects
import CapiSsh.ReconcileLocks

/-!
# The reconcile lock of an SSHMachine

A handler has its object for itself in two steps: the lock of its process, and an annotation
that names the process and a second at which it runs out. The annotation is written under
the resource version that was read, and tried again after a conflict.
-/
namespace CapiSsh.ReconcileLocks

open Effect

/-- `text.rpartition(separator)`, without the case that there is none. -/
def rpartition (separator : Char) (text : List Char) : Option (List Char × List Char) :=
  match text.reverse.dropWhile (fun c => c != separator) with
  | [] => none
  | _ :: head => some (head.reverse, (text.reverse.takeWhile fun c => c != separator).reverse)

/-- `str` refuses an integer of more than 4300 digits. -/
def decimal (n : Nat) : Option (List Char) :=
  if (Nat.toDigits 10 n).length ≤ 4300 then some (Nat.toDigits 10 n) else none

def distributedReconcileLockValue (holder : List Char) (expiresEpoch : Nat) : Option (List Char) :=
  (decimal expiresEpoch).map fun digits => holder ++ '|' :: digits

def parseDistributedReconcileLockValue (N : Numerals) (value : Option (List Char)) : Option (List Char × Int) :=
  match value with
  | none | some [] => none
  | some text =>
    match rpartition '|' text with
    | none | some ([], _) => none
    | some (holder, rawExpires) => (int N rawExpires).map fun expires => (holder, expires)

theorem rpartition_last {separator : Char} {tail : List Char} (h : separator ∉ tail) (head : List Char) :
    rpartition separator (head ++ separator :: tail) = some (head, tail) := by
  have hne : ∀ c ∈ tail.reverse, (c != separator) = true := by
    intro c hc
    rw [bne_iff_ne]
    rintro rfl
    exact h (List.mem_reverse.mp hc)
  simp [rpartition, List.dropWhile_append_of_pos hne, List.takeWhile_append_of_pos hne]

/-- What a holder has written is read as its own. -/
theorem parse_value {N : Numerals} {holder text : List Char} {expires : Nat} (hh : holder ≠ [])
    (h : distributedReconcileLockValue holder expires = some text) :
    parseDistributedReconcileLockValue N (some text) = some (holder, (expires : Int)) := by
  rw [distributedReconcileLockValue, decimal] at h
  split at h
  · next hlen =>
    cases h
    have hbar : '|' ∉ Nat.toDigits 10 expires := fun hc => by
      have := digit_of_mem hc
      simp at this
    obtain ⟨c, rest, rfl⟩ := List.exists_cons_of_ne_nil hh
    simp only [parseDistributedReconcileLockValue, List.cons_append]
    rw [← List.cons_append, rpartition_last hbar]
    simp [int_numeral hlen]
  · cases h

/-- The identity of a process: `_RECONCILE_LOCK_HOLDER`. -/
structure Replica where
  holder : List Char
  named : holder ≠ []

instance : DecidableEq Replica := fun X Y =>
  decidable_of_iff (X.holder = Y.holder) (by cases X; cases Y; simp)

/-- An unset or empty variable falls through. -/
def environment (value : Option (List Char)) : Option (List Char) := value.filter fun text => !text.isEmpty

/-- `_build_reconcile_lock_holder` -/
def buildReconcileLockHolder (podName hostname : Option (List Char)) (gethostname : List Char) : List Char :=
  let rawHolder := ((environment podName).or (environment hostname)).getD gethostname
  let holder := (strip (String.ofList (if rawHolder.isEmpty then "unknown".toList else rawHolder))).toList.map
    fun c => if c = '|' then '_' else c
  if holder.isEmpty then "unknown".toList else holder

theorem joined_ne_nil (holder token : List Char) : holder ++ '-' :: token ≠ [] := by simp

def Replica.started (podName hostname : Option (List Char)) (gethostname token : List Char) : Replica :=
  ⟨buildReconcileLockHolder podName hostname gethostname ++ '-' :: token, joined_ne_nil _ _⟩

/-- An SSHMachine, as far as its lock goes. -/
structure LockView where
  resourceVersion : Option Nat
  lock : Option (List Char)

/-- `checkpoint` is a suspension at which a cancellation arrives, and `work` is anything that
the handler does while it has the lock. -/
inductive LockOp where
  | enterLock (key : LockKey)
  | resumeLock
  | exitLock
  | checkpoint
  | now
  | read (key : ObjectKey)
  | patch (key : ObjectKey) (version : Nat) (lock : Option (List Char))
  | work (key : ObjectKey) (n : Nat)

abbrev LockOp.Reply : LockOp → Type
  | .enterLock _ => Bool
  | .resumeLock | .exitLock | .checkpoint | .patch .. => Unit
  | .now | .work .. => Nat
  | .read _ => LockView

inductive LockExc where
  | api (status : Nat)
  | cancelled
  | temporary
  | other
  deriving DecidableEq, Repr

abbrev LockProg (α : Type) := Prog LockOp LockOp.Reply LockExc α

structure LockSettings where
  numerals : Numerals
  enabled : Bool
  ttl : Int

def LockSettings.seconds (S : LockSettings) : Nat := (max 30 S.ttl).toNat

def enterLock (key : LockKey) : LockProg Bool := Prog.perform (LockOp.enterLock key)
def resumeLock : LockProg Unit := Prog.perform LockOp.resumeLock
def exitLock : LockProg Unit := Prog.perform LockOp.exitLock
def checkpoint : LockProg Unit := Prog.perform LockOp.checkpoint
def now : LockProg Nat := Prog.perform LockOp.now
def read (key : ObjectKey) : LockProg LockView := Prog.perform (LockOp.read key)
def patch (key : ObjectKey) (version : Nat) (lock : Option (List Char)) : LockProg Unit :=
  Prog.perform (LockOp.patch key version lock)

/-- Another process has the lock at this second. -/
def heldByOther (N : Numerals) (X : Replica) (lock : Option (List Char)) (nowEpoch : Nat) : Bool :=
  match parseDistributedReconcileLockValue N lock with
  | some (holder, expires) => holder != X.holder && decide ((nowEpoch : Int) < expires)
  | none => false

def acquireAttempts (S : LockSettings) (X : Replica) (key : ObjectKey) : Nat → LockProg Bool
  | 0 => .pure false
  | attempts + 1 => (read key).bind fun obj =>
    match obj.resourceVersion with
    | none => .pure false
    | some version => now.bind fun nowEpoch =>
      if heldByOther S.numerals X obj.lock nowEpoch then .pure false
      else match distributedReconcileLockValue X.holder (nowEpoch + S.seconds) with
        | none => .throw .other
        | some text => (patch key version (some text)).attempt.bind fun r =>
          match r with
          | .ok _ => .pure true
          | .error e =>
            if e = .api 409 then acquireAttempts S X key attempts
            else if e = .api 404 then .pure false
            else .throw e

def acquireDistributedReconcileLock (S : LockSettings) (X : Replica) (key : ObjectKey) : LockProg Bool :=
  if S.enabled then acquireAttempts S X key 5 else .pure true

def readOrGone (key : ObjectKey) : LockProg (Option LockView) :=
  (read key).attempt.bind fun r =>
    match r with
    | .ok obj => .pure (some obj)
    | .error e => if e = .api 404 then .pure none else .throw e

def releaseAttempts (S : LockSettings) (X : Replica) (key : ObjectKey) : Nat → LockProg Bool
  | 0 => .pure false
  | attempts + 1 => (readOrGone key).bind fun found =>
    match found with
    | none => .pure true
    | some obj =>
      match obj.resourceVersion with
      | none => .pure false
      | some version =>
        match parseDistributedReconcileLockValue S.numerals obj.lock with
        | none => .pure true
        | some (holder, _) =>
          if holder ≠ X.holder then .pure false
          else (patch key version none).attempt.bind fun r =>
            match r with
            | .ok _ => .pure true
            | .error e =>
              if e = .api 409 then releaseAttempts S X key attempts
              else if e = .api 404 then .pure true
              else .throw e

def releaseDistributedReconcileLock (S : LockSettings) (X : Replica) (key : ObjectKey) : LockProg Bool :=
  if S.enabled then releaseAttempts S X key 5 else .pure true

/-- A failure and a held lock both ask for another try later. -/
def acquireDistributedLockOrRequeue (S : LockSettings) (X : Replica) (key : ObjectKey) : LockProg Unit :=
  (acquireDistributedReconcileLock S X key).attempt.bind fun r =>
    match r with
    | .ok true => .pure ()
    | .ok false | .error _ => .throw .temporary

/-- Whatever a release comes to is only logged. -/
def releaseDistributedLockWithLogging (S : LockSettings) (X : Replica) (key : ObjectKey) : LockProg Unit :=
  (releaseDistributedReconcileLock S X key).attempt.bind fun _ => .pure ()

/-- `run_api`: a function that was submitted runs to its end before a cancellation is seen. -/
def runApi (function : LockProg Unit) : LockProg Unit :=
  checkpoint.bind fun _ => function.attempt.bind fun r => checkpoint.bind fun _ =>
    match r with
    | .ok _ => .pure ()
    | .error e => .throw e

def lockKeyOf (key : ObjectKey) : LockKey := reconcileLockKey key.ns.toList key.name.toList

/-- `async with lock`, up to its body. -/
def awaitLock (key : LockKey) : LockProg Unit :=
  (enterLock key).bind fun got => if got then .pure () else resumeLock

/-- `sshmachine_reconcile` around what it does with its object. -/
def sshmachineReconcile (S : LockSettings) (X : Replica) (key : ObjectKey) (body : LockProg Unit) : LockProg Unit :=
  (awaitLock (lockKeyOf key)).bind fun _ =>
    Prog.andFinally
      ((runApi (acquireDistributedLockOrRequeue S X key)).bind fun _ =>
        Prog.andFinally body (runApi (releaseDistributedLockWithLogging S X key)))
      exitLock

/-- What a body consists of. -/
inductive BodyOp (key : ObjectKey) : LockOp → Prop where
  | checkpoint : BodyOp key .checkpoint
  | work (n : Nat) : BodyOp key (.work key n)

open Interference VersionedCell

/-- `born` is the version that the object was created with, and so tells it from earlier
objects of its name. -/
structure MachineObject where
  born : Nat
  lock : Option (List Char)

/-- What a successful acquire has got: an object, and the second at which that runs out. -/
structure Grant where
  key : ObjectKey
  born : Nat
  expires : Int

structure LockWrite where
  writer : Replica
  before : Option (List Char)
  after : Option (List Char)

/-- A step of a body, with the grants at its time. -/
structure SectionStep (ι : Type) where
  task : ι
  key : ObjectKey
  clock : Nat
  granted : ι → Option Grant

variable {ι : Type} [DecidableEq ι]

structure Fleet (ι : Type) where
  cells : ObjectKey → Cell MachineObject
  clock : Nat
  process : Replica → Process ι
  granted : ι → Option Grant
  steps : List (SectionStep ι)
  log : List LockWrite

namespace Fleet

def setProcess (w : Fleet ι) (X : Replica) (p : Process ι) : Fleet ι :=
  { w with process := fun Y => if Y = X then p else w.process Y }

def setCell (w : Fleet ι) (key : ObjectKey) (c : Cell MachineObject) : Fleet ι :=
  { w with cells := fun k => if k = key then c else w.cells k }

def setGranted (w : Fleet ι) (i : ι) (g : Option Grant) : Fleet ι :=
  { w with granted := fun j => if j = i then g else w.granted j }

/-- What the caller of a write has then: a grant only where it sees the success of an acquire. -/
def grantOf (N : Numerals) (key : ObjectKey) (old : MachineObject) (lock : Option (List Char)) (told : Bool)
    (before : Option Grant) : Option Grant :=
  match lock with
  | none => none
  | some text =>
    if told then (parseDistributedReconcileLockValue N (some text)).map fun p => ⟨key, old.born, p.2⟩ else before

def patched (N : Numerals) (w : Fleet ι) (i : ι) (X : Replica) (key : ObjectKey) (old : MachineObject)
    (lock : Option (List Char)) (told : Bool) : Fleet ι :=
  { (w.setCell key ((w.cells key).put ⟨old.born, lock⟩)).setGranted i (grantOf N key old lock told (w.granted i)) with
    log := ⟨X, old.lock, lock⟩ :: w.log }

def worked (w : Fleet ι) (i : ι) (key : ObjectKey) : Fleet ι :=
  { w with steps := ⟨i, key, w.clock, w.granted⟩ :: w.steps }

/-- Before any handler, with whatever objects there are. -/
def new (ι : Type) (objects : ObjectKey → Option (Option (List Char))) (clock : Nat) : Fleet ι :=
  ⟨fun key => ⟨(objects key).map fun lock => (0, ⟨0, lock⟩), 1⟩, clock, fun _ => Process.new ι, fun _ => none, [], []⟩

/-- Others change, delete and create objects, but leave the annotation of one that is there. -/
inductive Changed (w : Fleet ι) : Fleet ι → Prop where
  | time (n : Nat) : Changed w { w with clock := w.clock + n }
  | cancel (X : Replica) (i : ι) : Changed w (w.setProcess X ((w.process X).cancel i))
  | edited (key : ObjectKey) (v : Nat) (o : MachineObject) : (w.cells key).stored = some (v, o) →
      Changed w (w.setCell key ((w.cells key).put o))
  | deleted (key : ObjectKey) : Changed w (w.setCell key ⟨none, (w.cells key).next⟩)
  | created (key : ObjectKey) (lock : Option (List Char)) : (w.cells key).stored = none →
      Changed w (w.setCell key ((w.cells key).put ⟨(w.cells key).next, lock⟩))

end Fleet

def LockStage.isInside : LockStage → Bool
  | .inside .. => true
  | _ => false

/-- A call of task `i` of the replica `X`. A patch fails, or takes effect on the version it
names and may fail all the same. -/
def LockExec (S : LockSettings) (X : Replica) (i : ι) (op : LockOp) (w : Fleet ι) (r : Except LockExc op.Reply)
    (w' : Fleet ι) : Prop :=
  match op, r with
  | .enterLock key, r => w' = w.setProcess X ((w.process X).enter i key) ∧
      r = .ok (((w.process X).enter i key).stage i).isInside
  | .resumeLock, r => ∃ p got, (w.process X).resume i = some (p, got) ∧ w' = w.setProcess X p ∧
      r = if got then .ok () else .error .cancelled
  | .exitLock, r => w' = (w.setProcess X ((w.process X).exit i)).setGranted i none ∧ r = .ok ()
  | .checkpoint, r => w' = w ∧ (r = .ok () ∨ r = .error .cancelled)
  | .now, r => w' = w ∧ r = .ok w.clock
  | .read key, r => w' = w ∧ ((∃ e, r = .error e) ∨
      ∃ v o, (w.cells key).stored = some (v, o) ∧ (r = .ok ⟨some v, o.lock⟩ ∨ r = .ok ⟨none, o.lock⟩))
  | .patch key version lock, r => (w' = w ∧ ∃ e, r = .error e) ∨
      ∃ old, (w.cells key).stored = some (version, old) ∧
        w' = w.patched S.numerals i X key old lock (match r with | .ok _ => true | .error _ => false)
  | .work key _, _ => w' = w.worked i key

/-- The tasks `ι` of all replicas: `who i` is the process that `i` runs in. -/
def lockRuntime (S : LockSettings) (who : ι → Replica) :
    Runtime ι LockOp LockOp.Reply LockExc Unit (Fleet ι) where
  exec i op w r w' := LockExec S (who i) i op w r w'
  env := Fleet.Changed
  start i p w w' := w' = w ∧ (w.process (who i)).stage i = .outside ∧
    ∃ key body, body.Only (BodyOp key) ∧ p = sshmachineReconcile S (who i) key body
  leave _ _ w w' := w' = w

end CapiSsh.ReconcileLocks
