import CapiSsh.JobReceipts

/-!
# A host that Machines use one after the other

The remote side of `owned_command` and `durable_bootstrap`: the owner record, the files of
the bootstrap job, and the lock that claims, jobs and cleanups hold while they work. A
cleanup removes the directory entry by entry, in any order; whoever holds the lock can be
cut off at any moment.
-/
namespace CapiSsh

open ByteFiles

inductive JobOp where
  | file (op : ByteFiles.Op JobFile)
  /-- The bootstrap command begins. -/
  | payload
  deriving DecidableEq, Repr

def JobOp.file? : JobOp → Option (ByteFiles.Op JobFile)
  | .file op => some op
  | .payload => none

@[simp] theorem file?_file (op : ByteFiles.Op JobFile) : (JobOp.file op).file? = some op := rfl

@[simp] theorem file?_payload : JobOp.payload.file? = none := rfl

/-- The job that runs the bootstrap command, which writes `log` and exits with `code`. -/
def payloadJob (code : UInt8) (log : List UInt8) : List JobOp :=
  .file (.touch .started) :: .file (.create .output) :: .payload ::
    (writes JobFile.output log ++ redirect JobFile.receiptTmp (receiptLine code) ++
      [ByteFiles.Op.rename JobFile.receiptTmp JobFile.receipt]).map JobOp.file

def interruptedJob : List JobOp := interruptedProgram.map JobOp.file

/-- A job that writes a receipt: what its command would do, and the files that it found. -/
structure JobRun where
  uid : Uid
  code : UInt8
  log : List UInt8
  found : Files JobFile

/-- The exit code and the output that the job is to record. -/
def JobRun.records (w : JobRun) : UInt8 × List UInt8 :=
  if (w.found .started).isSome then (123, interruptedMessage) else (w.code, w.log)

structure PayloadStart where
  job : Option JobRun
  owner : Option Uid

/-- `todo` is what the job that holds the lock is still to do, and `removing` are the files
that the cleanup which holds it has found. `writer` and `starts` belong to the present owner
record. `kubernetes` is what a claim looks for besides the record. -/
structure ProviderHost where
  owner : Option Uid
  kubernetes : Bool
  files : Files JobFile
  todo : Option (List JobOp)
  removing : Option (Files JobFile)
  writer : Option JobRun
  starts : List PayloadStart

/-- `job`: a queued launch gets the lock. `stop`: the holder of the lock ends, because it is
done, or fails, or is killed with the host. -/
inductive HostEvent where
  | claim (uid : Uid)
  | job (uid : Uid) (code : UInt8) (log : List UInt8)
  | act
  | cleanup (uid : Uid)
  | remove (file : JobFile)
  | removeOwner
  | stop
  | kubernetes (present : Bool)
  deriving DecidableEq, Repr

namespace ProviderHost

/-- A host that nobody owns, whatever is left on it. -/
def new (kubernetes : Bool) (files : Files JobFile) : ProviderHost :=
  ⟨none, kubernetes, files, none, none, none, []⟩

def idle (h : ProviderHost) : Bool := h.todo.isNone && h.removing.isNone

/-- `owned_command` with `claim`: the record appears by a rename. -/
def claim (h : ProviderHost) (uid : Uid) : ProviderHost :=
  if h.idle && h.owner.isNone && !h.kubernetes then { h with owner := some uid, writer := none, starts := [] } else h

/-- The job of `durable_bootstrap`, behind the owner check of `owned_command`. -/
def job (h : ProviderHost) (uid : Uid) (code : UInt8) (log : List UInt8) : ProviderHost :=
  if h.idle && h.owner == some uid then
    if (h.files .receipt).isSome then { h with todo := some [] }
    else if (h.files .started).isSome then
      { h with todo := some interruptedJob, writer := some ⟨uid, code, log, h.files⟩ }
    else { h with todo := some (payloadJob code log), writer := some ⟨uid, code, log, h.files⟩ }
  else h

def act (h : ProviderHost) : ProviderHost :=
  match h.todo with
  | none => h
  | some [] => { h with todo := none }
  | some (.file op :: todo) => { h with files := op.apply h.files, todo := some todo }
  | some (.payload :: todo) => { h with todo := some todo, starts := ⟨h.writer, h.owner⟩ :: h.starts }

/-- The cleanup of `delete_machine` has reset the host and begins to remove the directory.
Without a record it leaves the directory alone. -/
def cleanup (h : ProviderHost) (uid : Uid) : ProviderHost :=
  if h.idle && h.owner == some uid then { h with removing := some h.files } else h

def step (h : ProviderHost) : HostEvent → ProviderHost
  | .claim uid => h.claim uid
  | .job uid code log => h.job uid code log
  | .act => h.act
  | .cleanup uid => h.cleanup uid
  | .remove file => if h.removing.isSome then { h with files := Function.update h.files file none } else h
  | .removeOwner => if h.removing.isSome then { h with owner := none } else h
  | .stop => { h with todo := none, removing := none }
  | .kubernetes present => { h with kubernetes := present }

def after (h : ProviderHost) (events : List HostEvent) : ProviderHost := events.foldl step h

/-- Every event of a run meets a condition on the state before it. -/
def Throughout (C : ProviderHost → HostEvent → Prop) : ProviderHost → List HostEvent → Prop
  | _, [] => True
  | h, e :: events => C h e ∧ Throughout C (h.step e) events

/-- The files tell a job that another one has started. -/
def Marked (files : Files JobFile) : Prop := files .started ≠ none ∨ files .receipt ≠ none

instance (files : Files JobFile) : Decidable (Marked files) :=
  inferInstanceAs (Decidable (files .started ≠ none ∨ files .receipt ≠ none))

/-- A cleanup does not end with the marks gone and the record left. -/
def RecordFirst (h : ProviderHost) : HostEvent → Prop
  | .stop => ∀ found, h.removing = some found → Marked found → h.owner = none ∨ Marked h.files
  | _ => True

/-- A cleanup does not end with the record gone and a mark left. -/
def RecordLast (h : ProviderHost) : HostEvent → Prop
  | .stop => h.removing ≠ none → h.owner = none → ¬ Marked h.files
  | _ => True

/-- The event removes nothing. -/
def Quiet : HostEvent → Prop
  | .remove _ => False
  | .removeOwner => False
  | _ => True

/-- An invariant of the runs that meet a condition. -/
theorem throughout_induct {C : ProviderHost → HostEvent → Prop} {I : ProviderHost → Prop} {h : ProviderHost}
    {events : List HostEvent} (hstep : ∀ h e, I h → C h e → I (h.step e)) (hi : I h) (hC : Throughout C h events) :
    I (h.after events) := by
  induction events generalizing h with
  | nil => exact hi
  | cons e events ih => exact ih (hstep h e hi hC.1) hC.2

theorem throughout_true (h : ProviderHost) (events : List HostEvent) : Throughout (fun _ _ => True) h events := by
  induction events generalizing h with
  | nil => trivial
  | cons e events ih => exact ⟨trivial, ih (h.step e)⟩

end ProviderHost

end CapiSsh
