import CapiSsh.Lib.Effect
import CapiSsh.Objects

/-!
# The calls of a handler

Every call that a handler makes outside its own process is one operation. Kubernetes SDK
calls run through `api_io.request`, so a lost transport shows up as a retryable error and
a refusal as its HTTP status. Cancellation arrives as the error of some call.
-/
namespace CapiSsh

open Effect

/-- `temporary` and `permanent` are kopf's own errors, `cancelled` is the only one that
`except Exception` lets through. -/
inductive Exc where
  | temporary : String → Nat → Exc
  | permanent : String → Exc
  | api : Nat → Exc
  | timeout : Exc
  | cancelled : Exc
  | other : String → Exc
  deriving DecidableEq, Repr

/-- `str(e)`; an answer of the API shows its status, and a timeout has no text here. -/
def Exc.text : Exc → String
  | .temporary message _ | .permanent message | .other message => message
  | .api status => s!"({status})"
  | .timeout | .cancelled => ""

def Exc.isPermanent : Exc → Bool
  | .permanent _ => true
  | _ => false

/-- The first line of what a command printed, as far as the provider tells lines apart. -/
inductive FirstLine where
  | text : String → FirstLine
  | capiExit : Option Int → FirstLine
  | capiPending : FirstLine
  deriving DecidableEq, Repr

structure Stdout where
  first : FirstLine
  log : String
  deriving DecidableEq, Repr

/-- The output as one line of text, if that is what it is. -/
def Stdout.line (out : Stdout) : String :=
  match out.first with
  | .text s => if out.log = "" then s else s ++ "\n" ++ out.log
  | _ => ""

/-- What the channel of a remote command reports; it can close without an exit status. -/
structure Completed where
  exitStatus : Option Int
  stdout : Stdout
  stderr : String
  deriving DecidableEq, Repr

structure SSHResult where
  exitCode : Int
  stdout : String
  stderr : String
  deriving DecidableEq, Repr

/-- The command part of `owned_command`. -/
inductive Script where
  | noop : Script
  | bootID : Script
  | reboot : Script
  | reset : Script
  | job : String → Script
  deriving DecidableEq, Repr

structure OwnedCommand where
  uid : Uid
  script : Script
  claim : Bool
  cleanedRetry : Bool
  blocking : Bool
  deriving DecidableEq, Repr

inductive Command where
  | owned : OwnedCommand → Command
  | launch : OwnedCommand → Command
  | observe : Uid → Command
  | readiness : Command
  deriving DecidableEq, Repr

structure Target where
  address : String
  port : Nat
  deriving DecidableEq, Repr

/-- An open SSH connection; `session` tells the boots of its host apart. -/
structure Conn where
  target : Target
  session : Nat
  deriving DecidableEq, Repr

structure HostLeaseRef where
  target : Target
  machineUID : Uid
  deriving DecidableEq, Repr

structure Precondition where
  uid : Uid
  resourceVersion : Nat
  deriving DecidableEq, Repr

/-- A CAPI Machine or Cluster, as far as the provider reads it. -/
structure CapiObject where
  uid : Option Uid
  paused : Bool
  annotations : List (String × String)
  clusterName : Option String
  dataSecretName : Option String
  deriving DecidableEq, Repr

inductive Op where
  | readMachine : ObjectKey → Op
  | patchMachine : ObjectKey → Precondition → SpecPatch → Op
  | patchMachineStatus : ObjectKey → Precondition → StatusPatch → Op
  | readHost : ObjectKey → Op
  | listHosts : String → Op
  | patchHost : ObjectKey → Precondition → Option ConsumerRef → Op
  | patchHostStatus : ObjectKey → Precondition → HostPhase → Bool → String → Op
  | readCapi : String → String → ObjectKey → Op
  | readSecret : ObjectKey → Op
  | acquireLock : ObjectKey → Op
  | releaseLock : ObjectKey → Op
  | leaseAcquire : HostLeaseRef → Op
  | leaseRenew : HostLeaseRef → Op
  | leaseRelease : HostLeaseRef → Op
  | leaseLost : HostLeaseRef → Op
  | connect : Target → String → String → String → Op
  | run : Conn → Command → Op
  | upload : Conn → String → String → Op
  | close : Conn → Op
  | now : Op
  | uuid : Op
  | staged : Op
  | stage : (Time → Patch → Patch) → Op
  | applyStaged : ObjectKey → Op

def Reply : Op → Type
  | .readMachine _ | .patchMachine .. | .patchMachineStatus .. => Machine
  | .readHost _ | .patchHost .. | .patchHostStatus .. => Host
  | .listHosts _ => List Host
  | .readCapi .. => CapiObject
  | .readSecret _ => List (String × String)
  | .acquireLock _ | .releaseLock _ | .leaseAcquire _ | .leaseRenew _ | .leaseLost _ => Bool
  | .connect .. => Conn
  | .run .. => Completed
  | .now => Time
  | .uuid => String
  | .staged => Patch
  | .leaseRelease _ | .upload .. | .close _ | .stage _ | .applyStaged _ => Unit

abbrev Act := Prog Op Reply Exc

abbrev call (op : Op) : Act (Reply op) := Prog.perform op

/-- `if c: raise e`. -/
def raiseIf (c : Prop) [Decidable c] (e : Exc) : Act Unit := if c then throw e else pure ()

/-- A statement that is only reached under a condition. -/
def onlyIf (c : Prop) [Decidable c] (p : Act Unit) : Act Unit := if c then p else pure ()

section

variable {s : Op → Prop} {c : Prop} [Decidable c]

theorem only_raiseIf {e : Exc} : (raiseIf c e).Only s := by
  unfold raiseIf
  split <;> trivial

theorem only_onlyIf {p : Act Unit} (h : p.Only s) : (onlyIf c p).Only s := by
  unfold onlyIf
  split
  · exact h
  · trivial

end

/-- A staged change may carry the time at which it is made. -/
def stage (f : Time → Patch → Patch) : Act Unit := call (.stage f)

/-- `SSHConnection.execute`. -/
def execute (conn : Conn) (command : Command) : Act Completed := do
  let result ← call (.run conn command)
  return { result with exitStatus := some (result.exitStatus.getD (-1)) }

def Completed.exitCode (r : Completed) : Int := r.exitStatus.getD (-1)

def Completed.success (r : Completed) : Bool := r.exitCode == 0

def SSHResult.success (r : SSHResult) : Bool := r.exitCode == 0

end CapiSsh
