import CapiSsh.Contracts

/-!
# Guarded host operations

`operations.py` as its callers see it: the Lease bracket of an operation, the UID guard of
a remote command, and the detached bootstrap job that is launched once and then observed.
-/
namespace CapiSsh

open Effect

def ownedCommand (uid : Uid) (script : Script) (claim cleanedRetry blocking : Bool) : OwnedCommand :=
  ⟨uid, script, claim, cleanedRetry, blocking⟩

/-- `HostLease.check`. -/
def checkLease (lease : HostLeaseRef) : Act Unit := do
  let renewed : Bool ← call (.leaseRenew lease)
  raiseIf (renewed = false) (.temporary "Host operation Lease was lost" 15)

/-- How a `with` block ended: what its body returned, if it did, and what is raised or
returned once its context managers are left. -/
structure Exit (α : Type) where
  returned : Option α
  outcome : Except Exc α

def Exit.value (exit : Exit α) : Act α :=
  match exit.outcome with
  | .ok a => return a
  | .error e => throw e

/-- Run a body to its end. -/
def Exit.run (body : Act α) : Act (Exit α) := do
  match ← body.attempt with
  | .ok a => return ⟨some a, .ok a⟩
  | .error e => return ⟨none, .error e⟩

/-- Leave one context manager; its own error replaces the outcome. -/
def Exit.leave (exit : Exit α) (close : Act Unit) : Act (Exit α) := do
  match ← close.attempt with
  | .ok _ => return exit
  | .error e => return { exit with outcome := .error e }

/-- The heartbeat cancels the body when it loses the Lease. -/
def Exit.lost (exit : Exit α) (lease : HostLeaseRef) : Act (Exit α) :=
  match exit.outcome with
  | .error .cancelled => do
    let lost : Bool ← call (.leaseLost lease)
    if lost then
      return { exit with outcome := .error (.temporary "Lost host Lease; interrupted local operation" 15) }
    else return exit
  | _ => return exit

/-- `HostLease.release` under `suppress(Exception)`. -/
def releaseLease (lease : HostLeaseRef) : Act Unit :=
  try call (.leaseRelease lease) catch e => if e = .cancelled then throw e else pure ()

/-- Run the body while holding the Lease of its target. -/
def hostOperation (binding : Binding) (uid : Uid) (body : HostLeaseRef → Act (Exit α)) : Act (Exit α) := do
  let lease : HostLeaseRef := ⟨⟨binding.address, binding.port⟩, uid⟩
  let acquired : Bool ← try call (.leaseAcquire lease) catch e =>
    if e = .cancelled then throw e else throw (.temporary "Cannot acquire host operation Lease" 15)
  if acquired then
    let exit ← body lease
    let exit ← exit.lost lease
    exit.leave (releaseLease lease)
  else throw (.temporary "Another operation owns this host" 15)

/-- `async with await dial as conn`. -/
def withConn (dial : Act Conn) (body : Conn → Act α) : Act (Exit α) := do
  match ← dial.attempt with
  | .error e => return ⟨none, .error e⟩
  | .ok conn =>
    let exit ← Exit.run (body conn)
    exit.leave (call (.close conn))

section bootstrap

variable {Calls : Type} {Answer : Calls → Type} {ε : Type}

/-- The observation loop of `durable_bootstrap`. Rounds are two seconds apart, so a timeout
bounds their number, and running out of rounds is reaching the deadline. -/
def observeReceipt (execute : Command → Prog Calls Answer ε Completed) (clock : Prog Calls Answer ε Time)
    (sleep : Prog Calls Answer ε Unit) (raise : Exc → ε) (uid : Uid) (deadline : Time) :
    Nat → Prog Calls Answer ε SSHResult
  | 0 => throw (raise (.temporary "Bootstrap is still running; observe its receipt on retry" 15))
  | rounds + 1 => do
    let time ← clock
    if deadline ≤ time then throw (raise (.temporary "Bootstrap is still running; observe its receipt on retry" 15))
    else
      let result ← execute (.observe uid)
      if result.success then
        match result.stdout.first with
        | .capiExit (some code) =>
          return ⟨code, if code = 0 then result.stdout.log else "", if code = 0 then "" else result.stdout.log⟩
        | .capiExit none => throw (raise (.temporary "Invalid bootstrap receipt; refusing replay" 15))
        | .text _ => throw (raise (.temporary "Unrecognized bootstrap state; refusing replay" 15))
        | .capiPending =>
          sleep
          observeReceipt execute clock sleep raise uid deadline rounds
      else throw (raise (.temporary "Cannot observe the UID-owned bootstrap job" 15))

def durableBootstrap (execute : Command → Prog Calls Answer ε Completed) (clock : Prog Calls Answer ε Time)
    (sleep : Prog Calls Answer ε Unit) (raise : Exc → ε) (uid : Uid) (path : String) (timeout : Time) :
    Prog Calls Answer ε SSHResult := do
  let submitted ← execute (.launch (ownedCommand uid (.job path) false false true))
  if submitted.success then
    let start ← clock
    observeReceipt execute clock sleep raise uid (start + timeout) (timeout / 2 + 1)
  else throw (raise (.temporary "Cannot submit the fenced bootstrap job" 15))

end bootstrap

end CapiSsh
