import CapiSsh.Lib.Views

/-!
# The changelog merge gate

`scripts/merge_changelog.py` polls a pull request until its checks and its review allow a
merge, and then issues one command. Responses are records whose missing fields raise, as a
subscript of a JSON object does; fields that are read with `get` are simply absent.
-/
namespace CapiSsh.MergeGate

open Effect

structure PullHead where
  sha : Option String
  ref : Option String
  repoFullName : Option String
  deriving DecidableEq, Repr

structure PullBase where
  sha : Option String
  ref : Option String
  deriving DecidableEq, Repr

structure PullRequest where
  head : Option PullHead
  base : Option PullBase
  state : Option String
  merged : Option Bool
  draft : Option Bool
  mergeable : Option Bool
  mergeableState : Option String
  deriving DecidableEq, Repr

structure ChangedFile where
  filename : Option String
  status : Option String
  deriving DecidableEq, Repr

structure CheckRun where
  id : Option Int
  name : Option String
  headSha : Option String
  appId : Option Int
  status : Option String
  conclusion : Option String
  deriving DecidableEq, Repr

/-- The decision may be missing, and it may be null. -/
structure ReviewState where
  headRefOid : Option String
  reviewDecision : Option (Option String)
  deriving DecidableEq, Repr

structure Policy where
  integrationId : Int
  checks : List String
  approvalRequired : Bool
  deriving DecidableEq, Repr

inductive GateError where
  | mergeBlocked (message : String)
  | pullRequestStateBlocked (message : String)
  | keyError (key : String)
  | unfinished
  deriving DecidableEq, Repr

inductive GateOp where
  | now
  | sleep (seconds : Int)
  | pullRequest (number : Nat)
  | files (number : Nat)
  | checks (sha : String)
  | reviewState (number : Nat)
  | queueMerge (number : Nat) (sha : String)
  | merge (number : Nat) (sha : String)
  deriving DecidableEq, Repr

def GateOp.Res : GateOp → Type
  | .now => Int
  | .sleep _ => Unit
  | .pullRequest _ => PullRequest
  | .files _ => List ChangedFile
  | .checks _ => List CheckRun
  | .reviewState _ => ReviewState
  | .queueMerge _ _ => Unit
  | .merge _ _ => Unit

abbrev Gate (α : Type) := Prog GateOp GateOp.Res GateError α

def now : Gate Int := Prog.perform GateOp.now

def sleep (seconds : Int) : Gate Unit := Prog.perform (GateOp.sleep seconds)

def pullRequest (number : Nat) : Gate PullRequest := Prog.perform (GateOp.pullRequest number)

def files (number : Nat) : Gate (List ChangedFile) := Prog.perform (GateOp.files number)

def checkRuns (sha : String) : Gate (List CheckRun) := Prog.perform (GateOp.checks sha)

def reviewState (number : Nat) : Gate ReviewState := Prog.perform (GateOp.reviewState number)

def queueMerge (number : Nat) (sha : String) : Gate Unit := Prog.perform (GateOp.queueMerge number sha)

def merge (number : Nat) (sha : String) : Gate Unit := Prog.perform (GateOp.merge number sha)

/-- A response that is read without a further request. -/
def ofExcept {α : Type} : Except GateError α → Gate α
  | .ok a => .pure a
  | .error e => .throw e

/-- A subscript. -/
def need {α : Type} (key : String) : Option α → Except GateError α
  | some a => .ok a
  | none => .error (.keyError key)

/-- `if ...: raise ...` -/
def refuse (blocked : Prop) [Decidable blocked] (e : GateError) : Except GateError Unit :=
  if blocked then .error e else .ok ()

/-- `validate_pull_request` -/
def validatePullRequest (pr : PullRequest) (repository expectedHead : String) : Except GateError Unit := do
  let head ← need "head" pr.head
  let sha ← need "sha" head.sha
  refuse (sha ≠ expectedHead) (.mergeBlocked "PR head changed; a new run must validate the new commit")
  let base ← need "base" pr.base
  let baseRef ← need "ref" base.ref
  refuse (baseRef ≠ "develop")
    (.mergeBlocked "Only the generated changelog branch targeting develop may be merged")
  let headRef ← need "ref" head.ref
  refuse (headRef ≠ "chore/changelog-update")
    (.mergeBlocked "Only the generated changelog branch targeting develop may be merged")
  refuse (head.repoFullName ≠ some repository) (.mergeBlocked "A fork cannot supply the changelog branch")
  if pr.merged = some true then
    return ()
  else
    let state ← need "state" pr.state
    refuse (state ≠ "open" ∨ pr.draft = some true)
      (.pullRequestStateBlocked "The changelog PR must be open and ready for review")
    refuse (pr.mergeableState = some "behind" ∨ pr.mergeableState = some "dirty")
      (.pullRequestStateBlocked "Update the changelog branch and re-run checks before merging")

def validateFiles : List ChangedFile → Except GateError Unit
  | [file] => do
    let filename ← need "filename" file.filename
    refuse (filename ≠ "CHANGELOG.md") (.mergeBlocked "The generated PR must change only CHANGELOG.md")
    let status ← need "status" file.status
    refuse (status ≠ "added" ∧ status ≠ "modified")
      (.mergeBlocked "The generated PR must change only CHANGELOG.md")
  | _ => .error (.mergeBlocked "The generated PR must change only CHANGELOG.md")

/-- The runs of one required check by the configured integration on the expected head. -/
def matchingRuns (name expectedHead : String) (policy : Policy) : List CheckRun → Except GateError (List CheckRun)
  | [] => .ok []
  | check :: checks => do
    let found ← need "name" check.name
    let matching ← matchingRuns name expectedHead policy checks
    if found = name ∧ check.headSha = some expectedHead ∧ check.appId = some policy.integrationId then
      return check :: matching
    else
      return matching

/-- `max(..., key=...)`: the first of the largest. -/
def newest (first : Int × CheckRun) (others : List (Int × CheckRun)) : Int × CheckRun :=
  others.foldl (fun best run => if best.1 < run.1 then run else best) first

def checkReady (checks : List CheckRun) (policy : Policy) (expectedHead name : String) :
    Except GateError Bool := do
  let found ← matchingRuns name expectedHead policy checks
  let keyed ← found.mapM fun run => do return (← need "id" run.id, run)
  match keyed with
  | [] => return false
  | first :: others =>
    let current := (newest first others).2
    let status ← need "status" current.status
    if status ≠ "completed" then
      return false
    else
      refuse (current.conclusion ≠ some "success") (.mergeBlocked ("Required check did not pass: " ++ name ++
        " (" ++ current.conclusion.getD "None" ++ ")"))
      return true

/-- `checks_ready`: every check is looked at, and one that failed raises. -/
def checksReady (checks : List CheckRun) (policy : Policy) (expectedHead : String) : Except GateError Bool :=
  policy.checks.foldlM (fun ready name => do
    let one ← checkReady checks policy expectedHead name
    return ready && one) true

inductive Verdict where
  | queue | leave | proceed
  deriving DecidableEq, Repr

/-- What the review state allows, once all checks have passed. -/
def reviewVerdict (review : ReviewState) (policy : Policy) (expectedHead : String) :
    Except GateError Verdict := do
  refuse (review.headRefOid ≠ some expectedHead)
    (.mergeBlocked "PR head changed while checking review eligibility")
  match review.reviewDecision with
  | none => .error (.mergeBlocked "GitHub review decision is missing")
  | some decision =>
    if decision = some "REVIEW_REQUIRED" then
      return .queue
    else if decision = some "CHANGES_REQUESTED" then
      return .leave
    else
      refuse (decision ≠ some "APPROVED" ∧
          (policy.approvalRequired = true ∨ (decision ≠ none ∧ decision ≠ some "")))
        (.mergeBlocked "Required review decision is absent; verify the active review rules")
      return .proceed

/-- `mergeable is True and mergeable_state == "clean"` -/
def PullRequest.clean (pr : PullRequest) : Bool := pr.mergeable == some true && pr.mergeableState == some "clean"

section Program

variable (repository : String) (number : Nat) (expectedHead : String) (policy : Policy) (interval : Int)

/-- `read_validated_pull_request`: a state that may be settling is read once more. -/
def readValidatedPullRequest : Gate PullRequest := do
  let pr ← pullRequest number
  match validatePullRequest pr repository expectedHead with
  | .ok () => return pr
  | .error (.pullRequestStateBlocked _) =>
    sleep (min interval 5)
    let pr ← pullRequest number
    ofExcept (validatePullRequest pr repository expectedHead)
    return pr
  | .error e => throw e

/-- The end of an iteration whose checks and review allow a merge. -/
def mergeIfClean (pr : PullRequest) : Gate (Option (Option String)) := do
  if pr.clean = true then
    let current ← readValidatedPullRequest repository number expectedHead interval
    if current.merged = some true then
      return some none
    let currentBase ← ofExcept (need "base" current.base)
    let currentSha ← ofExcept (need "sha" currentBase.sha)
    let base ← ofExcept (need "base" pr.base)
    let sha ← ofExcept (need "sha" base.sha)
    if currentSha = sha ∧ current.clean = true then
      merge number expectedHead
      return some none
    else
      return none
  else
    return none

/-- One iteration: its outcome, or nothing when it goes on waiting. -/
def mergeIteration : Gate (Option (Option String)) := do
  let pr ← readValidatedPullRequest repository number expectedHead interval
  if pr.merged = some true then
    return some none
  let changed ← files number
  ofExcept (validateFiles changed)
  let checks ← checkRuns expectedHead
  let passed ← ofExcept (checksReady checks policy expectedHead)
  if passed = true then
    let review ← reviewState number
    match ← ofExcept (reviewVerdict review policy expectedHead) with
    | .queue =>
      queueMerge number expectedHead
      return some (some "review-pending")
    | .leave => return some (some "changes-requested")
    | .proceed => mergeIfClean repository number expectedHead interval pr
  else
    return none

/-- Some number of turns of the loop; a run that goes on behind them is not finished. -/
def mergeLoop (deadline : Int) : Nat → Gate (Option String)
  | 0 => .throw .unfinished
  | n + 1 => do
    let time ← now
    if time < deadline then
      match ← mergeIteration repository number expectedHead policy interval with
      | some outcome => return outcome
      | none =>
        sleep interval
        mergeLoop deadline n
    else
      throw (.mergeBlocked "Timed out waiting for completed checks and merge eligibility")

/-- `merge_when_ready` -/
def mergeWhenReady (timeout : Int) (turns : Nat) : Gate (Option String) := do
  let start ← now
  mergeLoop repository number expectedHead policy interval (start + timeout) turns

end Program

end CapiSsh.MergeGate
