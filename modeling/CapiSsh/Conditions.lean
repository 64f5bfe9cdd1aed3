import CapiSsh.Api

/-!
# Conditions

`conditions.py`: a condition list is keyed by type, an update keeps the place of the
condition it replaces, and only a change of status moves the transition time.
-/
namespace CapiSsh

open Effect

def condition (type status reason message : String) : Condition :=
  ⟨type, status, reason, message, none, none⟩

/-- Assignment in a dictionary keyed by type. -/
def putCondition (item : Condition) : List Condition → List Condition
  | [] => [item]
  | c :: rest => if c.type = item.type then item :: rest else c :: putCondition item rest

/-- One update, given what the list holds for its type. -/
def mergeCondition (now : Time) (generation : Option Nat) (result : List Condition)
    (update : Condition) : List Condition :=
  let previous := result.find? (fun c => c.type = update.type)
  let kept := previous.bind (fun c => if c.status = update.status then c.lastTransitionTime else none)
  putCondition { update with
    lastTransitionTime := kept.or (some (update.lastTransitionTime.getD now))
    observedGeneration := generation.or update.observedGeneration } result

def byType (items : List Condition) : List Condition :=
  (items.filter (fun c => c.type ≠ "")).foldl (fun l c => putCondition c l) []

def mergeConditions (now : Time) (existing updates : List Condition) (generation : Option Nat) :
    List Condition :=
  updates.foldl (mergeCondition now generation) (byType existing)

/-- Both the stored conditions and what this handler staged before are kept. -/
def patchConditions (status : MachineStatus) (metadata : ObjectMeta) (updates : List Condition) : Act Unit :=
  stage fun now patch =>
    let existing := byType (status.conditions ++ patch.status.conditions.getD [])
    { patch with status.conditions := some (mergeConditions now existing updates metadata.generation) }

def reportPause (status : MachineStatus) (metadata : ObjectMeta) (check : Act Bool) : Act Bool := do
  let paused ← try check catch e => do
    if e ≠ .cancelled then
      patchConditions status metadata
        [condition "Paused" "Unknown" "PauseCheckFailed" "Cannot establish CAPI pause and owner state"]
    throw e
  patchConditions status metadata
    [condition "Paused" (if paused then "True" else "False") (if paused then "Paused" else "NotPaused")
      (if paused then "Reconciliation is paused or awaiting a referenced CAPI owner"
        else "Reconciliation is not paused")]
  return paused

end CapiSsh
