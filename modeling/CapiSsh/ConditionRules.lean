import CapiSsh.Conditions
import CapiSsh.Lib.Keyed

/-!
# What a condition list says

A condition list that the provider builds is keyed by type, and what it says of a type is
what was last written of it.
-/
namespace CapiSsh

open Keyed

/-- The status of the last condition of a type. -/
abbrev verdict (t : String) (cs : List Condition) : Option String := standing Condition.type Condition.status t cs

/-- The values that the provider writes. -/
def isVerdict (s : String) : Prop := s = "True" ∨ s = "False" ∨ s = "Unknown"

/-- A list keyed by type whose entries have a status as the API defines it. -/
structure WellFormed (cs : List Condition) : Prop where
  distinct : Distinct Condition.type cs
  verdicts : ∀ c ∈ cs, isVerdict c.status

theorem wellFormed_nil : WellFormed [] := ⟨distinct_nil, by rintro c ⟨⟩⟩

theorem putCondition_put (item : Condition) (cs : List Condition) : putCondition item cs = put Condition.type item cs := by
  induction cs with
  | nil => rfl
  | cons c cs ih => rw [putCondition, put, ih]

variable {t : String} {now : Time} {generation : Option Nat} {cs existing updates : List Condition}

theorem byType_step (l : List Condition) (c : Condition) :
    ∃ a, putCondition c l = put Condition.type a l ∧ a.type = c.type ∧ a.status = c.status :=
  ⟨c, putCondition_put c l, rfl, rfl⟩

theorem mergeCondition_step (l : List Condition) (c : Condition) :
    ∃ a, mergeCondition now generation l c = put Condition.type a l ∧ a.type = c.type ∧ a.status = c.status := by
  rw [mergeCondition, putCondition_put]
  exact ⟨_, rfl, rfl, rfl⟩

theorem verdict_append : verdict t (cs ++ existing) = (verdict t existing).or (verdict t cs) := standing_append

theorem byType_distinct : Distinct Condition.type (byType cs) :=
  distinct_updates (fun l c => ⟨c, putCondition_put c l⟩) _ distinct_nil

theorem verdict_byType (ht : t ≠ "") : verdict t (byType cs) = verdict t cs := by
  rw [verdict, byType, standing_updates byType_step _ distinct_nil, standing_filter fun a ha => by simpa [ha] using ht]
  exact Option.or_none

theorem byType_verdicts (h : ∀ c ∈ cs, isVerdict c.status) : ∀ c ∈ byType cs, isVerdict c.status :=
  values_updates byType_step _ (fun c hc => h c (List.mem_of_mem_filter hc)) (by rintro c ⟨⟩)

theorem merged_wellFormed (h : ∀ c ∈ existing, isVerdict c.status) (hu : ∀ c ∈ updates, isVerdict c.status) :
    WellFormed (mergeConditions now existing updates generation) :=
  ⟨distinct_updates (fun l c => (mergeCondition_step l c).imp fun _ h => h.1) _ byType_distinct,
    values_updates mergeCondition_step _ hu (byType_verdicts h)⟩

/-- An update stands, and what it leaves out stays as it was. -/
theorem verdict_merged (ht : t ≠ "") :
    verdict t (mergeConditions now existing updates generation) = (verdict t updates).or (verdict t existing) := by
  rw [verdict, mergeConditions, standing_updates mergeCondition_step _ byType_distinct]
  exact congrArg _ (verdict_byType ht)

/-- One condition of a well-formed list. -/
theorem verdict_iff (h : WellFormed cs) {v : String} : verdict t cs = some v ↔ ∃ c ∈ cs, c.type = t ∧ c.status = v :=
  standing_mem h.distinct

end CapiSsh
