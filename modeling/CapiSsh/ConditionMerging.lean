import Mathlib.Data.List.Induction
import CapiSsh.ConditionRules

/-!
# A handler's sequence of condition updates

Each call of `patch_conditions` starts from the stored conditions and from what the handler
has staged before. Everything of the law of the module holds of any sequence of calls but
the transition time: a status that is left and returned to within one handler run gets a
new one, since a call compares with the staged condition and not with the stored one.
-/
namespace CapiSsh

open Effect Keyed

/-- What one call stages, with its reading of the clock and its updates. An update may carry a
time of its own, so one reading stands for those of all its updates. -/
def patchedConditions (persisted : List Condition) (generation : Option Nat) (staged : List Condition)
    (call : Time × List Condition) : List Condition :=
  mergeConditions call.1 (byType (persisted ++ staged)) call.2 generation

theorem patchConditions_staged (status : MachineStatus) (metadata : ObjectMeta) (updates : List Condition) :
    patchConditions status metadata updates = stage fun now patch =>
      { patch with status.conditions := some (patchedConditions status.conditions metadata.generation
        (patch.status.conditions.getD []) (now, updates)) } := rfl

/-- The staged list after some calls, from nothing staged. -/
def stagedConditions (persisted : List Condition) (generation : Option Nat)
    (calls : List (Time × List Condition)) : List Condition :=
  calls.foldl (patchedConditions persisted generation) []

/-- The updates of a type, each with the time it would bring. -/
def updatesOf (t : String) (calls : List (Time × List Condition)) : List (Time × Condition) :=
  calls.flatMap fun call =>
    (call.2.filter fun u => u.type = t).map fun u => (u.lastTransitionTime.getD call.1, u)

/-- The condition has the transition time of the stored one. -/
def KeepsTime (persisted : List Condition) (c : Condition) : Prop :=
  ∃ p ∈ persisted, p.type = c.type ∧ p.lastTransitionTime ≠ none ∧ c.lastTransitionTime = p.lastTransitionTime

/-- The condition has the status of a stored one with a transition time. -/
def KeepsStatus (persisted : List Condition) (c : Condition) : Prop :=
  ∃ p ∈ persisted, p.type = c.type ∧ p.lastTransitionTime ≠ none ∧ c.status = p.status

/-- The list as the calls should leave it. -/
structure Merged (persisted : List Condition) (generation : Nat) (calls : List (Time × List Condition))
    (final : List Condition) : Prop where
  distinct : Distinct Condition.type final
  untouched : final.filter (fun c => updatesOf c.type calls = []) =
    persisted.filter fun c => updatesOf c.type calls = []
  updated : ∀ t u, (updatesOf t calls).getLast? = some u → ∃ c ∈ final, c.type = t ∧
    c.status = u.2.status ∧ c.reason = u.2.reason ∧ c.message = u.2.message ∧
    c.observedGeneration = some generation ∧ (KeepsTime persisted c ↔ KeepsStatus persisted c)

/-- The time of the last update whose status differs from the one before it. -/
def lastChange : Option String → List (Time × Condition) → Option Time
  | _, [] => none
  | status, (τ, u) :: us =>
    (lastChange (some u.status) us).or (if status = some u.status then none else some τ)

/-- The calls whose updates of a type are not dropped: a condition without a type does not outlast
the next call. -/
def counted (t : String) (calls : List (Time × List Condition)) : List (Time × List Condition) :=
  if t = "" then calls.getLast?.toList else calls

/-- What the first counted update of a condition is compared with. -/
def startStatus (p : Condition) : Option String := if p.type = "" then none else some p.status

/-- A status that changes in the run comes back only with the stored transition time, and stays
away only with another one; a condition without a type is updated by the last call. -/
structure Settles (persisted : List Condition) (calls : List (Time × List Condition)) : Prop where
  typed : (∃ c ∈ persisted, c.type = "") ∨ updatesOf "" calls ≠ [] → updatesOf "" calls.getLast?.toList ≠ []
  times : ∀ p ∈ persisted, ∀ t₀, p.lastTransitionTime = some t₀ →
    ∀ τ, lastChange (startStatus p) (updatesOf p.type (counted p.type calls)) = some τ →
      (τ = t₀ ↔ (updatesOf p.type calls).getLast?.map (fun u => u.2.status) = some p.status)

abbrev entry (t : String) (cs : List Condition) : Option Condition := standing Condition.type id t cs

/-- What an update becomes, given the condition it replaces. -/
def mergedItem (generation : Option Nat) (previous : Option Condition) (u : Time × Condition) : Condition :=
  let kept := previous.bind fun c => if c.status = u.2.status then c.lastTransitionTime else none
  { u.2 with
    lastTransitionTime := kept.or (some u.1)
    observedGeneration := generation.or u.2.observedGeneration }

def advance (generation : Option Nat) (previous : Option Condition) (us : List (Time × Condition)) :
    Option Condition :=
  us.foldl (fun previous u => some (mergedItem generation previous u)) previous

section Entry

variable {t : String} {now : Time} {generation : Option Nat} {cs l existing updates persisted staged : List Condition}
  {c u : Condition} {calls : List (Time × List Condition)} {call : Time × List Condition}
  {previous : Option Condition} {us : List (Time × Condition)}

theorem find_entry (h : Distinct Condition.type l) : l.find? (fun c => c.type = t) = entry t l := by
  induction l with
  | nil => rfl
  | cons c l ih =>
    simp only [Distinct, List.map_cons, List.nodup_cons] at h
    by_cases hc : c.type = t
    · subst hc
      simp [entry, standing, standing_absent h.1]
    · simp [entry, standing, hc, ih h.2]

theorem mem_entry (h : Distinct Condition.type l) : entry t l = some c ↔ c ∈ l ∧ c.type = t := by
  rw [entry, standing_mem h]
  constructor
  · rintro ⟨a, ha, hk, rfl⟩
    exact ⟨ha, hk⟩
  · exact fun h => ⟨c, h.1, h.2, rfl⟩

theorem entry_mergeCondition (h : Distinct Condition.type l) :
    entry t (mergeCondition now generation l u) =
      if u.type = t then some (mergedItem generation (entry t l) (u.lastTransitionTime.getD now, u))
      else entry t l := by
  rw [mergeCondition, putCondition_put, entry, standing_put h]
  by_cases hu : u.type = t
  · subst hu
    rw [if_pos rfl, if_pos rfl, find_entry h]
    rfl
  · rw [if_neg hu, if_neg hu]

theorem mergeCondition_distinct (h : Distinct Condition.type l) :
    Distinct Condition.type (mergeCondition now generation l u) := by
  rw [mergeCondition, putCondition_put]
  exact distinct_put h

theorem merge_distinct (h : Distinct Condition.type l) :
    Distinct Condition.type (updates.foldl (mergeCondition now generation) l) :=
  distinct_updates (fun l c => (mergeCondition_step l c).imp fun _ h => h.1) _ h

theorem entry_merge (h : Distinct Condition.type l) :
    entry t (updates.foldl (mergeCondition now generation) l) =
      advance generation (entry t l) (updatesOf t [(now, updates)]) := by
  induction updates generalizing l with
  | nil => rfl
  | cons u us ih =>
    rw [List.foldl_cons, ih (mergeCondition_distinct h), entry_mergeCondition h]
    by_cases hu : u.type = t
    · simp [updatesOf, advance, hu]
    · simp [updatesOf, hu]

theorem entry_byType : entry t (byType l) = if t = "" then none else entry t l := by
  have hstep (l : List Condition) (c : Condition) :
      ∃ a, putCondition c l = put Condition.type a l ∧ a.type = c.type ∧ id a = id c :=
    ⟨c, putCondition_put c l, rfl, rfl⟩
  rw [entry, byType, standing_updates hstep _ distinct_nil]
  by_cases ht : t = ""
  · subst ht
    rw [if_pos rfl, standing_absent]
    · rfl
    · intro hm
      obtain ⟨c, hc, hk⟩ := List.mem_map.mp hm
      simp [hk] at hc
  · rw [if_neg ht, standing_filter fun a ha => by simpa [ha] using ht]
    exact Option.or_none

theorem updatesOf_append {calls' : List (Time × List Condition)} :
    updatesOf t (calls ++ calls') = updatesOf t calls ++ updatesOf t calls' := by
  simp [updatesOf]

theorem advance_append {us' : List (Time × Condition)} :
    advance generation previous (us ++ us') = advance generation (advance generation previous us) us' :=
  List.foldl_append

theorem advance_isSome (h : previous.isSome = true) : (advance generation previous us).isSome = true := by
  induction us generalizing previous with
  | nil => exact h
  | cons u us ih => exact ih rfl

theorem entry_patched : entry t (patchedConditions persisted generation staged call) =
    advance generation (if t = "" then none else (entry t staged).or (entry t persisted))
      (updatesOf t [call]) := by
  rw [patchedConditions, mergeConditions, entry_merge byType_distinct, entry_byType, entry_byType]
  by_cases ht : t = ""
  · simp [ht]
  · simp only [if_neg ht]
    rw [entry, standing_append]

theorem staged_snoc : stagedConditions persisted generation (calls ++ [call]) =
    patchedConditions persisted generation (stagedConditions persisted generation calls) call := by
  simp [stagedConditions]

/-- What the next call finds of a type is what the updates have made of the stored condition. -/
theorem entry_found (ht : t ≠ "") :
    (entry t (stagedConditions persisted generation calls)).or (entry t persisted) =
      advance generation (entry t persisted) (updatesOf t calls) := by
  induction calls using List.reverseRecOn with
  | nil => rfl
  | append_singleton calls call ih =>
    rw [staged_snoc, entry_patched, if_neg ht, ih, updatesOf_append, advance_append]
    cases hp : advance generation (entry t persisted) (updatesOf t calls) with
    | some c =>
      have hs : (advance generation (some c) (updatesOf t [call])).isSome = true := advance_isSome rfl
      obtain ⟨d, hd⟩ := Option.isSome_iff_exists.mp hs
      rw [hd]
      rfl
    | none =>
      cases he : entry t persisted with
      | none => exact Option.or_none
      | some c =>
        have hs : (advance generation (entry t persisted) (updatesOf t calls)).isSome = true :=
          advance_isSome (by rw [he]; rfl)
        rw [hp] at hs
        cases hs

theorem entry_staged (hc : calls ≠ []) : entry t (stagedConditions persisted generation calls) =
    advance generation (if t = "" then none else entry t persisted) (updatesOf t (counted t calls)) := by
  obtain ⟨calls, call, rfl⟩ : ∃ l c, calls = l ++ [c] :=
    ⟨calls.dropLast, calls.getLast hc, (List.dropLast_append_getLast hc).symm⟩
  rw [staged_snoc, entry_patched]
  by_cases ht : t = ""
  · simp [ht, counted]
  · rw [if_neg ht, if_neg ht, entry_found ht, counted, if_neg ht, updatesOf_append, advance_append]

theorem staged_distinct : Distinct Condition.type (stagedConditions persisted generation calls) := by
  induction calls using List.reverseRecOn with
  | nil => exact distinct_nil
  | append_singleton calls call ih =>
    rw [staged_snoc]
    exact merge_distinct byType_distinct

/-- The last update says what the condition is, the last change of status since when. -/
theorem advance_last (g : Nat) (previous : Option Condition) {last : Time × Condition}
    (hl : us.getLast? = some last) :
    ∃ c, advance (some g) previous us = some c ∧ c.type = last.2.type ∧ c.status = last.2.status ∧
      c.reason = last.2.reason ∧ c.message = last.2.message ∧ c.observedGeneration = some g := by
  obtain ⟨us, rfl⟩ := List.getLast?_eq_some_iff.mp hl
  rw [advance_append]
  exact ⟨_, rfl, rfl, rfl, rfl, rfl, rfl⟩

theorem advance_time (h : advance generation previous us = some c)
    (hp : ∀ p, previous = some p → p.lastTransitionTime ≠ none) :
    c.lastTransitionTime = (lastChange (previous.map Condition.status) us).or
      (previous.bind Condition.lastTransitionTime) := by
  induction us generalizing previous with
  | nil =>
    have h : previous = some c := h
    simp [h, lastChange]
  | cons u us ih =>
    have hnew : (mergedItem generation previous u).lastTransitionTime ≠ none := by
      simp [mergedItem]
    rw [ih h fun p he => by cases he; exact hnew]
    have hstatus : (mergedItem generation previous u).status = u.2.status := rfl
    simp only [Option.map_some, Option.bind_some, lastChange, hstatus, Option.or_assoc]
    congr 1
    cases previous with
    | none => rfl
    | some p =>
      obtain ⟨t₀, ht₀⟩ := Option.ne_none_iff_exists'.mp (hp p rfl)
      by_cases hs : p.status = u.2.status
      · simp [mergedItem, hs, ht₀]
      · simp [mergedItem, hs]

theorem updatesOf_type {u : Time × Condition} (h : u ∈ updatesOf t calls) : u.2.type = t := by
  simp only [updatesOf, List.mem_flatMap, List.mem_map, List.mem_filter, decide_eq_true_eq] at h
  obtain ⟨call, -, u', ⟨-, hu⟩, rfl⟩ := h
  exact hu

variable {q : Condition → Bool}

theorem foldl_putCondition : cs.foldl (fun l c => putCondition c l) l =
    cs.foldl (fun l c => put Condition.type c l) l := by
  induction cs generalizing l with
  | nil => rfl
  | cons c cs ih => rw [List.foldl_cons, List.foldl_cons, putCondition_put, ih]

theorem byType_filter (hq : ∀ a b : Condition, a.type = b.type → q a = q b) :
    (byType l).filter q = byType (l.filter q) := by
  rw [byType, foldl_putCondition, filter_foldl_put hq, byType, foldl_putCondition, List.filter_filter,
    List.filter_filter]
  simp only [Bool.and_comm, List.filter_nil]

theorem merge_filter (hq : ∀ a b : Condition, a.type = b.type → q a = q b)
    (hu : ∀ u ∈ updates, q u = false) :
    (updates.foldl (mergeCondition now generation) l).filter q = l.filter q := by
  induction updates generalizing l with
  | nil => rfl
  | cons u us ih =>
    obtain ⟨a, ha, hk, -⟩ : ∃ a, mergeCondition now generation l u = put Condition.type a l ∧
        a.type = u.type ∧ a.status = u.status := mergeCondition_step l u
    rw [List.foldl_cons, ih fun v hv => hu v (List.mem_cons_of_mem u hv), ha, filter_put hq,
      hq a u hk, hu u List.mem_cons_self]
    rfl

/-- A list keyed by type is built of itself, and a second time adds nothing. -/
theorem byType_twice (h : Distinct Condition.type l) (ht : ∀ c ∈ l, c.type ≠ "") :
    byType l = l ∧ byType (l ++ l) = l := by
  have hf : l.filter (fun c => c.type ≠ "") = l := by
    simpa [List.filter_eq_self] using ht
  have hnew : l.foldl (fun l c => put Condition.type c l) [] = [] ++ l := foldl_put_new l (by simpa using h)
  rw [List.nil_append] at hnew
  constructor
  · rw [byType, foldl_putCondition, hf, hnew]
  · rw [byType, foldl_putCondition, List.filter_append, hf, List.foldl_append, hnew]
    exact foldl_put_mem l h fun _ hu => hu

/-- The conditions that no call updates stay as they are, in their order. -/
theorem staged_filter (hp : Distinct Condition.type persisted)
    (hq : ∀ a b : Condition, a.type = b.type → q a = q b)
    (hu : ∀ call ∈ calls, ∀ u ∈ call.2, q u = false) (ht : ∀ c ∈ persisted, q c = true → c.type ≠ "")
    (hc : calls ≠ []) : (stagedConditions persisted generation calls).filter q = persisted.filter q := by
  have hd : Distinct Condition.type (persisted.filter q) := by
    exact (List.filter_sublist.map Condition.type).nodup hp
  obtain ⟨h₁, h₂⟩ := byType_twice hd fun c hc => ht c (List.mem_of_mem_filter hc) (List.mem_filter.mp hc).2
  have hstep (staged : List Condition) (call : Time × List Condition) (hcall : ∀ u ∈ call.2, q u = false)
      (hs : staged.filter q = [] ∨ staged.filter q = persisted.filter q) :
      (patchedConditions persisted generation staged call).filter q = persisted.filter q := by
    rw [patchedConditions, mergeConditions, merge_filter hq hcall, byType_filter hq, byType_filter hq,
      List.filter_append]
    cases hs with
    | inl hs => rw [hs, List.append_nil, h₁, h₁]
    | inr hs => rw [hs, h₂, h₁]
  have hall : (stagedConditions persisted generation calls).filter q = [] ∧ calls = [] ∨
      (stagedConditions persisted generation calls).filter q = persisted.filter q := by
    induction calls using List.reverseRecOn with
    | nil => exact Or.inl ⟨rfl, rfl⟩
    | append_singleton calls call ih =>
      right
      rw [staged_snoc]
      refine hstep _ call (hu call (by simp)) ?_
      by_cases hn : calls = []
      · subst hn
        exact Or.inl rfl
      · cases ih (fun call hm => hu call (by simp [hm])) hn with
        | inl h => exact absurd h.2 hn
        | inr h => exact Or.inr h
  cases hall with
  | inl h => exact absurd h.2 hc
  | inr h => exact h

theorem keepsTime_iff {p : Condition} {t₀ : Time} (hp : Distinct Condition.type persisted) (hm : p ∈ persisted)
    (ht : p.type = c.type) (h₀ : p.lastTransitionTime = some t₀) :
    (KeepsTime persisted c ↔ c.lastTransitionTime = some t₀) ∧ (KeepsStatus persisted c ↔ c.status = p.status) := by
  have hone : ∀ p' ∈ persisted, p'.type = c.type → p' = p := by
    intro p' hm' ht'
    have h₁ := (mem_entry hp).mpr ⟨hm', ht'⟩
    rw [(mem_entry hp).mpr ⟨hm, ht⟩] at h₁
    exact (Option.some.inj h₁).symm
  constructor
  · constructor
    · rintro ⟨p', hm', ht', -, h⟩
      rw [h, hone p' hm' ht', h₀]
    · intro h
      exact ⟨p, hm, ht, by simp [h₀], by rw [h, h₀]⟩
  · constructor
    · rintro ⟨p', hm', ht', -, h⟩
      rw [h, hone p' hm' ht']
    · intro h
      exact ⟨p, hm, ht, by simp [h₀], h⟩

theorem lastChange_none (h : lastChange (some c.status) us = none) : ∀ u ∈ us, u.2.status = c.status := by
  induction us generalizing c with
  | nil => simp
  | cons u us ih =>
    simp only [lastChange, Option.or_eq_none_iff] at h
    obtain ⟨hrest, hu⟩ := h
    by_cases hs : c.status = u.2.status
    · intro v hv
      cases List.mem_cons.mp hv with
      | inl hv => rw [hv, hs]
      | inr hv => rw [ih hrest v hv, hs]
    · simp [hs] at hu

theorem lastChange_start (h : us ≠ []) : lastChange none us ≠ none := by
  cases us with
  | nil => exact absurd rfl h
  | cons u us => simp [lastChange]

/-- The counted updates end as all of them do. -/
theorem counted_last (h : updatesOf t (counted t calls) ≠ []) :
    (updatesOf t calls).getLast? = (updatesOf t (counted t calls)).getLast? := by
  by_cases ht : t = ""
  · simp only [counted, if_pos ht] at h ⊢
    cases hl : calls.getLast? with
    | none => simp [List.getLast?_eq_none_iff.mp hl]
    | some call =>
      obtain ⟨calls, rfl⟩ := List.getLast?_eq_some_iff.mp hl
      rw [hl] at h
      rw [updatesOf_append]
      exact List.getLast?_append_of_ne_nil _ h
  · simp [counted, ht]

theorem mem_staged (hc : calls ≠ []) (h : c ∈ stagedConditions persisted generation calls) :
    advance generation (if c.type = "" then none else entry c.type persisted)
      (updatesOf c.type (counted c.type calls)) = some c := by
  rw [← entry_staged hc]
  exact (mem_entry staged_distinct).mpr ⟨h, rfl⟩

theorem mem_updatesOf {u : Condition} (hc : call ∈ calls) (hu : u ∈ call.2) : updatesOf u.type calls ≠ [] := by
  intro h
  have : (u.lastTransitionTime.getD call.1, u) ∈ updatesOf u.type calls := by
    simp only [updatesOf, List.mem_flatMap, List.mem_map, List.mem_filter, decide_eq_true_eq]
    exact ⟨call, hc, u, ⟨hu, rfl⟩, rfl⟩
  rw [h] at this
  cases this

theorem start_eq {p : Condition} (hp : Distinct Condition.type persisted) (hm : p ∈ persisted) :
    (if p.type = "" then none else entry p.type persisted).map Condition.status = startStatus p := by
  rw [startStatus, (mem_entry hp).mpr ⟨hm, rfl⟩]
  by_cases ht : p.type = "" <;> simp [ht]

theorem start_time {p p' : Condition} {t₀ : Time} (hp : Distinct Condition.type persisted) (hm : p ∈ persisted)
    (h₀ : p.lastTransitionTime = some t₀)
    (h : (if p.type = "" then none else entry p.type persisted) = some p') : p'.lastTransitionTime ≠ none := by
  rw [(mem_entry hp).mpr ⟨hm, rfl⟩] at h
  by_cases ht : p.type = ""
  · simp [ht] at h
  · rw [if_neg ht] at h
    cases h
    simp [h₀]

theorem Merged.settles {g : Nat} (hp : Distinct Condition.type persisted) (hc : calls ≠ [])
    (h : Merged persisted g calls (stagedConditions persisted (some g) calls)) : Settles persisted calls := by
  constructor
  · intro hany hno
    have hnone : ∀ c ∈ stagedConditions persisted (some g) calls, c.type ≠ "" := by
      intro c hm ht
      have := mem_staged hc hm
      rw [if_pos ht, counted, if_pos ht, ht, hno] at this
      cases this
    by_cases hu : updatesOf "" calls = []
    · obtain ⟨c, hm, ht⟩ := hany.resolve_right (fun h => h hu)
      have hf : c ∈ persisted.filter fun c => updatesOf c.type calls = [] := by
        simp [List.mem_filter, hm, ht, hu]
      rw [← h.untouched] at hf
      exact hnone c (List.mem_of_mem_filter hf) ht
    · obtain ⟨u, hl⟩ := Option.ne_none_iff_exists'.mp (mt List.getLast?_eq_none_iff.mp hu)
      obtain ⟨c, hm, ht, -⟩ := h.updated "" u hl
      exact hnone c hm ht
  · intro p hm t₀ h₀ τ hτ
    have hu : updatesOf p.type (counted p.type calls) ≠ [] := by
      intro hu
      rw [hu] at hτ
      cases hτ
    have hlast := counted_last hu
    obtain ⟨u, hl⟩ := Option.ne_none_iff_exists'.mp (mt List.getLast?_eq_none_iff.mp hu)
    rw [hl] at hlast
    obtain ⟨c, hcm, ht, hs, -, -, -, hiff⟩ := h.updated p.type u hlast
    obtain ⟨h₁, h₂⟩ := keepsTime_iff hp hm ht.symm h₀
    have htime := advance_time (mem_staged hc hcm)
    rw [ht, start_eq hp hm, hτ] at htime
    have htime := htime fun p' => start_time hp hm h₀
    rw [h₁, h₂, htime, hs] at hiff
    rw [hlast]
    simpa using hiff

theorem Settles.merged {g : Nat} (hp : Distinct Condition.type persisted) (hc : calls ≠ [])
    (h : Settles persisted calls) : Merged persisted g calls (stagedConditions persisted (some g) calls) := by
  refine ⟨staged_distinct, ?_, ?_⟩
  · refine staged_filter hp (fun a b hab => by rw [hab]) (fun call hm u hu => ?_) (fun c hm hq ht => ?_) hc
    · simpa using mem_updatesOf hm hu
    · rw [ht] at hq
      have hlast := h.typed (Or.inl ⟨c, hm, ht⟩)
      have hl : updatesOf "" (counted "" calls) ≠ [] := hlast
      have heq := counted_last hl
      rw [of_decide_eq_true hq] at heq
      exact hl (List.getLast?_eq_none_iff.mp heq.symm)
  · intro t u hl
    have hcount : updatesOf t (counted t calls) ≠ [] := by
      by_cases ht : t = ""
      · subst ht
        exact h.typed (Or.inr fun he => by simp [he] at hl)
      · rw [counted, if_neg ht]
        exact fun he => by simp [he] at hl
    have hlast := counted_last hcount
    rw [hl] at hlast
    obtain ⟨c, hadv, hct, hs, hr, hmsg, hg⟩ :=
      advance_last g (if t = "" then none else entry t persisted) hlast.symm
    have hut : u.2.type = t := updatesOf_type (List.mem_of_getLast? hl)
    rw [hut] at hct
    have hmem : c ∈ stagedConditions persisted (some g) calls := by
      refine ((mem_entry (t := t) staged_distinct).mp ?_).1
      rw [entry_staged hc, hadv]
    refine ⟨c, hmem, hct, hs, hr, hmsg, hg, ?_⟩
    by_cases hex : ∃ p ∈ persisted, p.type = c.type ∧ p.lastTransitionTime ≠ none
    · obtain ⟨p, hm, hpt, hpn⟩ := hex
      obtain ⟨t₀, h₀⟩ := Option.ne_none_iff_exists'.mp hpn
      obtain ⟨h₁, h₂⟩ := keepsTime_iff hp hm hpt h₀
      have ht : t = p.type := hct.symm.trans hpt.symm
      subst ht
      have htime := advance_time hadv fun p' => start_time hp hm h₀
      rw [start_eq hp hm] at htime
      rw [h₁, h₂, htime]
      cases hτ : lastChange (startStatus p) (updatesOf p.type (counted p.type calls)) with
      | some τ =>
        have := h.times p hm t₀ h₀ τ hτ
        rw [hl] at this
        simpa [hs] using this
      | none =>
        -- the status has been the stored one throughout
        by_cases hpe : p.type = ""
        · rw [startStatus, if_pos hpe] at hτ
          exact absurd hτ (lastChange_start hcount)
        · rw [startStatus, if_neg hpe] at hτ
          have hu := lastChange_none hτ u (List.mem_of_getLast? hlast.symm)
          rw [hs, hu, if_neg hpe, (mem_entry hp).mpr ⟨hm, rfl⟩]
          simp [h₀]
    · constructor
      · rintro ⟨p, hm, hpt, hpn, -⟩
        exact absurd ⟨p, hm, hpt, hpn⟩ hex
      · rintro ⟨p, hm, hpt, hpn, -⟩
        exact absurd ⟨p, hm, hpt, hpn⟩ hex

end Entry

/-- Any sequence of calls merges as it should exactly if its statuses settle. -/
theorem conditions_merged (persisted : List Condition) (generation : Nat) (call : Time × List Condition)
    (calls : List (Time × List Condition)) (hp : Distinct Condition.type persisted) :
    Merged persisted generation (call :: calls) (stagedConditions persisted (some generation) (call :: calls)) ↔
      Settles persisted (call :: calls) :=
  ⟨fun h => h.settles hp (by simp), fun h => h.merged hp (by simp)⟩

/-- What a Machine has stored when its cleanup is tried again. -/
def retried : List Condition :=
  [⟨"CleanupSucceeded", "False", "CleanupFailed", "Retry needed", some 3, some 1⟩,
    ⟨"Ready", "True", "BootstrapComplete", "", some 2, some 1⟩]

def deleting : Time × List Condition :=
  (8, [condition "Ready" "False" "Deleting" "", condition "CleanupSucceeded" "False" "Deleting" ""])

def failing : List (Time × List Condition) :=
  [(9, [condition "CleanupSucceeded" "False" "CleanupFailed" "Retry needed"]),
    (10, [condition "Ready" "False" "CleanupFailed" "Retry needed"])]

/-- A cleanup that fails again keeps the time of its first failure, while `Ready`, which has
become false meanwhile, gets another. -/
theorem conditions_merged_cleanup :
    Merged retried 2 (deleting :: failing) (stagedConditions retried (some 2) (deleting :: failing)) := by
  refine (conditions_merged _ 2 _ _ (by simp [Distinct, retried])).mpr ⟨?_, ?_⟩
  · intro h
    simp [updatesOf, condition, retried, deleting, failing] at h
  · intro p hp t₀ h₀ τ hτ
    simp only [retried, List.mem_cons, List.not_mem_nil, or_false] at hp
    rcases hp with rfl | rfl
    · -- every update of the cleanup has the stored status
      have hsame : lastChange (some "False") (updatesOf "CleanupSucceeded" (deleting :: failing)) = none := by decide
      exact absurd (hsame.symm.trans hτ) (by simp)
    · have hchange : lastChange (some "True") (updatesOf "Ready" (deleting :: failing)) = some 8 := by decide
      obtain rfl : τ = 8 := Option.some.inj (hτ.symm.trans hchange)
      cases h₀
      exact iff_of_false (by decide) (by decide)

/-- The two calls of a repeated cluster deletion: the time moves although the status is as it was. -/
theorem conditions_merged_return :
    Distinct Condition.type [⟨"CleanupSucceeded", "True", "CleanupNotRequired", "", some 3, some 1⟩] ∧
      ¬ Merged [⟨"CleanupSucceeded", "True", "CleanupNotRequired", "", some 3, some 1⟩] 1
        [(8, [condition "CleanupSucceeded" "False" "Deleting" ""]),
          (9, [condition "CleanupSucceeded" "True" "CleanupNotRequired" ""])]
        (stagedConditions [⟨"CleanupSucceeded", "True", "CleanupNotRequired", "", some 3, some 1⟩] (some 1)
          [(8, [condition "CleanupSucceeded" "False" "Deleting" ""]),
            (9, [condition "CleanupSucceeded" "True" "CleanupNotRequired" ""])]) := by
  refine ⟨by simp [Distinct], fun h => ?_⟩
  obtain ⟨c, hc, -, hs, -, -, -, hiff⟩ := h.updated "CleanupSucceeded"
    (9, condition "CleanupSucceeded" "True" "CleanupNotRequired" "") (by decide)
  have hfinal : ∀ c ∈ stagedConditions [⟨"CleanupSucceeded", "True", "CleanupNotRequired", "", some 3, some 1⟩]
      (some 1) [(8, [condition "CleanupSucceeded" "False" "Deleting" ""]),
        (9, [condition "CleanupSucceeded" "True" "CleanupNotRequired" ""])],
      c.type = "CleanupSucceeded" ∧ c.lastTransitionTime = some 9 := by decide
  obtain ⟨ht, htime⟩ := hfinal c hc
  obtain ⟨p, hp, -, -, hk⟩ := hiff.mpr ⟨_, List.mem_singleton_self _, ht.symm, by simp, hs⟩
  rw [List.mem_singleton] at hp
  rw [hp, htime] at hk
  exact absurd hk (by decide)

end CapiSsh
