import CapiSsh.ConditionMerging
import CapiSsh.Reconcile
import CapiSsh.SSHCluster

/-!
# What the status of an SSHCluster says

Whatever runs beside an attempt and however old its version of the object is, readiness is
the verdict of one version on its own endpoint, and a condition that is true tells the
endpoint of a version that was registered. Attempts that come one after another keep the
legacy flag, initialization and the conditions in step.
-/
namespace CapiSsh

open Effect Interference Keyed

/-- What a condition says, whenever it did. -/
def Condition.said (c : Condition) : String × String × String × String := (c.type, c.status, c.reason, c.message)

section merging

variable {now : Time} {generation : Option Nat} {cs existing updates : List Condition} {x : Condition}

theorem byType_said (l : List Condition) (c : Condition) :
    ∃ a, putCondition c l = put Condition.type a l ∧ a.type = c.type ∧ a.said = c.said :=
  ⟨c, putCondition_put c l, rfl, rfl⟩

theorem mergeCondition_said (l : List Condition) (c : Condition) :
    ∃ a, mergeCondition now generation l c = put Condition.type a l ∧ a.type = c.type ∧ a.said = c.said := by
  rw [mergeCondition, putCondition_put]
  exact ⟨_, rfl, rfl, rfl⟩

theorem said_byType (h : x ∈ byType cs) : ∃ y ∈ cs, y.said = x.said :=
  values_updates (P := fun v => ∃ y ∈ cs, y.said = v) byType_said _
    (fun u hu => ⟨u, List.mem_of_mem_filter hu, rfl⟩) (by rintro a ⟨⟩) x h

/-- A merged condition says what an update or an earlier condition says. -/
theorem said_merged (h : x ∈ mergeConditions now existing updates generation) :
    ∃ y ∈ existing ++ updates, y.said = x.said := by
  refine values_updates (P := fun v => ∃ y ∈ existing ++ updates, y.said = v) mergeCondition_said _ ?_ ?_ x h
  · intro u hu
    exact ⟨u, List.mem_append_right _ hu, rfl⟩
  · intro a ha
    obtain ⟨y, hy, hs⟩ := said_byType ha
    exact ⟨y, List.mem_append_left _ hy, hs⟩

/-- Updates of the provider's own types leave the rest of what is stored as it is. -/
theorem foreign_merged {stored staged : List Condition} (hd : Distinct Condition.type stored)
    (hs : staged = [] ∨ foreignConditions staged = foreignConditions stored)
    (hu : ∀ u ∈ updates, clusterConditionTypes.contains u.type = true) :
    foreignConditions (mergeConditions now (byType (stored ++ staged)) updates generation) = foreignConditions stored := by
  have hq (a b : Condition) (h : a.type = b.type) : (!(clusterConditionTypes.contains a.type) && a.type != "") =
      (!(clusterConditionTypes.contains b.type) && b.type != "") := by rw [h]
  have hd' : Distinct Condition.type (foreignConditions stored) := (List.filter_sublist.map Condition.type).nodup hd
  obtain ⟨hone, htwo⟩ := byType_twice hd' fun c hc => by
    have := (List.mem_filter.mp hc).2
    simp only [Bool.and_eq_true, bne_iff_ne] at this
    exact this.2
  have hno : ∀ u ∈ updates, (!(clusterConditionTypes.contains u.type) && u.type != "") = false := by
    intro u hm
    rw [hu u hm]
    rfl
  rw [foreignConditions, mergeConditions, merge_filter hq hno, byType_filter hq, byType_filter hq, List.filter_append]
  change byType (byType (foreignConditions stored ++ foreignConditions staged)) = _
  obtain rfl | hs := hs
  · change byType (byType (foreignConditions stored ++ [])) = _
    rw [List.append_nil, hone, hone]
  · rw [hs, htwo, hone]

theorem merged_distinct : Distinct Condition.type (mergeConditions now existing updates generation) :=
  distinct_updates (fun l c => (mergeCondition_step l c).imp fun _ h => h.1) _ byType_distinct

end merging

/-- A patch with these keys, whose conditions are those of `c` with some updates. -/
structure Says (c : SSHCluster) (provisioned ready : Option Bool) (updates : List Condition) (p : Patch) : Prop where
  provisioned : p.status.provisioned = provisioned
  ready : p.status.ready = ready
  silent : p.status.conditions = none → updates = []
  distinct : ∀ cs, p.status.conditions = some cs → Distinct Condition.type cs
  verdicts : ∀ cs, p.status.conditions = some cs → ∀ t, t ≠ "" →
    verdict t cs = (verdict t updates).or (verdict t c.status.conditions)
  said : ∀ cs, p.status.conditions = some cs → ∀ x ∈ cs, ∃ y ∈ c.status.conditions ++ updates, y.said = x.said
  given : Distinct Condition.type c.status.conditions
  foreign : ∀ cs, p.status.conditions = some cs → foreignConditions cs = foreignConditions c.status.conditions

variable {c : SSHCluster} {provisioned ready : Option Bool} {updates : List Condition} {p : Patch}

theorem says_empty (h : Distinct Condition.type c.status.conditions) : Says c none none [] Patch.empty :=
  ⟨rfl, rfl, fun _ => rfl, by rintro cs ⟨⟩, by rintro cs ⟨⟩, by rintro cs ⟨⟩, h, by rintro cs ⟨⟩⟩

theorem says_provisioned (b : Bool) (h : Says c provisioned ready updates p) :
    Says c (some b) ready updates { p with status.provisioned := some b } :=
  { h with provisioned := rfl }

theorem says_ready (b : Bool) (h : Says c provisioned ready updates p) :
    Says c provisioned (some b) updates { p with status.ready := some b } :=
  { h with ready := rfl }

/-- What was staged before is kept together with what is stored. -/
theorem says_conditions {us : List Condition} (hu : ∀ u ∈ us, clusterConditionTypes.contains u.type = true) (now : Time)
    (h : Says c provisioned ready updates p) :
    Says c provisioned ready (updates ++ us) { p with status.conditions := some (mergeConditions now
      (byType (c.status.shared.conditions ++ p.status.conditions.getD [])) us c.metadata.generation) } := by
  refine ⟨h.provisioned, h.ready, by rintro ⟨⟩, ?_, ?_, ?_, h.given, ?_⟩
  · rintro cs ⟨⟩
    exact merged_distinct
  · rintro cs ⟨⟩ t ht
    rw [verdict_merged ht, verdict_byType ht, verdict_append, verdict_append]
    cases hp : p.status.conditions with
    | none => simp [h.silent hp, verdict, standing, ClusterStatus.shared]
    | some cs =>
      rw [Option.getD_some, h.verdicts cs hp t ht]
      simp only [ClusterStatus.shared]
      cases verdict t us <;> cases verdict t updates <;> simp
  · rintro cs ⟨⟩ x hx
    obtain ⟨y, hy, hs⟩ := said_merged hx
    obtain hy | hy := List.mem_append.mp hy
    · obtain ⟨z, hz, hzy⟩ := said_byType hy
      rw [← hs, ← hzy]
      obtain hz | hz := List.mem_append.mp hz
      · exact ⟨z, List.mem_append_left _ hz, rfl⟩
      · cases hp : p.status.conditions with
        | none => simp [hp] at hz
        | some cs =>
          rw [hp] at hz
          obtain ⟨y', hy', hs'⟩ := h.said cs hp z hz
          exact ⟨y', by rw [← List.append_assoc]; exact List.mem_append_left _ hy', hs'⟩
    · exact ⟨y, List.mem_append_right _ (List.mem_append_right _ hy), hs⟩
  · rintro cs ⟨⟩
    refine foreign_merged h.given ?_ hu
    cases hp : p.status.conditions with
    | none => exact Or.inl rfl
    | some cs => exact Or.inr (h.foreign cs hp)

namespace SSHCluster

/-- The check that `reconcile` makes. -/
def registered (c : SSHCluster) : Bool :=
  hasCapiClusterOwner c.metadata.ownerReferences && !(c.spec.host == "") && !(c.spec.port == 0)

/-- Paused by itself, whatever its owners say. -/
def held (c : SSHCluster) : Bool := c.spec.paused || hasKey pausedAnnotation c.metadata.annotations

def deleting (c : SSHCluster) : Bool := c.metadata.deletionTimestamp.isSome

def registeredMessage (c : SSHCluster) : String := s!"Control plane endpoint {c.spec.host}:{c.spec.port} registered"

/-- What the conditions that an attempt adds may say. -/
structure Vouches (c : SSHCluster) (a : ClusterAttempt) (x : Condition) : Prop where
  ready : x.type ∈ ["Ready", "InfrastructureReady", "ControlPlaneEndpointReady"] → x.status = "True" →
    a = .update ∧ c.registered = true ∧ c.held = false ∧ x.message = c.registeredMessage
  cleaned : x.type = "CleanupSucceeded" → x.status = "True" → a = .delete ∧ c.held = false

end SSHCluster

/-- The legacy flag, initialization and the verdicts of the conditions, as they belong together. -/
structure Verdicts (provisioned ready : Option Bool) (deleting : Bool) (v : String → Option String) : Prop where
  flag : v "Ready" = ready.map boolText
  infrastructure : v "InfrastructureReady" = ready.map boolText
  endpoint : v "ControlPlaneEndpointReady" = provisioned.map boolText
  usable : ready = some true → provisioned = some true
  cleaned : v "CleanupSucceeded" = some "True" → deleting = true ∧ ready = some false ∧ provisioned = some false

def SSHCluster.InStep (c : SSHCluster) : Prop :=
  Verdicts c.status.provisioned c.status.ready c.deleting fun t => verdict t c.status.conditions

/-- What an attempt has staged when it ends. -/
structure ClusterEnds (a : ClusterAttempt) (c : SSHCluster) (provisioned ready : Option Bool) (updates : List Condition) :
    Prop where
  vouched : ∀ x ∈ updates, c.Vouches a x
  joint : if a = .update then provisioned = ready else ready = some false ∧ provisioned ≠ some true
  decided : a = .update → ∀ b, ready = some b → b = c.registered ∧ c.held = false
  inStep : a.admitted c → c.InStep → Verdicts (provisioned.or c.status.provisioned) (ready.or c.status.ready) c.deleting
    fun t => (verdict t updates).or (verdict t c.status.conditions)

/-- The types that `Verdicts` is about. -/
def readVerdicts : List String := ["Ready", "InfrastructureReady", "ControlPlaneEndpointReady", "CleanupSucceeded"]

theorem verdicts_congr {d d' : Bool} {v v' : String → Option String} (h : Verdicts provisioned ready d v)
    (hv : ∀ t ∈ readVerdicts, v' t = v t) (hd : d = true → d' = true) : Verdicts provisioned ready d' v' := by
  refine ⟨?_, ?_, ?_, h.usable, ?_⟩
  · rw [hv _ (by decide)]
    exact h.flag
  · rw [hv _ (by decide)]
    exact h.infrastructure
  · rw [hv _ (by decide)]
    exact h.endpoint
  · rw [hv _ (by decide)]
    intro hc
    exact ⟨hd (h.cleaned hc).1, (h.cleaned hc).2⟩

theorem readVerdicts_own {t : String} (h : t ∈ readVerdicts) : clusterConditionTypes.contains t = true := by
  simp only [readVerdicts, List.mem_cons, List.not_mem_nil, or_false] at h
  obtain rfl | rfl | rfl | rfl := h <;> rfl

/-- The condition that a pause check adds. -/
def pauseConditions : List (List Condition) :=
  [[], [condition "Paused" "Unknown" "PauseCheckFailed" "Cannot establish CAPI pause and owner state"],
    [condition "Paused" "True" "Paused" "Reconciliation is paused or awaiting a referenced CAPI owner"],
    [condition "Paused" "False" "NotPaused" "Reconciliation is not paused"]]

theorem pauseConditions_type {us : List Condition} (h : us ∈ pauseConditions) : ∀ x ∈ us, x.type = "Paused" := by
  simp only [pauseConditions, List.mem_cons, List.not_mem_nil, or_false] at h
  obtain rfl | rfl | rfl | rfl := h <;> simp [condition]

theorem own_paused {us : List Condition} (h : us ∈ pauseConditions) :
    ∀ x ∈ us, clusterConditionTypes.contains x.type = true := by
  intro x hx
  rw [pauseConditions_type h x hx]
  decide

/-- The pause check settles none of the other verdicts. -/
theorem verdict_paused {us : List Condition} {t : String} (h : us ∈ pauseConditions) (ht : t ∈ readVerdicts) :
    verdict t us = none := by
  refine standing_absent fun hm => ?_
  obtain ⟨x, hx, rfl⟩ := List.mem_map.mp hm
  rw [pauseConditions_type h x hx] at ht
  exact absurd ht (by decide)

theorem vouches_paused {a : ClusterAttempt} {us : List Condition} (h : us ∈ pauseConditions) :
    ∀ x ∈ us, c.Vouches a x := by
  intro x hx
  have ht := pauseConditions_type h x hx
  constructor
  · intro hm
    simp [ht] at hm
  · intro hm
    rw [ht] at hm
    exact absurd hm (by decide)

/-- An update that is paused, or does not learn whether it is. -/
theorem ends_quiet {us : List Condition} (h : us ∈ pauseConditions) : ClusterEnds .update c none none us := by
  refine ⟨vouches_paused h, rfl, by rintro - b ⟨⟩, fun _ hc => verdicts_congr hc (fun t ht => ?_) id⟩
  rw [verdict_paused h ht, Option.none_or]

/-- The three conditions of an update that has not been paused. -/
def lifecycleConditions (b : Bool) (reason message endpointReason endpointMessage : String) (t₁ t₂ t₃ : Time) :
    List Condition :=
  [⟨"Ready", boolText b, reason, message, some t₁, none⟩,
    ⟨clusterInfrastructureReadyCondition, boolText b, reason, message, some t₂, none⟩,
    ⟨clusterEndpointReadyCondition, boolText b, endpointReason, endpointMessage, some t₃, none⟩]

theorem own_lifecycle {b : Bool} {reason message endpointReason endpointMessage : String} {t₁ t₂ t₃ : Time} :
    ∀ x ∈ lifecycleConditions b reason message endpointReason endpointMessage t₁ t₂ t₃,
      clusterConditionTypes.contains x.type = true := by
  simp [lifecycleConditions, clusterConditionTypes]

theorem ends_decided {us : List Condition} {reason message endpointReason endpointMessage : String} {t₁ t₂ t₃ : Time}
    (h : us ∈ pauseConditions) (hh : c.held = false)
    (hm : c.registered = true → message = c.registeredMessage ∧ endpointMessage = c.registeredMessage) :
    ClusterEnds .update c (some c.registered) (some c.registered)
      (us ++ lifecycleConditions c.registered reason message endpointReason endpointMessage t₁ t₂ t₃) := by
  refine ⟨?_, rfl, ?_, fun ha hc => ?_⟩
  · intro x hx
    obtain hx | hx := List.mem_append.mp hx
    · exact vouches_paused h x hx
    · have htrue : x.status = boolText c.registered := by
        simp only [lifecycleConditions, List.mem_cons, List.not_mem_nil, or_false] at hx
        obtain rfl | rfl | rfl := hx <;> rfl
      constructor
      · intro _ hs
        have hr : c.registered = true := by
          cases hb : c.registered with
          | true => rfl
          | false =>
            rw [htrue, hb] at hs
            exact absurd hs (by decide)
        obtain ⟨rfl, rfl⟩ := hm hr
        refine ⟨rfl, hr, hh, ?_⟩
        simp only [lifecycleConditions, List.mem_cons, List.not_mem_nil, or_false] at hx
        obtain rfl | rfl | rfl := hx <;> rfl
      · intro ht
        simp only [lifecycleConditions, List.mem_cons, List.not_mem_nil, or_false] at hx
        obtain rfl | rfl | rfl := hx <;>
          simp [clusterInfrastructureReadyCondition, clusterEndpointReadyCondition] at ht
  · rintro - b hb
    exact ⟨(Option.some.inj hb).symm, hh⟩
  · have hv : Verdicts (some c.registered) (some c.registered) c.deleting fun t =>
        (verdict t (lifecycleConditions c.registered reason message endpointReason endpointMessage t₁ t₂ t₃)).or
          (verdict t c.status.conditions) := by
      refine ⟨rfl, rfl, rfl, fun hr => hr, fun hcl => ?_⟩
      have hdel : ClusterAttempt.update = .delete := ha.mp (hc.cleaned hcl).1
      cases hdel
    refine verdicts_congr hv (fun t ht => ?_) id
    rw [verdict_append, verdict_paused h ht, Option.or_none]

def deletingConditions : List Condition :=
  [condition "Ready" "False" "Deleting" "Cluster infrastructure is deleting",
    condition "InfrastructureReady" "False" "Deleting" "Cluster infrastructure is deleting",
    condition "CleanupSucceeded" "False" "Deleting" "Cluster deletion is awaiting pause checks"]

def deletedConditions : List Condition :=
  [condition "ControlPlaneEndpointReady" "False" "Deleting" "Control plane endpoint is being removed",
    condition "CleanupSucceeded" "True" "CleanupNotRequired" "SSHCluster has no provider-owned resources to clean up"]

theorem own_deleting : ∀ x ∈ deletingConditions, clusterConditionTypes.contains x.type = true := by decide

theorem own_deleted : ∀ x ∈ deletedConditions, clusterConditionTypes.contains x.type = true := by decide

theorem vouches_deleting : ∀ x ∈ deletingConditions, c.Vouches .delete x := by
  intro x hx
  have hs : x.status = "False" := by
    simp only [deletingConditions, List.mem_cons, List.not_mem_nil, or_false] at hx
    obtain rfl | rfl | rfl := hx <;> rfl
  constructor
  · intro _ ht
    rw [hs] at ht
    exact absurd ht (by decide)
  · intro _ ht
    rw [hs] at ht
    exact absurd ht (by decide)

theorem vouches_deleted (hh : c.held = false) : ∀ x ∈ deletedConditions, c.Vouches .delete x := by
  intro x hx
  simp only [deletedConditions, List.mem_cons, List.not_mem_nil, or_false] at hx
  obtain rfl | rfl := hx
  · exact ⟨fun _ ht => absurd ht (by decide), fun ht => absurd ht (by decide)⟩
  · exact ⟨fun ht => absurd ht (by decide), fun _ _ => ⟨rfl, hh⟩⟩

/-- A deletion that is paused, or does not learn whether it is. -/
theorem ends_deleting {us : List Condition} (h : us ∈ pauseConditions) :
    ClusterEnds .delete c none (some false) (deletingConditions ++ us) := by
  refine ⟨?_, ⟨rfl, by simp⟩, by rintro ⟨⟩, fun _ hc => ?_⟩
  · intro x hx
    obtain hx | hx := List.mem_append.mp hx
    · exact vouches_deleting x hx
    · exact vouches_paused h x hx
  · have hv : Verdicts c.status.provisioned (some false) c.deleting fun t =>
        (verdict t deletingConditions).or (verdict t c.status.conditions) := by
      refine ⟨rfl, rfl, hc.endpoint, by rintro ⟨⟩, fun hcl => ?_⟩
      exact absurd (Option.some.inj hcl) (by decide)
    refine verdicts_congr hv (fun t ht => ?_) id
    rw [verdict_append, verdict_paused h ht, Option.none_or]

theorem ends_deleted {us : List Condition} (h : us ∈ pauseConditions) (hh : c.held = false) :
    ClusterEnds .delete c (some false) (some false) (deletingConditions ++ us ++ deletedConditions) := by
  refine ⟨?_, ⟨rfl, by simp⟩, by rintro ⟨⟩, fun ha _ => ?_⟩
  · intro x hx
    obtain hx | hx := List.mem_append.mp hx
    · obtain hx | hx := List.mem_append.mp hx
      · exact vouches_deleting x hx
      · exact vouches_paused h x hx
    · exact vouches_deleted hh x hx
  · have hv : Verdicts (some false) (some false) c.deleting fun t =>
        ((verdict t deletedConditions).or (verdict t deletingConditions)).or (verdict t c.status.conditions) :=
      ⟨rfl, rfl, rfl, by rintro ⟨⟩, fun _ => ⟨ha.mpr rfl, rfl, rfl⟩⟩
    refine verdicts_congr hv (fun t ht => ?_) id
    rw [verdict_append, verdict_append, verdict_paused h ht, Option.none_or]

/-- What an attempt says on readiness when it says something. -/
def ClusterRun.verdict (run : ClusterRun) : Bool := run.1 == .update && run.2.registered

/-- A condition that is true tells of a version of the object. -/
structure Vouched (versions : List SSHCluster) (x : Condition) : Prop where
  ready : x.type ∈ ["Ready", "InfrastructureReady", "ControlPlaneEndpointReady"] → x.status = "True" →
    ∃ c ∈ versions, c.registered = true ∧ c.held = false ∧ x.message = c.registeredMessage
  cleaned : x.type = "CleanupSucceeded" → x.status = "True" → ∃ c ∈ versions, c.deleting = true ∧ c.held = false

/-- Nothing that the provider reads of a status differs. -/
structure SameOwn (c c' : SSHCluster) : Prop where
  provisioned : c'.status.provisioned = c.status.provisioned
  ready : c'.status.ready = c.status.ready
  conditions : ownConditions c'.status.conditions = ownConditions c.status.conditions

section runs

variable {ι : Type} {serial quiet : Prop} {i j : ι} {w w' : ClusterWorld ι} {versions : List SSHCluster} {x y : Condition}
  {c' : SSHCluster} {a : ClusterAttempt}

theorem vouched_mono {versions' : List SSHCluster} (h : Vouched versions x) (hv : ∀ c ∈ versions, c ∈ versions') :
    Vouched versions' x := by
  constructor
  · intro ht hs
    obtain ⟨c, hc, hr⟩ := h.ready ht hs
    exact ⟨c, hv c hc, hr⟩
  · intro ht hs
    obtain ⟨c, hc, hr⟩ := h.cleaned ht hs
    exact ⟨c, hv c hc, hr⟩

theorem vouched_said (h : Vouched versions y) (hs : y.said = x.said) : Vouched versions x := by
  simp only [Condition.said, Prod.mk.injEq] at hs
  obtain ⟨ht, hst, -, hm⟩ := hs
  exact ⟨by rw [← ht, ← hst, ← hm]; exact h.ready, by rw [← ht, ← hst]; exact h.cleaned⟩

theorem vouches_vouched (h : c.Vouches a x) (hc : c ∈ versions) (ha : a.admitted c) : Vouched versions x := by
  constructor
  · intro ht hs
    obtain ⟨-, hr⟩ := h.ready ht hs
    exact ⟨c, hc, hr⟩
  · intro ht hs
    obtain ⟨hd, hh⟩ := h.cleaned ht hs
    exact ⟨c, hc, ha.mpr hd, hh⟩

/-- Only what the provider writes itself needs a voucher. -/
theorem vouched_own {cs cs' : List Condition} (h : ∀ x ∈ cs, Vouched versions x)
    (ho : ownConditions cs' = ownConditions cs) : ∀ x ∈ cs', Vouched versions x := by
  intro x hx
  by_cases hown : clusterConditionTypes.contains x.type = true
  · have hm : x ∈ ownConditions cs' := List.mem_filter.mpr ⟨hx, hown⟩
    rw [ho] at hm
    exact h x (List.mem_of_mem_filter hm)
  · have hn {t : String} (ht : clusterConditionTypes.contains t = true) : x.type ≠ t := by
      rintro rfl
      exact hown ht
    constructor
    · intro ht
      simp only [List.mem_cons, List.not_mem_nil, or_false] at ht
      obtain ht | ht | ht := ht <;> exact absurd ht (hn (by decide))
    · intro ht
      exact absurd ht (hn (by decide))

theorem verdict_own {t : String} (ht : clusterConditionTypes.contains t = true) {cs : List Condition} :
    verdict t (ownConditions cs) = verdict t cs :=
  standing_filter fun x hx => by rw [hx]; exact ht

theorem sameOwn_verdict {t : String} (h : SameOwn c c') (ht : clusterConditionTypes.contains t = true) :
    verdict t c'.status.conditions = verdict t c.status.conditions := by
  rw [← verdict_own ht, h.conditions, verdict_own ht]

theorem inStep_same (h : SameOwn c c') (hd : c.deleting = true → c'.deleting = true) (hc : c.InStep) : c'.InStep := by
  have hv : Verdicts c.status.provisioned c.status.ready c'.deleting fun t => verdict t c'.status.conditions :=
    verdicts_congr hc (fun t ht => sameOwn_verdict h (readVerdicts_own ht)) hd
  rw [← h.provisioned, ← h.ready] at hv
  exact hv

/-- What every interleaving keeps, and what attempts one after another keep besides. -/
structure Attributed (serial quiet : Prop) (w : ClusterWorld ι) : Prop where
  current : w.object ∈ w.versions
  distinct : ∀ c ∈ w.versions, Distinct Condition.type c.status.conditions
  vouched : ∀ c ∈ w.versions, ∀ x ∈ c.status.conditions, Vouched w.versions x
  ready : w.object.status.ready = w.decided.map ClusterRun.verdict
  provisioned : ∀ c, w.decided = some (.update, c) → w.object.status.provisioned = some c.registered
  decided : ∀ run, w.decided = some run → run.2 ∈ w.versions ∧ run.1.admitted run.2 ∧
    (run.1 = .update → run.2.held = false)
  active : ∀ i run, w.active i = some run → run.2 ∈ w.versions ∧ run.1.admitted run.2
  alone : serial → ∀ i j, w.active i ≠ none → w.active j ≠ none → i = j
  inStep : serial → w.object.InStep
  foreign : ∀ c ∈ w.versions, ∃ u ∈ w.edits,
    foreignConditions c.status.conditions = foreignConditions u.status.conditions
  latest : serial → quiet → ∃ u, w.edits.head? = some u ∧
    foreignConditions w.object.status.conditions = foreignConditions u.status.conditions

structure ClusterRely (serial quiet : Prop) (i : ι) (w w' : ClusterWorld ι) : Prop where
  active : w'.active i = w.active i
  staged : w'.staged i = w.staged i
  versions : ∀ c ∈ w.versions, c ∈ w'.versions
  deleting : w.object.deleting = true → w'.object.deleting = true
  own : serial → w.active i ≠ none → SameOwn w.object w'.object
  foreign : serial → quiet → w.active i ≠ none →
    foreignConditions w'.object.status.conditions = foreignConditions w.object.status.conditions

def clusterDiscipline (ι : Type) (serial quiet : Prop) : Discipline ι (ClusterWorld ι) where
  inv := Attributed serial quiet
  rely := ClusterRely serial quiet
  refl _ _ _ := ⟨rfl, rfl, fun _ h => h, id, fun _ _ => ⟨rfl, rfl, rfl⟩, fun _ _ _ => rfl⟩
  trans := by
    intro i w₁ w₂ w₃ h₁ h₂
    refine ⟨h₂.active.trans h₁.active, h₂.staged.trans h₁.staged, fun c hc => h₂.versions c (h₁.versions c hc),
      fun h => h₂.deleting (h₁.deleting h), fun hs ha => ?_, fun hs hq ha => ?_⟩
    · have o₁ := h₁.own hs ha
      have o₂ := h₂.own hs (by rw [h₁.active]; exact ha)
      exact ⟨o₂.provisioned.trans o₁.provisioned, o₂.ready.trans o₁.ready, o₂.conditions.trans o₁.conditions⟩
    · exact (h₂.foreign hs hq (by rw [h₁.active]; exact ha)).trans (h₁.foreign hs hq ha)

/-- The attempt is running, with a staged patch of this kind; a serial one knows the stored status. -/
structure Runs (serial quiet : Prop) (i : ι) (run : ClusterRun) (P : Patch → Prop) (w : ClusterWorld ι) : Prop where
  active : w.active i = some run
  staged : P (w.staged i)
  inStep : serial → run.2.InStep
  deleting : serial → run.2.deleting = true → w.object.deleting = true
  own : serial → SameOwn run.2 w.object
  foreign : serial → quiet →
    foreignConditions w.object.status.conditions = foreignConditions run.2.status.conditions

theorem runs_stable {run : ClusterRun} {P : Patch → Prop} :
    (clusterDiscipline ι serial quiet).Stable i (Runs serial quiet i run P) := by
  intro w w' h hr _
  refine ⟨hr.active.trans h.active, by rw [hr.staged]; exact h.staged, h.inStep,
    fun hs hd => hr.deleting (h.deleting hs hd), fun hs => ?_, fun hs hq => ?_⟩
  · have o₁ := h.own hs
    have o₂ := hr.own hs (by rw [h.active]; rintro ⟨⟩)
    exact ⟨o₂.provisioned.trans o₁.provisioned, o₂.ready.trans o₁.ready, o₂.conditions.trans o₁.conditions⟩
  · exact (hr.foreign hs hq (by rw [h.active]; rintro ⟨⟩)).trans (h.foreign hs hq)

end runs

section handlers

variable {ι : Type} [DecidableEq ι] {serial quiet : Prop} {i : ι} {w w' : ClusterWorld ι} {run : ClusterRun}
  {P P' : Patch → Prop} {E : Exc → ClusterWorld ι → Prop} {α β : Type}

abbrev ClusterProves (serial quiet : Prop) (i : ι) (K : ClusterWorld ι → Prop) (p : Act α)
    (A : α → ClusterWorld ι → Prop) (E : Exc → ClusterWorld ι → Prop) : Prop :=
  Triple (clusterRuns ι serial quiet) (clusterDiscipline ι serial quiet) i K p (post A E)

theorem cluster_restage {p : Patch} (h : Attributed serial quiet w) :
    (clusterDiscipline ι serial quiet).Allows i w (w.restage i p) := by
  refine ⟨⟨h.current, h.distinct, h.vouched, h.ready, h.provisioned, h.decided, h.active, h.alone, h.inStep, h.foreign,
    h.latest⟩, fun j hj => ⟨rfl, ?_, fun _ hc => hc, id, fun _ _ => ⟨rfl, rfl, rfl⟩, fun _ _ _ => rfl⟩⟩
  simp [ClusterWorld.restage, hj]

theorem clusterProves_stage {f : Time → Patch → Patch} (h : ∀ t p, P p → P' (f t p)) :
    ClusterProves serial quiet i (Runs serial quiet i run P) (stage f) (fun _ => Runs serial quiet i run P') E := by
  refine triple_perform runs_stable ?_
  rintro w r w' hw hr ⟨rfl, t, rfl⟩
  refine ⟨cluster_restage hw, hr.active, ?_, hr.inStep, hr.deleting, hr.own, hr.foreign⟩
  simpa [ClusterWorld.restage] using h t _ hr.staged

/-- The owner chain and the clock. -/
def Op.clusterRead : Op → Bool
  | .readCapi .. | .now => true
  | _ => false

theorem clusterProves_reads {p : Act α} (hp : p.Only fun op => op.clusterRead = true) :
    ClusterProves serial quiet i (Runs serial quiet i run P) p (fun _ => Runs serial quiet i run P) fun _ => Runs serial quiet i run P := by
  refine triple_only hp runs_stable ?_
  intro op hop w r w' hw hr ha
  have hsame : w' = w := by
    cases op with
    | readCapi => exact ha
    | now => exact ha.1
    | _ => cases hop
  subst hsame
  exact ⟨Discipline.allows_refl _ hw, hr⟩

theorem reads_readOwner {plural version message : String} {key : ObjectKey} :
    (readOwner plural version key message).Only fun op => op.clusterRead = true := by
  refine Prog.only_handle (Prog.only_bind (Prog.only_perform rfl) fun _ => trivial) fun e => ?_
  split <;> trivial

theorem reads_isPausedOwners {ns : String} (owners : List OwnerReference) : ∀ (name : Option String) (version : String),
    (isPausedOwners ns owners name version).Only fun op => op.clusterRead = true := by
  induction owners with
  | nil =>
    intro name version
    unfold isPausedOwners
    split
    · trivial
    · refine Prog.only_bind reads_readOwner fun o => ?_
      cases o <;> trivial
  | cons owner rest ih =>
    intro name version
    unfold isPausedOwners
    split
    · exact ih _ _
    · split
      · exact ih _ _
      · refine Prog.only_bind reads_readOwner fun o => ?_
        cases o with
        | none => trivial
        | some obj =>
          simp only
          split
          · trivial
          · split
            · trivial
            · split
              · trivial
              · exact ih _ _

theorem reads_isPaused : c.isPaused.Only fun op => op.clusterRead = true := by
  unfold SSHCluster.isPaused
  split
  · trivial
  · exact reads_isPausedOwners _ _ _

/-- A cluster that is paused by itself is not let through. -/
theorem returns_isPaused : c.isPaused.Returns fun paused => c.held = true → paused = true := by
  unfold SSHCluster.isPaused SSHCluster.held
  split
  · exact fun _ => rfl
  · rename_i h
    exact Prog.returns_of (fun _ hc => absurd hc h) _

theorem clusterProves_conditions {us : List Condition} (hu : ∀ u ∈ us, clusterConditionTypes.contains u.type = true) :
    ClusterProves serial quiet i (Runs serial quiet i run (Says c provisioned ready updates))
      (patchConditions c.status.shared c.metadata us)
      (fun _ => Runs serial quiet i run (Says c provisioned ready (updates ++ us))) E :=
  clusterProves_stage fun t _ h => says_conditions hu t h

/-- The pause check adds one condition to what is staged, or none if it is cancelled. -/
theorem clusterProves_reportPause :
    ClusterProves serial quiet i (Runs serial quiet i run (Says c provisioned ready updates))
      (reportPause c.status.shared c.metadata c.isPaused)
      (fun paused w => (c.held = true → paused = true) ∧
        ∃ us, us ∈ pauseConditions ∧ Runs serial quiet i run (Says c provisioned ready (updates ++ us)) w)
      (fun _ w => ∃ us, us ∈ pauseConditions ∧ Runs serial quiet i run (Says c provisioned ready (updates ++ us)) w) := by
  unfold reportPause
  refine triple_bind (A := fun paused w => (c.held = true → paused = true) ∧
    Runs serial quiet i run (Says c provisioned ready updates) w) (triple_handle
      (triple_conseq (triple_returns returns_isPaused (clusterProves_reads reads_isPaused)) (fun _ _ h => h)
        (fun _ _ _ h => ⟨h.2, h.1⟩) fun _ _ _ h => h) fun e => ?_) fun paused => ?_
  · change ClusterProves serial quiet i _ (if e ≠ .cancelled then _ else _) _ _
    split
    · refine triple_bind (clusterProves_conditions (own_paused ?_)) fun _ => triple_throw fun w _ h => ⟨_, ?_, h⟩
      · simp [pauseConditions]
      · simp [pauseConditions]
    · refine triple_throw fun w _ h => ⟨[], by simp [pauseConditions], ?_⟩
      rw [List.append_nil]
      exact h
  · have hmem : [condition "Paused" (if paused = true then "True" else "False") (if paused = true then "Paused" else
        "NotPaused") (if paused = true then "Reconciliation is paused or awaiting a referenced CAPI owner" else
          "Reconciliation is not paused")] ∈ pauseConditions := by
      cases paused <;> simp [pauseConditions]
    exact triple_intro fun hp => triple_bind (clusterProves_conditions (own_paused hmem)) fun _ =>
      triple_pure fun w _ h => ⟨hp, _, hmem, h⟩

theorem clusterProves_timedCondition {type status reason message : String} :
    ClusterProves serial quiet i (Runs serial quiet i run P) (SSHCluster.timedCondition type status reason message)
      (fun x w => ∃ t, x = ⟨type, status, reason, message, some t, none⟩ ∧ Runs serial quiet i run P w) E := by
  refine triple_bind (A := fun _ => Runs serial quiet i run P) (triple_perform runs_stable ?_) fun t =>
    triple_pure fun w _ h => ⟨t, rfl, h⟩
  rintro w r w' hw hr ⟨rfl, t, rfl⟩
  exact ⟨Discipline.allows_refl _ hw, hr⟩

theorem clusterProves_lifecycle {b : Bool} {reason message endpointReason endpointMessage : String} :
    ClusterProves serial quiet i (Runs serial quiet i run P)
      (SSHCluster.clusterLifecycleConditions b reason message b reason message b endpointReason endpointMessage)
      (fun us w => ∃ t₁ t₂ t₃, us = lifecycleConditions b reason message endpointReason endpointMessage t₁ t₂ t₃ ∧
        Runs serial quiet i run P w) E := by
  unfold SSHCluster.clusterLifecycleConditions
  refine triple_bind clusterProves_timedCondition fun x => triple_exists fun t₁ => triple_intro fun hx => ?_
  refine triple_bind clusterProves_timedCondition fun y => triple_exists fun t₂ => triple_intro fun hy => ?_
  refine triple_bind clusterProves_timedCondition fun z => triple_exists fun t₃ => triple_intro fun hz => ?_
  subst hx hy hz
  exact triple_pure fun w _ h => ⟨t₁, t₂, t₃, rfl, h⟩

/-- The attempt has ended with this much staged. -/
def ClusterEnded (serial quiet : Prop) (i : ι) (a : ClusterAttempt) (c : SSHCluster) (w : ClusterWorld ι) : Prop :=
  ∃ provisioned ready updates, ClusterEnds a c provisioned ready updates ∧
    Runs serial quiet i (a, c) (Says c provisioned ready updates) w

/-- The verdict on a version that has not been paused. -/
theorem clusterProves_decided {b : Bool} {us : List Condition} {reason message endpointReason endpointMessage : String}
    (hb : b = c.registered) (hus : us ∈ pauseConditions) (hh : c.held = false)
    (hm : c.registered = true → message = c.registeredMessage ∧ endpointMessage = c.registeredMessage) :
    ClusterProves serial quiet i (Runs serial quiet i (.update, c) (Says c none none us))
      (do
        SSHCluster.stageProvisioned b
        SSHCluster.stageReady b
        let conditions ← SSHCluster.clusterLifecycleConditions b reason message b reason message b endpointReason
          endpointMessage
        patchConditions c.status.shared c.metadata conditions)
      (fun _ => ClusterEnded serial quiet i .update c) E := by
  subst hb
  refine triple_bind (clusterProves_stage fun _ _ => says_provisioned c.registered) fun _ => ?_
  refine triple_bind (clusterProves_stage fun _ _ => says_ready c.registered) fun _ => ?_
  refine triple_bind clusterProves_lifecycle fun conditions => ?_
  refine triple_exists fun t₁ => triple_exists fun t₂ => triple_exists fun t₃ => triple_intro fun hc => ?_
  subst hc
  refine triple_conseq (clusterProves_conditions own_lifecycle) (fun _ _ h => h) (fun _ w _ h => ?_) fun _ _ _ h => h
  exact ⟨_, _, _, ends_decided hus hh hm, h⟩

theorem clusterProves_update :
    ClusterProves serial quiet i (Runs serial quiet i (.update, c) (Says c none none [])) c.sshclusterUpdate
      (fun _ => ClusterEnded serial quiet i .update c) fun _ => ClusterEnded serial quiet i .update c := by
  unfold SSHCluster.sshclusterUpdate SSHCluster.reconcile
  refine triple_bind (triple_conseq clusterProves_reportPause (fun _ _ h => h) (fun _ _ _ h => h) ?_) fun paused => ?_
  · rintro e w _ ⟨us, hus, h⟩
    exact ⟨none, none, us, ends_quiet hus, h⟩
  refine triple_intro fun hp => triple_exists fun us => triple_intro fun hus => ?_
  rw [List.nil_append]
  cases paused with
  | true => exact triple_pure fun w _ h => ⟨none, none, us, ends_quiet hus, h⟩
  | false =>
    have hh : c.held = false := by
      cases hc : c.held with
      | false => rfl
      | true => cases hp hc
    -- the three exits of `reconcile` are the three ways to decide whether it is registered
    change ClusterProves serial quiet i _ (if (!hasCapiClusterOwner c.metadata.ownerReferences) = true then _ else _) _ _
    split
    · rename_i ho
      have hr : false = c.registered := by
        rw [Bool.not_eq_true'] at ho
        simp [SSHCluster.registered, ho]
      exact clusterProves_decided hr hus hh fun h => by rw [← hr] at h; cases h
    · rename_i ho
      rw [Bool.not_eq_true, Bool.not_eq_false'] at ho
      split
      · rename_i he
        have hr : false = c.registered := by
          obtain he | he := he <;> simp [SSHCluster.registered, he]
        exact clusterProves_decided hr hus hh fun h => by rw [← hr] at h; cases h
      · rename_i he
        have hr : true = c.registered := by
          rw [not_or] at he
          simp [SSHCluster.registered, ho, he.1, he.2]
        exact clusterProves_decided hr hus hh fun _ => ⟨rfl, rfl⟩

theorem clusterProves_delete :
    ClusterProves serial quiet i (Runs serial quiet i (.delete, c) (Says c none none [])) c.sshclusterDelete
      (fun _ => ClusterEnded serial quiet i .delete c) fun _ => ClusterEnded serial quiet i .delete c := by
  unfold SSHCluster.sshclusterDelete
  refine triple_bind (clusterProves_stage fun _ _ => says_ready false) fun _ => ?_
  refine triple_bind (clusterProves_conditions own_deleting) fun _ => ?_
  refine triple_bind (triple_conseq clusterProves_reportPause (fun _ _ h => h) (fun _ _ _ h => h) ?_) fun paused => ?_
  · rintro e w _ ⟨us, hus, h⟩
    exact ⟨none, some false, _, ends_deleting hus, h⟩
  refine triple_intro fun hp => triple_exists fun us => triple_intro fun hus => ?_
  cases paused with
  | true => exact triple_throw fun w _ h => ⟨none, some false, _, ends_deleting hus, h⟩
  | false =>
    have hh : c.held = false := by
      cases hc : c.held with
      | false => rfl
      | true => cases hp hc
    refine triple_bind (A := fun _ => Runs serial quiet i (.delete, c) (Says c none (some false) (deletingConditions ++ us)))
      (triple_pure fun _ _ h => h) fun _ => ?_
    refine triple_bind (clusterProves_stage fun _ _ => says_provisioned false) fun _ => ?_
    refine triple_conseq (clusterProves_conditions own_deleted) (fun _ _ h => h) (fun _ w _ h => ?_) fun _ _ _ h => h
    exact ⟨_, _, _, ends_deleted hus hh, h⟩

end handlers

section runs

variable {ι : Type} [DecidableEq ι] {serial quiet : Prop} {i : ι} {w w' : ClusterWorld ι} {a : ClusterAttempt}

/-- What is stored of the conditions when all that was staged is. -/
theorem says_merged {o : SSHCluster} {t : String} (h : Says c provisioned ready updates p) (hs : SameOwn c o)
    (ht : clusterConditionTypes.contains t = true) :
    verdict t (o.status.merge p.status).conditions = (verdict t updates).or (verdict t c.status.conditions) := by
  simp only [ClusterStatus.merge]
  cases hp : p.status.conditions with
  | none =>
    rw [h.silent hp, Option.getD_none, sameOwn_verdict hs ht]
    rfl
  | some cs => exact h.verdicts cs hp t (by rintro rfl; cases ht)

section applied

omit [DecidableEq ι]

theorem applied_ready (h : Says c provisioned ready updates (w.staged i)) :
    (w.applyStaged i).object.status.ready = ready.or w.object.status.ready := by
  rw [← h.ready]
  rfl

theorem applied_provisioned (h : Says c provisioned ready updates (w.staged i)) :
    (w.applyStaged i).object.status.provisioned = provisioned.or w.object.status.provisioned := by
  rw [← h.provisioned]
  rfl

theorem applied_decided (hr : Runs serial quiet i (a, c) (Says c provisioned ready updates) w) :
    (w.applyStaged i).decided = if ready.isSome then some (a, c) else w.decided := by
  rw [← hr.staged.ready, ← hr.active]
  rfl

/-- What holds of the stored conditions and of staged ones holds when they are applied. -/
theorem applied_conditions {P : List Condition → Prop} (hkeep : P w.object.status.conditions)
    (hput : ∀ cs, (w.staged i).status.conditions = some cs → P cs) :
    P (w.applyStaged i).object.status.conditions := by
  change P ((w.staged i).status.conditions.getD w.object.status.conditions)
  cases hp : (w.staged i).status.conditions with
  | none => exact hkeep
  | some cs => exact hput cs hp

theorem applied_vouched (hw : Attributed serial quiet w) (he : ClusterEnds a c provisioned ready updates)
    (hr : Runs serial quiet i (a, c) (Says c provisioned ready updates) w) :
    ∀ x ∈ (w.applyStaged i).object.status.conditions, Vouched w.versions x := by
  obtain ⟨hcv, hadm⟩ := hw.active i _ hr.active
  refine applied_conditions (P := fun cs => ∀ x ∈ cs, Vouched w.versions x) (hw.vouched _ hw.current) fun cs hp x hx => ?_
  obtain ⟨y, hy, hsaid⟩ := hr.staged.said cs hp x hx
  refine vouched_said ?_ hsaid
  obtain hy | hy := List.mem_append.mp hy
  · exact hw.vouched c hcv y hy
  · exact vouches_vouched (he.vouched y hy) hcv hadm

theorem applied_foreign (h : Says c provisioned ready updates (w.staged i)) :
    foreignConditions (w.applyStaged i).object.status.conditions = foreignConditions w.object.status.conditions ∨
      foreignConditions (w.applyStaged i).object.status.conditions = foreignConditions c.status.conditions :=
  applied_conditions (P := fun cs => foreignConditions cs = foreignConditions w.object.status.conditions ∨
    foreignConditions cs = foreignConditions c.status.conditions) (Or.inl rfl) fun cs hp => Or.inr (h.foreign cs hp)

/-- Readiness is replaced together with the attempt that it is the verdict of. -/
theorem applied_verdict (hw : Attributed serial quiet w) (he : ClusterEnds a c provisioned ready updates)
    (hr : Runs serial quiet i (a, c) (Says c provisioned ready updates) w) :
    (w.applyStaged i).object.status.ready = (w.applyStaged i).decided.map ClusterRun.verdict := by
  rw [applied_ready hr.staged, applied_decided hr]
  cases ready with
  | none => exact hw.ready
  | some b =>
    cases a with
    | update =>
      obtain ⟨rfl, -⟩ := he.decided rfl b rfl
      rfl
    | delete =>
      obtain ⟨rfl⟩ := Option.some.inj he.joint.1
      rfl

theorem applied_registered (hw : Attributed serial quiet w) (he : ClusterEnds a c provisioned ready updates)
    (hr : Runs serial quiet i (a, c) (Says c provisioned ready updates) w) {v : SSHCluster}
    (hv : (w.applyStaged i).decided = some (.update, v)) :
    (w.applyStaged i).object.status.provisioned = some v.registered := by
  rw [applied_decided hr] at hv
  rw [applied_provisioned hr.staged]
  cases ready with
  | none =>
    cases a with
    | update =>
      rw [show provisioned = none from he.joint]
      exact hw.provisioned v hv
    | delete => cases he.joint.1
  | some b =>
    cases hv
    obtain ⟨rfl, -⟩ := he.decided rfl b rfl
    rw [show provisioned = some c.registered from he.joint]
    rfl

theorem cluster_applied (hw : Attributed serial quiet w) (h : ClusterEnded serial quiet i a c w) :
    (clusterDiscipline ι serial quiet).Allows i w (w.applyStaged i) := by
  obtain ⟨provisioned, ready, updates, he, hr⟩ := h
  obtain ⟨hcv, hadm⟩ := hw.active i _ hr.active
  have hsub : ∀ v ∈ w.versions, v ∈ (w.applyStaged i).versions := fun v hv => List.mem_cons_of_mem _ hv
  have hforeign := applied_foreign hr.staged
  refine ⟨⟨List.mem_cons_self, ?_, ?_, applied_verdict hw he hr, fun v hv => applied_registered hw he hr hv, ?_, ?_,
    hw.alone, ?_, ?_, ?_⟩, ?_⟩
  · intro v hv
    obtain rfl | hv := List.mem_cons.mp hv
    · exact applied_conditions (P := Distinct Condition.type) (hw.distinct _ hw.current) hr.staged.distinct
    · exact hw.distinct v hv
  · intro v hv x hx
    refine vouched_mono ?_ hsub
    obtain rfl | hv := List.mem_cons.mp hv
    · exact applied_vouched hw he hr x hx
    · exact hw.vouched v hv x hx
  · intro run hrun
    rw [applied_decided hr] at hrun
    cases ready with
    | none =>
      obtain ⟨hv, hrest⟩ := hw.decided run hrun
      exact ⟨hsub _ hv, hrest⟩
    | some b =>
      cases hrun
      exact ⟨hsub _ hcv, hadm, fun ha => (he.decided ha b rfl).2⟩
  · intro j run hrun
    obtain ⟨hv, hrest⟩ := hw.active j run hrun
    exact ⟨hsub _ hv, hrest⟩
  · intro hser
    have hv := verdicts_congr (he.inStep hadm (hr.inStep hser))
      (fun t ht => says_merged hr.staged (hr.own hser) (readVerdicts_own ht)) (hr.deleting hser)
    rw [← (hr.own hser).provisioned, ← (hr.own hser).ready, ← applied_ready hr.staged,
      ← applied_provisioned hr.staged] at hv
    exact hv
  · intro v hv
    obtain rfl | hv := List.mem_cons.mp hv
    · obtain hf | hf := hforeign
      · obtain ⟨u, hu, he⟩ := hw.foreign _ hw.current
        exact ⟨u, hu, hf.trans he⟩
      · obtain ⟨u, hu, he⟩ := hw.foreign c hcv
        exact ⟨u, hu, hf.trans he⟩
    · exact hw.foreign v hv
  · intro hser hq
    obtain ⟨u, hu, he⟩ := hw.latest hser hq
    refine ⟨u, hu, ?_⟩
    obtain hf | hf := hforeign
    · exact hf.trans he
    · exact (hf.trans (hr.foreign hser hq).symm).trans he
  · intro j hj
    have hother (hser : serial) (hn : w.active j ≠ none) : False :=
      hj (hw.alone hser j i hn (by rw [hr.active]; rintro ⟨⟩))
    exact ⟨rfl, rfl, hsub, id, fun hser hn => (hother hser hn).elim, fun hser _ hn => (hother hser hn).elim⟩

end applied

omit [DecidableEq ι] in
theorem clusterEnded_stable : (clusterDiscipline ι serial quiet).Stable i (ClusterEnded serial quiet i a c) := by
  rintro w w' ⟨provisioned, ready, updates, he, hr⟩ hrely hw'
  exact ⟨provisioned, ready, updates, he, runs_stable w w' hr hrely hw'⟩

theorem clusterProves_program : ClusterProves serial quiet i (Runs serial quiet i (a, c) (Says c none none [])) (a.program c)
    (fun _ _ => True) fun _ _ => True := by
  have hbody : ClusterProves serial quiet i (Runs serial quiet i (a, c) (Says c none none [])) (a.handler c)
      (fun _ => ClusterEnded serial quiet i a c) fun _ => ClusterEnded serial quiet i a c := by
    cases a with
    | update => exact clusterProves_update
    | delete => exact clusterProves_delete
  have happly : ClusterProves serial quiet i (ClusterEnded serial quiet i a c) (call (.applyStaged c.metadata.key))
      (fun _ _ => True) fun _ _ => True := by
    refine triple_perform clusterEnded_stable ?_
    rintro w r w' hw he (rfl | rfl)
    · exact ⟨Discipline.allows_refl _ hw, by cases r <;> trivial⟩
    · exact ⟨cluster_applied hw he, by cases r <;> trivial⟩
  refine triple_bind (triple_attempt hbody) fun r => triple_bind (A := fun _ _ => True) ?_ fun _ => ?_
  · cases r with
    | ok u => exact happly
    | error e => exact happly
  · cases r with
    | ok u => exact triple_pure fun _ _ _ => trivial
    | error e => exact triple_throw fun _ _ _ => trivial

theorem cluster_activate {run : Option ClusterRun} (hw : Attributed serial quiet w)
    (hrun : ∀ r, run = some r → r.2 ∈ w.versions ∧ r.1.admitted r.2)
    (halone : serial → run ≠ none → ∀ j, w.active j = none) :
    (clusterDiscipline ι serial quiet).Allows i w (w.activate i run) := by
  refine ⟨⟨hw.current, hw.distinct, hw.vouched, hw.ready, hw.provisioned, hw.decided, ?_, ?_, hw.inStep, hw.foreign,
    hw.latest⟩, fun j hj => ⟨by simp [ClusterWorld.activate, hj], rfl, fun _ h => h, id, fun _ _ => ⟨rfl, rfl, rfl⟩,
      fun _ _ _ => rfl⟩⟩
  · intro j r hr
    simp only [ClusterWorld.activate] at hr
    split at hr
    · exact hrun r hr
    · exact hw.active j r hr
  · intro hs j k hj hk
    simp only [ClusterWorld.activate] at hj hk
    by_cases hji : j = i
    · by_cases hki : k = i
      · rw [hji, hki]
      · rw [if_pos hji] at hj
        rw [if_neg hki] at hk
        exact absurd (halone hs hj k) hk
    · rw [if_neg hji] at hj
      by_cases hki : k = i
      · rw [if_pos hki] at hk
        exact absurd (halone hs hk j) hj
      · rw [if_neg hki] at hk
        exact hw.alone hs j k hj hk

omit [DecidableEq ι] in
/-- An edit is a version of its own, which says nothing new of the cluster. -/
theorem attributed_edited (hw : Attributed serial quiet w) (h : w.Edited quiet w') :
    Attributed serial quiet w' ∧ ∀ i, (clusterDiscipline ι serial quiet).rely i w w' := by
  obtain ⟨o, rfl, hdel, hp, hr, hd, ho, hf⟩ := h
  have hsame : SameOwn w.object o := ⟨hp, hr, ho⟩
  have hsub : ∀ v ∈ w.versions, v ∈ (w.store o).versions := fun v hv => List.mem_cons_of_mem _ hv
  refine ⟨⟨List.mem_cons_self, ?_, ?_, ?_, ?_, ?_, ?_, hw.alone, fun hs => inStep_same hsame hdel (hw.inStep hs), ?_,
    fun _ _ => ⟨o, rfl, rfl⟩⟩, fun i => ⟨rfl, rfl, hsub, hdel, fun _ _ => hsame, fun _ hq ha => hf hq ⟨i, ha⟩⟩⟩
  · intro v hv
    obtain rfl | hv := List.mem_cons.mp hv
    · exact hd
    · exact hw.distinct v hv
  · intro v hv x hx
    refine vouched_mono ?_ hsub
    obtain rfl | hv := List.mem_cons.mp hv
    · exact vouched_own (hw.vouched _ hw.current) ho x hx
    · exact hw.vouched v hv x hx
  · exact hr.trans hw.ready
  · intro v hv
    exact hp.trans (hw.provisioned v hv)
  · intro run hrun
    obtain ⟨hv, hrest⟩ := hw.decided run hrun
    exact ⟨hsub _ hv, hrest⟩
  · intro i run hrun
    obtain ⟨hv, hrest⟩ := hw.active i run hrun
    exact ⟨hsub _ hv, hrest⟩
  · intro v hv
    obtain rfl | hv := List.mem_cons.mp hv
    · exact ⟨v, List.mem_cons_self, rfl⟩
    · obtain ⟨u, hu, he⟩ := hw.foreign v hv
      exact ⟨u, List.mem_cons_of_mem _ hu, he⟩

theorem clusterRuns_respects : Respects (clusterRuns ι serial quiet) (clusterDiscipline ι serial quiet) fun _ _ _ => True where
  env w w' hw h := attributed_edited hw h
  start := by
    rintro i p w w' hw ⟨a, c, hc, ha, hs, rfl, rfl⟩
    obtain ⟨hw', hrely⟩ := cluster_restage (i := i) (p := Patch.empty) hw
    have hact : (clusterDiscipline ι serial quiet).Allows i (w.restage i Patch.empty)
        ((w.restage i Patch.empty).activate i (some (a, c))) :=
      cluster_activate hw' (by rintro r ⟨⟩; exact ⟨hc, ha⟩) fun hser _ => (hs hser).2
    refine ⟨⟨hact.1, fun j hj => (clusterDiscipline ι serial quiet).trans j _ _ _ (hrely j hj) (hact.2 j hj)⟩, ?_⟩
    refine wp_mono hact.1 (clusterProves_program _ hact.1 ⟨?_, ?_, ?_, ?_, ?_, ?_⟩) fun _ _ _ _ => trivial
    · simp [ClusterWorld.activate]
    · simpa [ClusterWorld.activate, ClusterWorld.restage] using says_empty (hw.distinct c hc)
    · intro hser
      rw [(hs hser).1]
      exact hw.inStep hser
    · intro hser hd
      rw [(hs hser).1] at hd
      exact hd
    · intro hser
      rw [(hs hser).1]
      exact ⟨rfl, rfl, rfl⟩
    · intro hser _
      rw [(hs hser).1]
      rfl
  finish := by
    rintro i r w₀ w w' hw - - rfl
    exact cluster_activate hw (by rintro r ⟨⟩) fun _ hn => absurd rfl hn
  crash := by
    rintro i w w' hw rfl
    exact cluster_activate hw (by rintro r ⟨⟩) fun _ hn => absurd rfl hn

omit [DecidableEq ι] in
theorem attributed_new (hc : c.status = .empty) : Attributed serial quiet (ClusterWorld.new ι c) := by
  have hone : ∀ v ∈ (ClusterWorld.new ι c).versions, v.status.conditions = [] := by
    intro v hv
    rw [List.mem_singleton.mp hv, hc]
    rfl
  refine ⟨List.mem_cons_self, ?_, ?_, ?_, by rintro v ⟨⟩, by rintro run ⟨⟩, by rintro i run ⟨⟩, ?_, fun _ => ?_,
    fun v hv => ⟨v, hv, rfl⟩, fun _ _ => ⟨c, rfl, rfl⟩⟩
  · intro v hv
    rw [hone v hv]
    exact distinct_nil
  · intro v hv x hx
    rw [hone v hv] at hx
    cases hx
  · change c.status.ready = none
    rw [hc]
    rfl
  · intro _ i j hi
    exact absurd rfl hi
  · change c.InStep
    simp [SSHCluster.InStep, hc, ClusterStatus.empty]
    constructor <;> simp [verdict, standing]

/-- Readiness is the verdict of the attempt that `decided` names on its version of the
object, and a condition that is true is vouched for by some version. -/
structure ClusterWorld.Truthful (w : ClusterWorld ι) : Prop where
  ready : w.object.status.ready = w.decided.map ClusterRun.verdict
  updated : ∀ c, w.decided = some (.update, c) →
    c ∈ w.versions ∧ c.held = false ∧ w.object.status.provisioned = some c.registered
  deleted : ∀ c, w.decided = some (.delete, c) → c ∈ w.versions ∧ c.deleting = true
  usable : w.object.status.ready = some true → w.object.status.provisioned = some true
  distinct : Distinct Condition.type w.object.status.conditions
  vouched : ∀ x ∈ w.object.status.conditions, Vouched w.versions x
  foreign : ∃ c ∈ w.edits,
    foreignConditions w.object.status.conditions = foreignConditions c.status.conditions

variable {conf : Config ι Op Reply Exc Unit (ClusterWorld ι)}

/-- Any interleaving of attempts, each with any version of the object, keeps the status true. -/
theorem cluster_status_truthful (hc : c.status = .empty)
    (h : Reachable (clusterRuns ι False False) (idle (ClusterWorld.new ι c)) conf) : conf.world.Truthful := by
  obtain ⟨hw, -⟩ := Discipline.reachable clusterRuns_respects (attributed_new hc) h
  refine ⟨hw.ready, ?_, ?_, ?_, hw.distinct _ hw.current, hw.vouched _ hw.current,
    hw.foreign _ hw.current⟩
  · intro v hv
    obtain ⟨hm, -, hh⟩ := hw.decided _ hv
    exact ⟨hm, hh rfl, hw.provisioned v hv⟩
  · intro v hv
    obtain ⟨hm, ha, -⟩ := hw.decided _ hv
    exact ⟨hm, ha.mpr rfl⟩
  · intro hr
    rw [hw.ready] at hr
    obtain ⟨⟨a, v⟩, hv, hb⟩ := Option.map_eq_some_iff.mp hr
    simp only [ClusterRun.verdict, Bool.and_eq_true, beq_iff_eq] at hb
    obtain ⟨rfl, hreg⟩ := hb
    rw [hw.provisioned v hv, hreg]

/-- Attempts that come one after another keep the two flags and the conditions in step. -/
theorem cluster_status_inStep (hc : c.status = .empty)
    (h : Reachable (clusterRuns ι True False) (idle (ClusterWorld.new ι c)) conf) : conf.world.object.InStep :=
  (Discipline.reachable clusterRuns_respects (attributed_new hc) h).1.inStep trivial

/-- Where other controllers write between attempts only, what they have written last is kept. -/
theorem cluster_foreign_kept (hc : c.status = .empty)
    (h : Reachable (clusterRuns ι True True) (idle (ClusterWorld.new ι c)) conf) :
    conf.world.edits.head?.map (fun u => foreignConditions u.status.conditions) =
      some (foreignConditions conf.world.object.status.conditions) := by
  obtain ⟨u, hu, he⟩ := (Discipline.reachable clusterRuns_respects (attributed_new hc) h).1.latest trivial trivial
  rw [hu, he]
  rfl

end runs

abbrev ClusterConfig := Config Bool Op Reply Exc Unit (ClusterWorld Bool)

/-- An edit of spec and metadata, a condition of another controller while nothing is running,
an attempt with the n-th last version, and its calls. -/
inductive ClusterMove where
  | edit : ClusterSpec → ObjectMeta → ClusterMove
  | condition : Condition → ClusterMove
  | start : Bool → ClusterAttempt → Nat → ClusterMove
  | calls : Bool → Nat → ClusterMove
  | finish : Bool → ClusterMove

/-- Owners are found and not paused, and everything that was staged is applied. -/
def plainAnswer (o : CapiObject) (i : Bool) :
    (op : Op) → ClusterWorld Bool → Option (Except Exc (Reply op) × ClusterWorld Bool)
  | .readCapi .., w => some (.ok o, w)
  | .now, w => some (.ok (0 : Time), w)
  | .stage f, w => some (.ok (), w.restage i (f 0 (w.staged i)))
  | .applyStaged _, w => some (.ok (), w.applyStaged i)
  | _, _ => none

def clusterCalls (o : CapiObject) (i : Bool) : Nat → ClusterConfig → Option ClusterConfig
  | 0, c => some c
  | n + 1, c =>
    match c.thread i with
    | some (.call op k) => (plainAnswer o i op c.world).bind fun r => clusterCalls o i n (c.set i (some (k r.1)) r.2)
    | _ => none

instance (a : ClusterAttempt) (c : SSHCluster) : Decidable (a.admitted c) :=
  inferInstanceAs (Decidable (c.metadata.deletionTimestamp.isSome ↔ a = .delete))

def clusterPlay (strict : Bool) (o : CapiObject) : ClusterMove → ClusterConfig → Option ClusterConfig
  | .edit spec metadata, c =>
    if (c.world.object.metadata.deletionTimestamp.isSome → metadata.deletionTimestamp.isSome) ∧
        (c.world.object.status.conditions.map Condition.type).Nodup then
      let v : SSHCluster := ⟨metadata, spec, c.world.object.status⟩
      some ⟨{ c.world.store v with edits := v :: c.world.edits }, c.thread⟩
    else none
  | .condition x, c =>
    let cs := c.world.object.status.conditions ++ [x]
    if clusterConditionTypes.contains x.type = false ∧ (cs.map Condition.type).Nodup ∧
        ∀ j, (c.world.active j).isNone then
      let v : SSHCluster := { c.world.object with status := { c.world.object.status with conditions := cs } }
      some ⟨{ c.world.store v with edits := v :: c.world.edits }, c.thread⟩
    else none
  | .start i a n, c =>
    match c.world.versions[n]? with
    | none => none
    | some v =>
      if (c.thread i).isNone ∧ a.admitted v ∧ (strict = true → v = c.world.object ∧ ∀ j, (c.world.active j).isNone) then
        some (c.set i (some (a.program v)) ((c.world.restage i Patch.empty).activate i (some (a, v))))
      else none
  | .calls i n, c => clusterCalls o i n c
  | .finish i, c => ((c.thread i).bind Prog.result).map fun _ => c.set i none (c.world.activate i none)

def clusterPlays (strict : Bool) (o : CapiObject) : List ClusterMove → ClusterConfig → Option ClusterConfig
  | [], c => some c
  | m :: ms, c => (clusterPlay strict o m c).bind (clusterPlays strict o ms)

section replays

variable {serial quiet : Prop} {strict : Bool} {o : CapiObject} {i : Bool} {conf conf' : ClusterConfig}

theorem plain_answers {op : Op} {w : ClusterWorld Bool} {r : Except Exc (Reply op) × ClusterWorld Bool}
    (h : plainAnswer o i op w = some r) : w.Answers i op r.1 r.2 := by
  cases op with
  | readCapi => cases h; rfl
  | now => cases h; exact ⟨rfl, _, rfl⟩
  | stage f => cases h; exact ⟨rfl, 0, rfl⟩
  | applyStaged => cases h; exact Or.inr rfl
  | _ => cases h

theorem clusterCalls_reachable {n : Nat} (h : clusterCalls o i n conf = some conf') :
    Reachable (clusterRuns Bool serial quiet) conf conf' := by
  induction n generalizing conf with
  | zero => cases h; exact .refl
  | succ n ih =>
    unfold clusterCalls at h
    split at h
    · rename_i op k hp
      obtain ⟨r, hr, hrest⟩ := Option.bind_eq_some_iff.mp h
      exact .head (.call hp (plain_answers hr)) (ih hrest)
    · cases h

theorem clusterPlay_reachable (hs : serial → strict = true) {m : ClusterMove}
    (h : clusterPlay strict o m conf = some conf') : Reachable (clusterRuns Bool serial quiet) conf conf' := by
  cases m with
  | edit spec metadata =>
    simp only [clusterPlay] at h
    split at h
    · rename_i hok
      cases h
      exact .single (.env ⟨⟨metadata, spec, conf.world.object.status⟩, rfl, hok.1, rfl, rfl, hok.2, rfl, fun _ _ => rfl⟩)
    · cases h
  | condition x =>
    simp only [clusterPlay] at h
    split at h
    · rename_i hok
      obtain ⟨hx, hd, hidle⟩ := hok
      cases h
      refine .single (.env ⟨_, rfl, id, rfl, rfl, hd, ?_, ?_⟩)
      · simpa [ownConditions] using hx
      · rintro - ⟨j, hj⟩
        exact absurd (Option.isNone_iff_eq_none.mp (hidle j)) hj
    · cases h
  | start i a n =>
    simp only [clusterPlay] at h
    split at h
    · cases h
    · rename_i v hv
      split at h
      · rename_i hok
        obtain ⟨hn, ha, hserial⟩ := hok
        cases h
        refine .single (.start (by simpa using hn) ⟨a, v, List.mem_of_getElem? hv, ha, fun hser => ?_, rfl, rfl⟩)
        exact (hserial (hs hser)).imp_right fun hidle j => Option.isNone_iff_eq_none.mp (hidle j)
      · cases h
  | calls i n => exact clusterCalls_reachable h
  | finish i =>
    obtain ⟨r, hr, rfl⟩ := Option.map_eq_some_iff.mp h
    obtain ⟨p, hp, hr⟩ := Option.bind_eq_some_iff.mp hr
    exact .single (.finish hp hr rfl)

theorem clusterPlays_exists (hs : serial → strict = true) {ms : List ClusterMove} {f : ClusterConfig → Bool}
    (h : (clusterPlays strict o ms conf).any f = true) :
    ∃ conf', Reachable (clusterRuns Bool serial quiet) conf conf' ∧ f conf' = true := by
  induction ms generalizing conf with
  | nil => exact ⟨conf, .refl, h⟩
  | cons m ms ih =>
    unfold clusterPlays at h
    cases hm : clusterPlay strict o m conf with
    | none =>
      rw [hm] at h
      cases h
    | some conf₁ =>
      rw [hm] at h
      obtain ⟨conf', hc, hf⟩ := ih h
      exact ⟨conf', (clusterPlay_reachable hs hm).trans hc, hf⟩

end replays

def unpausedCluster : CapiObject := ⟨none, false, [], none, none⟩

def smallCluster (host : String) (deleted : Option Time) : SSHCluster where
  metadata := ⟨⟨"n", "c"⟩, 1, 1, some 1, deleted, [], [], [⟨some "cluster.x-k8s.io/v1beta1", "Cluster", "o", none⟩]⟩
  spec := ⟨some ⟨some host, some 6443⟩, false⟩
  status := .empty

/-- The host is taken out of the endpoint while a timer still works on the version before. -/
def staleTimer : List ClusterMove :=
  [.start true .update 0, .calls true 2, .edit (smallCluster "" none).spec (smallCluster "" none).metadata,
    .start false .update 0, .calls false 9, .finish false, .calls true 7, .finish true]

/-- An attempt that had read the cluster before it was deregistered still reports it ready; the
flags say what that version was worth. -/
theorem cluster_status_truthful_stale :
    ∃ conf, Reachable (clusterRuns Bool False False) (idle (ClusterWorld.new Bool (smallCluster "h" none))) conf ∧
      (conf.world.object.status.ready = some true ∧ conf.world.object.registered = false) ∧ conf.world.Truthful := by
  have h : (clusterPlays false unpausedCluster staleTimer
      (idle (ClusterWorld.new Bool (smallCluster "h" none)))).any (fun conf =>
        conf.world.object.status.ready == some true && !conf.world.object.registered) = true := by
    decide
  obtain ⟨conf, hc, hf⟩ := clusterPlays_exists False.elim h
  refine ⟨conf, hc, by simpa using hf, cluster_status_truthful rfl hc⟩

/-- The cluster is registered, marked and deleted. -/
def registeredThenDeleted : List ClusterMove :=
  [.start true .update 0, .calls true 9, .finish true, .edit (smallCluster "h" none).spec (smallCluster "h" (some 5)).metadata,
    .start false .delete 0, .calls false 7, .finish false]

/-- One attempt after the other, up to a deletion. -/
theorem cluster_status_inStep_deleted :
    ∃ conf, Reachable (clusterRuns Bool True False) (idle (ClusterWorld.new Bool (smallCluster "h" none))) conf ∧
      (conf.world.object.status.ready = some false ∧ conf.world.object.status.provisioned = some false) ∧
      conf.world.object.InStep := by
  have h : (clusterPlays true unpausedCluster registeredThenDeleted
      (idle (ClusterWorld.new Bool (smallCluster "h" none)))).any (fun conf =>
        conf.world.object.status.ready == some false && conf.world.object.status.provisioned == some false) = true := by
    decide
  obtain ⟨conf, hc, hf⟩ := clusterPlays_exists (fun _ => rfl) h
  refine ⟨conf, hc, by simpa using hf, cluster_status_inStep rfl hc⟩

/-- Another controller reports its view of the cluster between two updates. -/
def reportedBetween : List ClusterMove :=
  [.start true .update 0, .calls true 9, .finish true, .condition (condition "ConsumerHealthy" "True" "Healthy" ""),
    .start false .update 0, .calls false 9, .finish false]

/-- The condition of a consumer outlives a report. -/
theorem cluster_foreign_kept_report :
    ∃ conf, Reachable (clusterRuns Bool True True) (idle (ClusterWorld.new Bool (smallCluster "h" none))) conf ∧
      verdict "ConsumerHealthy" conf.world.object.status.conditions = some "True" ∧
      conf.world.edits.head?.map (fun u => foreignConditions u.status.conditions) =
        some (foreignConditions conf.world.object.status.conditions) := by
  have h : (clusterPlays true unpausedCluster reportedBetween
      (idle (ClusterWorld.new Bool (smallCluster "h" none)))).any (fun conf =>
        verdict "ConsumerHealthy" conf.world.object.status.conditions == some "True") = true := by
    decide
  obtain ⟨conf, hc, hf⟩ := clusterPlays_exists (fun _ => rfl) h
  exact ⟨conf, hc, by simpa using hf, cluster_foreign_kept rfl hc⟩

end CapiSsh
