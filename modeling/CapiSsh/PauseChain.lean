import CapiSsh.Contracts
import Mathlib.Data.List.Perm.Basic

/-!
# The pause state of an owner chain

What `is_paused` answers on a given content of the API, against what the chain of owners
says. The walk ends at the first Cluster owner and reads one of the Clusters that Machine
owners name, so the two agree for some chains only.
-/
namespace CapiSsh

open Effect

/-- A read of a CAPI object: found, refused with a status, or no answer. -/
inductive CapiReply where
  | found : CapiObject → CapiReply
  | refused : Nat → CapiReply
  | lost : CapiReply

/-- The answer to a read, by plural, API version and key. -/
abbrev CapiContent := String → String → ObjectKey → CapiReply

def CapiReply.reply : CapiReply → Except Exc CapiObject
  | .found obj => .ok obj
  | .refused status => .error (.api status)
  | .lost => .error (.temporary "Kubernetes API transport failed; retrying reconciliation" 15)

def CapiContent.answers (content : CapiContent) : (op : Op) → Except Exc (Reply op)
  | .readCapi plural version key => (content plural version key).reply
  | _ => .error (.other "no other call")

/-- What `is_paused` comes to. -/
def pauseOutcome (content : CapiContent) (spec : MachineSpec) (metadata : ObjectMeta) (ns : String) : Except Exc Bool :=
  (isPaused spec metadata ns).eval content.answers

/-- The API version of a CAPI Machine or Cluster owner; other owners have no say. -/
def capiOwner (owner : OwnerReference) : Option String :=
  if owner.kind ≠ "Machine" ∧ owner.kind ≠ "Cluster" then none else capiOwnerApiVersion owner

/-- The object exists, with the UID that was asked for, and is not paused. -/
def CapiReply.clear (uid : Option Uid) : CapiReply → Bool
  | .found obj => (uid.isNone || obj.uid == uid) && !obj.isPaused
  | _ => false

section chain

variable (content : CapiContent) (ns : String)

def readReference (owner : OwnerReference) (version : String) : CapiReply :=
  content (if owner.kind = "Machine" then "machines" else "clusters") version ⟨ns, owner.name⟩

def ownerClear (owner : OwnerReference) : Bool :=
  match capiOwner owner with
  | none => true
  | some version => (readReference content ns owner version).clear owner.uid

def clusterClear (version name : String) : Bool := (content "clusters" version ⟨ns, name⟩).clear none

/-- The Cluster that a Machine owner names. -/
def namedBy (owner : OwnerReference) : Option String :=
  match capiOwner owner with
  | none => none
  | some version =>
    match readReference content ns owner version with
    | .found obj => if owner.kind = "Machine" then filled obj.clusterName else none
    | _ => none

def machineOwner (owner : OwnerReference) : Prop := owner.kind = "Machine" ∧ (capiOwner owner).isSome = true

def clusterOwner (owner : OwnerReference) : Prop := owner.kind = "Cluster" ∧ (capiOwner owner).isSome = true

/-- A Cluster of the chain: one that a Machine owner names or, if none does, the label's. -/
def NamesCluster (owners : List OwnerReference) (label : Option String) (name : String) : Prop :=
  (∃ m ∈ owners, namedBy content ns m = some name) ∨
    ((∀ m ∈ owners, namedBy content ns m = none) ∧ filled label = some name)

/-- A version at which the Clusters of the chain are read: that of a Machine owner. -/
def ReadAt (owners : List OwnerReference) (version : String) : Prop :=
  (∃ m ∈ owners, machineOwner m ∧ capiOwner m = some version) ∨
    ((∀ m ∈ owners, ¬ machineOwner m) ∧ version = "v1beta1")

/-- Nothing in the whole chain is paused, missing or another object than referenced. -/
structure ChainClear (owners : List OwnerReference) (label : Option String) : Prop where
  referenced : ∀ o ∈ owners, ownerClear content ns o = true
  named : ∀ name version, NamesCluster content ns owners label name → ReadAt owners version →
    clusterClear content ns version name = true

/-- The last Cluster name that the references come to, and the version to read it at. -/
def lastNamed : List OwnerReference → Option String → String → Option String × String
  | [], name, version => (filled name, version)
  | owner :: rest, name, version =>
    match capiOwner owner with
    | none => lastNamed rest name version
    | some version => lastNamed rest ((namedBy content ns owner).or name) version

def lastClear (owners : List OwnerReference) (name : Option String) (version : String) : Bool :=
  match (lastNamed content ns owners name version).1 with
  | none => true
  | some n => clusterClear content ns (lastNamed content ns owners name version).2 n

/-- Everything that a walk over the references looks at is clear. -/
def walkClear : List OwnerReference → Option String → String → Bool
  | [], name, version => lastClear content ns [] name version
  | owner :: rest, name, version =>
    match capiOwner owner with
    | none => walkClear rest name version
    | some ownVersion => ownerClear content ns owner &&
        (decide (owner.kind = "Cluster") || walkClear rest ((namedBy content ns owner).or name) ownVersion)

end chain

variable {content : CapiContent} {ns : String}

/-- `False` on a clear chain, otherwise `True` or an error that is retried. -/
def Answers (outcome : Except Exc Bool) (clear : Bool) : Prop :=
  match clear with
  | true => outcome = .ok false
  | false => outcome = .ok true ∨ ∃ message delay, outcome = .error (.temporary message delay)

theorem Answers.iff {outcome : Except Exc Bool} {clear : Bool} (h : Answers outcome clear) :
    outcome = .ok false ↔ clear = true := by
  cases clear with
  | true => simp only [Answers] at h; simp [h]
  | false => rcases h with h | ⟨m, d, h⟩ <;> simp [h]

/-- Each answer of the API to a read of an owner. -/
theorem eval_readOwner (content : CapiContent) (plural version message : String) (key : ObjectKey) :
    ((readOwner plural version key message).eval content.answers = .ok none ∧
      ∀ uid, (content plural version key).clear uid = false) ∨
    (∃ obj, content plural version key = .found obj ∧
      (readOwner plural version key message).eval content.answers = .ok (some obj)) ∨
    (∃ m d, (readOwner plural version key message).eval content.answers = .error (.temporary m d)) ∧
      ∀ uid, (content plural version key).clear uid = false := by
  have hcall : (CapiContent.answers content) (.readCapi plural version key) = (content plural version key).reply := rfl
  unfold readOwner
  cases hc : content plural version key with
  | found obj =>
    refine .inr (.inl ⟨obj, rfl, ?_⟩)
    simp [Prog.handle, Prog.perform, Prog.eval, Prog.bind, Prog.attempt, hcall, hc, CapiReply.reply]
  | refused status =>
    by_cases h404 : status = 404
    · subst h404
      refine .inl ⟨?_, fun _ => rfl⟩
      simp [Prog.handle, Prog.perform, Prog.eval, Prog.bind, Prog.attempt, hcall, hc, CapiReply.reply]
    · refine .inr (.inr ⟨⟨message, 15, ?_⟩, fun _ => rfl⟩)
      simp [Prog.handle, Prog.perform, Prog.eval, Prog.bind, Prog.attempt, hcall, hc, CapiReply.reply]
  | lost =>
    refine .inr (.inr ⟨⟨"Kubernetes API transport failed; retrying reconciliation", 15, ?_⟩, fun _ => rfl⟩)
    simp [Prog.handle, Prog.perform, Prog.eval, Prog.bind, Prog.attempt, hcall, hc, CapiReply.reply]

theorem filled_filled (name : Option String) : filled (filled name) = filled name := by
  cases name with
  | none => rfl
  | some n => by_cases h : n = "" <;> simp [filled, h]

/-- The walk answers what its own part of the chain says. -/
theorem eval_isPausedOwners (owners : List OwnerReference) (name : Option String) (version : String) :
    Answers ((isPausedOwners ns owners name version).eval content.answers)
      (walkClear content ns owners name version) := by
  induction owners generalizing name version with
  | nil =>
    unfold isPausedOwners walkClear lastClear lastNamed
    dsimp only
    cases filled name with
    | none => rfl
    | some n =>
      simp only [Prog.bind_eq, Prog.eval_bind]
      rcases eval_readOwner content "clusters" version "Cannot establish Cluster pause state" ⟨ns, n⟩ with
        ⟨he, hc⟩ | ⟨obj, hf, he⟩ | ⟨⟨m, d, he⟩, hc⟩
      · rw [he, clusterClear, hc]
        exact .inl rfl
      · rw [he, clusterClear, hf]
        cases hp : obj.isPaused with
        | false => simp [CapiReply.clear, hp, Answers, Except.bind, Prog.eval]
        | true => simp [CapiReply.clear, hp, Answers, Except.bind, Prog.eval]
      · rw [he, clusterClear, hc]
        exact .inr ⟨m, d, rfl⟩
  | cons owner rest ih =>
    unfold isPausedOwners walkClear
    cases hv : capiOwnerApiVersion owner with
    | none =>
      have hcapi : capiOwner owner = none := by
        unfold capiOwner
        split
        · rfl
        · exact hv
      simp only [hcapi]
      exact ih name version
    | some ownVersion =>
      dsimp only
      by_cases hkind : owner.kind ≠ "Machine" ∧ owner.kind ≠ "Cluster"
      · have hcapi : capiOwner owner = none := by simp only [capiOwner, if_pos hkind]
        simp only [if_pos hkind, hcapi]
        exact ih name version
      · have hcapi : capiOwner owner = some ownVersion := by simp only [capiOwner, if_neg hkind, hv]
        simp only [if_neg hkind, hcapi, Prog.bind_eq, Prog.eval_bind, ownerClear]
        rcases eval_readOwner content (if owner.kind = "Machine" then "machines" else "clusters") ownVersion
          "Cannot establish CAPI owner pause state" ⟨ns, owner.name⟩ with ⟨he, hc⟩ | ⟨obj, hf, he⟩ | ⟨⟨m, d, he⟩, hc⟩
        · rw [he, readReference, hc]
          exact .inl rfl
        · rw [he, readReference, hf]
          dsimp only [Except.bind]
          by_cases huid : owner.uid.isSome ∧ obj.uid ≠ owner.uid
          · have hclear : (owner.uid.isNone || obj.uid == owner.uid) = false := by
              simpa [Option.isNone_eq_false_iff] using huid
            simp only [if_pos huid, CapiReply.clear, hclear, Bool.false_and]
            exact .inr ⟨_, _, rfl⟩
          · have hclear : (owner.uid.isNone || obj.uid == owner.uid) = true := by
              cases hu : owner.uid with
              | none => simp
              | some u => simpa [hu] using huid
            simp only [if_neg huid, CapiReply.clear, hclear, Bool.true_and]
            cases hp : obj.isPaused with
            | true =>
              exact .inl rfl
            | false =>
              by_cases hcluster : owner.kind = "Cluster"
              · simp [hcluster, Answers, Prog.eval]
              · have hmachine : owner.kind = "Machine" := by
                  by_contra hm
                  exact hkind ⟨hm, hcluster⟩
                have hname : namedBy content ns owner = filled obj.clusterName := by
                  rw [if_pos hmachine] at hf
                  simp only [namedBy, hcapi, readReference, if_pos hmachine, hf]
                simp only [hcluster, hname, if_false, decide_false, Bool.false_or, Bool.not_false, Bool.true_and,
                  Bool.false_eq_true]
                exact ih _ ownVersion
        · rw [he, readReference, hc]
          exact .inr ⟨m, d, rfl⟩

/-- The last name is one that a Machine owner gives, or else the one to begin with. -/
theorem lastNamed_name {owners : List OwnerReference} {name : Option String} {version n : String}
    (h : (lastNamed content ns owners name version).1 = some n) :
    (∃ m ∈ owners, namedBy content ns m = some n) ∨
      ((∀ m ∈ owners, namedBy content ns m = none) ∧ filled name = some n) := by
  induction owners generalizing name version with
  | nil => exact .inr ⟨by simp, h⟩
  | cons owner rest ih =>
    unfold lastNamed at h
    cases hcapi : capiOwner owner with
    | none =>
      simp only [hcapi] at h
      have hnone : namedBy content ns owner = none := by simp only [namedBy, hcapi]
      rcases ih h with ⟨m, hm, hn⟩ | ⟨hall, hn⟩
      · exact .inl ⟨m, List.mem_cons_of_mem _ hm, hn⟩
      · exact .inr ⟨by simpa [hnone] using hall, hn⟩
    | some v =>
      simp only [hcapi] at h
      rcases ih h with ⟨m, hm, hn⟩ | ⟨hall, hn⟩
      · exact .inl ⟨m, List.mem_cons_of_mem _ hm, hn⟩
      · cases ho : namedBy content ns owner with
        | none => exact .inr ⟨by simpa [ho] using hall, by simpa [ho] using hn⟩
        | some n' =>
          refine .inl ⟨owner, List.mem_cons_self, ?_⟩
          have hfill : filled (some n') = some n' := by
            unfold namedBy at ho
            split at ho
            · simp at ho
            · split at ho
              · split at ho
                · rw [← ho, filled_filled]
                · simp at ho
              · simp at ho
          simpa [ho, hfill] using hn

theorem lastNamed_version {owners : List OwnerReference} (hno : ∀ o ∈ owners, ¬ clusterOwner o) (name : Option String)
    (version : String) :
    (∃ m ∈ owners, machineOwner m ∧ capiOwner m = some (lastNamed content ns owners name version).2) ∨
      ((∀ m ∈ owners, ¬ machineOwner m) ∧ (lastNamed content ns owners name version).2 = version) := by
  induction owners generalizing name version with
  | nil => exact .inr ⟨by simp, rfl⟩
  | cons owner rest ih =>
    simp only [List.mem_cons, forall_eq_or_imp] at hno
    unfold lastNamed
    cases hcapi : capiOwner owner with
    | none =>
      have hout : ¬ machineOwner owner := by simp [machineOwner, hcapi]
      rcases ih hno.2 name version with ⟨m, hm, h⟩ | ⟨hall, h⟩
      · exact .inl ⟨m, List.mem_cons_of_mem _ hm, h⟩
      · exact .inr ⟨by simpa [hout] using hall, h⟩
    | some v =>
      dsimp only
      rcases ih hno.2 ((namedBy content ns owner).or name) v with ⟨m, hm, h⟩ | ⟨hall, h⟩
      · exact .inl ⟨m, List.mem_cons_of_mem _ hm, h⟩
      · refine .inl ⟨owner, List.mem_cons_self, ⟨?_, by simp [hcapi]⟩, by rw [hcapi, h]⟩
        have hcluster : ¬ owner.kind = "Cluster" := fun hk => hno.1 ⟨hk, by simp [hcapi]⟩
        by_contra hm
        simp [capiOwner, hm, hcluster] at hcapi

/-- With no Cluster owner a walk reads all Machine owners and the last named Cluster. -/
theorem walkClear_machines {owners : List OwnerReference} (hno : ∀ o ∈ owners, ¬ clusterOwner o) (name : Option String)
    (version : String) :
    walkClear content ns owners name version = true ↔
      (∀ o ∈ owners, ownerClear content ns o = true) ∧ lastClear content ns owners name version = true := by
  induction owners generalizing name version with
  | nil => simp [walkClear]
  | cons owner rest ih =>
    simp only [List.mem_cons, forall_eq_or_imp] at hno ⊢
    unfold walkClear lastClear lastNamed
    cases hcapi : capiOwner owner with
    | none =>
      have hclear : ownerClear content ns owner = true := by simp only [ownerClear, hcapi]
      simp only [hclear, true_and]
      exact ih hno.2 name version
    | some v =>
      have hcluster : ¬ owner.kind = "Cluster" := fun hk => hno.1 ⟨hk, by simp [hcapi]⟩
      simp only [hcluster, decide_false, Bool.false_or, Bool.and_eq_true, and_assoc]
      rw [ih hno.2]
      rfl

/-- A walk that finds everything clear has seen a Cluster owner clear, if there is one. -/
theorem walkClear_cluster {owners : List OwnerReference} {name : Option String} {version : String}
    (h : walkClear content ns owners name version = true) {k : OwnerReference} (hk : k ∈ owners)
    (hcluster : clusterOwner k) : ∃ k' ∈ owners, clusterOwner k' ∧ ownerClear content ns k' = true := by
  induction owners generalizing name version with
  | nil => simp at hk
  | cons owner rest ih =>
    unfold walkClear at h
    cases hcapi : capiOwner owner with
    | none =>
      simp only [hcapi] at h
      rcases List.mem_cons.mp hk with rfl | hk
      · simp [clusterOwner, hcapi] at hcluster
      · obtain ⟨k', hk', hrest⟩ := ih h hk
        exact ⟨k', List.mem_cons_of_mem _ hk', hrest⟩
    | some v =>
      simp only [hcapi, Bool.and_eq_true, Bool.or_eq_true, decide_eq_true_eq] at h
      by_cases hc : owner.kind = "Cluster"
      · exact ⟨owner, List.mem_cons_self, ⟨hc, by simp [hcapi]⟩, h.1⟩
      · rcases List.mem_cons.mp hk with rfl | hk
        · exact absurd hcluster.1 hc
        · obtain ⟨k', hk', hrest⟩ := ih (h.2.resolve_left hc) hk
          exact ⟨k', List.mem_cons_of_mem _ hk', hrest⟩

/-- Where all references are clear, a walk finds everything clear or comes to a Cluster name. -/
theorem walkClear_of {owners : List OwnerReference} {name : Option String} {version : String}
    (hall : ∀ o ∈ owners, ownerClear content ns o = true)
    (hlast : (∀ o ∈ owners, ¬ clusterOwner o) → lastClear content ns owners name version = true) :
    walkClear content ns owners name version = true := by
  induction owners generalizing name version with
  | nil =>
    unfold walkClear
    exact hlast (by simp)
  | cons owner rest ih =>
    simp only [List.mem_cons, forall_eq_or_imp] at hall hlast
    unfold walkClear
    unfold lastClear lastNamed at hlast
    cases hcapi : capiOwner owner with
    | none =>
      have hout : ¬ clusterOwner owner := by simp [clusterOwner, hcapi]
      simp only [hcapi] at hlast
      exact ih hall.2 fun hno => hlast ⟨hout, hno⟩
    | some v =>
      simp only [hcapi] at hlast
      simp only [Bool.and_eq_true, Bool.or_eq_true, decide_eq_true_eq]
      refine ⟨hall.1, ?_⟩
      by_cases hc : owner.kind = "Cluster"
      · exact .inl hc
      · exact .inr (ih hall.2 fun hno => hlast ⟨fun hk => hc hk.1, hno⟩)

theorem chainClear_perm {owners owners' : List OwnerReference} (hp : owners'.Perm owners) {label : Option String}
    (h : ChainClear content ns owners label) : ChainClear content ns owners' label where
  referenced o ho := h.referenced o (hp.mem_iff.mp ho)
  named name version hname hread := by
    refine h.named name version ?_ ?_
    · rcases hname with ⟨m, hm, hn⟩ | ⟨hnone, hl⟩
      · exact .inl ⟨m, hp.mem_iff.mp hm, hn⟩
      · exact .inr ⟨fun m hm => hnone m (hp.mem_iff.mpr hm), hl⟩
    · rcases hread with ⟨m, hm, hv⟩ | ⟨hnone, hv⟩
      · exact .inl ⟨m, hp.mem_iff.mp hm, hv⟩
      · exact .inr ⟨fun m hm => hnone m (hp.mem_iff.mpr hm), hv⟩

theorem walkClear_chain {owners : List OwnerReference} {label : Option String}
    (h : ChainClear content ns owners label) : walkClear content ns owners label "v1beta1" = true := by
  refine walkClear_of h.referenced fun hno => ?_
  unfold lastClear
  split
  · rfl
  · rename_i n hn
    exact h.named n _ (lastNamed_name hn) (lastNamed_version hno label "v1beta1")

def ownPaused (spec : MachineSpec) (metadata : ObjectMeta) : Bool :=
  spec.paused || hasKey pausedAnnotation metadata.annotations

def ObjectMeta.withOwners (metadata : ObjectMeta) (owners : List OwnerReference) : ObjectMeta :=
  { metadata with ownerReferences := owners }

/-- In every order of the references `False` means that the object and its whole chain are
clear; all else is `True` or a retry, and whether it is `False` is the same for all orders. -/
structure PauseHonoured (content : CapiContent) (ns : String) (spec : MachineSpec) (metadata : ObjectMeta) : Prop where
  answer : ∀ owners, owners.Perm metadata.ownerReferences →
    (pauseOutcome content spec (metadata.withOwners owners) ns = .ok false ∧ ownPaused spec metadata = false ∧
      ChainClear content ns metadata.ownerReferences (metadata.labels.lookup clusterLabel)) ∨
    pauseOutcome content spec (metadata.withOwners owners) ns = .ok true ∨
    ∃ message delay, pauseOutcome content spec (metadata.withOwners owners) ns = .error (.temporary message delay)
  order : ∀ owners, owners.Perm metadata.ownerReferences →
    (pauseOutcome content spec (metadata.withOwners owners) ns = .ok false ↔
      pauseOutcome content spec metadata ns = .ok false)

/-- No Cluster owner is clear and, where there is none, a Machine owner is not clear or the
Cluster that is named last is not, whichever Machine owner comes last. -/
def BlockedThroughout (content : CapiContent) (ns : String) (owners : List OwnerReference) (label : Option String) :
    Prop :=
  (∀ k ∈ owners, clusterOwner k → ownerClear content ns k = false) ∧
    ((∀ k ∈ owners, ¬ clusterOwner k) → (∃ o ∈ owners, ownerClear content ns o = false) ∨
      ∀ owners', owners'.Perm owners → lastClear content ns owners' label "v1beta1" = false)

theorem walkClear_blocked {owners owners' : List OwnerReference} (hp : owners'.Perm owners) {label : Option String}
    (h : BlockedThroughout content ns owners label) : walkClear content ns owners' label "v1beta1" = false := by
  by_contra hwalk
  rw [Bool.not_eq_false] at hwalk
  by_cases hno : ∀ k ∈ owners', ¬ clusterOwner k
  · obtain ⟨hall, hlast⟩ := (walkClear_machines hno label "v1beta1").mp hwalk
    rcases h.2 (fun k hk => hno k (hp.mem_iff.mpr hk)) with ⟨o, ho, hout⟩ | hout
    · rw [hall o (hp.mem_iff.mpr ho)] at hout
      exact Bool.noConfusion hout
    · rw [hout owners' hp] at hlast
      exact Bool.noConfusion hlast
  · simp only [not_forall, not_not] at hno
    obtain ⟨k, hk, hcluster⟩ := hno
    obtain ⟨k', hk', hcluster', hclear⟩ := walkClear_cluster hwalk hk hcluster
    rw [h.1 k' (hp.mem_iff.mp hk') hcluster'] at hclear
    exact Bool.noConfusion hclear

/-- If every walk that finds its part clear stands for a clear chain, the chain is clear or blocked. -/
theorem blocked_of_sound {owners : List OwnerReference} {label : Option String}
    (h : ∀ owners', owners'.Perm owners → walkClear content ns owners' label "v1beta1" = true →
      ChainClear content ns owners label) :
    ChainClear content ns owners label ∨ BlockedThroughout content ns owners label := by
  by_cases hclear : ChainClear content ns owners label
  · exact .inl hclear
  · refine .inr ⟨fun k hk hcluster => ?_, fun hno => ?_⟩
    · -- a clear Cluster owner in front ends the walk
      by_contra hk'
      rw [Bool.not_eq_false] at hk'
      refine hclear (h (k :: owners.erase k) (List.perm_cons_erase hk).symm ?_)
      obtain ⟨v, hv⟩ := Option.isSome_iff_exists.mp hcluster.2
      unfold walkClear
      simp only [hv, hk', hcluster.1, decide_true, Bool.true_or, Bool.and_self]
    · by_contra hout
      simp only [not_or, not_exists, not_and, Bool.not_eq_false, not_forall] at hout
      obtain ⟨hall, owners', hp, hlast⟩ := hout
      refine hclear (h owners' hp ((walkClear_machines (fun k hk => hno k (hp.mem_iff.mp hk)) label "v1beta1").mpr ?_))
      exact ⟨fun o ho => hall o (hp.mem_iff.mp ho), hlast⟩

theorem pauseOutcome_answers (content : CapiContent) (ns : String) (spec : MachineSpec) (metadata : ObjectMeta) (owners : List OwnerReference) :
    Answers (pauseOutcome content spec (metadata.withOwners owners) ns)
      (!ownPaused spec metadata && walkClear content ns owners (metadata.labels.lookup clusterLabel) "v1beta1") := by
  have hown : (spec.paused || hasKey pausedAnnotation (metadata.withOwners owners).annotations) =
      ownPaused spec metadata := rfl
  unfold pauseOutcome isPaused
  rw [hown]
  cases ownPaused spec metadata with
  | true => exact .inl rfl
  | false => exact eval_isPausedOwners owners _ "v1beta1"

/-- Pause is honoured exactly where the object is paused, or its chain is clear or blocked
through whatever part of it a walk may see. -/
theorem pause_honoured (content : CapiContent) (ns : String) (spec : MachineSpec) (metadata : ObjectMeta) :
    PauseHonoured content ns spec metadata ↔
      ownPaused spec metadata = true ∨
      ChainClear content ns metadata.ownerReferences (metadata.labels.lookup clusterLabel) ∨
      BlockedThroughout content ns metadata.ownerReferences (metadata.labels.lookup clusterLabel) := by
  have hwalk : ∀ owners, pauseOutcome content spec (metadata.withOwners owners) ns = .ok false ↔
      ownPaused spec metadata = false ∧
        walkClear content ns owners (metadata.labels.lookup clusterLabel) "v1beta1" = true := by
    intro owners
    rw [(pauseOutcome_answers content ns spec metadata owners).iff, Bool.and_eq_true, Bool.not_eq_true']
  constructor
  · intro h
    by_cases hown : ownPaused spec metadata = true
    · exact .inl hown
    · refine .inr (blocked_of_sound fun owners hp hclear => ?_)
      have hfalse := (hwalk owners).mpr ⟨by simpa using hown, hclear⟩
      rcases h.answer owners hp with ⟨-, -, hchain⟩ | htrue | ⟨m, d, herr⟩
      · exact hchain
      · simp [hfalse] at htrue
      · simp [hfalse] at herr
  · intro h
    -- in all three cases the orders agree on the answer
    have hsame : ∀ owners, owners.Perm metadata.ownerReferences →
        (!ownPaused spec metadata && walkClear content ns owners (metadata.labels.lookup clusterLabel) "v1beta1") = true →
        ChainClear content ns metadata.ownerReferences (metadata.labels.lookup clusterLabel) := by
      intro owners hp hc
      simp only [Bool.and_eq_true, Bool.not_eq_true'] at hc
      rcases h with h | h | h
      · simp [h] at hc
      · exact h
      · simp [walkClear_blocked hp h] at hc
    constructor
    · intro owners hp
      have hans := pauseOutcome_answers content ns spec metadata owners
      cases hc : !ownPaused spec metadata &&
          walkClear content ns owners (metadata.labels.lookup clusterLabel) "v1beta1" with
      | true =>
        rw [hc] at hans
        exact .inl ⟨hans, by simp at hc; exact hc.1, hsame owners hp hc⟩
      | false =>
        rw [hc] at hans
        exact .inr hans
    · intro owners hp
      have hother : metadata.withOwners metadata.ownerReferences = metadata := rfl
      have hself := hwalk metadata.ownerReferences
      rw [hother] at hself
      rw [hwalk, hself]
      refine and_congr_right fun hown => ?_
      constructor
      · intro hc
        exact walkClear_chain (hsame owners hp (by simp [hown, hc]))
      · intro hc
        exact walkClear_chain (chainClear_perm hp (hsame _ (.refl _) (by simp [hown, hc])))

def pausedMachineContent : CapiContent
  | "clusters", _, _ => .found ⟨some 1, false, [], none, none⟩
  | _, _, _ => .found ⟨some 2, true, [], some "a", none⟩

def clusterThenMachine : List OwnerReference :=
  [⟨some "cluster.x-k8s.io/v1beta1", "Cluster", "a", some 1⟩, ⟨some "cluster.x-k8s.io/v1beta1", "Machine", "m", some 2⟩]

def unpausedSpec : MachineSpec where
  address := none
  port := none
  user := none
  sshKeyRef := ⟨none, none⟩
  sshHostKeyRef := ⟨none, none⟩
  hostSelector := none
  hostRef := none
  dryRun := false
  bootstrapCheckStrategy := none
  requestedAt := none
  providerID := none
  paused := false
  externalEtcd := none

def ownedMetadata : ObjectMeta where
  key := ⟨"default", "m"⟩
  uid := 3
  resourceVersion := 1
  generation := none
  deletionTimestamp := none
  annotations := []
  labels := []
  ownerReferences := clusterThenMachine

/-- The first owner is a Cluster that is not paused, and the paused Machine behind it is not
looked at. -/
theorem pausedMachine_missed : ¬ PauseHonoured pausedMachineContent "default" unpausedSpec ownedMetadata := by
  intro h
  have hfalse : pauseOutcome pausedMachineContent unpausedSpec
      (ownedMetadata.withOwners ownedMetadata.ownerReferences) "default" = .ok false := by decide
  rcases h.answer _ (.refl _) with ⟨-, -, hchain⟩ | htrue | ⟨m, d, herr⟩
  · have hout : ownerClear pausedMachineContent "default"
        ⟨some "cluster.x-k8s.io/v1beta1", "Machine", "m", some 2⟩ = false := by decide
    rw [hchain.referenced _ (List.mem_cons_of_mem _ List.mem_cons_self)] at hout
    exact Bool.noConfusion hout
  · simp [hfalse] at htrue
  · simp [hfalse] at herr

end CapiSsh
