import CapiSsh.RebootGuarantees

/-!
# Reboot records of one request

`write_reboot` sends a dictionary that is merged over the stored record. What the
dictionary of a new request does not name stays from the request before it: the completion
time is removed, the observed boot ID is not.
-/
namespace CapiSsh

open Effect Interference

variable {S : Setting} {T : Trust} {i : MachineRef} {j : Journal} {c : Configuration}

/-- Completion is told of exactly when it was observed. -/
structure Reboot.Coherent (r : Reboot) : Prop where
  observed : r.observedBootID.isSome ↔ r.phase = some .succeeded
  completed : r.lastCompletedAt.isSome ↔ r.phase = some .succeeded
  different : r.phase = some .succeeded → r.observedBootID ≠ r.previousBootID
  success : r.success = some true ↔ r.phase = some .succeeded

/-- What was written for the request on record, and nothing that was written for another. -/
def ownRecord : Journal → Reboot
  | [] => .empty
  | .status p :: j => match p.reboot with
    | none => ownRecord j
    | some s => (if s.lastRequestedAt = (record j).lastRequestedAt then ownRecord j else .empty).merge s
  | _ :: j => ownRecord j

structure OfOneRequest (j : Journal) : Prop where
  coherent : (record j).Coherent
  own : record j = ownRecord j

/-- No request is prepared over the record of one that has succeeded. -/
def NoneAfterSuccess (j : Journal) : Prop :=
  ∀ post p s pre, j = post ++ .status p :: pre → p.reboot = some s → s.phase = some .prepared →
    (record pre).phase ≠ some .succeeded

theorem coherent_empty : Reboot.empty.Coherent := by
  constructor <;> simp [Reboot.empty]

/-- A record that waits has no evidence, and neither has what is written over it. -/
theorem coherent_waiting {r : Reboot} (hp : r.phase ≠ some .succeeded) (ho : r.observedBootID = none)
    (hc : r.lastCompletedAt = none) (hs : r.success = some false) : r.Coherent := by
  constructor <;> simp [hp, ho, hc, hs]

theorem Reboot.Coherent.open {r : Reboot} (h : r.Coherent) (hp : r.phase ≠ some .succeeded) :
    r.observedBootID = none ∧ r.lastCompletedAt = none := by
  constructor
  · have hn : ¬ r.observedBootID.isSome := fun ho => hp (h.observed.mp ho)
    simpa using hn
  · have hn : ¬ r.lastCompletedAt.isSome := fun hc => hp (h.completed.mp hc)
    simpa using hn

theorem updates_open {s : RebootState} (hu : Updates j s) (hs : s.phase ≠ some .succeeded) :
    (record j).phase ≠ some .succeeded ∧ s.phase.isSome := by
  rcases hu.outcome with ⟨hp, hn⟩ | ⟨h, -⟩ | ⟨hf, -⟩
  · constructor
    · intro hr
      simp [Reboot.pending, hr, RebootPhase.pending] at hp
    · cases hph : s.phase with
      | none => rw [hph] at hn; cases hn
      | some ph => rfl
  · exact absurd h hs
  · exact ⟨hu.unsettled hf, by rw [hf]; rfl⟩

/-- A write of the request on record keeps the record coherent. -/
theorem coherent_update {s : RebootState} (h : (record j).Coherent) (hu : Updates j s) :
    ((record j).merge s).Coherent := by
  by_cases hs : s.phase = some .succeeded
  · obtain ⟨hsuccess, b, t, hb, ht, hne⟩ := hu.completed hs
    have hprev : ((record j).merge s).previousBootID = s.previousBootID := (updates_previous hu).trans hu.previous.symm
    constructor
    · simp [Reboot.merge, hs, hb]
    · simp [Reboot.merge, hs, ht, Field.apply]
    · intro _
      rw [hprev]
      simpa [Reboot.merge, hb] using hne.symm
    · simp [Reboot.merge, hs, hsuccess]
  · obtain ⟨hopen, hphase⟩ := updates_open hu hs
    obtain ⟨ho, hc⟩ := h.open hopen
    obtain ⟨hsuccess, hobs, hcomp⟩ := hu.waiting hs
    obtain ⟨ph, hph⟩ := Option.isSome_iff_exists.mp hphase
    refine coherent_waiting ?_ (hobs.trans ho) (hcomp.elim id fun h => h.trans hc) ?_
    · simpa [Reboot.merge, hph] using fun he => hs (by rw [hph, he])
    · simp [Reboot.merge, hsuccess]

/-- The dictionary of a new request leaves of the record only the boot that was observed. -/
theorem merge_prepared {r : Reboot} {s : RebootState} (h : Prepares j s) (ho : r.observedBootID = none) :
    r.merge s = Reboot.empty.merge s := by
  obtain ⟨q, hq, -⟩ := h.request
  obtain ⟨b, hb, -⟩ := h.previous
  obtain ⟨t, ht⟩ := Option.isSome_iff_exists.mp h.started.1
  obtain ⟨m, hm⟩ := Option.isSome_iff_exists.mp h.started.2
  simp [Reboot.merge, Reboot.empty, hq, hb, ht, hm, h.phase, h.cleared, Field.apply, ho]

theorem coherent_prepare {r : Reboot} {s : RebootState} (h : Prepares j s) (ho : r.observedBootID = none) :
    (r.merge s).Coherent := by
  rw [merge_prepared h ho]
  refine coherent_waiting ?_ ?_ ?_ ?_ <;> simp [Reboot.merge, Reboot.empty, h.phase, h.cleared, Field.apply]

theorem ownRecord_status (p : StatusPatch) : ownRecord (.status p :: j) = match p.reboot with
    | none => ownRecord j
    | some s => (if s.lastRequestedAt = (record j).lastRequestedAt then ownRecord j else .empty).merge s := rfl

theorem oneRequest_status {p : StatusPatch} (h : OfOneRequest j) (hl : StatusLaw T i j p)
    (hp : ∀ s, p.reboot = some s → s.phase = some .prepared → (record j).phase ≠ some .succeeded) :
    OfOneRequest (.status p :: j) := by
  cases hr : p.reboot with
  | none =>
    refine ⟨?_, ?_⟩
    · simpa [record_status, hr] using h.coherent
    · simpa [record_status, ownRecord_status, hr] using h.own
  | some s =>
    have hrec : record (.status p :: j) = (record j).merge s := by rw [record_status, hr]
    have hown : ownRecord (.status p :: j) =
        (if s.lastRequestedAt = (record j).lastRequestedAt then ownRecord j else .empty).merge s := by
      rw [ownRecord_status, hr]
    rcases hl.reboot s hr with hu | hn
    · refine ⟨?_, ?_⟩
      · rw [hrec]
        exact coherent_update h.coherent hu
      · rw [hrec, hown, if_pos hu.request, h.own]
    · have ho : (record j).observedBootID = none := (h.coherent.open (hp s hr hn.phase)).1
      refine ⟨?_, ?_⟩
      · rw [hrec]
        exact coherent_prepare hn ho
      · rw [hrec, hown]
        split
        · rw [h.own]
        · exact merge_prepared hn ho

theorem noneAfterSuccess_tail {e : Event} (h : NoneAfterSuccess (e :: j)) : NoneAfterSuccess j := by
  intro post p s pre hj
  exact h (e :: post) p s pre (by rw [hj, List.cons_append])

/-- Induction on the journal: one write after the other. -/
theorem oneRequest_run (hl : Lawful T i j) (h : NoneAfterSuccess j) : OfOneRequest j := by
  induction hl with
  | nil => exact ⟨coherent_empty, rfl⟩
  | @cons j e _ he ih =>
    have ih := ih (noneAfterSuccess_tail h)
    cases e with
    | status p => exact oneRequest_status ih he fun s hr hs => h [] p s j rfl hr hs
    | _ => exact ⟨ih.coherent, ih.own⟩

/-- A preparation over a success keeps the boot that was observed for it. -/
theorem prepared_over_success {p : StatusPatch} {s : RebootState} (hl : StatusLaw T i j p) (hr : p.reboot = some s)
    (hs : s.phase = some .prepared) (hsucc : (record j).phase = some .succeeded) (h : (record j).Coherent) :
    ¬ (record (.status p :: j)).Coherent := by
  intro hafter
  rw [record_status, hr] at hafter
  rcases hl.reboot s hr with hu | hn
  · exact (updates_open hu (by rw [hs]; simp)).1 hsucc
  · obtain ⟨b, hb⟩ := Option.isSome_iff_exists.mp (h.observed.mpr hsucc)
    have hphase := hafter.observed.mp (by simp [Reboot.merge, hn.cleared, hb])
    simp [Reboot.merge, hs] at hphase

theorem stored_record (h : Reachable (cluster S) (idle World.empty) c) {key : ObjectKey} {m : Machine}
    (hm : c.world.machines.lookup key = some m) :
    m.status.reboot.getD .empty = record (journal ⟨key, m.metadata.uid⟩ c.world) := by
  obtain ⟨-, -, htold⟩ := (reachable_sound h).1.accounted.machine key m hm
  rw [htold.status, record]

/-- In every run, the records that were committed are each of one request if and only if no
request was prepared over a success. -/
theorem reboot_records (h : Reachable (cluster S) (idle World.empty) c) (i : MachineRef) :
    (∀ post pre, journal i c.world = post ++ pre → OfOneRequest pre) ↔ NoneAfterSuccess (journal i c.world) := by
  have hl : Lawful S.trust i (journal i c.world) := (reachable_sound h).1.lawful i
  constructor
  · intro hall post p s pre hj hr hs hsucc
    rw [hj] at hl
    have hone := hall (post ++ [.status p]) pre (by simpa using hj)
    exact prepared_over_success (lawful_head (lawful_suffix hl)) hr hs hsucc hone.coherent
      (hall post (.status p :: pre) hj).coherent
  · intro hn post pre hj
    rw [hj] at hl hn
    refine oneRequest_run (lawful_suffix hl) ?_
    intro post' p s pre' hpre
    exact hn (post ++ post') p s pre' (by rw [hpre, List.append_assoc])

/-- A reboot that is served and observed. -/
def servedRequest : List Move :=
  provisionedMachine ++ [.change (requestReboot "r1"), .start (smallRef "m" 1) .reboot, .usual (smallRef "m" 1) 26,
    .finish (smallRef "m" 1), .change (.rebootHost ⟨"a", 22⟩), .start (smallRef "m" 1) .reboot,
    .usual (smallRef "m" 1) 19, .finish (smallRef "m" 1)]

/-- One request, from the record to the success. -/
theorem reboot_records_served : ∃ c, Reachable (cluster smallSetting) (idle World.empty) c ∧
    ((record (journal (smallRef "m" 1) c.world)).phase == some .succeeded) = true ∧
      ((∀ post pre, journal (smallRef "m" 1) c.world = post ++ pre → OfOneRequest pre) ↔
        NoneAfterSuccess (journal (smallRef "m" 1) c.world)) := by
  have h : (plays smallSetting smallUsual servedRequest (idle World.empty)).any (fun c =>
      (record (journal (smallRef "m" 1) c.world)).phase == some .succeeded) = true := by
    decide +kernel
  obtain ⟨c, hc, hb⟩ := plays_exists h
  exact ⟨c, hc, hb, reboot_records hc _⟩

/-- A second request is prepared. -/
def secondRequest : List Move :=
  servedRequest ++ [.change (requestReboot "r2"), .start (smallRef "m" 1) .reboot, .usual (smallRef "m" 1) 18]

/-- The boot ID that was observed for the first request stands beside the second. -/
theorem reboot_records_second : ¬ ∀ c, Reachable (cluster smallSetting) (idle World.empty) c →
    ∀ post pre, journal (smallRef "m" 1) c.world = post ++ pre → OfOneRequest pre := by
  intro hall
  have h : (plays smallSetting smallUsual secondRequest (idle World.empty)).any (fun c =>
      (record (journal (smallRef "m" 1) c.world)).phase == some .prepared &&
        (record (journal (smallRef "m" 1) c.world)).observedBootID.isSome) = true := by
    decide +kernel
  obtain ⟨c, hc, hb⟩ := plays_exists h
  rw [Bool.and_eq_true, beq_iff_eq] at hb
  have hone : (record (journal (smallRef "m" 1) c.world)).phase = some .succeeded :=
    (hall c hc [] _ rfl).coherent.observed.mp hb.2
  rw [hb.1] at hone
  cases hone

end CapiSsh
