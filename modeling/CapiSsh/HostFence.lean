import CapiSsh.ProviderHost

/-!
# The fence around bootstrap payloads

Lock, owner check, start mark and receipt together: whatever launches are queued and
whenever they get the lock, a payload only starts under the record of its own Machine, and
not a second time under one record unless a cleanup has ended between mark and record.
-/
namespace CapiSsh.ProviderHost

open ByteFiles

variable {h : ProviderHost} {todo : List JobOp} {files : Files JobFile} {code : UInt8} {log : List UInt8}

/-- The operation leaves the start mark alone. -/
def KeepsMark : JobOp → Prop
  | .file op => op.touches .started = false
  | .payload => True

theorem payload_file {ops : List (ByteFiles.Op JobFile)} : JobOp.payload ∉ ops.map JobOp.file := by
  simp

theorem payload_interrupted : JobOp.payload ∉ interruptedJob := payload_file

/-- A job starts its payload once. -/
theorem count_payload (code : UInt8) (log : List UInt8) : (payloadJob code log).count .payload = 1 := by
  rw [payloadJob, List.count_cons_of_ne (by simp), List.count_cons_of_ne (by simp), List.count_cons_self,
    List.count_eq_zero.mpr payload_file]

/-- Nothing behind the start mark takes it away. -/
theorem keepsMark_payload : ∀ op ∈ (payloadJob code log).tail, KeepsMark op := by
  intro op hop
  simp only [payloadJob, List.tail_cons, List.mem_cons, List.mem_map, List.mem_append, List.not_mem_nil,
    or_false] at hop
  obtain rfl | rfl | ⟨o, (ho | ho) | rfl, rfl⟩ := hop
  · rfl
  · trivial
  · exact redirect_touches (by decide) log o (List.mem_cons_of_mem _ ho)
  · exact redirect_touches (by decide) _ o ho
  · rfl

theorem keepsMark_interrupted : ∀ op ∈ interruptedJob, KeepsMark op := by
  intro op hop
  obtain ⟨o, ho, rfl⟩ := List.mem_map.mp hop
  obtain ho | ho := List.mem_append.mp ho
  · exact redirect_touches (by decide) _ o ho
  · exact redirect_touches (by decide) _ o ho

theorem idle_iff : h.idle = true ↔ h.todo = none ∧ h.removing = none := by
  simp [idle]

structure Guarded (h : ProviderHost) : Prop where
  exclusive : h.removing ≠ none → h.todo = none
  working : ∀ todo, h.todo = some todo → todo ≠ [] → ∃ w, h.writer = some w ∧ h.owner = some w.uid ∧
    (JobOp.payload ∈ todo → ¬ Marked w.found)
  starts : ∀ s ∈ h.starts, ∃ w, s.job = some w ∧ s.owner = some w.uid ∧ ¬ Marked w.found

theorem guarded_new (kubernetes : Bool) (files : Files JobFile) : (new kubernetes files).Guarded := by
  constructor
  · simp [new]
  · simp [new]
  · simp [new]

theorem guarded_claim (hg : h.Guarded) (uid : Uid) : (h.claim uid).Guarded := by
  rw [claim]
  split
  · next hc =>
    simp only [Bool.and_eq_true, idle_iff] at hc
    exact ⟨hg.exclusive, by simp [hc.1.1.1], by simp⟩
  · exact hg

theorem guarded_job (hg : h.Guarded) (uid : Uid) (code : UInt8) (log : List UInt8) : (h.job uid code log).Guarded := by
  rw [job]
  split
  · next hc =>
    simp only [Bool.and_eq_true, idle_iff, beq_iff_eq] at hc
    obtain ⟨⟨-, hr⟩, ho⟩ := hc
    split
    · exact ⟨by simp [hr], by simp, hg.starts⟩
    · next hreceipt =>
      split
      · refine ⟨by simp [hr], ?_, hg.starts⟩
        intro todo ht _
        cases ht
        exact ⟨_, rfl, ho, fun hp => absurd hp payload_interrupted⟩
      · next hstarted =>
        refine ⟨by simp [hr], ?_, hg.starts⟩
        intro todo ht _
        refine ⟨_, rfl, ho, fun _ hm => ?_⟩
        obtain hm | hm := hm
        · exact hstarted (Option.isSome_iff_ne_none.mpr hm)
        · exact hreceipt (Option.isSome_iff_ne_none.mpr hm)
  · exact hg

theorem guarded_act (hg : h.Guarded) : h.act.Guarded := by
  cases ht : h.todo with
  | none => simpa [act, ht] using hg
  | some todo =>
    have hr : h.removing = none := by
      by_contra hr
      rw [hg.exclusive hr] at ht
      cases ht
    cases todo with
    | nil => exact ⟨by simp [act, ht], by simp [act, ht], by simpa [act, ht] using hg.starts⟩
    | cons op todo =>
      obtain ⟨w, hw, ho, hp⟩ := hg.working _ ht (List.cons_ne_nil _ _)
      cases op with
      | file op =>
        refine ⟨by simp [act, ht, hr], ?_, by simpa [act, ht] using hg.starts⟩
        simp only [act, ht, Option.some.injEq]
        rintro _ rfl _
        exact ⟨w, hw, ho, fun hmem => hp (List.mem_cons_of_mem _ hmem)⟩
      | payload =>
        refine ⟨by simp [act, ht, hr], ?_, ?_⟩
        · simp only [act, ht, Option.some.injEq]
          rintro _ rfl _
          exact ⟨w, hw, ho, fun hmem => hp (List.mem_cons_of_mem _ hmem)⟩
        · simp only [act, ht, List.mem_cons]
          rintro s (rfl | hs)
          · exact ⟨w, hw, ho, hp List.mem_cons_self⟩
          · exact hg.starts s hs

/-- The step: an event of the host keeps every start behind its mark and its owner record. -/
theorem guarded_step (hg : h.Guarded) (e : HostEvent) : (h.step e).Guarded := by
  cases e with
  | claim uid => exact guarded_claim hg uid
  | job uid code log => exact guarded_job hg uid code log
  | act => exact guarded_act hg
  | cleanup uid =>
    rw [step, cleanup]
    split
    · next hc =>
      simp only [Bool.and_eq_true, idle_iff] at hc
      exact ⟨fun _ => hc.1.1, by simp [hc.1.1], hg.starts⟩
    · exact hg
  | remove file =>
    rw [step]
    split
    · exact ⟨hg.exclusive, hg.working, hg.starts⟩
    · exact hg
  | removeOwner =>
    rw [step]
    split
    · next hr =>
      have ht := hg.exclusive (Option.isSome_iff_ne_none.mp hr)
      exact ⟨hg.exclusive, by simp [ht], hg.starts⟩
    · exact hg
  | stop => exact ⟨by simp [step], by simp [step], hg.starts⟩
  | kubernetes present => exact ⟨hg.exclusive, hg.working, hg.starts⟩

/-- The run: so it is after any events. -/
theorem guarded_after (kubernetes : Bool) (files : Files JobFile) (events : List HostEvent) :
    ((new kubernetes files).after events).Guarded :=
  throughout_induct (fun _ e hg _ => guarded_step hg e) (guarded_new kubernetes files) (throughout_true _ events)

/-- In every run, a payload only starts while the record names the Machine that it was
launched for, by a job that has found neither a start mark nor a receipt. -/
theorem payload_fenced (kubernetes : Bool) (files : Files JobFile) (events : List HostEvent) :
    ∀ s ∈ ((new kubernetes files).after events).starts,
      ∃ w, s.job = some w ∧ s.owner = some w.uid ∧ w.found .started = none ∧ w.found .receipt = none := by
  intro s hs
  obtain ⟨w, hw, ho, hm⟩ := (guarded_after kubernetes files events).starts s hs
  simp only [Marked, not_or, not_not] at hm
  exact ⟨w, hw, ho, hm⟩

/-- A launch for another Machine than the claim's, and one for the same Machine. -/
def fencedRun : List HostEvent := [.claim 1, .job 2 0 [], .act, .stop, .job 1 0 [], .act, .act, .act]

/-- One claim, one job, one start. -/
theorem payload_fenced_run : ∃ s w, ((new false fun _ => none).after fencedRun).starts = [s] ∧ s.job = some w ∧
    s.owner = some w.uid ∧ w.uid = 1 := by
  obtain ⟨s, hs⟩ : ∃ s, ((new false fun _ => none).after fencedRun).starts = [s] := ⟨_, rfl⟩
  obtain ⟨w, hw, ho, -⟩ := payload_fenced false (fun _ => none) fencedRun s (hs ▸ List.mem_singleton_self s)
  refine ⟨s, w, hs, hw, ho, ?_⟩
  cases hs
  cases hw
  rfl

/-- Where the working job is: at the beginning of its command, behind its start mark, or at
its end. -/
inductive Course (files : Files JobFile) (starts : List PayloadStart) : List JobOp → Prop where
  | fresh (code : UInt8) (log : List UInt8) : starts = [] → Course files starts (payloadJob code log)
  | marked {todo : List JobOp} : files .started ≠ none → (∀ op ∈ todo, KeepsMark op) →
      starts.length + todo.count .payload ≤ 1 → Course files starts todo
  | done : starts.length ≤ 1 → Course files starts []

structure Once (h : ProviderHost) : Prop where
  once : h.starts.length ≤ 1
  marked : h.starts ≠ [] → h.owner = none ∨ Marked h.files ∨ ∃ found, h.removing = some found ∧ Marked found
  shrinks : ∀ found, h.removing = some found → Marked h.files → Marked found
  course : ∀ todo, h.todo = some todo → Course h.files h.starts todo

theorem once_new (kubernetes : Bool) (files : Files JobFile) : (new kubernetes files).Once := by
  constructor <;> simp [new]

theorem once_claim (ho : h.Once) (uid : Uid) : (h.claim uid).Once := by
  rw [claim]
  split
  · next hc =>
    simp only [Bool.and_eq_true, idle_iff] at hc
    exact ⟨by simp, by simp, ho.shrinks, by simp [hc.1.1.1]⟩
  · exact ho

theorem once_job (ho : h.Once) (uid : Uid) (code : UInt8) (log : List UInt8) : (h.job uid code log).Once := by
  rw [job]
  split
  · next hc =>
    simp only [Bool.and_eq_true, idle_iff, beq_iff_eq] at hc
    obtain ⟨⟨-, hr⟩, howner⟩ := hc
    split
    · refine ⟨ho.once, ho.marked, ho.shrinks, ?_⟩
      intro todo ht
      cases ht
      exact .done ho.once
    · next hreceipt =>
      split
      · next hstarted =>
        refine ⟨ho.once, ho.marked, ho.shrinks, ?_⟩
        intro todo ht
        cases ht
        refine .marked (Option.isSome_iff_ne_none.mp hstarted) keepsMark_interrupted ?_
        rw [List.count_eq_zero.mpr payload_interrupted]
        exact ho.once
      · next hstarted =>
        refine ⟨ho.once, ho.marked, ho.shrinks, ?_⟩
        intro todo ht
        cases ht
        refine .fresh code log ?_
        by_contra hne
        obtain hn | (hm | hm) | ⟨found, hf, -⟩ := ho.marked hne
        · rw [howner] at hn
          cases hn
        · exact hstarted (Option.isSome_iff_ne_none.mpr hm)
        · exact hreceipt (Option.isSome_iff_ne_none.mpr hm)
        · rw [hr] at hf
          cases hf
  · exact ho

theorem once_act (hg : h.Guarded) (ho : h.Once) : h.act.Once := by
  cases ht : h.todo with
  | none => simpa [act, ht] using ho
  | some todo =>
    have hr : h.removing = none := by
      by_contra hr
      rw [hg.exclusive hr] at ht
      cases ht
    cases todo with
    | nil => exact ⟨by simpa [act, ht] using ho.once, by simpa [act, ht] using ho.marked, by simp [act, ht, hr],
        by simp [act, ht]⟩
    | cons op todo =>
      cases op with
      | file op =>
        have hact : h.act = { h with files := op.apply h.files, todo := some todo } := by simp [act, ht]
        rw [hact]
        cases ho.course _ ht with
        | fresh code log hs =>
          refine ⟨ho.once, fun hne => absurd hs hne, by simp [hr], ?_⟩
          rintro _ ⟨⟩
          refine .marked ?_ keepsMark_payload ?_
          · simp [Op.apply]
          · have hcount := count_payload code log
            rw [payloadJob, List.count_cons_of_ne (by simp)] at hcount
            rw [hs, List.length_nil]
            omega
        | marked hstarted hkeeps hcount =>
          have hkept : (op.apply h.files) .started ≠ none := by
            rw [apply_untouched (hkeeps (.file op) List.mem_cons_self)]
            exact hstarted
          refine ⟨ho.once, fun _ => .inr (.inl (.inl hkept)), by simp [hr], ?_⟩
          rintro _ ⟨⟩
          refine .marked hkept (fun o hmem => hkeeps o (List.mem_cons_of_mem _ hmem)) ?_
          rwa [List.count_cons_of_ne (by simp)] at hcount
      | payload =>
        have hact : h.act = { h with todo := some todo, starts := ⟨h.writer, h.owner⟩ :: h.starts } := by
          simp [act, ht]
        rw [hact]
        cases ho.course _ ht with
        | marked hstarted hkeeps hcount =>
          rw [List.count_cons_self] at hcount
          refine ⟨?_, fun _ => .inr (.inl (.inl hstarted)), by simp [hr], ?_⟩
          · simp only [List.length_cons]
            omega
          · rintro _ ⟨⟩
            refine .marked hstarted (fun o hmem => hkeeps o (List.mem_cons_of_mem _ hmem)) ?_
            simp only [List.length_cons]
            omega

/-- The step: a claim, a launch or a cleanup that removes the record first starts nothing twice. -/
theorem once_step (hg : h.Guarded) (ho : h.Once) (e : HostEvent) (hC : RecordFirst h e) : (h.step e).Once := by
  cases e with
  | claim uid => exact once_claim ho uid
  | job uid code log => exact once_job ho uid code log
  | act => exact once_act hg ho
  | cleanup uid =>
    rw [step, cleanup]
    split
    · next hc =>
      simp only [Bool.and_eq_true, idle_iff] at hc
      refine ⟨ho.once, fun hne => ?_, ?_, by simp [hc.1.1]⟩
      · obtain hn | hm | ⟨found, hf, -⟩ := ho.marked hne
        · exact .inl hn
        · exact .inr (.inl hm)
        · rw [hc.1.2] at hf
          cases hf
      · rintro _ ⟨⟩ hm
        exact hm
    · exact ho
  | remove file =>
    rw [step]
    split
    · next hr =>
      obtain ⟨found, hf⟩ := Option.isSome_iff_exists.mp hr
      have hless : Marked (Function.update h.files file none) → Marked h.files := by
        rintro (hm | hm)
        · refine .inl fun hn => hm ?_
          by_cases hfile : JobFile.started = file <;> simp_all [Function.update]
        · refine .inr fun hn => hm ?_
          by_cases hfile : JobFile.receipt = file <;> simp_all [Function.update]
      refine ⟨ho.once, fun hne => ?_, fun found' hf' hm => ho.shrinks found' hf' (hless hm), ?_⟩
      · obtain hn | hm | hfound := ho.marked hne
        · exact .inl hn
        · exact .inr (.inr ⟨found, hf, ho.shrinks found hf hm⟩)
        · exact .inr (.inr hfound)
      · simp [hg.exclusive (Option.isSome_iff_ne_none.mp hr)]
    · exact ho
  | removeOwner =>
    rw [step]
    split
    · exact ⟨ho.once, fun _ => .inl rfl, ho.shrinks, ho.course⟩
    · exact ho
  | stop =>
    refine ⟨ho.once, fun hne => ?_, by simp [step], by simp [step]⟩
    obtain hn | hm | ⟨found, hf, hm⟩ := ho.marked hne
    · exact .inl hn
    · exact .inr (.inl hm)
    · exact (hC found hf hm).imp id .inl
  | kubernetes present => exact ⟨ho.once, ho.marked, ho.shrinks, ho.course⟩

/-- Under one owner record the payload starts at most once, in every run in which no cleanup
ends with the start mark and the receipt removed and the record left. -/
theorem payload_once (kubernetes : Bool) (files : Files JobFile) (events : List HostEvent)
    (hC : Throughout RecordFirst (new kubernetes files) events) :
    ((new kubernetes files).after events).starts.length ≤ 1 := by
  have hrun : ((new kubernetes files).after events).Guarded ∧ ((new kubernetes files).after events).Once :=
    throughout_induct (I := fun h => h.Guarded ∧ h.Once)
      (fun _ e hi hc => ⟨guarded_step hi.1 e, once_step hi.1 hi.2 e hc⟩)
      ⟨guarded_new kubernetes files, once_new kubernetes files⟩ hC
  exact hrun.2.once

/-- A cleanup that is cut off before the record lets a queued launch start it again. -/
example : ((new false fun _ => none).after [.claim 1, .job 1 0 [], .act, .act, .act, .stop, .cleanup 1,
    .remove .started, .stop, .job 1 0 [], .act, .act, .act]).starts.length = 2 := rfl

/-- Two launches of one Machine, and a cleanup that is cut off behind the record. -/
def cutBehindRecord : List HostEvent :=
  [.claim 1, .job 1 0 [], .act, .act, .act, .stop, .job 1 0 [], .act, .stop, .cleanup 1, .remove .started,
    .removeOwner, .stop]

/-- A cleanup that is cut off behind the owner record leaves no way to start once more. -/
theorem payload_once_cut : ((new false fun _ => none).after cutBehindRecord).starts.length = 1 ∧
    ((new false fun _ => none).after cutBehindRecord).starts.length ≤ 1 :=
  ⟨rfl, payload_once false (fun _ => none) cutBehindRecord ⟨trivial, trivial, trivial, trivial, trivial,
    fun _ h => (by cases h), trivial, trivial, fun _ h => (by cases h), trivial, trivial, trivial,
    fun _ _ _ => .inl rfl, trivial⟩⟩

end CapiSsh.ProviderHost
