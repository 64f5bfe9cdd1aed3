import CapiSsh.HostFence

/-!
# Whose receipt it is

The receipt does not name a Machine. Under one owner record the host is a host of jobs of
one Machine, and a record is only created where nothing is left of an earlier one, as long
as no cleanup ends between the removal of the record and that of the marks.
-/
namespace CapiSsh.ProviderHost

open ByteFiles

variable {h : ProviderHost} {uid : Uid} {j : JobHost} {N : Numerals}

/-- What the host is to the jobs of its owner. -/
def jobHost (h : ProviderHost) : JobHost :=
  ⟨h.owner.isSome, h.files, h.todo.map fun todo => todo.filterMap JobOp.file?, h.writer.map JobRun.records⟩

theorem filterMap_file (ops : List (ByteFiles.Op JobFile)) : (ops.map JobOp.file).filterMap JobOp.file? = ops := by
  induction ops with
  | nil => rfl
  | cons op ops ih => rw [List.map_cons, List.filterMap_cons, file?_file, ih]

theorem files_interrupted : interruptedJob.filterMap JobOp.file? = interruptedProgram := filterMap_file _

theorem files_payload (code : UInt8) (log : List UInt8) :
    (payloadJob code log).filterMap JobOp.file? = payloadProgram code log := by
  simp only [payloadJob, List.filterMap_cons, file?_file, file?_payload, filterMap_file]
  rfl

/-- While nothing is removed, the owner stays and its jobs go on. -/
theorem quiet_step {e : HostEvent} (hq : Quiet e) (ho : h.owner = some uid) :
    (h.step e).owner = some uid ∧ ∃ l : List JobEvent, (h.step e).jobHost = h.jobHost.after l := by
  cases e with
  | claim uid' =>
    have hsame : h.step (.claim uid') = h := by simp [step, claim, ho]
    exact ⟨by rw [hsame, ho], [], by rw [hsame]; rfl⟩
  | job uid' code log =>
    rw [step, job]
    split
    · next hc =>
      simp only [Bool.and_eq_true, idle_iff, beq_iff_eq] at hc
      obtain ⟨⟨ht, -⟩, -⟩ := hc
      split
      · next hr =>
        refine ⟨ho, [.start code log], ?_⟩
        simp [jobHost, JobHost.after, JobHost.step, JobHost.start, ht, ho, hr]
      · next hr =>
        split
        · next hs =>
          refine ⟨ho, [.start code log], ?_⟩
          simp [jobHost, JobHost.after, JobHost.step, JobHost.start, ht, ho, hr, hs, files_interrupted, JobRun.records]
        · next hs =>
          refine ⟨ho, [.start code log], ?_⟩
          simp [jobHost, JobHost.after, JobHost.step, JobHost.start, ht, ho, hr, hs, files_payload, JobRun.records]
    · exact ⟨ho, [], rfl⟩
  | act =>
    cases ht : h.todo with
    | none =>
      have hsame : h.step .act = h := by simp [step, act, ht]
      exact ⟨by rw [hsame, ho], [], by rw [hsame]; rfl⟩
    | some todo =>
      cases todo with
      | nil => exact ⟨by simp [step, act, ht, ho], [.act], by simp [step, act, jobHost, JobHost.after, JobHost.step, ht]⟩
      | cons op todo =>
        cases op with
        | file op =>
          refine ⟨by simp [step, act, ht, ho], [.act], ?_⟩
          simp [step, act, jobHost, JobHost.after, JobHost.step, ht]
        | payload =>
          refine ⟨by simp [step, act, ht, ho], [], ?_⟩
          simp [step, act, jobHost, JobHost.after, ht, List.filterMap_cons]
  | cleanup uid' =>
    rw [step, cleanup]
    split
    · exact ⟨ho, [], rfl⟩
    · exact ⟨ho, [], rfl⟩
  | remove file => exact hq.elim
  | removeOwner => exact hq.elim
  | stop => exact ⟨ho, [.kill], rfl⟩
  | kubernetes present => exact ⟨ho, [], rfl⟩

theorem quiet_after {events : List HostEvent} (hq : ∀ e ∈ events, Quiet e) (ho : h.owner = some uid) :
    (h.after events).owner = some uid ∧ ∃ l : List JobEvent, (h.after events).jobHost = h.jobHost.after l := by
  induction events generalizing h with
  | nil => exact ⟨ho, [], rfl⟩
  | cons e events ih =>
    obtain ⟨ho₁, l₁, h₁⟩ := quiet_step (hq e List.mem_cons_self) ho
    obtain ⟨ho₂, l₂, h₂⟩ := ih (fun e he => hq e (List.mem_cons_of_mem _ he)) ho₁
    refine ⟨ho₂, l₁ ++ l₂, ?_⟩
    have hafter : (h.after (e :: events)).jobHost = ((h.step e).after events).jobHost := rfl
    rw [hafter, h₂, h₁, JobHost.after, JobHost.after, JobHost.after, List.foldl_append]

/-- A cleanup has left a receipt and taken the output away. -/
structure Bare (j : JobHost) : Prop where
  receipt : j.files .receipt ≠ none
  output : j.files .output = none
  todo : j.todo = none ∨ j.todo = some []

theorem bare_step (hb : Bare j) (e : JobEvent) : Bare (j.step e) := by
  have hsome := Option.isSome_iff_ne_none.mpr hb.receipt
  cases e with
  | kill => exact ⟨hb.receipt, hb.output, .inl rfl⟩
  | start code log =>
    obtain ht | ht := hb.todo
    · cases ho : j.owned with
      | false => simpa [JobHost.step, JobHost.start, ht, ho] using hb
      | true =>
        simp only [JobHost.step, JobHost.start, ht, ho, hsome, if_true]
        exact ⟨hb.receipt, hb.output, .inr rfl⟩
    · simpa [JobHost.step, JobHost.start, ht] using hb
  | act =>
    obtain ht | ht := hb.todo
    · simpa [JobHost.step, ht] using hb
    · simp only [JobHost.step, ht]
      exact ⟨hb.receipt, hb.output, .inl rfl⟩

theorem bare_after (hb : Bare j) (l : List JobEvent) : Bare (j.after l) := by
  induction l generalizing j with
  | nil => exact hb
  | cons e l ih => exact ih (bare_step hb e)

/-- `tail` fails, and with it the observation. -/
theorem bare_observed {tested catted tailed : JobHost} (ht : tested.files .receipt ≠ none)
    (hl : tailed.files .output = none) (r : SSHResult) : observation N tested catted tailed ≠ some (.result r) := by
  have hsome := Option.isSome_iff_ne_none.mpr ht
  cases ho : tested.owned with
  | false =>
    rw [observed_unowned ho]
    simp
  | true =>
    simp only [observation, observe, ho, hsome, if_true, hl, Option.isSome_none, Bool.false_eq_true, if_false,
      Printed.received, Option.map_map, ne_eq, Option.map_eq_some_iff, not_exists, not_and]
    intro text _
    simp [Completed.observation, Completed.success, Completed.exitCode]

/-- The receipt is the one of the owner's last job that writes one, or it has no output. -/
def Honest (j : JobHost) : Prop := j.Sound ∨ Bare j

theorem honest_none (ho : j.owned = true) (hr : j.files .receipt = none) (ht : j.todo = none) : Honest j :=
  .inl ⟨fun _ => ⟨hr, ht⟩, fun _ => ho, fun _ _ _ => .inl hr, by simp [ht]⟩

theorem honest_after (hj : Honest j) (l : List JobEvent) : Honest (j.after l) :=
  hj.imp (JobHost.sound_after l) fun hb => bare_after hb l

/-- The removal of a file, while no job works. -/
theorem honest_remove (hj : Honest j) (ho : j.owned = true) (ht : j.todo = none) (file : JobFile) :
    Honest { j with files := Function.update j.files file none } := by
  by_cases hr : Function.update j.files file none .receipt = none
  · exact honest_none ho hr ht
  have hfile : file ≠ .receipt := by
    rintro rfl
    simp at hr
  have hreceipt : Function.update j.files file none .receipt = j.files .receipt := by simp [hfile.symm]
  rw [hreceipt] at hr
  by_cases hout : Function.update j.files file none .output = none
  · exact .inr ⟨by simpa [hreceipt] using hr, hout, .inl ht⟩
  have hfile' : file ≠ .output := by
    rintro rfl
    simp at hout
  have houtput : Function.update j.files file none .output = j.files .output := by simp [hfile'.symm]
  obtain hs | hb := hj
  · refine .inl ⟨fun hn => absurd (hs.quiet hn).1 hr, hs.owned, fun code log hrec => ?_, by simp [ht]⟩
    simpa only [Shown, hreceipt, houtput] using hs.shown code log hrec
  · rw [houtput] at hout
    exact absurd hb.output hout

/-- The job that writes is one of the record's Machine. -/
def Named (h : ProviderHost) : Prop := ∀ w, h.writer = some w → h.owner = none ∨ h.owner = some w.uid

structure Attributed (h : ProviderHost) : Prop where
  unowned : h.owner = none → h.removing = none → ¬ Marked h.files
  owned : h.owner ≠ none → Honest h.jobHost

theorem attributed_new (kubernetes : Bool) {files : Files JobFile} (hm : ¬ Marked files) :
    (new kubernetes files).Attributed := by
  constructor
  · exact fun _ _ => hm
  · simp [new]

/-- A job without an owner has nothing left to do. -/
theorem act_unowned (hg : h.Guarded) (ho : h.owner = none) : h.act.files = h.files ∧ h.act.removing = h.removing := by
  cases ht : h.todo with
  | none => simp [act, ht]
  | some todo =>
    cases todo with
    | nil => simp [act, ht]
    | cons op todo =>
      obtain ⟨w, -, hw, -⟩ := hg.working _ ht (List.cons_ne_nil _ _)
      rw [ho] at hw
      cases hw

theorem act_writer : h.act.writer = h.writer ∧ h.act.owner = h.owner := by
  cases ht : h.todo with
  | none => simp [act, ht]
  | some todo =>
    cases todo with
    | nil => simp [act, ht]
    | cons op todo => cases op <;> simp [act, ht]

theorem named_step (hn : h.Named) (e : HostEvent) : (h.step e).Named := by
  cases e with
  | claim uid =>
    rw [step, claim]
    split
    · exact fun w hw => by cases hw
    · exact hn
  | job uid code log =>
    rw [step, job]
    split
    · next hc =>
      simp only [Bool.and_eq_true, beq_iff_eq] at hc
      split
      · exact hn
      · split
        · rintro _ ⟨⟩
          exact .inr hc.2
        · rintro _ ⟨⟩
          exact .inr hc.2
    · exact hn
  | act =>
    rw [Named, step, act_writer.1, act_writer.2]
    exact hn
  | cleanup uid =>
    rw [step, cleanup]
    split
    · exact hn
    · exact hn
  | remove file =>
    rw [step]
    split
    · exact hn
    · exact hn
  | removeOwner =>
    rw [step]
    split
    · exact fun _ _ => .inl rfl
    · exact hn
  | stop => exact hn
  | kubernetes present => exact hn

theorem named_after (hn : h.Named) (events : List HostEvent) : (h.after events).Named := by
  induction events generalizing h with
  | nil => exact hn
  | cons e events ih => exact ih (named_step hn e)

theorem unowned_step (hg : h.Guarded) (ha : h.Attributed) (e : HostEvent) (hC : RecordLast h e)
    (ho : (h.step e).owner = none) (hr : (h.step e).removing = none) : ¬ Marked (h.step e).files := by
  cases e with
  | claim uid =>
    rw [step, claim] at ho hr ⊢
    split at ho
    · cases ho
    · next hc =>
      rw [if_neg hc] at hr ⊢
      exact ha.unowned ho hr
  | job uid code log =>
    have hsame : (h.step (.job uid code log)).owner = h.owner := by
      rw [step, job]
      split <;> [split <;> [rfl; split <;> rfl]; rfl]
    rw [hsame] at ho
    have hskip : h.step (.job uid code log) = h := by simp [step, job, ho]
    rw [hskip] at hr ⊢
    exact ha.unowned ho hr
  | act =>
    rw [step, act_writer.2] at ho
    rw [step, (act_unowned hg ho).2] at hr
    rw [step, (act_unowned hg ho).1]
    exact ha.unowned ho hr
  | cleanup uid =>
    rw [step, cleanup] at ho hr ⊢
    split at hr
    · cases hr
    · next hc =>
      rw [if_neg hc] at ho ⊢
      exact ha.unowned ho hr
  | remove file =>
    rw [step] at ho hr ⊢
    split at hr
    · next hs =>
      rw [show h.removing = none from hr] at hs
      cases hs
    · next hs =>
      rw [if_neg hs] at ho ⊢
      exact ha.unowned ho hr
  | removeOwner =>
    rw [step] at ho hr ⊢
    split at hr
    · next hs =>
      rw [show h.removing = none from hr] at hs
      cases hs
    · next hs =>
      rw [if_neg hs] at ho ⊢
      exact ha.unowned ho hr
  | stop =>
    by_cases hs : h.removing = none
    · exact ha.unowned ho hs
    · exact hC hs ho
  | kubernetes present => exact ha.unowned ho hr

theorem owned_step (hg : h.Guarded) (ha : h.Attributed) (e : HostEvent) (ho : (h.step e).owner ≠ none) :
    Honest (h.step e).jobHost := by
  cases hbefore : h.owner with
  | some uid =>
    have hhonest := ha.owned (by simp [hbefore])
    by_cases hq : Quiet e
    · obtain ⟨-, l, hl⟩ := quiet_step hq hbefore
      rw [hl]
      exact honest_after hhonest l
    · cases e with
      | remove file =>
        rw [step] at ho ⊢
        split
        · next hs =>
          have ht := hg.exclusive (Option.isSome_iff_ne_none.mp hs)
          exact honest_remove hhonest (by simp [jobHost, hbefore]) (by simp [jobHost, ht]) file
        · exact hhonest
      | removeOwner =>
        rw [step] at ho ⊢
        split at ho
        · exact absurd rfl ho
        · next hs =>
          rw [if_neg hs]
          exact hhonest
      | claim | job | act | cleanup | stop | kubernetes => exact absurd trivial hq
  | none =>
    -- only a claim creates a record, and it finds nothing that is marked
    cases e with
    | claim uid =>
      rw [step, claim] at ho ⊢
      split
      · next hc =>
        simp only [Bool.and_eq_true, idle_iff] at hc
        have hm := ha.unowned hbefore hc.1.1.2
        simp only [Marked, not_or, not_not] at hm
        exact honest_none rfl hm.2 (by simp [jobHost, hc.1.1.1])
      · next hc =>
        rw [if_neg hc] at ho
        exact absurd hbefore ho
    | job uid code log =>
      have hskip : h.step (.job uid code log) = h := by simp [step, job, hbefore]
      rw [hskip] at ho
      exact absurd hbefore ho
    | act =>
      rw [step, act_writer.2] at ho
      exact absurd hbefore ho
    | cleanup uid =>
      have hskip : h.step (.cleanup uid) = h := by simp [step, cleanup, hbefore]
      rw [hskip] at ho
      exact absurd hbefore ho
    | remove file =>
      rw [step] at ho
      split at ho
      · exact absurd hbefore ho
      · exact absurd hbefore ho
    | removeOwner =>
      rw [step] at ho
      split at ho
      · exact absurd rfl ho
      · exact absurd hbefore ho
    | stop => exact absurd hbefore ho
    | kubernetes present => exact absurd hbefore ho

theorem attributed_after {kubernetes : Bool} {files : Files JobFile} {events : List HostEvent} (hm : ¬ Marked files)
    (hC : Throughout RecordLast (new kubernetes files) events) : ((new kubernetes files).after events).Attributed := by
  have hrun : ((new kubernetes files).after events).Guarded ∧ ((new kubernetes files).after events).Attributed :=
    throughout_induct (I := fun h => h.Guarded ∧ h.Attributed)
      (fun _ e hi hc => ⟨guarded_step hi.1 e,
        ⟨unowned_step hi.1 hi.2 e hc, owned_step hi.1 hi.2 e⟩⟩)
      ⟨guarded_new kubernetes files, attributed_new kubernetes hm⟩ hC
  exact hrun.2

/-- An observation under one record, which nothing is removed meanwhile, returns what a job
of that record's Machine has recorded. -/
theorem honest_observed {tested : JobHost} (hj : Honest tested) (during rest : List JobEvent) {r : SSHResult}
    (hr : observation N tested (tested.after during) ((tested.after during).after rest) = some (.result r)) :
    ∃ code log, (tested.after during).recorded = some (code, log) ∧ r.exitCode = code.toNat := by
  obtain hs | hb := hj
  · cases ht : tested.files .receipt with
    | none =>
      obtain hp | ⟨m, hm⟩ := observation_early (N := N) ht (tested.after during) ((tested.after during).after rest)
      · rw [hp] at hr
        cases hr
      · rw [hm] at hr
        cases hr
    | some p =>
      obtain ⟨code, log, hR, hobs⟩ | ⟨-, m, hm⟩ := observation_found (N := N) hs (by simp [ht]) during rest
      · rw [hobs] at hr
        obtain ⟨text, -, htext⟩ := Option.map_eq_some_iff.mp hr
        cases htext
        exact ⟨code, log, hR.recorded, rfl⟩
      · rw [hm] at hr
        cases hr
  · exact absurd hr (bare_observed hb.receipt (bare_after (bare_after hb during) rest).output r)

/-- In every run in which no cleanup ends with the record removed and a start mark or a
receipt left: a claim that creates a record finds neither of them, and an observation during
which nothing is removed returns the exit code of a job that was launched for the Machine of
the record and has got the lock since the record was created, or 123 where that job has
found another one interrupted. -/
theorem receipt_attributed (N : Numerals) (kubernetes : Bool) (files : Files JobFile) (events : List HostEvent)
    (hm : ¬ Marked files) (hC : Throughout RecordLast (new kubernetes files) events) :
    (∀ uid, (((new kubernetes files).after events).claim uid).owner ≠ ((new kubernetes files).after events).owner →
      ¬ Marked (((new kubernetes files).after events).claim uid).files) ∧
    ∀ uid, ((new kubernetes files).after events).owner = some uid → ∀ before during rest : List HostEvent,
      (∀ e ∈ before ++ during ++ rest, Quiet e) → ∀ tested catted tailed : ProviderHost,
        tested = ((new kubernetes files).after events).after before → catted = tested.after during →
        tailed = catted.after rest → ∀ r : SSHResult,
          observation N tested.jobHost catted.jobHost tailed.jobHost = some (.result r) →
          ∃ w, catted.writer = some w ∧ w.uid = uid ∧
            r.exitCode = if (w.found .started).isSome then 123 else (w.code.toNat : Int) := by
  have ha := attributed_after hm hC
  have hn : ((new kubernetes files).after events).Named := named_after (fun w hw => by cases hw) events
  generalize (new kubernetes files).after events = h at ha hn
  constructor
  · intro uid hne
    rw [claim] at hne ⊢
    split
    · next hc =>
      simp only [Bool.and_eq_true, idle_iff, Option.isNone_iff_eq_none] at hc
      exact ha.unowned hc.1.2 hc.1.1.2
    · next hc =>
      rw [if_neg hc] at hne
      exact absurd rfl hne
  · rintro uid ho before during rest hq tested catted tailed rfl rfl rfl r hr
    simp only [List.mem_append] at hq
    obtain ⟨ho₁, l₁, h₁⟩ := quiet_after (fun e he => hq e (.inl (.inl he))) ho
    obtain ⟨ho₂, l₂, h₂⟩ := quiet_after (fun e he => hq e (.inl (.inr he))) ho₁
    obtain ⟨-, l₃, h₃⟩ := quiet_after (fun e he => hq e (.inr he)) ho₂
    rw [h₃, h₂] at hr
    have hhonest : Honest (h.after before).jobHost := by
      rw [h₁]
      exact honest_after (ha.owned (by simp [ho])) l₁
    obtain ⟨code, log, hrec, hcode⟩ := honest_observed hhonest l₂ l₃ hr
    rw [← h₂] at hrec
    obtain ⟨w, hw, hrecords⟩ := Option.map_eq_some_iff.mp hrec
    refine ⟨w, hw, ?_, ?_⟩
    · obtain hnone | hsome := named_after (named_after hn before) during w hw
      · rw [ho₂] at hnone
        cases hnone
      · rw [ho₂, Option.some.injEq] at hsome
        exact hsome.symm
    · rw [hcode]
      rw [JobRun.records] at hrecords
      split at hrecords <;> cases hrecords <;> simp_all

/-- A host that is reused: the first Machine's job ends with 7, the second one's with 0. -/
def reusedRun : List HostEvent :=
  [.claim 1, .job 1 7 [], .act, .act, .act, .act, .act, .act, .act, .act, .cleanup 1, .remove .output, .removeOwner,
    .remove .receipt, .remove .started, .stop, .claim 2, .job 2 0 [111], .act, .act, .act, .act, .act, .act, .act,
    .act, .act]

def reusedHost : ProviderHost := (new false fun _ => none).after reusedRun

theorem reusedRun_last : Throughout RecordLast (new false fun _ => none) reusedRun :=
  ⟨trivial, trivial, trivial, trivial, trivial, trivial, trivial, trivial, trivial, trivial, trivial, trivial, trivial,
    trivial, trivial, fun _ _ => (by decide), trivial, trivial, trivial, trivial, trivial, trivial, trivial, trivial,
    trivial, trivial, trivial, trivial⟩

theorem reusedHost_observed : ∃ text, observation asciiNumerals reusedHost.jobHost reusedHost.jobHost
    reusedHost.jobHost = some (.result (receiptResult ((0 : UInt8).toNat : Int) text)) := by
  have hd : (decode (tail 8192 [111])).isSome = true := by decide
  obtain ⟨text, ht⟩ := Option.isSome_iff_exists.mp hd
  refine ⟨String.ofList text, ?_⟩
  have hreceipt : reusedHost.jobHost.files .receipt = some (receiptLine 0) := rfl
  have houtput : reusedHost.jobHost.files .output = some [111] := rfl
  rw [observed_complete rfl rfl hreceipt houtput, ht]
  rfl

theorem reusedHost_owner : ((new false fun _ => none).after reusedRun).owner = some 2 := rfl

theorem after_nil (h : ProviderHost) : h.after [] = h := rfl

theorem reusedHost_after : reusedHost = ((new false fun _ => none).after reusedRun).after [] := by
  rw [after_nil, reusedHost]

/-- The host is cleaned and used by a second Machine, whose job writes the receipt. -/
theorem receipt_attributed_reused : ∃ w, reusedHost.writer = some w ∧ w.uid = 2 := by
  obtain ⟨text, ht⟩ := reusedHost_observed
  have hclean : ¬ Marked (fun _ : JobFile => (none : Option (List UInt8))) := by simp [Marked]
  have hquiet : ∀ e ∈ ([] : List HostEvent) ++ [] ++ [], Quiet e := by simp
  obtain ⟨w, hw, hu, -⟩ := (receipt_attributed asciiNumerals false (fun _ => none) reusedRun hclean reusedRun_last).2 2
    reusedHost_owner [] [] [] hquiet reusedHost reusedHost reusedHost reusedHost_after (after_nil _).symm
    (after_nil _).symm _ ht
  exact ⟨w, hw, hu⟩

end CapiSsh.ProviderHost
