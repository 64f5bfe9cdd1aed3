import CapiSsh.BootstrapJob

/-!
# What the receipt of a bootstrap job shows

A receipt is absent, cut off in the interrupted branch, or complete; it only grows, and
the output stands still once there is one. So an observation that is spread over several
moments of the job still reads one code, the one that stays.
-/
namespace CapiSsh

open ByteFiles

/-- What a job that records `code` and `log` can have left so far. -/
def Shown (f : Files JobFile) (code : UInt8) (log : List UInt8) : Prop :=
  f .receipt = none ∨
  (code = 123 ∧ log = interruptedMessage ∧ f .output = some log ∧
    ∃ k < 4, f .receipt = some ((receiptLine 123).take k)) ∨
  (f .receipt = some (receiptLine code) ∧ f .output = some log)

/-- A receipt that is there is continued, and the output is left alone. -/
def Grows (f g : Files JobFile) : Prop :=
  ∀ p, f .receipt = some p → g .output = f .output ∧ ∃ q, g .receipt = some (p ++ q)

/-- Every state on the way through `todo` is one that can be shown. -/
structure Fine (todo : List (ByteFiles.Op JobFile)) (f : Files JobFile) (code : UInt8)
    (log : List UInt8) : Prop where
  shown : ∀ a b, todo = a ++ b → Shown (run a f) code log
  grows : ∀ a op b, todo = a ++ op :: b → Grows (run a f) (op.apply (run a f))

variable {f g : Files JobFile} {code : UInt8} {log : List UInt8} {todo : List (ByteFiles.Op JobFile)}

theorem Grows.refl : Grows f f := fun p hp => ⟨rfl, [], by simpa using hp⟩

theorem Grows.trans {h : Files JobFile} (hfg : Grows f g) (hgh : Grows g h) : Grows f h := by
  intro p hp
  obtain ⟨ho, q, hq⟩ := hfg p hp
  obtain ⟨ho', q', hq'⟩ := hgh _ hq
  exact ⟨ho'.trans ho, q ++ q', by rw [hq', List.append_assoc]⟩

theorem grows_none (h : f .receipt = none) : Grows f g := by
  intro p hp
  rw [h] at hp
  cases hp

theorem fine_nil (h : Shown f code log) : Fine [] f code log where
  shown a b hab := by
    have ha : a = [] := by simpa using (List.append_eq_nil_iff.mp hab.symm).1
    subst ha
    exact h
  grows a op b hab := by
    simp at hab

theorem Fine.act {op : ByteFiles.Op JobFile} (h : Fine (op :: todo) f code log) :
    Fine todo (op.apply f) code log where
  shown a b hab := h.shown (op :: a) b (by rw [hab]; rfl)
  grows a op' b hab := h.grows (op :: a) op' b (by rw [hab]; rfl)

theorem receipt_untouched {ops : List (ByteFiles.Op JobFile)}
    (hops : ∀ op ∈ ops, op.touches .receipt = false) {a b : List (ByteFiles.Op JobFile)}
    (hab : a ++ b = ops) (hf : f .receipt = none) : run a f .receipt = none := by
  rw [run_untouched fun op ho => hops op (hab ▸ List.mem_append_left b ho), hf]

/-- The operations before the rename do not touch the receipt. -/
theorem payload_quiet : ∀ op ∈ [.touch .started] ++ redirect .output log ++
    redirect .receiptTmp (receiptLine code), ByteFiles.Op.touches JobFile.receipt op = false := by
  intro op ho
  simp only [List.mem_append, List.mem_singleton] at ho
  rcases ho with (rfl | ho) | ho
  · rfl
  · exact redirect_touches (by decide) _ op ho
  · exact redirect_touches (by decide) _ op ho

theorem run_payload : run (payloadProgram code log) f .receipt = some (receiptLine code) ∧
    run (payloadProgram code log) f .output = some log := by
  have htmp : run ([.touch .started] ++ redirect .output log ++ redirect .receiptTmp (receiptLine code)) f
      .receiptTmp = some (receiptLine code) := by
    rw [run_append, run_redirect]
  have hout : run ([.touch .started] ++ redirect .output log ++ redirect .receiptTmp (receiptLine code)) f
      .output = some log := by
    rw [run_append, run_untouched (redirect_touches (by decide) _), run_append, run_redirect]
  rw [payloadProgram, run_append, run_cons, apply_rename htmp]
  exact ⟨by simp [run], by simpa [run] using hout⟩

/-- The payload's receipt appears at once, when everything else is written. -/
theorem fine_payload (hf : f .receipt = none) : Fine (payloadProgram code log) f code log where
  shown a b hab := by
    rcases List.append_eq_append_iff.mp hab with ⟨c, ha, hb⟩ | ⟨c, ha, hb⟩
    · cases c with
      | nil =>
        rw [List.append_nil] at ha
        exact .inl (receipt_untouched payload_quiet (b := []) (by simpa using ha) hf)
      | cons op c =>
        obtain ⟨rfl, hc⟩ := List.cons.inj (show _ :: [] = _ :: (c ++ b) from hb)
        have hc' : c = [] := by simpa using (List.append_eq_nil_iff.mp hc.symm).1
        subst hc'
        have ha' : a = payloadProgram code log := ha
        rw [ha']
        exact .inr (.inr run_payload)
    · exact .inl (receipt_untouched payload_quiet ha.symm hf)
  grows a op b hab := by
    refine grows_none ?_
    rcases List.append_eq_append_iff.mp hab with ⟨c, ha, hb⟩ | ⟨c, ha, hb⟩
    · cases c with
      | nil =>
        rw [List.append_nil] at ha
        exact receipt_untouched payload_quiet (b := []) (by simpa using ha) hf
      | cons op' c =>
        have := congrArg List.length hb
        simp at this
    · exact receipt_untouched payload_quiet ha.symm hf

/-- On the way through the interrupted branch: no receipt yet, or the message is written and
the receipt has begun. -/
theorem interrupted_prefix {a b : List (ByteFiles.Op JobFile)} (hab : a ++ b = interruptedProgram)
    (hf : f .receipt = none) : run a f .receipt = none ∨
      ∃ k ≤ 4, run a f .receipt = some ((receiptLine 123).take k) ∧
        run a f .output = some interruptedMessage ∧
        b = writes .receipt ((receiptLine 123).drop k) := by
  have hquiet : ∀ op ∈ redirect .output interruptedMessage,
      ByteFiles.Op.touches JobFile.receipt op = false := redirect_touches (by decide) _
  rcases List.append_eq_append_iff.mp hab with ⟨c, ha, hb⟩ | ⟨c, ha, hb⟩
  · exact .inl (receipt_untouched hquiet ha.symm hf)
  · rcases prefix_redirect hb.symm with rfl | ⟨k, hk, rfl, rfl⟩
    · rw [List.append_nil] at ha
      subst ha
      exact .inl (receipt_untouched (b := []) hquiet (by simp) hf)
    · subst ha
      refine .inr ⟨k, hk, ?_, ?_, rfl⟩
      · rw [run_append, run_redirect]
      · rw [run_append, run_untouched (redirect_touches (by decide) _), run_redirect]

theorem fine_interrupted (hf : f .receipt = none) : Fine interruptedProgram f 123 interruptedMessage where
  shown a b hab := by
    rcases interrupted_prefix hab.symm hf with h | ⟨k, hk, hr, ho, -⟩
    · exact .inl h
    · rcases Nat.lt_or_ge k 4 with hlt | hge
      · exact .inr (.inl ⟨rfl, rfl, ho, k, hlt, hr⟩)
      · have hfull : (receiptLine 123).take k = receiptLine 123 := List.take_of_length_le hge
        exact .inr (.inr ⟨by rw [hr, hfull], ho⟩)
  grows a op b hab := by
    rcases interrupted_prefix hab.symm hf with h | ⟨k, hk, hr, ho, hb⟩
    · exact grows_none h
    · -- behind the start of the receipt only its own bytes are left to write
      obtain ⟨byte, rfl⟩ : ∃ byte, op = .append .receipt byte := by
        have hop : op ∈ writes .receipt ((receiptLine 123).drop k) := hb ▸ List.mem_cons_self
        obtain ⟨byte, -, hop⟩ := List.mem_map.mp hop
        exact ⟨byte, hop.symm⟩
      intro p hp
      exact ⟨by simp [Op.apply], [byte], by simp [Op.apply, hp]⟩

namespace JobHost

/-- The receipt is complete: it is the one that the job was to record. -/
structure Receipt (h : JobHost) (code : UInt8) (log : List UInt8) : Prop where
  recorded : h.recorded = some (code, log)
  receipt : h.files .receipt = some (receiptLine code)
  output : h.files .output = some log

structure Sound (h : JobHost) : Prop where
  quiet : h.recorded = none → h.files .receipt = none ∧ h.todo = none
  owned : h.recorded ≠ none → h.owned = true
  shown : ∀ code log, h.recorded = some (code, log) → Shown h.files code log
  ahead : ∀ code log todo, h.recorded = some (code, log) → h.todo = some todo →
    Fine todo h.files code log

variable {h : JobHost}

theorem sound_new (owned : Bool) (files : Files JobFile) : (new owned files).Sound where
  quiet _ := by simp [new]
  owned := by simp [new]
  shown := by simp [new]
  ahead := by simp [new]

theorem sound_start (code : UInt8) (log : List UInt8) (hs : h.Sound) : (h.start code log).Sound := by
  cases ht : h.todo with
  | some todo => simpa only [start, ht] using hs
  | none =>
    cases ho : h.owned with
    | false => simpa only [start, ht, ho, Bool.false_eq_true, if_false] using hs
    | true =>
      cases hr : h.files .receipt with
      | some p =>
        simp only [start, ht, ho, hr, if_true, Option.isSome_some]
        have hrec : h.recorded ≠ none := by
          intro hn
          have := (hs.quiet hn).1
          rw [hr] at this
          cases this
        exact ⟨fun hn => absurd hn hrec, fun _ => rfl, hs.shown, fun c l todo hc htodo => by
          cases htodo
          exact fine_nil (hs.shown c l hc)⟩
      | none =>
        have hnone : ∀ c l, Shown h.files c l := fun c l => .inl hr
        cases hst : (h.files .started).isSome with
        | true =>
          simp only [start, ht, ho, hr, hst, if_true, Option.isSome_none, Bool.false_eq_true, if_false]
          refine ⟨by simp, fun _ => rfl, fun c l _ => hnone c l, fun c l todo hc htodo => ?_⟩
          cases hc
          cases htodo
          exact fine_interrupted hr
        | false =>
          simp only [start, ht, ho, hr, hst, if_true, Option.isSome_none, Bool.false_eq_true, if_false]
          refine ⟨by simp, fun _ => rfl, fun c l _ => hnone c l, fun c l todo hc htodo => ?_⟩
          cases hc
          cases htodo
          exact fine_payload hr

theorem sound_step (e : JobEvent) (hs : h.Sound) : (h.step e).Sound := by
  cases e with
  | start code log => exact sound_start code log hs
  | kill => exact ⟨fun hn => ⟨(hs.quiet hn).1, rfl⟩, hs.owned, hs.shown, by simp [step]⟩
  | act =>
    cases ht : h.todo with
    | none => simpa only [step, ht] using hs
    | some todo =>
      have hrec : h.recorded ≠ none := by
        intro hn
        have := (hs.quiet hn).2
        rw [ht] at this
        cases this
      cases todo with
      | nil =>
        simp only [step, ht]
        exact ⟨fun hn => absurd hn hrec, hs.owned, hs.shown, by simp⟩
      | cons op todo =>
        simp only [step, ht]
        refine ⟨fun hn => absurd hn hrec, hs.owned, fun c l hc => ?_, fun c l todo' hc htodo => ?_⟩
        · exact ((hs.ahead c l _ hc ht).act).shown [] todo rfl
        · cases htodo
          exact (hs.ahead c l _ hc ht).act

/-- Once there is a receipt, a turn leaves what is recorded and goes on with its files. -/
structure Keeps (h h' : JobHost) : Prop where
  recorded : h'.recorded = h.recorded
  owned : h'.owned = h.owned
  grows : Grows h.files h'.files

theorem keeps_step (e : JobEvent) (hs : h.Sound) (hr : h.files .receipt ≠ none) :
    Keeps h (h.step e) := by
  have hsome : (h.files .receipt).isSome = true := Option.isSome_iff_ne_none.mpr hr
  cases e with
  | kill => exact ⟨rfl, rfl, .refl⟩
  | start code log =>
    cases ht : h.todo with
    | some todo => simpa only [step, start, ht] using ⟨rfl, rfl, .refl⟩
    | none =>
      cases ho : h.owned with
      | false =>
        simp only [step, start, ht, ho, Bool.false_eq_true, if_false]
        exact ⟨rfl, rfl, .refl⟩
      | true =>
        simp only [step, start, ht, ho, hsome, if_true]
        exact ⟨rfl, ho.symm, .refl⟩
  | act =>
    cases ht : h.todo with
    | none => simpa only [step, ht] using ⟨rfl, rfl, .refl⟩
    | some todo =>
      cases todo with
      | nil => simpa only [step, ht] using ⟨rfl, rfl, .refl⟩
      | cons op todo =>
        cases hrec : h.recorded with
        | none => exact absurd (hs.quiet hrec).1 hr
        | some r =>
          have hg := (hs.ahead r.1 r.2 _ hrec ht).grows [] op todo rfl
          simp only [step, ht]
          exact ⟨rfl, rfl, hg⟩

theorem sound_after (events : List JobEvent) (hs : h.Sound) : (h.after events).Sound := by
  induction events generalizing h with
  | nil => exact hs
  | cons e events ih => exact ih (sound_step e hs)

theorem keeps_after (events : List JobEvent) (hs : h.Sound) (hr : h.files .receipt ≠ none) :
    Keeps h (h.after events) := by
  induction events generalizing h with
  | nil => exact ⟨rfl, rfl, .refl⟩
  | cons e events ih =>
    have hk := keeps_step e hs hr
    obtain ⟨p, hp⟩ := Option.ne_none_iff_exists'.mp hr
    obtain ⟨-, q, hq⟩ := hk.grows p hp
    have hk' := ih (sound_step e hs) (by simp [hq])
    exact ⟨hk'.recorded.trans hk.recorded, hk'.owned.trans hk.owned, hk.grows.trans hk'.grows⟩

theorem receiptLine_ends : (10 : UInt8) ∈ receiptLine code := by
  simp [receiptLine, encode, String.utf8EncodeChar]

/-- A receipt that ends its line is not the beginning of one that is cut off. -/
theorem receiptLine_cut : ∀ k < 4, (10 : UInt8) ∉ (receiptLine 123).take k := by decide

/-- What stays of a receipt that is complete. -/
theorem Receipt.keeps {code : UInt8} {log : List UInt8} (hr : h.Receipt code log) (hs : h.Sound)
    (events : List JobEvent) : (h.after events).Receipt code log := by
  have hk := keeps_after events hs (by simp [hr.receipt])
  obtain ⟨ho, q, hq⟩ := hk.grows _ hr.receipt
  have hrec := hk.recorded.trans hr.recorded
  have hout := ho.trans hr.output
  refine ⟨hrec, ?_, hout⟩
  rcases (sound_after events hs).shown code log hrec with hn | ⟨-, -, -, k, hk4, hcut⟩ | ⟨hfull, -⟩
  · rw [hq] at hn
    cases hn
  · have : (10 : UInt8) ∈ (receiptLine 123).take k := by
      rw [← Option.some.inj (hcut.symm.trans hq).symm]
      exact List.mem_append_left _ receiptLine_ends
    exact absurd this (receiptLine_cut k hk4)
  · exact hfull

end JobHost

namespace JobHost

theorem acts_run {h : JobHost} (ht : h.todo = some todo) :
    h.after (List.replicate todo.length .act) =
      { h with files := run todo h.files, todo := some [] } := by
  induction todo generalizing h with
  | nil =>
    obtain ⟨owned, files, todo', recorded⟩ := h
    cases ht
    rfl
  | cons op todo ih =>
    have hstep : h.step .act = { h with files := op.apply h.files, todo := some todo } := by
      simp only [step, ht]
    rw [List.length_cons, List.replicate_succ, after, List.foldl_cons, hstep]
    exact ih rfl

/-- The launch of a job on a host that it owns, and all its operations. -/
def completion (code : UInt8) (log : List UInt8) : List JobEvent :=
  .start code log :: List.replicate (payloadProgram code log).length .act

theorem after_nil (h : JobHost) : h.after [] = h := rfl

/-- Every payload that is let finish gets its receipt. -/
theorem payload_records {files : Files JobFile} (hf : files .started = none)
    (code : UInt8)
    (log : List UInt8) : ((new true files).after (completion code log)).Receipt code log := by
  have hstart : (new true files).step (.start code log) =
      { new true files with todo := some (payloadProgram code log), recorded := some (code, log) } := by
    simp [step, start, new, hf]
  rw [after, completion, List.foldl_cons, hstart, ← after, acts_run rfl]
  exact ⟨rfl, run_payload.1, run_payload.2⟩

end JobHost

variable {N : Numerals} {tested : JobHost}

/-- An observation that finds a receipt reads the one that is complete when it is read, or
refuses. -/
theorem observation_found (hs : tested.Sound) (ht : tested.files .receipt ≠ none)
    (during rest : List JobEvent) :
    (∃ code log, (tested.after during).Receipt code log ∧
      observation N tested (tested.after during) ((tested.after during).after rest) =
        (decode (tail 8192 log)).map fun text =>
          .result (receiptResult (code.toNat : Int) (String.ofList text))) ∨
    ((∀ code log, ¬ (tested.after during).Receipt code log) ∧
      ∃ m, observation N tested (tested.after during) ((tested.after during).after rest) =
        some (.refused m)) := by
  obtain ⟨p, hp⟩ := Option.ne_none_iff_exists'.mp ht
  have htest : (tested.files .receipt).isSome = true := by simp [hp]
  have hk := JobHost.keeps_after during hs ht
  have hs' := JobHost.sound_after during hs
  obtain ⟨-, q, hq⟩ := hk.grows p hp
  have hk' := JobHost.keeps_after rest hs' (by simp [hq])
  obtain ⟨hout, -⟩ := hk'.grows _ hq
  cases hrec : (tested.after during).recorded with
  | none =>
    have := (hs'.quiet hrec).1
    rw [hq] at this
    cases this
  | some r =>
    have ho : tested.owned = true := by
      rw [← hk.owned]
      exact hs'.owned (by simp [hrec])
    rcases hs'.shown r.1 r.2 hrec with hn | ⟨-, hl, ho', k, hk4, hcut⟩ | ⟨hfull, ho'⟩
    · rw [hq] at hn
      cases hn
    · right
      rw [hl] at ho'
      refine ⟨fun code log hr => ?_, _, observed_broken hk4 ho htest hcut (hout.trans ho')⟩
      have hr' := hr.receipt
      rw [hcut] at hr'
      have hmem : (10 : UInt8) ∈ (receiptLine 123).take k := Option.some.inj hr' ▸ JobHost.receiptLine_ends
      exact JobHost.receiptLine_cut k hk4 hmem
    · exact .inl ⟨r.1, r.2, ⟨hrec, hfull, ho'⟩, observed_complete ho htest hfull (hout.trans ho')⟩

theorem observation_early (ht : tested.files .receipt = none) (catted tailed : JobHost) :
    observation N tested catted tailed = some .pending ∨
      ∃ m, observation N tested catted tailed = some (.refused m) := by
  cases ho : tested.owned with
  | true => exact .inl (observed_pending ho ht)
  | false => exact .inr ⟨_, observed_unowned ho⟩

/-- Observations of the jobs of a Machine UID, over any launches, payloads and kills. Where
the receipt is complete at its beginning, an observation returns a result with the recorded
code if and only if the last 8192 bytes of the output are UTF-8. Where it is not complete
when it is read, the observation is pending or refused. A result is the recorded code with
the decoded end of the log, and no later state records another one. -/
theorem receipt_observed (N : Numerals) (owned : Bool) (files : Files JobFile)
    (before during rest : List JobEvent) (tested catted tailed : JobHost)
    (ht : tested = (JobHost.new owned files).after before) (hc : catted = tested.after during)
    (hl : tailed = catted.after rest) :
    (∀ code log, tested.Receipt code log →
      ((∃ text, observation N tested catted tailed = some (.result (receiptResult (code.toNat : Int) text))) ↔
        (decode (tail 8192 log)).isSome = true)) ∧
    ((∀ code log, ¬ catted.Receipt code log) →
      observation N tested catted tailed = some .pending ∨
        ∃ m, observation N tested catted tailed = some (.refused m)) ∧
    (∀ r, observation N tested catted tailed = some (.result r) →
      ∃ code log text, (∀ later, (tailed.after later).Receipt code log) ∧
        decode (tail 8192 log) = some text ∧ r = receiptResult (code.toNat : Int) (String.ofList text)) := by
  have hs : tested.Sound := ht ▸ JobHost.sound_after before (JobHost.sound_new owned files)
  subst hc hl
  cases hr : tested.files .receipt with
  | none =>
    have hearly := observation_early (N := N) hr (tested.after during) ((tested.after during).after rest)
    refine ⟨fun code log h => ?_, fun _ => hearly, fun r h => ?_⟩
    · have := h.receipt
      rw [hr] at this
      cases this
    · rcases hearly with h' | ⟨m, h'⟩
      · rw [h'] at h
        cases h
      · rw [h'] at h
        cases h
  | some p =>
    rcases observation_found (N := N) hs (by simp [hr]) during rest with
      ⟨code, log, hR, hobs⟩ | ⟨hno, m, hobs⟩
    · refine ⟨fun code' log' h => ?_, fun h => absurd hR (h code log), fun r h => ?_⟩
      · have h' := h.keeps hs during
        have heq : (code', log') = (code, log) := Option.some.inj (h'.recorded.symm.trans hR.recorded)
        cases heq
        rw [hobs]
        cases decode (tail 8192 log) <;> simp
      · rw [hobs] at h
        cases hd : decode (tail 8192 log) with
        | none => simp [hd] at h
        | some text =>
          refine ⟨code, log, text, fun later => ?_, hd, ?_⟩
          · have hs' := JobHost.sound_after during hs
            exact (hR.keeps hs' rest).keeps (JobHost.sound_after rest hs') later
          · simpa [hd] using h.symm
    · refine ⟨fun code log h => absurd (h.keeps hs during) (hno code log), fun _ => .inr ⟨m, hobs⟩,
        fun r h => ?_⟩
      rw [hobs] at h
      cases h

/-- A table that knows no digits but those of ASCII. -/
def asciiNumerals : Numerals := ⟨id, fun _ _ => rfl⟩

/-- A payload that exits with 0 and has printed these bytes. -/
def printed (log : List UInt8) : JobHost :=
  (JobHost.new true fun _ => none).after (JobHost.completion 0 log)

theorem printed_eq (log : List UInt8) :
    printed log = (JobHost.new true fun _ => none).after (JobHost.completion 0 log) := rfl

theorem printed_receipt (log : List UInt8) : (printed log).Receipt 0 log :=
  JobHost.payload_records rfl 0 log

/-- Exit code 0 and the output `ok`. -/
theorem receipt_observed_ok :
    ∃ text, observation asciiNumerals (printed [111, 107, 10]) (printed [111, 107, 10])
      (printed [111, 107, 10]) = some (.result (receiptResult (0 : UInt8).toNat text)) := by
  have hd : (decode (tail 8192 [111, 107, 10])).isSome = true := by decide
  exact ((receipt_observed asciiNumerals true (fun _ => none) (JobHost.completion 0 [111, 107, 10])
    [] [] (printed [111, 107, 10]) (printed [111, 107, 10]) (printed [111, 107, 10])
    (printed_eq _) (JobHost.after_nil _).symm (JobHost.after_nil _).symm).1 0 _ (printed_receipt [111, 107, 10])).mpr hd

/-- The output ends in a byte that is no text: nothing is ever observed. -/
theorem receipt_undecodable :
    (printed [255]).Receipt 0 [255] ∧
      ∀ text, observation asciiNumerals (printed [255]) (printed [255]) (printed [255]) ≠
        some (.result (receiptResult (0 : UInt8).toNat text)) := by
  have hr := printed_receipt [255]
  refine ⟨hr, fun text => ?_⟩
  have hd : decode (tail 8192 [255]) = none := by decide
  rw [observed_complete rfl (by rw [hr.receipt]; rfl) hr.receipt hr.output, hd]
  simp

end CapiSsh
