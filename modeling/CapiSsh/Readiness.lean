import CapiSsh.ConditionRules
import CapiSsh.HandlerReplay
import CapiSsh.Permits
import CapiSsh.Serial
import CapiSsh.Sessions

/-!
# What reconciliation reports

The ready flag, the provisioned flag and three conditions of a status are to agree, however
an attempt ends. Between the staging of flags and of the conditions that go with them
nothing can fail, so what Kopf would store is coherent at every exit of a reconciliation.
-/
namespace CapiSsh

open Effect Interference Keyed

/-- The condition of this type is True. -/
def Shows (st : MachineStatus) (t : String) : Prop := ∃ c ∈ st.conditions, c.type = t ∧ c.status = "True"

/-- A status says one thing about readiness. -/
structure Coherent (st : MachineStatus) : Prop where
  ready : st.ready = some true ↔ Shows st "Ready"
  provisioned : st.ready = some true → st.provisioned = some true
  infrastructure : st.ready = some true → Shows st "InfrastructureReady"
  bootstrap : st.ready = some true → Shows st "BootstrapExecSucceeded"

/-- So does one whose condition list is keyed, and no cleanup was recorded of a ready Machine. -/
structure Reliable (st : MachineStatus) : Prop where
  coherent : Coherent st
  wellFormed : WellFormed st.conditions
  cleanup : st.cleanup.isSome = true → st.ready ≠ some true

variable {S : Setting} {i : MachineRef} {m : Machine} {P : Powers} {st st' : MachineStatus} {p q : StatusPatch}
  {cs : List Condition} {t : String}

theorem shows_iff (h : WellFormed st.conditions) : Shows st t ↔ verdict t st.conditions = some "True" :=
  (verdict_iff h).symm

/-- What of a status has to do with readiness. -/
structure Report where
  ready : Option Bool
  provisioned : Option Bool
  conditions : List Condition
  cleanup : Option CleanupPhase

def MachineStatus.report (st : MachineStatus) : Report := ⟨st.ready, st.provisioned, st.conditions, st.cleanup⟩

theorem reliable_report (h : st'.report = st.report) (hr : Reliable st) : Reliable st' := by
  simp only [MachineStatus.report, Report.mk.injEq] at h
  obtain ⟨h₁, h₂, h₃, h₄⟩ := h
  obtain ⟨⟨hc₁, hc₂, hc₃, hc₄⟩, hw, ho⟩ := hr
  simp only [Shows, ← h₁, ← h₂, ← h₃, ← h₄] at hc₁ hc₂ hc₃ hc₄ hw ho
  exact ⟨⟨hc₁, hc₂, hc₃, hc₄⟩, hw, ho⟩

theorem reliable_empty : Reliable .empty := by
  refine ⟨⟨⟨by rintro ⟨⟩, ?_⟩, by rintro ⟨⟩, by rintro ⟨⟩, by rintro ⟨⟩⟩, wellFormed_nil, by rintro ⟨⟩⟩
  rintro ⟨c, ⟨⟩, -⟩

/-- A status that is not ready, and says so. -/
theorem reliable_down (hr : st.ready ≠ some true) (hw : WellFormed st.conditions)
    (hv : verdict "Ready" st.conditions ≠ some "True") : Reliable st :=
  ⟨⟨⟨fun h => absurd h hr, fun h => absurd ((shows_iff hw).mp h) hv⟩, fun h => absurd h hr, fun h => absurd h hr,
    fun h => absurd h hr⟩, hw, fun _ => hr⟩

theorem reliable_verdict (h : Reliable st) (hr : st.ready ≠ some true) : verdict "Ready" st.conditions ≠ some "True" :=
  fun hv => hr (h.coherent.ready.mpr ((shows_iff h.wellFormed).mpr hv))

/-- A status write keeps a reliable status so, a deletion's leaves the Machine not ready,
and only a Machine that was not being deleted becomes ready. -/
structure Upright (i : MachineRef) (a : Attempt) (e : Exchange) (earlier : List Exchange) : Prop where
  reliable : Reliable (statusOf (journal i e.before)) → Reliable (statusOf (journal i e.after))
  wakes : (statusOf (journal i e.after)).ready = some true → (statusOf (journal i e.before)).ready = some true ∨
    a ≠ .delete ∧ ∃ m, live i earlier = some m ∧ m.metadata.deletionTimestamp = none
  deletes : a = .delete → ∀ p, journal i e.after = .status p :: journal i e.before → p ≠ .empty →
    (statusOf (journal i e.after)).ready ≠ some true

/-- What it has read is reliable. -/
def ReadsReliable (i : MachineRef) (calls : List Exchange) : Prop :=
  ∀ m, live i calls = some m → Reliable m.status

def UprightIf (i : MachineRef) (a : Attempt) (e : Exchange) (earlier : List Exchange) : Prop :=
  e.op.writesStatus = true → ReadsReliable i earlier → Upright i a e earlier

/-- A deletion that waits for a reboot persists no status of a ready Machine. -/
def Waits (i : MachineRef) (l : Local) (op : Op) (before after : World) : Prop :=
  l.kind = .delete → ∀ m, live i l.calls = some m → (m.status.reboot.getD .empty).pending = true →
    op.applies = false → ∀ p, journal i after = .status p :: journal i before →
      (statusOf (journal i before)).ready ≠ some true

/-- What a serialized attempt relies on, and one of `u` besides. -/
def Attentive (S : Setting) (u i : MachineRef) (l : Local) (e : Exchange) : Prop :=
  Serial S i l e ∧ (i = u → Waits i l e.op e.before e.after)

/-- The status that Kopf would store now. -/
def Local.outlook (l : Local) (i : MachineRef) : MachineStatus := l.staged.status.apply (l.stored i)

theorem upright_other {a : Attempt} {e : Exchange} {earlier : List Exchange} (h : e.op.writesStatus = false) :
    UprightIf i a e earlier := fun hw => by rw [h] at hw; cases hw

/-- A write that was not made. -/
theorem upright_unlogged {a : Attempt} {e : Exchange} {earlier : List Exchange}
    (h : journal i e.after = journal i e.before) : Upright i a e earlier :=
  ⟨fun hr => by rw [h]; exact hr, fun hr => .inl (by rw [← h]; exact hr),
    fun _ p hp => absurd (congrArg List.length (h.symm.trans hp)) (by simp)⟩

/-- Everything but reporting. -/
def quiet : Powers :=
  ⟨True, True, True, True, False, False, False, True, True, True, True, True, True, False, fun _ => True⟩

/-- The same without persisting anything. -/
def silent : Powers := { quiet with look := False }

/-- The parts of a patch that have to do with readiness. -/
structure SameReport (p q : StatusPatch) : Prop where
  ready : q.ready = p.ready
  provisioned : q.provisioned = p.provisioned
  conditions : q.conditions = p.conditions
  cleanup : q.cleanup = p.cleanup ∨ q.cleanup = none

section calls

variable {op : Op} {c : Choice} {r : Except Exc (Reply op)} {w w' : World} {l : Local}

theorem quiet_staged (hop : quiet.allows i op) (ha : answer S.boots i op c w = some (r, w')) :
    SameReport (w.staged i).status (w'.staged i).status := by
  by_cases hf : ∃ f, op = .stage f
  · obtain ⟨f, rfl⟩ := hf
    obtain ⟨t, rfl⟩ := answer_stage ha
    have h : quiet.stages (w.staged i).status (f t (w.staged i)).status := hop t _
    rw [show (w.restage i (f t (w.staged i))).staged i = f t (w.staged i) from restage_same _ _ _]
    obtain ⟨hr, hc⟩ := h.ready.resolve_left id
    exact ⟨hr, h.provisioned.resolve_left id, hc, h.cleanup⟩
  · rw [answer_staged ha fun f ho => hf ⟨f, ho⟩]
    exact ⟨rfl, rfl, rfl, .inl rfl⟩

theorem quiet_stored (hop : quiet.allows i op) (ha : answer S.boots i op c w = some (r, w')) :
    (statusOf (journal i w')).report = (statusOf (journal i w)).report := by
  by_cases hst : op.writesStatus = true
  · cases op with
    | patchMachineStatus key pre p =>
      obtain ⟨hk, hu, -, hp⟩ := hop
      obtain ⟨hc, hr, hcs⟩ := hp.cleanup.resolve_left id
      rcases answer_patchStatus ha with ⟨rfl, -⟩ | ⟨m, -, -, rfl⟩
      · rfl
      · have hi : (⟨key, pre.uid⟩ : MachineRef) = i := by rw [hk, hu]
        rw [hi, journal_note_same]
        simp [MachineStatus.report, statusOf, StatusPatch.apply, hc, hr, hcs, hp.provisioned]
    | applyStaged key => exact hop.2.elim
    | _ => cases hst
  · rw [written_status (answer_written ha) (by simpa using hst)]

/-- An attempt of this kind on `m`, with what is stored and what it has staged. -/
structure Stands (i : MachineRef) (m : Machine) (a : Attempt) (F : MachineStatus → StatusPatch → Prop) (l : Local) :
    Prop where
  live : live i l.calls = some m
  kind : l.kind = a
  holds : F (l.stored i) l.staged.status

/-- What the calls that do not report leave alone. -/
def Blind (F : MachineStatus → StatusPatch → Prop) : Prop :=
  ∀ st st' p q, st'.report = st.report → SameReport p q → F st p → F st' q

variable {a : Attempt} {F F' : MachineStatus → StatusPatch → Prop}

theorem stands_push (h : Stands i m a F l) (hF : F' (statusOf (journal i w')) (w'.staged i).status) :
    Stands i m a F' (l.push i ⟨op, r, w, w'⟩) :=
  ⟨live_cons _ h.live, h.kind, hF⟩

theorem quiet_push (hF : Blind F) (h : Stands i m a F l) (hop : quiet.allows i op) (hs : w.staged i = l.staged)
    (ha : answer S.boots i op c w = some (r, w')) (hk : Serial S i l ⟨op, r, w, w'⟩) :
    Stands i m a F (l.push i ⟨op, r, w, w'⟩) := by
  have hstored : (statusOf (journal i w')).report = (l.stored i).report := by
    rw [quiet_stored hop ha, serial_stored hk]
  have hstaged : SameReport l.staged.status (w'.staged i).status := by
    rw [← hs]
    exact quiet_staged hop ha
  exact stands_push h (hF _ _ _ _ hstored hstaged h.holds)

theorem silent_quiet (h : silent.allows i op) : quiet.allows i op ∧ op.writesStatus = false := by
  cases op with
  | readMachine key => exact h.2.elim
  | patchMachine key pre p => exact h.2.2.1.elim
  | patchMachineStatus key pre p => exact h.2.2.1.elim
  | applyStaged key => exact h.2.elim
  | stage f =>
    refine ⟨fun t p => ?_, rfl⟩
    obtain ⟨h₁, h₂, h₃, h₄, h₅, h₆⟩ := h t p
    exact ⟨h₁, h₂, h₃, h₄, h₅, h₆⟩
  | _ => exact ⟨h, rfl⟩

end calls

section rules

variable {a : Attempt} {F F' : MachineStatus → StatusPatch → Prop}

theorem keeps_silent (hF : Blind F) :
    Keeps S (Attentive S i) i (UprightIf i) (silent.allows i) (Stands i m a F) := by
  intro op hop l c w r w' hl hs ha hk
  obtain ⟨hq, hst⟩ := silent_quiet hop
  exact ⟨upright_other hst, quiet_push hF hl hq hs ha hk.1⟩

/-- A deletion persists what does not report when it waits for a reboot, or when its
Machine is not ready. -/
theorem keeps_quiet (hF : Blind F) (hd : a = .delete → (m.status.reboot.getD .empty).pending = true ∨
      ∀ st p, F st p → st.ready ≠ some true) :
    Keeps S (Attentive S i) i (UprightIf i) (quiet.allows i) (Stands i m a F) := by
  intro op hop l c w r w' hl hs ha hk
  refine ⟨?_, quiet_push hF hl hop hs ha hk.1⟩
  have hreport : (statusOf (journal i w')).report = (statusOf (journal i w)).report := quiet_stored hop ha
  have hready : (statusOf (journal i w')).ready = (statusOf (journal i w)).ready := congrArg Report.ready hreport
  refine fun _ _ => ⟨reliable_report hreport, fun hr => .inl (hready ▸ hr), fun hkind p hj _ => ?_⟩
  obtain happ : op.applies = false := by
    cases op with
    | applyStaged key => exact hop.2.elim
    | _ => rfl
  rw [hready]
  rcases hd (hl.kind ▸ hkind) with hp | hn
  · exact hk.2 rfl hkind m hl.live hp happ p hj
  · rw [serial_stored hk.1]
    exact hn _ _ hl.holds

/-- Staging never fails. -/
theorem walks_stage {f : Time → Patch → Patch} {E : Exc → Local → Prop}
    (h : ∀ t st p, F st p.status → F' st (f t p).status) :
    Walks S (Attentive S i) i (UprightIf i) (Stands i m a F) (stage f) (fun _ => Stands i m a F') E := by
  refine walks_call fun l c w r w' hl hs ha hk => ?_
  cases c with
  | time t =>
    cases ha
    refine ⟨upright_other rfl, stands_push hl ?_⟩
    rw [restage_same, hs]
    exact (serial_stored hk.1).symm ▸ h t _ _ hl.holds
  | _ => cases ha

theorem walks_now {E : Exc → Local → Prop} :
    Walks S (Attentive S i) i (UprightIf i) (Stands i m a F) (call .now) (fun _ => Stands i m a F) E := by
  refine walks_call fun l c w r w' hl hs ha hk => ?_
  cases c with
  | time t =>
    cases ha
    refine ⟨upright_other rfl, stands_push hl ?_⟩
    rw [hs]
    exact (serial_stored hk.1).symm ▸ hl.holds
  | _ => cases ha

end rules

/-- The conditions that would be stored. -/
def view (st : MachineStatus) (p : StatusPatch) : List Condition := p.conditions.getD st.conditions

/-- What a reconcile attempt has staged so far does not forget a condition. -/
structure Drafts (m : Machine) (st : MachineStatus) (p : StatusPatch) : Prop where
  stored : st.report = m.status.report
  cleanup : p.cleanup = none
  wellFormed : WellFormed (view m.status p)
  covers : ∀ t, t ≠ "" → verdict t (view m.status p) = none → verdict t m.status.conditions = none

/-- It says nothing of readiness. -/
structure Mute (m : Machine) (st : MachineStatus) (p : StatusPatch) : Prop extends Drafts m st p where
  ready : p.ready = none
  provisioned : p.provisioned = none
  verdicts : ∀ t ∈ lifecycleTypes, verdict t (view m.status p) = verdict t m.status.conditions

/-- What it says of readiness makes a reliable status. -/
structure Telling (m : Machine) (st : MachineStatus) (p : StatusPatch) : Prop extends Drafts m st p where
  reliable : Reliable (p.apply m.status)

theorem view_same (h : SameReport p q) : view st q = view st p := by rw [view, h.conditions, view]

theorem drafts_blind : Blind (Drafts m) := by
  intro st st' p q hst hp h
  refine ⟨hst.trans h.stored, ?_, ?_, ?_⟩
  · rcases hp.cleanup with hc | hc
    · rw [hc, h.cleanup]
    · exact hc
  · rw [view_same hp]; exact h.wellFormed
  · rw [view_same hp]; exact h.covers

theorem mute_blind : Blind (Mute m) := by
  intro st st' p q hst hp h
  refine ⟨drafts_blind st st' p q hst hp h.toDrafts, hp.ready.trans h.ready, hp.provisioned.trans h.provisioned, ?_⟩
  rw [view_same hp]
  exact h.verdicts

theorem telling_blind : Blind (Telling m) := by
  intro st st' p q hst hp h
  have hd := drafts_blind st st' p q hst hp h.toDrafts
  refine ⟨hd, reliable_report ?_ h.reliable⟩
  simp [MachineStatus.report, StatusPatch.apply, hp.ready, hp.provisioned, hp.conditions, hd.cleanup, h.cleanup]

/-- A reliable status stays so when only other conditions change. -/
theorem mute_telling (hm : Reliable m.status) (h : Mute m st p) : Telling m st p := by
  have hshow : ∀ t ∈ lifecycleTypes, Shows (p.apply m.status) t ↔ Shows m.status t := by
    intro t ht
    rw [shows_iff (show WellFormed (p.apply m.status).conditions from h.wellFormed), shows_iff hm.wellFormed]
    exact iff_of_eq (congrArg (· = some "True") (h.verdicts t ht))
  have hready : (p.apply m.status).ready = m.status.ready := by simp [StatusPatch.apply, h.ready]
  have hprov : (p.apply m.status).provisioned = m.status.provisioned := by simp [StatusPatch.apply, h.provisioned]
  have hcleanup : (p.apply m.status).cleanup = m.status.cleanup := by simp [StatusPatch.apply, h.cleanup]
  refine ⟨h.toDrafts, ⟨?_, ?_, ?_, ?_⟩, h.wellFormed, ?_⟩
  · rw [hready, hshow _ (by simp [lifecycleTypes])]; exact hm.coherent.ready
  · rw [hready, hprov]; exact hm.coherent.provisioned
  · rw [hready, hshow _ (by simp [lifecycleTypes])]; exact hm.coherent.infrastructure
  · rw [hready, hshow _ (by simp [lifecycleTypes])]; exact hm.coherent.bootstrap
  · rw [hready, hcleanup]; exact hm.cleanup

/-- The conditions after one more report. -/
def patched (now : Time) (generation : Option Nat) (m : Machine) (p : StatusPatch) (updates : List Condition) :
    List Condition :=
  mergeConditions now (byType (m.status.conditions ++ p.conditions.getD [])) updates generation

variable {now : Time} {generation : Option Nat} {updates : List Condition}

theorem patched_raw (ht : t ≠ "") : verdict t (patched now generation m p updates) =
    (verdict t updates).or ((verdict t (p.conditions.getD [])).or (verdict t m.status.conditions)) := by
  rw [patched, verdict_merged ht, verdict_byType ht, verdict_append]

theorem patched_verdict (h : Drafts m st p) (ht : t ≠ "") :
    verdict t (patched now generation m p updates) = (verdict t updates).or (verdict t (view m.status p)) := by
  rw [patched_raw ht, view]
  cases hc : p.conditions with
  | none => rfl
  | some cs =>
    have hcov := h.covers t ht
    rw [view, hc, Option.getD_some] at hcov
    change (verdict t updates).or ((verdict t cs).or (verdict t m.status.conditions)) = _
    cases hv : verdict t cs with
    | none => rw [hcov hv, Option.getD_some, hv]; rfl
    | some v => rw [Option.some_or, Option.getD_some, hv]

theorem patched_wellFormed (hm : WellFormed m.status.conditions) (hp : ∀ cs, p.conditions = some cs → WellFormed cs)
    (hu : ∀ c ∈ updates, isVerdict c.status) : WellFormed (patched now generation m p updates) := by
  refine merged_wellFormed (byType_verdicts fun c hc => ?_) hu
  rcases List.mem_append.mp hc with hc | hc
  · exact hm.verdicts c hc
  · cases hcs : p.conditions with
    | none => rw [hcs] at hc; cases hc
    | some cs => rw [hcs] at hc; exact (hp cs hcs).verdicts c hc

/-- Reporting something. -/
theorem drafts_patched (hm : WellFormed m.status.conditions) (h : Drafts m st p)
    (hu : ∀ c ∈ updates, isVerdict c.status) :
    Drafts m st { p with conditions := some (patched now generation m p updates) } := by
  refine ⟨h.stored, h.cleanup, ?_, fun t ht hn => ?_⟩
  · exact patched_wellFormed hm (fun cs hcs => by simpa [view, hcs] using h.wellFormed) hu
  · have hn : verdict t (patched now generation m p updates) = none := hn
    rw [patched_verdict h ht, Option.or_eq_none_iff] at hn
    exact h.covers t ht hn.2

/-- What is said of other types does not concern readiness. -/
theorem mute_patched (hm : WellFormed m.status.conditions) (h : Mute m st p) (hu : ∀ c ∈ updates, isVerdict c.status)
    (ht : ∀ t ∈ lifecycleTypes, verdict t updates = none) :
    Mute m st { p with conditions := some (patched now generation m p updates) } := by
  refine ⟨drafts_patched hm h.toDrafts hu, h.ready, h.provisioned, fun t hmem => ?_⟩
  have hne : t ≠ "" := by
    rintro rfl
    simp [lifecycleTypes] at hmem
  exact (patched_verdict h.toDrafts hne).trans (by rw [ht t hmem, Option.none_or]; exact h.verdicts t hmem)

theorem boolText_verdict (b : Bool) : isVerdict (boolText b) := by
  cases b
  · exact .inr (.inl rfl)
  · exact .inl rfl

theorem lifecycle_verdicts (r : LifecycleReport) : ∀ c ∈ machineLifecycleConditions now r, isVerdict c.status := by
  intro c hc
  rcases List.mem_append.mp hc with hc | hc
  · simp only [List.mem_cons, List.not_mem_nil, or_false] at hc
    rcases hc with rfl | rfl | rfl <;> exact boolText_verdict _
  · obtain ⟨e, -, rfl⟩ := List.mem_map.mp hc
    exact .inl rfl

/-- A report speaks of readiness, infrastructure and bootstrap, whatever it adds. -/
theorem lifecycle_verdict (r : LifecycleReport) (hx : ∀ e ∈ r.extras, e.1 ∉ lifecycleTypes) :
    verdict "Ready" (machineLifecycleConditions now r) = some (boolText r.ready) ∧
      verdict "InfrastructureReady" (machineLifecycleConditions now r) = some (boolText r.ready) ∧
      verdict "BootstrapExecSucceeded" (machineLifecycleConditions now r) = some (boolText r.bootstrapSucceeded) := by
  have hextras : ∀ t ∈ lifecycleTypes,
      verdict t (r.extras.map fun e => timedCondition now e.1 "True" e.2.1 e.2.2) = none := by
    refine fun t ht => standing_absent fun hmem => ?_
    obtain ⟨c, hc, rfl⟩ := List.mem_map.mp hmem
    obtain ⟨e, he, rfl⟩ := List.mem_map.mp hc
    exact hx e he ht
  simp only [machineLifecycleConditions, verdict_append]
  refine ⟨?_, ?_, ?_⟩ <;> rw [hextras _ (by simp [lifecycleTypes])] <;> simp [verdict, standing, timedCondition]

/-- The report that goes with the flags that are staged. -/
theorem telling_reported {time : Time} (hm : WellFormed m.status.conditions) {r : LifecycleReport} (h : Drafts m st p)
    (hready : p.ready = some r.ready) (hx : ∀ e ∈ r.extras, e.1 ∉ lifecycleTypes)
    (htrue : r.ready = true → (p.apply m.status).provisioned = some true ∧ r.bootstrapSucceeded = true ∧
      m.status.cleanup = none) :
    Telling m st { p with conditions := some (patched time generation m p (machineLifecycleConditions now r)) } := by
  have hd := @drafts_patched m st p time generation _ hm h (@lifecycle_verdicts now r)
  obtain ⟨h₁, h₂, h₃⟩ := @lifecycle_verdict now r hx
  have hsays : ∀ t v, t ≠ "" → verdict t (machineLifecycleConditions now r) = some v →
      verdict t (patched time generation m p (machineLifecycleConditions now r)) = some v := by
    intro t v ht hv
    rw [patched_verdict h ht, hv, Option.some_or]
  have hr := hsays _ _ (by decide) h₁
  have hi := hsays _ _ (by decide) h₂
  have hb := hsays _ _ (by decide) h₃
  refine ⟨hd, ?_⟩
  cases hready' : r.ready with
  | false =>
    refine reliable_down ?_ hd.wellFormed ?_
    · simp [StatusPatch.apply, hready, hready']
    · rw [show (StatusPatch.apply _ m.status).conditions = patched time generation m p _ from rfl, hr, hready']
      decide
  | true =>
    obtain ⟨hp, hs, hc⟩ := htrue hready'
    rw [hready'] at hr hi
    rw [hs] at hb
    have hshow : ∀ t, verdict t (patched time generation m p (machineLifecycleConditions now r)) = some "True" →
        Shows (StatusPatch.apply { p with conditions := some (patched time generation m p
          (machineLifecycleConditions now r)) } m.status) t := fun t ht => (shows_iff hd.wellFormed).mpr ht
    refine ⟨⟨iff_of_true ?_ (hshow _ hr), fun _ => hp, fun _ => hshow _ hi, fun _ => hshow _ hb⟩, hd.wellFormed, ?_⟩
    · simp [StatusPatch.apply, hready, hready']
    · intro hsome
      simp [StatusPatch.apply, h.cleanup, hc] at hsome

section reconcile

variable {a : Attempt} {l : Local} {E : Exc → Local → Prop}

theorem stands_weaken {F F' : MachineStatus → StatusPatch → Prop} (h : Stands i m a F l)
    (hF : ∀ st p, F st p → F' st p) : Stands i m a F' l :=
  ⟨h.live, h.kind, hF _ _ h.holds⟩

/-- The attempt may go on to report whatever it finds. -/
abbrev Tells (S : Setting) (i : MachineRef) (m : Machine) (a : Attempt) (p : Act α) : Prop :=
  Walks S (Attentive S i) i (UprightIf i) (Stands i m a (Telling m)) p (fun _ => Stands i m a (Telling m))
    fun _ => Stands i m a (Telling m)

/-- The flags of a report are staged. -/
structure Flagged (m : Machine) (r : LifecycleReport) (st : MachineStatus) (p : StatusPatch) : Prop
    extends Drafts m st p where
  ready : p.ready = some r.ready
  provisioned : r.ready = true → (p.apply m.status).provisioned = some true

/-- A report that may be made of `m`. -/
structure Fair (m : Machine) (r : LifecycleReport) : Prop where
  extras : ∀ e ∈ r.extras, e.1 ∉ lifecycleTypes
  bootstrap : r.ready = true → r.bootstrapSucceeded = true ∧ m.status.cleanup = none

theorem walks_reportLifecycle (hm : WellFormed m.status.conditions) {r : LifecycleReport} (hr : Fair m r) :
    Walks S (Attentive S i) i (UprightIf i) (Stands i m a (Flagged m r)) (reportLifecycle m.status m.metadata r)
      (fun _ => Stands i m a (Telling m)) E := by
  refine walks_bind walks_now fun now => walks_stage fun time st p h => ?_
  exact telling_reported hm h.toDrafts h.ready hr.extras fun ht =>
    ⟨h.provisioned ht, (hr.bootstrap ht).1, (hr.bootstrap ht).2⟩

theorem walks_stageReady {r : LifecycleReport} {ready provisioned : Bool} (hready : ready = r.ready)
    (hp : r.ready = true → provisioned = true) :
    Walks S (Attentive S i) i (UprightIf i) (Stands i m a (Drafts m)) (stageReady ready provisioned)
      (fun _ => Stands i m a (Flagged m r)) E := by
  refine walks_stage fun t st p h => ⟨⟨h.stored, h.cleanup, h.wellFormed, h.covers⟩, congrArg some hready, fun ht => ?_⟩
  rw [hp ht]
  rfl

/-- Flags and conditions of one report. -/
theorem walks_report {f : Unit → Act β} {B : β → Local → Prop} (hm : WellFormed m.status.conditions)
    {r : LifecycleReport} {ready provisioned : Bool} (hr : Fair m r) (hready : ready = r.ready)
    (hp : r.ready = true → provisioned = true)
    (hf : Walks S (Attentive S i) i (UprightIf i) (Stands i m a (Telling m)) (f ()) B E) :
    Walks S (Attentive S i) i (UprightIf i) (Stands i m a (Telling m))
      (stageReady ready provisioned >>= fun _ => reportLifecycle m.status m.metadata r >>= f) B E :=
  walks_bind (walks_weaken (walks_stageReady hready hp) fun _ hl => stands_weaken hl fun _ _ h => h.toDrafts)
    fun _ => walks_bind (walks_reportLifecycle hm hr) fun _ => hf

theorem tells_reportNotReady (hm : WellFormed m.status.conditions) {reason message bootstrapReason
    bootstrapMessage : String} :
    Tells S i m a (reportNotReady m.status m.metadata reason message bootstrapReason bootstrapMessage) :=
  walks_bind (walks_weaken (walks_stageReady rfl (by rintro ⟨⟩)) fun _ hl => stands_weaken hl fun _ _ h => h.toDrafts)
    fun _ => walks_reportLifecycle hm ⟨by rintro e ⟨⟩, by rintro ⟨⟩⟩

theorem tells_silent {p : Act α} (hp : p.Only (silent.allows i)) : Tells S i m a p :=
  walks_kept (keeps_silent telling_blind) hp

theorem tells_quiet (ha : a ≠ .delete) {p : Act α} (hp : p.Only (quiet.allows i)) : Tells S i m a p :=
  walks_kept (keeps_quiet telling_blind fun h => absurd h ha) hp

theorem tells_throw {e : Exc} : Tells S i m a (throw e : Act α) := walks_throw fun _ hl => hl

theorem tells_pure {x : α} : Tells S i m a (pure x) := walks_pure fun _ hl => hl

theorem tells_onlyIf {c : Prop} [Decidable c] {p : Act Unit} (h : c → Tells S i m a p) : Tells S i m a (onlyIf c p) :=
  walks_onlyIf h fun _ _ hl => hl

variable (hm : WellFormed m.status.conditions)

include hm

theorem tells_bootstrapError {e : Exc} : Tells S i m a (bootstrapError m.status m.metadata e : Act α) := by
  unfold bootstrapError
  split <;> first | exact tells_throw | exact walks_bind (tells_reportNotReady hm) fun _ => tells_throw

theorem tells_reportProvisioned (hc : m.status.cleanup = none) {address providerID strategy : String} :
    Tells S i m a (reportProvisioned m.status m.metadata address providerID strategy) := by
  refine walks_bind (A := fun _ => Stands i m a (Telling m)) (walks_stage fun t st p h => h) fun _ => ?_
  refine walks_bind (walks_weaken (walks_stageReady rfl fun _ => rfl) fun _ hl => stands_weaken hl fun _ _ h => h.toDrafts)
    fun _ => walks_reportLifecycle hm ⟨?_, fun _ => ⟨rfl, hc⟩⟩
  split <;> simp [lifecycleTypes]

theorem tells_dryRun {binding : Binding} {sshKey knownHosts : String} :
    Tells S i m a (dryRun m.status m.metadata binding sshKey knownHosts) := by
  refine walks_bind (walks_handle (tells_silent (Prog.only_bind (may_call trivial) fun _ => may_call trivial)) fun e => ?_)
    fun _ => ?_
  · exact walks_bind (tells_silent may_raiseIf) fun _ => walks_bind (tells_reportNotReady hm) fun _ => tells_throw
  · refine walks_bind (walks_weaken (walks_stageReady rfl (by rintro ⟨⟩)) fun _ hl => stands_weaken hl fun _ _ h =>
      h.toDrafts) fun _ => walks_reportLifecycle hm ⟨?_, by rintro ⟨⟩⟩
    simp [lifecycleTypes]

variable (ha : a ≠ .delete)

include ha

theorem tells_bootstrapUnderLease {operation : HostLeaseRef} {conn : Conn} {binding : Binding} {script strategy : String}
    (hk : m.metadata.key = i.key) (hu : m.metadata.uid = i.uid) :
    Tells S i m a (bootstrapUnderLease S.tools operation conn m.spec m.status m.metadata binding script strategy
      S.timeout) := by
  unfold bootstrapUnderLease
  simp only [hk, hu]
  refine walks_bind (tells_quiet ha (may_stillWanted trivial)) fun _ => walks_ite (fun _ => ?_) fun _ => tells_pure
  refine walks_bind (tells_silent may_checkLease) fun _ => walks_bind (tells_quiet ha
    (may_ensureBootstrapOwnership trivial trivial trivial trivial)) fun _ => ?_
  refine walks_bind (tells_silent may_stagedScript) fun _ => walks_bind (tells_silent (may_call trivial)) fun suffix => ?_
  refine walks_bind (tells_silent may_checkLease) fun _ => walks_bind (tells_silent (may_call ⟨trivial, trivial⟩)) fun _ => ?_
  refine walks_bind (tells_silent may_checkLease) fun _ => walks_bind (tells_quiet ha (may_stillWanted trivial)) fun _ => ?_
  refine walks_ite (fun _ => ?_) fun _ => tells_pure
  refine walks_bind (tells_silent (may_durableBootstrap trivial)) fun result => ?_
  refine walks_bind (tells_onlyIf fun _ => walks_bind (tells_silent (may_setHostPhase trivial)) fun _ =>
    walks_bind (tells_reportNotReady hm) fun _ => tells_throw) fun _ => ?_
  refine walks_bind (tells_onlyIf fun _ => walks_bind (tells_silent (may_execute trivial)) fun readiness => ?_)
    fun _ => tells_pure
  refine tells_onlyIf fun _ => walks_report hm ⟨?_, by rintro ⟨⟩⟩ rfl (by rintro ⟨⟩) tells_throw
  simp [lifecycleTypes]

theorem tells_bootstrapMachine (hc : m.status.cleanup = none) {owner : OwnerReference} {binding : Binding}
    {strategy : String} (hk : m.metadata.key = i.key) (hu : m.metadata.uid = i.uid) :
    Tells S i m a (bootstrapMachine S.tools m.spec m.status m.metadata owner binding strategy S.timeout) := by
  unfold bootstrapMachine
  dsimp only
  refine walks_bind (tells_silent may_readBootstrapData) fun data => ?_
  split
  · exact walks_bind (tells_reportNotReady hm) fun _ => tells_throw
  · split
    · exact walks_bind (tells_reportNotReady hm) fun _ => tells_throw
    · exact tells_throw
    · split
      · exact walks_bind (tells_reportNotReady hm) fun _ => tells_throw
      · refine walks_bind (walks_handle (tells_silent (Prog.only_bind may_readSshKey fun _ =>
          Prog.only_bind may_readKnownHosts fun _ => trivial)) fun _ => walks_bind (tells_silent may_raiseIf) fun _ =>
            walks_bind (tells_reportNotReady hm) fun _ => tells_throw) fun keys => ?_
        refine walks_ite (fun _ => tells_dryRun hm) fun _ => ?_
        refine walks_bind (walks_handle ?_ fun e => tells_bootstrapError hm) fun _ =>
            walks_ite (fun _ => tells_reportProvisioned hm hc) fun _ => tells_pure
        have hkeeps : Keeps S (Attentive S i) i (UprightIf i) (silent.allows i) (Stands i m a (Telling m)) :=
          keeps_silent telling_blind
        refine walks_bind (walks_withTarget (P := silent) (F := Stands i m a (Telling m)) trivial (fun _ => hkeeps) hkeeps
          (fun _ _ hl => hl) (fun _ hl => hl) hkeeps (fun _ hl => hl) fun lease conn _ =>
            tells_bootstrapUnderLease hm ha hk hu) fun exit => walks_value (fun _ _ _ hl => hl) fun _ _ hl => hl

end reconcile

section attempts

variable {a : Attempt}

/-- The pause check only speaks of pausing. -/
theorem walks_pauseCheck {F : MachineStatus → StatusPatch → Prop} {status : MachineStatus} {metadata : ObjectMeta}
    {check : Act Bool} (hF : Blind F) (hc : check.Only (silent.allows i))
    (hp : ∀ value reason message, isVerdict value → ∀ E : Exc → Local → Prop,
      Walks S (Attentive S i) i (UprightIf i) (Stands i m a F)
        (patchConditions status metadata [condition "Paused" value reason message]) (fun _ => Stands i m a F) E) :
    Walks S (Attentive S i) i (UprightIf i) (Stands i m a F) (reportPause status metadata check)
      (fun _ => Stands i m a F) fun _ => Stands i m a F := by
  refine walks_bind (A := fun _ => Stands i m a F) (walks_handle (walks_kept (keeps_silent hF) hc) fun e => ?_)
    fun paused => ?_
  · exact walks_ite (fun _ => walks_bind (hp _ _ _ (.inr (.inr rfl)) _) fun _ => walks_throw fun _ hl => hl)
      fun _ => walks_throw fun _ hl => hl
  · exact walks_bind (hp _ _ _ (boolText_verdict paused) _) fun _ => walks_pure fun _ hl => hl

theorem walks_mutePause (hm : WellFormed m.status.conditions) :
    Walks S (Attentive S i) i (UprightIf i) (Stands i m a (Mute m))
      (reportPause m.status m.metadata (isPaused m.spec m.metadata m.metadata.key.ns)) (fun _ => Stands i m a (Mute m))
      fun _ => Stands i m a (Mute m) := by
  refine walks_pauseCheck mute_blind may_isPaused fun value reason message hv E => walks_stage fun t st p h => ?_
  refine mute_patched hm h (fun c hc => ?_) fun t ht => ?_
  · rw [List.mem_singleton.mp hc]; exact hv
  · refine standing_absent ?_
    simp only [lifecycleTypes, List.mem_cons, List.not_mem_nil, or_false] at ht
    rcases ht with rfl | rfl | rfl <;> simp [condition]

theorem lower_true {s : String} (h : isVerdict s) (hs : (lower s == lower "True") = true) : s = "True" := by
  rcases h with rfl | rfl | rfl
  · rfl
  · revert hs; decide
  · revert hs; decide

/-- A condition that the backfill finds True. -/
theorem shows_found (h : WellFormed st.conditions) (hs : hasConditionStatus st t "True" = true) : Shows st t := by
  obtain ⟨c, hc, hcs⟩ := List.any_eq_true.mp hs
  rw [Bool.and_eq_true, beq_iff_eq] at hcs
  exact ⟨c, hc, hcs.1, lower_true (h.verdicts c hc) hcs.2⟩

/-- The flag is staged, with conditions that say the same already. -/
theorem telling_found (hm : Reliable m.status) (hc : m.status.cleanup = none) (hp : m.status.provisioned = some true)
    (hall : ∀ t ∈ lifecycleTypes, Shows m.status t) (h : Mute m st p) :
    Telling m st { p with ready := some true } := by
  refine ⟨⟨h.stored, h.cleanup, h.wellFormed, h.covers⟩, ?_⟩
  have hshow : ∀ t ∈ lifecycleTypes, Shows (StatusPatch.apply { p with ready := some true } m.status) t := by
    intro t ht
    refine (shows_iff h.wellFormed).mpr ((h.verdicts t ht).trans ?_)
    exact (shows_iff hm.wellFormed).mp (hall t ht)
  refine ⟨⟨iff_of_true rfl (hshow _ (by simp [lifecycleTypes])), fun _ => ?_, fun _ => hshow _ (by simp [lifecycleTypes]),
    fun _ => hshow _ (by simp [lifecycleTypes])⟩, h.wellFormed, fun hsome => ?_⟩
  · simp [StatusPatch.apply, h.provisioned, hp]
  · simp [StatusPatch.apply, h.cleanup, hc] at hsome

theorem walks_backfill (hm : Reliable m.status) (hc : m.status.cleanup = none) (hp : m.status.provisioned = some true)
    {providerID address : String} :
    Walks S (Attentive S i) i (UprightIf i) (Stands i m a (Mute m))
      (backfillProvisionedFields m.spec m.status m.metadata providerID address) (fun _ => Stands i m a (Telling m))
      fun _ => Stands i m a (Telling m) := by
  let F : MachineStatus → StatusPatch → Prop := fun st p => ∃ q, Mute m st q ∧ p = { q with ready := some true }
  refine walks_bind (A := fun _ => Stands i m a F) (walks_stage fun t st p h => ⟨_, h, rfl⟩) fun _ => ?_
  refine walks_onlyIf (fun _ => walks_weaken (walks_reportLifecycle hm.wellFormed ⟨by rintro e ⟨⟩, fun _ => ⟨rfl, hc⟩⟩)
    fun _ hl => stands_weaken hl ?_) fun hfound _ hl => stands_weaken hl ?_
  · rintro st p ⟨q, h, rfl⟩
    refine ⟨⟨h.stored, h.cleanup, h.wellFormed, h.covers⟩, rfl, fun _ => ?_⟩
    simp [StatusPatch.apply, h.provisioned, hp]
  · rintro st p ⟨q, h, rfl⟩
    rw [Bool.not_eq_false, Bool.and_eq_true, List.all_eq_true] at hfound
    exact telling_found hm hc hp (fun t ht => shows_found hm.wellFormed (hfound.1 t ht)) h

/-- An attempt of a Machine that is not being deleted. -/
theorem walks_unmarked (hm : Reliable m.status) (hc : m.status.cleanup = none) (ha : a ≠ .delete)
    (hk : m.metadata.key = i.key) (hu : m.metadata.uid = i.uid) :
    Walks S (Attentive S i) i (UprightIf i) (Stands i m a (Mute m))
      (sshmachineReconcileImpl S.tools m.spec m.status m.metadata S.timeout) (fun _ => Stands i m a (Telling m))
      fun _ => Stands i m a (Telling m) := by
  have htell : ∀ l, Stands i m a (Mute m) l → Stands i m a (Telling m) l :=
    fun l hl => stands_weaken hl fun _ _ => mute_telling hm
  refine walks_bind (walks_conseq (walks_mutePause hm.wellFormed) (fun _ hl => hl) (fun _ _ hl => hl) fun _ => htell)
    fun paused => walks_ite (fun _ => walks_pure htell) fun _ => ?_
  split
  · exact walks_weaken (tells_reportNotReady hm.wellFormed) htell
  · split
    · exact walks_weaken (walks_bind (tells_reportNotReady hm.wellFormed) fun _ => tells_throw) htell
    · rw [hk, hu]
      refine walks_bind (walks_conseq (walks_kept (keeps_quiet mute_blind fun h => absurd h ha)
        (may_bindMachine trivial trivial trivial trivial)) (fun _ hl => hl) (fun _ _ hl => hl) fun _ => htell)
        fun binding => walks_ite (fun hp => walks_backfill hm hc (by simpa [isAlreadyProvisioned] using hp)) fun _ => ?_
      exact walks_weaken (tells_bootstrapMachine hm.wellFormed ha hc hk hu) htell

end attempts

end CapiSsh
