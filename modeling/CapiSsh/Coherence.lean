import CapiSsh.Readiness

/-!
# What the provider guarantees about readiness

A stored status says one thing about readiness, and a Machine whose deletion has written
its status is not ready, as long as no deletion writes while it waits for a reboot: what
it writes then leaves readiness to the patch that Kopf applies later.
-/
namespace CapiSsh

open Effect Interference Keyed

variable {S : Setting} {i : MachineRef} {m : Machine} {P : Powers} {st st' : MachineStatus} {p q : StatusPatch}
  {t : String} {now : Time} {generation : Option Nat} {updates : List Condition}

/-- A deletion has staged that the Machine is not ready. -/
structure Halting (st : MachineStatus) (p : StatusPatch) : Prop where
  stored : Reliable st
  ready : p.ready = some false
  provisioned : p.provisioned = none
  cleanup : p.cleanup = none
  wellFormed : ∀ cs, p.conditions = some cs → WellFormed cs

/-- So do the conditions that would be stored; where `D` holds, it is stored already. -/
structure Ebbing (D : Prop) (st : MachineStatus) (p : StatusPatch) : Prop extends Halting st p where
  verdict : verdict "Ready" (view st p) ≠ some "True"
  low : D → st.ready ≠ some true

/-- Nothing of it has been stored yet. -/
structure Barred (m : Machine) (st : MachineStatus) (p : StatusPatch) : Prop extends Ebbing False st p where
  report : st.report = m.status.report
  staged : ∃ cs, p.conditions = some cs ∧ CapiSsh.verdict "Ready" cs = some "False"

variable {D : Prop}

theorem view_report (hst : st'.report = st.report) (hp : SameReport p q) : view st' q = view st p := by
  rw [view, view, hp.conditions, show st'.conditions = st.conditions from congrArg Report.conditions hst]

theorem halting_blind (hst : st'.report = st.report) (hp : SameReport p q) (h : Halting st p) : Halting st' q := by
  refine ⟨reliable_report hst h.stored, hp.ready.trans h.ready, hp.provisioned.trans h.provisioned, ?_, ?_⟩
  · rcases hp.cleanup with hc | hc
    · rw [hc, h.cleanup]
    · exact hc
  · rw [hp.conditions]; exact h.wellFormed

/-- Only the report of a status matters to what a deletion has staged. -/
theorem ebbing_blind : Blind (Ebbing D) := by
  intro st st' p q hst hp h
  refine ⟨halting_blind hst hp h.toHalting, ?_, fun hd => ?_⟩
  · rw [view_report hst hp]; exact h.verdict
  · rw [show st'.ready = st.ready from congrArg Report.ready hst]; exact h.low hd

theorem barred_blind : Blind (Barred m) := by
  intro st st' p q hst hp h
  refine ⟨ebbing_blind st st' p q hst hp h.toEbbing, hst.trans h.report, ?_⟩
  rw [hp.conditions]
  exact h.staged

theorem view_wellFormed (h : Halting st p) : WellFormed (view st p) := by
  rw [view]
  cases hc : p.conditions with
  | none => exact h.stored.wellFormed
  | some cs => exact h.wellFormed cs hc

theorem ebbing_reliable (h : Ebbing D st p) : Reliable (p.apply st) := by
  refine reliable_down ?_ (view_wellFormed h.toHalting) h.verdict
  simp [StatusPatch.apply, h.ready]

/-- One more report of a deletion: it says itself that the Machine is not ready, or the
reports before it have. -/
theorem ebbing_patched (hm : WellFormed m.status.conditions) (h : Halting st p) (hlow : D → st.ready ≠ some true)
    (hu : ∀ c ∈ updates, isVerdict c.status)
    (hv : (verdict "Ready" updates).or (verdict "Ready" (p.conditions.getD [])) = some "False") :
    Ebbing D st { p with conditions := some (patched now generation m p updates) } ∧
      verdict "Ready" (patched now generation m p updates) = some "False" := by
  have hready : verdict "Ready" (patched now generation m p updates) = some "False" := by
    rw [patched_raw (by decide), ← Option.or_assoc, hv, Option.some_or]
  refine ⟨⟨⟨h.stored, h.ready, h.provisioned, h.cleanup, ?_⟩, ?_, hlow⟩, hready⟩
  · rintro cs ⟨⟩
    exact patched_wellFormed hm h.wellFormed hu
  · change verdict "Ready" (patched now generation m p updates) ≠ _
    rw [hready]
    decide

/-- Conditions that say not ready bar a status that nothing has been stored of. -/
theorem barred_patched (hm : WellFormed m.status.conditions) (h : Halting st p) (hr : st.report = m.status.report)
    (hu : ∀ c ∈ updates, isVerdict c.status)
    (hv : (verdict "Ready" updates).or (verdict "Ready" (p.conditions.getD [])) = some "False") :
    Barred m st { p with conditions := some (patched now generation m p updates) } := by
  obtain ⟨he, hready⟩ := @ebbing_patched m st p now generation updates False hm h (by rintro ⟨⟩) hu hv
  exact ⟨he, hr, _, rfl, hready⟩

theorem cleanup_verdicts {reason message : String} {b : Bool} :
    ∀ c ∈ cleanupConditions reason message b, isVerdict c.status := by
  intro c hc
  simp only [cleanupConditions, List.mem_cons, List.not_mem_nil, or_false] at hc
  rcases hc with rfl | rfl | rfl
  · exact .inr (.inl rfl)
  · exact .inr (.inl rfl)
  · exact boolText_verdict b

/-- Every report of a cleanup says not ready. -/
theorem cleanup_verdict {reason message : String} {b : Bool} :
    verdict "Ready" (cleanupConditions reason message b) = some "False" := by
  simp [cleanupConditions, verdict, standing, condition]

section walks

variable {E : Exc → Local → Prop}

/-- The deletion of `m`. -/
abbrev Deletes (i : MachineRef) (m : Machine) (F : MachineStatus → StatusPatch → Prop) : Local → Prop :=
  Stands i m .delete F

/-- A part of the deletion that may end anywhere. -/
abbrev Ebbs (S : Setting) (i : MachineRef) (m : Machine) (K : Local → Prop) (p : Act α) : Prop :=
  Walks S (Attentive S i) i (UprightIf i) K p (fun _ => Deletes i m (Ebbing False)) fun _ => Deletes i m (Ebbing False)

theorem ebbing_weaken {D' : Prop} (h : D' → D) {l : Local} (hl : Deletes i m (Ebbing D) l) :
    Deletes i m (Ebbing D') l :=
  stands_weaken hl fun _ _ he => ⟨he.toHalting, he.verdict, fun hd => he.low (h hd)⟩

theorem ebbing_any {l : Local} (hl : Deletes i m (Ebbing D) l) : Deletes i m (Ebbing False) l :=
  ebbing_weaken False.elim hl

/-- Calls without a power to report leave what is staged as it is. -/
theorem walks_ebbing {p : Act α} (hp : p.Only (silent.allows i)) :
    Walks S (Attentive S i) i (UprightIf i) (Deletes i m (Ebbing D)) p (fun _ => Deletes i m (Ebbing D))
      fun _ => Deletes i m (Ebbing False) :=
  walks_conseq (walks_kept (keeps_silent ebbing_blind) hp) (fun _ hl => hl) (fun _ _ hl => hl) fun _ _ => ebbing_any

/-- Reporting that the Machine is not ready. -/
theorem walks_lower (hm : WellFormed m.status.conditions) (hu : ∀ c ∈ updates, isVerdict c.status)
    (hv : verdict "Ready" updates = some "False") :
    Walks S (Attentive S i) i (UprightIf i) (Deletes i m (Ebbing D)) (patchConditions m.status m.metadata updates)
      (fun _ => Deletes i m (Ebbing D)) E :=
  walks_stage fun t st p h => (ebbing_patched hm h.toHalting h.low hu (by rw [hv]; rfl)).1

/-- A deletion that is blocked has said so, and ends there. -/
theorem ebbs_blocked (hm : WellFormed m.status.conditions) {message : String} {A : α → Local → Prop} :
    Walks S (Attentive S i) i (UprightIf i) (Deletes i m (Ebbing D)) (blocked m.status m.metadata message : Act α) A
      fun _ => Deletes i m (Ebbing False) :=
  walks_bind (walks_lower hm cleanup_verdicts cleanup_verdict) fun _ => walks_throw fun _ => ebbing_any

/-- The Machine as it is stored. -/
theorem walks_current {F : MachineStatus → StatusPatch → Prop} (hF : Blind F) :
    Walks S (Attentive S i) i (UprightIf i) (Deletes i m F) (call (.readMachine i.key))
      (fun current => Deletes i m fun st p => F st p ∧ (current.metadata.uid = i.uid → current.status = st))
      fun _ => Deletes i m F := by
  refine walks_call fun l c w r w' hl hs ha hk => ?_
  have hop : quiet.allows i (.readMachine i.key) := ⟨rfl, trivial⟩
  have hpush := quiet_push hF hl hop hs ha hk.1
  refine ⟨upright_other rfl, ?_⟩
  cases r with
  | error e => exact hpush
  | ok current =>
    refine ⟨hpush.live, hpush.kind, hpush.holds, fun hu => ?_⟩
    obtain ⟨rfl, hm⟩ := answer_read ha
    obtain ⟨-, -, ht⟩ := hk.1.basic.accounted.machine _ current (hm current rfl)
    rw [hu] at ht
    exact ht.status

/-- The patch that records a cleanup phase. -/
def phasePatch (phase : CleanupPhase) (cs : List Condition) : StatusPatch :=
  { StatusPatch.empty with ready := some false, cleanup := some phase, conditions := some cs }

/-- A recorded cleanup phase stores that the Machine is not ready. -/
theorem ebbing_recorded {phase : CleanupPhase} {cs : List Condition} (hw : WellFormed cs)
    (hv : verdict "Ready" cs ≠ some "True") (h : Ebbing D st p) :
    Reliable ((phasePatch phase cs).apply st) ∧ Ebbing True ((phasePatch phase cs).apply st) p := by
  have hr : Reliable ((phasePatch phase cs).apply st) := reliable_down (by rintro ⟨⟩) hw hv
  refine ⟨hr, ⟨hr, h.ready, h.provisioned, h.cleanup, h.wellFormed⟩, ?_, fun _ => by rintro ⟨⟩⟩
  have hold := h.verdict
  rw [view] at hold ⊢
  cases hc : p.conditions with
  | none => exact hv
  | some cs' => rw [hc] at hold; exact hold

/-- What a status write reports is what it has stored. -/
theorem answer_acknowledged {boots : Target → Nat → String} {key : ObjectKey} {pre : Precondition} {c : Choice}
    {stored : Machine} {w w' : World} (ha : answer boots i (.patchMachineStatus key pre p) c w = some (.ok stored, w')) :
    ∃ m, w.machines.lookup key = some m ∧ stored.status = p.apply m.status := by
  cases c with
  | commit lost =>
    simp only [answer] at ha
    split at ha
    · cases ha
    · rename_i hp
      obtain ⟨r', hr, he⟩ := Option.map_eq_some_iff.mp ha
      cases he
      obtain ⟨m, hm, -, rfl⟩ := patchMachine_cases hp
      refine ⟨m, hm, ?_⟩
      unfold settle at hr
      split at hr
      · cases hr
        unfold World.patchMachine at hp
        rw [hm] at hp
        dsimp only at hp
        split at hp
        · cases hp; rfl
        · cases hp
      · cases hr
      · cases hr
      · cases hr
  | fail e => cases ha
  | _ => cases ha

theorem walks_record {phase : CleanupPhase} {cs : List Condition} {rv : Nat} (hw : WellFormed cs)
    (hv : verdict "Ready" cs ≠ some "True") :
    Walks S (Attentive S i) i (UprightIf i) (Deletes i m (Ebbing D))
      (call (.patchMachineStatus i.key ⟨i.uid, rv⟩ (phasePatch phase cs)))
      (fun stored => Deletes i m fun st p => Ebbing True st p ∧ stored.status = st)
      fun _ => Deletes i m (Ebbing D) := by
  refine walks_call fun l c w r w' hl hs ha hk => ?_
  have hstaged : w'.staged i = l.staged := by rw [answer_staged ha (by rintro f ⟨⟩), hs]
  rcases answer_patchStatus ha with ⟨rfl, e, rfl⟩ | ⟨m', hm', hu, rfl⟩
  · refine ⟨fun _ _ => upright_unlogged rfl, stands_push hl ?_⟩
    rw [hstaged, serial_stored hk.1]
    exact hl.holds
  · obtain ⟨-, -, ht⟩ := hk.1.basic.accounted.machine _ m' hm'
    rw [hu] at ht
    have hst : m'.status = l.stored i := ht.status.trans (serial_stored hk.1)
    have hafter : statusOf (journal i ((w.storeMachine i.key { m' with
        status := (phasePatch phase cs).apply m'.status }).note i (.status (phasePatch phase cs)))) =
        (phasePatch phase cs).apply (l.stored i) := by
      rw [journal_note_same, ← serial_stored hk.1]
      rfl
    obtain ⟨hrel, hnew⟩ := @ebbing_recorded (l.stored i) l.staged.status D phase cs hw hv hl.holds
    refine ⟨fun _ _ => ⟨fun _ => ?_, fun hr => ?_, fun _ _ _ _ => ?_⟩, ?_⟩
    · change Reliable (statusOf (journal i (World.note _ i _)))
      rw [hafter]; exact hrel
    · change (statusOf (journal i (World.note _ i _))).ready = _ at hr
      rw [hafter] at hr; exact absurd hr (by rintro ⟨⟩)
    · change (statusOf (journal i (World.note _ i _))).ready ≠ _
      rw [hafter]; rintro ⟨⟩
    · cases r with
      | error e =>
        refine stands_push hl ?_
        rw [hstaged]
        change Ebbing D (statusOf (journal i (World.note _ i _))) _
        rw [hafter]
        exact ⟨hnew.toHalting, hnew.verdict, fun _ => hnew.low trivial⟩
      | ok stored =>
        obtain ⟨m'', hm'', hs'⟩ := answer_acknowledged ha
        obtain rfl := Option.some.inj (hm'.symm.trans hm'')
        refine stands_push hl ?_
        rw [hstaged]
        change Ebbing True (statusOf (journal i (World.note _ i _))) _ ∧ _ = statusOf (journal i (World.note _ i _))
        rw [hafter, hs', hst]
        exact ⟨hnew, rfl⟩

theorem cleanup_paused {reason message : String} {b : Bool} {cs : List Condition} (h : ∀ c ∈ cs, isVerdict c.status) :
    (∀ c ∈ cleanupConditions reason message b ++ cs.filter (fun c => c.type = "Paused"), isVerdict c.status) ∧
      verdict "Ready" (cleanupConditions reason message b ++ cs.filter fun c => c.type = "Paused") = some "False" := by
  refine ⟨fun c hc => ?_, ?_⟩
  · rcases List.mem_append.mp hc with hc | hc
    · exact cleanup_verdicts c hc
    · exact h c (List.mem_of_mem_filter hc)
  · have hnone : verdict "Ready" (cs.filter fun c => c.type = "Paused") = none := by
      refine standing_absent fun hmem => ?_
      obtain ⟨c, hc, ht⟩ := List.mem_map.mp hmem
      have := (List.mem_filter.mp hc).2
      simp [ht] at this
    rw [verdict_append, hnone, cleanup_verdict]
    rfl

/-- Every phase but the first is recorded where not ready is stored already. -/
theorem ebbs_recordCleanup {phase : CleanupPhase} {reason message : String} (hk : m.metadata.key = i.key)
    (hu : m.metadata.uid = i.uid) (hp : phase = .running ∨ D) :
    Walks S (Attentive S i) i (UprightIf i) (Deletes i m (Ebbing D)) (recordCleanup m.metadata phase reason message)
      (fun _ => Deletes i m (Ebbing True)) fun _ => Deletes i m (Ebbing D) := by
  unfold recordCleanup
  rw [hk, hu]
  -- the staged patch, whose pause report is kept
  refine walks_bind (A := fun (patch : Patch) l => (∀ c ∈ patch.status.conditions.getD [], isVerdict c.status) ∧
    Deletes i m (Ebbing D) l) ?_ fun patch => walks_intro fun hpatch => ?_
  · refine walks_call fun l c w r w' hl hs ha hk => ?_
    cases c with
    | ok =>
      cases ha
      refine ⟨upright_other rfl, fun c hc => ?_, stands_push hl ?_⟩
      · rw [hs] at hc
        cases hcs : l.staged.status.conditions with
        | none => rw [hcs] at hc; cases hc
        | some cs => rw [hcs] at hc; exact (hl.holds.wellFormed cs hcs).verdicts c hc
      · rw [hs]
        exact (serial_stored hk.1).symm ▸ hl.holds
    | _ => cases ha
  obtain ⟨hverdicts, hfalse⟩ := @cleanup_paused reason message (phase == .succeeded) _ hpatch
  have hmerged : ∀ (time now : Time) (existing : List Condition), verdict "Ready" (mergeConditions time existing
      (mergeConditions now [] (cleanupConditions reason message (phase == .succeeded) ++
        (patch.status.conditions.getD []).filter fun c => c.type = "Paused") m.metadata.generation) none) =
      some "False" := by
    intro time now existing
    rw [verdict_merged (by decide), verdict_merged (by decide), hfalse]
    rfl
  refine walks_bind (A := fun _ => Deletes i m (Ebbing D)) (walks_stage fun t st p h => ?_) fun _ => ?_
  · refine ⟨⟨h.stored, h.ready, h.provisioned, rfl, fun cs hcs => ?_⟩, ?_, h.low⟩
    · dsimp only at hcs
      split at hcs
      · exact h.wellFormed cs hcs
      · cases hcs
    · rw [view]
      dsimp only
      split
      · exact h.verdict
      · exact reliable_verdict h.stored (h.low (hp.resolve_left ‹_›))
  refine walks_bind walks_now fun now => walks_bind (A := fun (stored : Machine) => Deletes i m fun st p =>
    Ebbing True st p ∧ stored.status = st) ?_ fun stored => walks_stage fun t st p h => ?_
  · refine walks_bind (walks_current ebbing_blind) fun current => ?_
    refine walks_guard (fun _ hl => stands_weaken hl fun _ _ h => h.1) fun hcur => ?_
    have hcur : current.metadata.uid = i.uid := by simpa using hcur
    refine walks_bind walks_now fun time => ?_
    refine walks_have (∀ c ∈ current.status.conditions, isVerdict c.status) (fun l hl => ?_) fun hexisting => ?_
    · rw [hl.holds.2 hcur]
      exact hl.holds.1.stored.wellFormed.verdicts
    have hitems := @merged_wellFormed now m.metadata.generation [] _ (by rintro c ⟨⟩) hverdicts
    refine walks_handle (walks_weaken (walks_record (merged_wellFormed hexisting hitems.verdicts)
      fun hv => absurd ((hmerged time now _).symm.trans hv) (by decide)) fun _ hl => stands_weaken hl fun _ _ h => h.1)
        fun e => ?_
    split <;> exact walks_throw fun _ hl => hl
  · refine ⟨⟨h.1.stored, rfl, h.1.provisioned, h.1.cleanup, ?_⟩, ?_, h.1.low⟩
    · rintro cs ⟨⟩
      rw [h.2]
      exact h.1.stored.wellFormed
    · change verdict "Ready" stored.status.conditions ≠ _
      rw [h.2]
      exact reliable_verdict h.1.stored (h.1.low trivial)

theorem ebbs_releaseCleaned (hm : WellFormed m.status.conditions) {binding : Option Binding} :
    Ebbs S i m (Deletes i m (Ebbing D)) (releaseCleanedHost binding m.metadata m.status) := by
  unfold releaseCleanedHost
  split
  · exact walks_pure fun _ => ebbing_any
  · refine walks_handle (E := fun _ => Deletes i m (Ebbing False)) (walks_conseq (walks_ebbing (may_releaseHost trivial
      trivial)) (fun _ hl => hl) (fun _ _ => ebbing_any) fun _ _ hl => hl) fun e => ?_
    refine walks_bind (walks_ebbing may_raiseIf) fun _ => walks_bind (walks_lower hm ?_ rfl) fun _ =>
      walks_throw fun _ hl => hl
    intro c hc
    simp only [List.mem_cons, List.not_mem_nil, or_false] at hc
    rcases hc with rfl | rfl <;> exact .inr (.inl rfl)

theorem ebbs_refuseLegacy (hm : WellFormed m.status.conditions) {binding : Option Binding} {A : Unit → Local → Prop} :
    Walks S (Attentive S i) i (UprightIf i) (Deletes i m (Ebbing D)) (refuseLegacy m.status m.metadata binding) A
      fun _ => Deletes i m (Ebbing False) := by
  unfold refuseLegacy
  split
  · exact ebbs_blocked hm
  · exact walks_bind (walks_ebbing (may_setHostPhase trivial)) fun _ => ebbs_blocked hm

/-- Without an ownership record, a deletion reports and releases. -/
theorem ebbs_deleteUnowned (hm : Reliable m.status) (hk : m.metadata.key = i.key) (hu : m.metadata.uid = i.uid) :
    Ebbs S i m (Deletes i m (Barred m)) (deleteUnowned m.spec m.status m.metadata) := by
  have hw := hm.wellFormed
  unfold deleteUnowned
  dsimp only
  cases hprov : (m.status.provisioned == some true || (filled m.spec.providerID).isSome) with
  | true =>
    -- nothing is persisted of a Machine that ran before
    refine walks_weaken (K := Deletes i m (Ebbing False)) ?_ fun _ hl => stands_weaken hl fun _ _ h => h.toEbbing
    refine walks_bind (A := fun recovered l => recovered = none ∧ Deletes i m (Ebbing False) l) (walks_ite ?_ fun _ =>
      walks_pure fun _ hl => ⟨rfl, hl⟩) fun recovered => walks_intro ?_
    · rintro ⟨⟩
    · rintro rfl
      refine walks_bind (A := fun _ => Deletes i m (Ebbing False)) (walks_pure fun _ hl => hl) fun _ => ?_
      refine walks_bind (A := fun _ _ => False) (walks_onlyIf (fun _ => ebbs_refuseLegacy hw) fun hn _ _ => ?_)
        fun _ _ _ h => h.elim
      exact hn (.inl rfl)
  | false =>
    have hlow : m.status.ready ≠ some true := by
      intro hr
      rw [hm.coherent.provisioned hr] at hprov
      cases hprov
    refine walks_weaken (K := Deletes i m (Ebbing True)) ?_ fun _ hl => stands_weaken hl fun st p h =>
      ⟨h.toHalting, h.verdict, fun _ => ?_⟩
    · refine walks_bind (walks_ebbing may_recoverIf) fun recovered => ?_
      have hkeeps : Keeps S (Attentive S i) i (UprightIf i) (quiet.allows i) (Deletes i m (Ebbing True)) :=
        keeps_quiet ebbing_blind fun _ => .inr fun _ _ h => h.low trivial
      refine walks_bind (A := fun _ => Deletes i m (Ebbing True)) ?_ fun _ => ?_
      · unfold adoptClaim
        split
        · exact walks_pure fun _ hl => hl
        · refine walks_bind (A := fun _ => Deletes i m (Ebbing True)) (walks_onlyIf (fun _ => ebbs_blocked hw) fun _ _ hl => hl) fun _ => ?_
          rw [hk, hu]
          refine walks_bind (walks_conseq (walks_kept hkeeps (may_persist trivial (writes_allocation trivial)))
            (fun _ hl => hl) (fun _ _ hl => hl) fun _ _ => ebbing_any) fun _ => walks_pure fun _ hl => hl
      · refine walks_bind (A := fun _ => Deletes i m (Ebbing True)) (walks_onlyIf (fun _ => ebbs_refuseLegacy hw)
          fun _ _ hl => hl) fun _ => ?_
        exact walks_bind (walks_conseq (ebbs_recordCleanup hk hu (.inr trivial)) (fun _ hl => hl) (fun _ _ hl => hl)
          fun _ _ => ebbing_any) fun _ => ebbs_releaseCleaned hw
    · rw [show st.ready = m.status.ready from congrArg Report.ready h.report]
      exact hlow

theorem ebbs_resetHost {operation : HostLeaseRef} {conn : Conn} (hk : m.metadata.key = i.key)
    (hu : m.metadata.uid = i.uid) :
    Walks S (Attentive S i) i (UprightIf i) (Deletes i m (Ebbing True)) (resetHost operation conn m.metadata)
      (fun _ => Deletes i m (Ebbing True)) fun _ => Deletes i m (Ebbing True) := by
  have hkeeps : Keeps S (Attentive S i) i (UprightIf i) (quiet.allows i) (Deletes i m (Ebbing True)) :=
    keeps_quiet ebbing_blind fun _ => .inr fun _ _ h => h.low trivial
  unfold resetHost
  rw [show checkCurrent m.metadata.key m.metadata.uid = checkCurrent i.key i.uid by rw [hk, hu]]
  refine walks_bind (walks_kept hkeeps (may_checkCurrent trivial)) fun _ => walks_bind (walks_kept hkeeps may_checkLease)
    fun _ => walks_bind (walks_kept hkeeps (may_execute ⟨by rintro ⟨⟩, trivial⟩)) fun result =>
      walks_bind (walks_kept hkeeps may_raiseIf) fun _ => ebbs_recordCleanup hk hu (.inr trivial)

theorem ebbs_cleanupFailed {binding : Binding} (hk : m.metadata.key = i.key) (hu : m.metadata.uid = i.uid) :
    Ebbs S i m (Deletes i m (Ebbing True)) (cleanupFailed binding m.metadata) := by
  unfold cleanupFailed
  rw [hk, hu]
  refine walks_bind (walks_conseq (walks_current ebbing_blind) (fun _ hl => hl) (fun _ _ hl => hl) fun _ _ => ebbing_any)
    fun current => walks_guard (fun _ hl => ebbing_any (stands_weaken hl fun _ _ h => h.1)) fun hcur => ?_
  have hcur : current.metadata.uid = i.uid := by simpa using hcur
  refine walks_ite (fun _ => ?_) fun _ => ?_
  · -- the receipt is there: only the report of it is staged
    refine walks_bind (A := fun _ => Deletes i m (Ebbing False)) (walks_stage fun t st p h => ?_) fun _ =>
      walks_throw fun _ hl => hl
    obtain ⟨h, hst⟩ := h
    refine ⟨⟨h.stored, h.ready, h.provisioned, h.cleanup, ?_⟩, ?_, by rintro ⟨⟩⟩
    · rintro cs ⟨⟩
      rw [hst hcur]
      exact h.stored.wellFormed
    · change verdict "Ready" current.status.conditions ≠ _
      rw [hst hcur]
      exact reliable_verdict h.stored (h.low trivial)
  · refine walks_weaken (K := Deletes i m (Ebbing True)) ?_ fun _ hl => stands_weaken hl fun _ _ h => h.1
    rw [← hk, ← hu]
    refine walks_bind (walks_ebbing (may_setHostPhase trivial)) fun _ => walks_bind (walks_conseq (ebbs_recordCleanup hk
      hu (.inr trivial)) (fun _ hl => hl) (fun _ _ hl => hl) fun _ _ => ebbing_any) fun _ => walks_throw fun _ => ebbing_any

/-- A cleanup stores with its first phase that the Machine is not ready. -/
theorem ebbs_cleanHost (hm : WellFormed m.status.conditions) {binding : Binding} (hk : m.metadata.key = i.key)
    (hu : m.metadata.uid = i.uid) :
    Ebbs S i m (Deletes i m (Ebbing False)) (cleanHost binding m.status m.metadata) := by
  have hkeeps : Keeps S (Attentive S i) i (UprightIf i) (silent.allows i) (Deletes i m (Ebbing True)) :=
    keeps_silent ebbing_blind
  refine walks_bind (walks_ebbing (may_setHostPhase trivial)) fun _ => walks_bind (ebbs_recordCleanup hk hu (.inl rfl))
    fun _ => ?_
  refine walks_bind (A := fun _ => Deletes i m (Ebbing True)) (walks_handle (E := fun _ => Deletes i m (Ebbing True))
    ?_ fun _ => walks_pure fun _ hl => hl) fun exit => ?_
  · exact walks_conseq (walks_withHost (P := silent) (F := Deletes i m (Ebbing True)) trivial (fun _ => hkeeps) hkeeps
      (fun _ _ hl => hl) (fun _ hl => hl) hkeeps (fun _ hl => hl) fun lease conn _ => ebbs_resetHost hk hu)
      (fun _ hl => hl) (fun _ _ => closed_either (fun _ _ hl => hl) fun _ hl => hl) fun _ _ hl => hl
  · split
    · exact ebbs_releaseCleaned hm
    · exact walks_throw fun _ => ebbing_any
    · exact walks_bind (walks_ebbing may_raiseIf) fun _ => ebbs_cleanupFailed hk hu

/-- The wait for a reboot comes before the cleanup. -/
theorem ebbs_deleteOwned {ownership : Ownership} (hm : Reliable m.status) (hk : m.metadata.key = i.key)
    (hu : m.metadata.uid = i.uid) :
    Ebbs S i m (Deletes i m (Barred m)) (deleteOwned m.spec m.status m.metadata ownership) := by
  have hw := hm.wellFormed
  have hebb : ∀ l, Deletes i m (Barred m) l → Deletes i m (Ebbing False) l :=
    fun l hl => stands_weaken hl fun _ _ h => h.toEbbing
  unfold deleteOwned
  split
  · exact walks_weaken (ebbs_blocked hw) hebb
  · refine walks_bind (A := fun _ => Deletes i m (Barred m)) (walks_onlyIf (fun _ => walks_weaken (ebbs_blocked hw) hebb)
      fun _ _ hl => hl) fun _ => ?_
    refine walks_bind (A := fun _ => Deletes i m (Barred m)) (walks_onlyIf (fun _ => walks_weaken (ebbs_blocked hw) hebb)
      fun _ _ hl => hl) fun _ => walks_ite (fun hc => ?_) fun _ => walks_ite (fun hp => ?_) fun _ => ?_
    · have hlow : m.status.ready ≠ some true := hm.cleanup (by rw [hc]; rfl)
      refine walks_weaken (K := Deletes i m (Ebbing True)) ?_ fun _ hl => stands_weaken hl fun st p h =>
        ⟨h.toHalting, h.verdict, fun _ => ?_⟩
      · exact walks_bind (walks_conseq (ebbs_recordCleanup hk hu (.inr trivial)) (fun _ hl => hl) (fun _ _ hl => hl)
          fun _ _ => ebbing_any) fun _ => ebbs_releaseCleaned hw
      · rw [show st.ready = m.status.ready from congrArg Report.ready h.report]
        exact hlow
    · -- what is persisted here does not report
      have hkeeps : Keeps S (Attentive S i) i (UprightIf i) (quiet.allows i) (Deletes i m (Ebbing False)) :=
        keeps_quiet ebbing_blind fun _ => .inl hp
      refine walks_weaken (walks_bind (walks_lower hw cleanup_verdicts cleanup_verdict) fun _ => walks_bind (walks_kept
        hkeeps (may_reconcileReboot trivial hk hu trivial trivial trivial trivial trivial fun _ => trivial)) fun _ =>
          walks_throw fun _ hl => hl) hebb
    · exact walks_weaken (ebbs_cleanHost hw hk hu) hebb

/-- A deletion begins with nothing staged. -/
def Untouched (m : Machine) (st : MachineStatus) (p : StatusPatch) : Prop := st = m.status ∧ p = .empty

/-- A deletion keeps its report low from the first call on, wherever it ends. -/
theorem ebbs_deleteMachine (hm : Reliable m.status) (hk : m.metadata.key = i.key) (hu : m.metadata.uid = i.uid) :
    Ebbs S i m (Deletes i m (Untouched m)) (deleteMachine m.spec m.status m.metadata) := by
  have hw := hm.wellFormed
  have hebb : ∀ l, Deletes i m (Barred m) l → Deletes i m (Ebbing False) l :=
    fun l hl => stands_weaken hl fun _ _ h => h.toEbbing
  refine walks_bind (A := fun _ => Deletes i m fun st p => st = m.status ∧ p = { StatusPatch.empty with ready := some false })
    (walks_stage ?_) fun _ => walks_bind (A := fun _ => Deletes i m (Barred m)) (walks_stage ?_) fun _ => ?_
  · rintro t st p ⟨rfl, hp⟩
    refine ⟨rfl, ?_⟩
    dsimp only
    rw [hp]
  · rintro t st p ⟨rfl, hp⟩
    have hhalt : Halting m.status p.status := by
      rw [hp]
      exact ⟨hm, rfl, rfl, rfl, by rintro cs ⟨⟩⟩
    exact barred_patched hw hhalt rfl cleanup_verdicts (by rw [cleanup_verdict]; rfl)
  · refine walks_bind (walks_conseq (walks_pauseCheck barred_blind may_isPaused ?_) (fun _ hl => hl) (fun _ _ hl => hl)
      fun _ => hebb) fun paused => ?_
    · intro value reason message hv E
      refine walks_stage fun t st p h => ?_
      obtain ⟨cs, hcs, hfalse⟩ := h.staged
      refine barred_patched hw h.toHalting h.report (fun c hc => ?_) ?_
      · rw [List.mem_singleton.mp hc]; exact hv
      · rw [hcs, Option.getD_some, hfalse]
        rfl
    refine walks_bind (A := fun _ => Deletes i m (Barred m)) (walks_onlyIf (fun _ => walks_weaken ?_ hebb) fun _ _ hl => hl)
      fun _ => ?_
    · exact walks_bind (walks_lower hw cleanup_verdicts cleanup_verdict) fun _ => walks_throw fun _ hl => hl
    refine walks_bind (A := fun _ => Deletes i m (Barred m)) (walks_onlyIf (fun _ => walks_weaken (ebbs_blocked hw) hebb)
      fun _ _ hl => hl) fun _ => ?_
    split
    · exact ebbs_deleteUnowned hm hk hu
    · exact ebbs_deleteOwned hm hk hu

end walks

/-- What Kopf would store is no worse than what is stored. -/
structure Settled (i : MachineRef) (l : Local) : Prop where
  reliable : Reliable (l.stored i) → Reliable (l.outlook i)
  wakes : (l.outlook i).ready = some true → (l.stored i).ready = some true ∨
    l.kind ≠ .delete ∧ ∃ m, live i l.calls = some m ∧ m.metadata.deletionTimestamp = none
  deletes : l.kind = .delete → l.staged.status ≠ .empty → (l.outlook i).ready ≠ some true

variable {l : Local} {a : Attempt}

theorem settled_empty (h : l.staged = Patch.empty) : Settled i l := by
  have hsame : l.outlook i = l.stored i := by
    rw [Local.outlook, h]
    exact status_apply_empty _
  exact ⟨fun hr => by rw [hsame]; exact hr, fun hr => .inl (by rw [← hsame]; exact hr), fun _ hn => absurd (by rw [h]; rfl) hn⟩

theorem outlook_report (h : (l.stored i).report = m.status.report) :
    (l.outlook i).report = (l.staged.status.apply m.status).report := by
  simp only [MachineStatus.report, Report.mk.injEq] at h
  obtain ⟨h₁, h₂, h₃, h₄⟩ := h
  simp [Local.outlook, MachineStatus.report, StatusPatch.apply, h₁, h₂, h₃, h₄]

/-- A report of a Machine that is not deleted is one that Kopf may store. -/
theorem telling_settled (h : Stands i m a (Telling m) l) (ha : a ≠ .delete) (hd : m.metadata.deletionTimestamp = none) :
    Settled i l :=
  ⟨fun _ => reliable_report (outlook_report h.holds.stored) h.holds.reliable,
    fun _ => .inr ⟨by rw [h.kind]; exact ha, m, h.live, hd⟩, fun hk => absurd (h.kind.symm.trans hk) ha⟩

theorem mute_settled (hm : Reliable m.status) (h : Stands i m a (Mute m) l) (ha : a ≠ .delete) : Settled i l := by
  refine ⟨fun _ => reliable_report (outlook_report h.holds.stored) (mute_telling hm h.holds).reliable, fun hr => .inl ?_,
    fun hk => absurd (h.kind.symm.trans hk) ha⟩
  simpa [Local.outlook, StatusPatch.apply, h.holds.ready] using hr

theorem ebbing_settled (h : Deletes i m (Ebbing False) l) : Settled i l := by
  have hr : (l.outlook i).ready = some false := by simp [Local.outlook, StatusPatch.apply, h.holds.ready]
  exact ⟨fun _ => ebbing_reliable h.holds, fun ht => absurd (hr.symm.trans ht) (by rintro ⟨⟩),
    fun _ _ => by rw [hr]; rintro ⟨⟩⟩

theorem began_stands (h : Began (Attentive S i) i a m l) (hu : m.metadata.uid = i.uid) :
    Stands i m a (Untouched m) l :=
  ⟨began_live h hu, h.kind, began_stored (fun _ _ h => h.1) h hu, by rw [h.staged]; rfl⟩

theorem untouched_mute (hm : Reliable m.status) (h : Untouched m st p) : Mute m st p := by
  obtain ⟨rfl, rfl⟩ := h
  exact ⟨⟨rfl, rfl, hm.wellFormed, fun _ _ h => h⟩, rfl, rfl, fun _ _ => rfl⟩

/-- A Machine that is not being deleted has no cleanup on record. -/
theorem began_clean (h : Began (Attentive S i) i a m l) (hu : m.metadata.uid = i.uid)
    (hd : m.metadata.deletionTimestamp = none) : m.status.cleanup = none := by
  obtain ⟨l₀, w, -, hm, hk, -⟩ := h.read
  obtain ⟨-, -, ht⟩ := hk.1.basic.accounted.machine _ m hm
  rw [hu] at ht
  by_contra hc
  rw [ht.status] at hc
  have := ht.deletion.mpr (marked_of_started (hk.1.consistent.lawful i) (started_of_cleanup hc))
  rw [hd] at this
  cases this

theorem walks_reconcileLatest (hm : Reliable m.status) (hk : m.metadata.key = i.key) (hu : m.metadata.uid = i.uid) :
    Walks S (Attentive S i) i (UprightIf i) (fun l => Stands i m .reconcile (Untouched m) l ∧
        (m.metadata.deletionTimestamp = none → m.status.cleanup = none))
      (reconcileLatest S.tools m .reconcile S.timeout) (fun _ => Settled i) fun _ => Settled i := by
  refine walks_have (m.metadata.deletionTimestamp = none → m.status.cleanup = none) (fun _ hl => hl.2) fun hc => ?_
  refine walks_weaken (K := Stands i m .reconcile (Mute m)) ?_ fun _ hl => stands_weaken hl.1 fun _ _ => untouched_mute hm
  cases hd : m.metadata.deletionTimestamp with
  | some t =>
    refine walks_bind (A := fun _ => Stands i m .reconcile (Mute m)) (walks_bind (walks_conseq (walks_mutePause
      hm.wellFormed) (fun _ hl => hl) (fun _ _ hl => hl) fun _ l hl => mute_settled hm hl (by rintro ⟨⟩)) fun paused => ?_)
      fun _ => ?_
    · exact walks_ite (fun _ => walks_pure fun _ hl => hl) fun hn => absurd (by simp [hd]) hn
    · exact walks_ite (fun hn => by rw [hd] at hn; cases hn) fun _ => walks_pure fun l hl => mute_settled hm hl (by rintro ⟨⟩)
  | none =>
    have hset : ∀ l, Stands i m .reconcile (Telling m) l → Settled i l := fun l hl => telling_settled hl (by rintro ⟨⟩) hd
    refine walks_bind (walks_conseq (walks_unmarked hm (hc hd) (by rintro ⟨⟩) hk hu) (fun _ hl => hl) (fun _ _ hl => hl)
      fun _ => hset) fun _ => walks_ite (fun _ => ?_) fun _ => walks_pure hset
    exact walks_conseq (walks_kept (keeps_quiet telling_blind (by rintro ⟨⟩)) (may_reconcileReboot trivial hk hu trivial
      trivial trivial trivial trivial fun _ => trivial)) (fun _ hl => hl) (fun _ => hset) fun _ => hset

/-- Whatever an attempt has read, what it leaves staged may be stored. -/
theorem walks_settled (hm : Reliable m.status) (hu : m.metadata.uid = i.uid) :
    Walks S (Attentive S i) i (UprightIf i) (Began (Attentive S i) i a m) (a.part S.tools S.timeout i m)
      (fun _ => Settled i) fun _ => Settled i := by
  refine walks_have (m.metadata.key = i.key) (fun l h => h.key) fun hk => ?_
  have hmute : ∀ l, Began (Attentive S i) i a m l → Stands i m a (Mute m) l :=
    fun l h => stands_weaken (began_stands h hu) fun _ _ => untouched_mute hm
  have hquiet : ∀ {α : Type} {p : Act α}, a ≠ .delete → p.Only (quiet.allows i) → Walks S (Attentive S i) i (UprightIf i)
      (Began (Attentive S i) i a m) p (fun _ => Settled i) fun _ => Settled i := fun ha hp =>
    walks_conseq (walks_kept (keeps_quiet mute_blind fun h => absurd h ha) hp) hmute
      (fun _ l hl => mute_settled hm hl ha) fun _ l hl => mute_settled hm hl ha
  cases a with
  | bind => exact hquiet (by rintro ⟨⟩) (Prog.only_bind (may_bindMachine trivial trivial trivial trivial) fun _ => trivial)
  | reboot =>
    exact hquiet (by rintro ⟨⟩) (Prog.only_bind (may_reconcileReboot trivial hk hu trivial trivial trivial trivial trivial
      fun _ => trivial) fun _ => trivial)
  | reconcile =>
    exact walks_bind (walks_weaken (walks_reconcileLatest hm hk hu) fun l h => ⟨began_stands h hu, began_clean h hu⟩)
      fun _ => walks_pure fun _ hl => hl
  | delete =>
    refine walks_bind (A := fun _ => Settled i) (walks_conseq (ebbs_deleteMachine hm hk hu)
      (fun l h => began_stands h hu) (fun _ l hl => ebbing_settled hl) fun _ l hl => ebbing_settled hl) fun _ =>
        walks_pure fun _ hl => hl

/-- Kopf's write at the end of an attempt. -/
theorem settled_apply {c : Choice} {r : Except Exc Unit} {w w' : World} (hl : Settled i l) (hs : w.staged i = l.staged)
    (ha : answer S.boots i (.applyStaged i.key) c w = some (r, w')) (hk : Serial S i l ⟨.applyStaged i.key, r, w, w'⟩) :
    Upright i l.kind ⟨.applyStaged i.key, r, w, w'⟩ l.calls := by
  have hop : Powers.allows { quiet with apply := True } i (.applyStaged i.key) := ⟨rfl, trivial⟩
  have hst : statusOf (journal i w) = l.stored i := serial_stored hk
  obtain ⟨es, hj, hes⟩ := written_journal hop (answer_written ha)
  have hj : journal i w' = es.toList ++ journal i w := by rw [hj, if_pos rfl]
  by_cases hp : ∃ p, es = some (.status p)
  · obtain ⟨p, rfl⟩ := hp
    cases hes p rfl with
    | applied =>
      have hafter : statusOf (journal i w') = l.outlook i := by
        rw [hj, Option.toList_some, List.singleton_append, statusOf, hst, hs]
        rfl
      refine ⟨?_, ?_, fun hkind p hjp hne => ?_⟩
      · rw [hst, hafter]; exact hl.reliable
      · rw [hst, hafter]; exact hl.wakes
      · rw [hafter]
        refine hl.deletes hkind ?_
        rw [hj, hs] at hjp
        obtain ⟨he, -⟩ := List.cons.inj hjp
        cases he
        exact hne
  · cases es with
    | none => exact upright_unlogged hj
    | some e =>
      have he : ∀ p, e ≠ .status p := fun p he => hp ⟨p, by rw [he]⟩
      have hsame : statusOf (journal i w') = statusOf (journal i w) := by
        rw [hj]
        exact statusOf_other he
      refine ⟨fun hr => hsame ▸ hr, fun hr => .inl (hsame ▸ hr), fun _ p hjp => ?_⟩
      rw [hj] at hjp
      exact absurd (List.cons.inj hjp).1 (he p)

/-- What is known of an attempt when it has ended. -/
def Concluded (i : MachineRef) (_ : Except Exc (Option Binding)) (l : Local) : Prop :=
  ReadsReliable i l.calls → Settled i l

theorem framed_upright (i : MachineRef) (a : Attempt) : Framed S (Attentive S i) i (UprightIf i) a (Concluded i) where
  basic _ _ h := h.1.basic
  guard a e earlier h _ := by
    refine upright_other ?_
    cases ho : e.op with
    | acquireLock key => rfl
    | readMachine key => rfl
    | _ => rw [ho] at h; exact h.elim
  locking l e h := fun _ => settled_empty h.staged
  missed l r h _ := fun _ => settled_empty h.staged
  part m hu := by
    by_cases hm : Reliable m.status
    · exact walks_conseq (walks_settled hm hu) (fun _ h => h) (fun _ _ h _ => h) fun _ _ h _ => h
    · refine walks_conseq (walks_only (K := fun l => live i l.calls = some m) (only_true _) ?_)
        (fun l h => began_live h hu) (fun _ l h hr => absurd (hr m h) hm) fun _ l h hr => absurd (hr m h) hm
      rintro op - l c w r w' hl - - -
      exact ⟨fun _ hr => absurd (hr m hl) hm, live_cons _ hl⟩
  release l r c w b w' h hs ha hk := by
    refine ⟨upright_other rfl, fun hr => ?_⟩
    have hset := h fun m hm => hr m (live_cons _ hm)
    have hst := stored_same hk.1 ha rfl
    have hout : (l.push i ⟨.releaseLock i.key, b, w, w'⟩).outlook i = l.outlook i := by
      rw [Local.outlook, hst]
      change (w'.staged i).status.apply _ = _
      rw [answer_staged ha (by rintro f ⟨⟩), hs]
      rfl
    refine ⟨?_, ?_, ?_⟩
    · rw [hout, hst]; exact hset.reliable
    · rw [hout, hst]
      exact fun ht => (hset.wakes ht).imp id fun ⟨hkind, m, hm, hd⟩ => ⟨hkind, m, live_cons _ hm, hd⟩
    · rw [hout]
      change _ → (w'.staged i).status ≠ _ → _
      rw [answer_staged ha (by rintro f ⟨⟩), hs]
      exact hset.deletes
  raised l r e h := h
  apply l r c w u w' h hs ha hk := fun _ hr => settled_apply (h hr) hs ha hk.1

section runs

variable {c : Crew MachineRef}

/-- The branch that goes wrong is not taken for `u`: no deletion that waits for a reboot
persists a status while the Machine is stored as ready. -/
def QuietWait (u : MachineRef) : RunCondition MachineRef := fun k op s _ s' =>
  k = u → Waits k (s.attempts k) op s.world s'.world

/-- A delete attempt has made this status write. -/
def DeleteWrote (s : Site MachineRef) (i : MachineRef) : Prop :=
  ∃ x ∈ s.history, x.machine = i ∧ x.kind = .delete ∧
    ∃ p, journal i x.exchange.after = .status p :: journal i x.exchange.before ∧ p ≠ .empty

/-- What is known of `i`, by its journal, whether a deletion wrote, and its last attempt. -/
structure Attested (i : MachineRef) (j : Journal) (wrote : Prop) (l : Local) : Prop where
  reliable : Reliable (statusOf j)
  read : ReadsReliable i l.calls
  admitted : l.kind = .delete → Event.marked ∈ j
  wanted : l.kind ≠ .delete → ∀ m, live i l.calls = some m → m.metadata.deletionTimestamp = none → ¬ wrote
  deleted : wrote → Event.marked ∈ j ∧ (statusOf j).ready ≠ some true

/-- Only the call of a deletion can add a write of one. -/
theorem deleteWrote_record {s : Site MachineRef} {k : MachineRef} {e : Exchange} (h : DeleteWrote (s.record k k e) i) :
    DeleteWrote s i ∨ k = i ∧ (s.attempts i).kind = .delete ∧
      ∃ p, journal i e.after = .status p :: journal i e.before ∧ p ≠ .empty := by
  obtain ⟨x, hx, rfl, hk, p, hj, hp⟩ := h
  rcases List.mem_cons.mp hx with rfl | hx
  · exact .inr ⟨rfl, hk, p, hj, hp⟩
  · exact .inl ⟨x, hx, rfl, hk, p, hj, hp⟩

/-- Only status writes put a status into the journal. -/
theorem status_written {op : Op} {w w' : World} (hop : P.allows i op) (h : Written i op w w')
    (hj : journal i w' = .status p :: journal i w) : StatusWrite i w op p := by
  obtain ⟨es, hes, hp⟩ := written_journal hop h
  rw [hes, if_pos rfl] at hj
  cases es with
  | none => exact absurd (congrArg List.length hj) (by simp)
  | some e =>
    obtain ⟨rfl, -⟩ := List.cons.inj hj
    exact hp p rfl

theorem upright_called {s : Site MachineRef} {e : Exchange} (h : Called S id s i e)
    (hp : Permitted i (s.attempts i).kind e (s.attempts i).calls)
    (hg : UprightIf i (s.attempts i).kind e (s.attempts i).calls) (hr : ReadsReliable i (s.attempts i).calls) :
    Upright i (s.attempts i).kind e (s.attempts i).calls := by
  cases hst : e.op.writesStatus with
  | true => exact hg hst hr
  | false =>
    have hsame := written_status (called_written h) hst
    refine ⟨fun h => hsame ▸ h, fun h => .inl (hsame ▸ h), fun _ p hj => ?_⟩
    have hwrite := status_written hp.within (called_written h) hj
    obtain ⟨op, r, w, w'⟩ := e
    cases hwrite <;> cases hst

/-- The step: a call that keeps its guard keeps what is known of the Machine. -/
theorem attested_call {s : Site MachineRef} {e : Exchange}
    (hs : Attested i (journal i s.world) (DeleteWrote s i) (s.attempts i)) (h : Called S id s i e)
    (hp : Permitted i (s.attempts i).kind e (s.attempts i).calls)
    (hg : UprightIf i (s.attempts i).kind e (s.attempts i).calls) : 
    Attested i (journal i e.after) (DeleteWrote (s.record i i e) i) ((s.attempts i).push i e) := by
  have hU := upright_called h hp hg hs.read
  have hbefore : journal i e.before = journal i s.world := by rw [h.before]; rfl
  have hlater : journal i s.world <:+ journal i e.after := by
    rw [← hbefore]
    exact journal_suffix (written_later (called_written h)).log i
  have hfresh : ∀ m, live i (s.attempts i).calls = none → live i (e :: (s.attempts i).calls) = some m →
      Told (journal i s.world) m := by
    intro m hn hm
    obtain ⟨he, hu⟩ := live_read hn hm
    exact (called_told h hp.within he hu).2
  refine ⟨?_, fun m hm => ?_, fun hk => ?_, fun hk m hm hd hw => ?_, fun hw => ?_⟩
  · exact hU.reliable (hbefore ▸ hs.reliable)
  · have hm : live i (e :: (s.attempts i).calls) = some m := hm
    cases hl : live i (s.attempts i).calls with
    | some m' =>
      obtain rfl := Option.some.inj ((live_cons e hl).symm.trans hm)
      exact hs.read m' hl
    | none =>
      rw [(hfresh m hl hm).status]
      exact hs.reliable
  · exact hlater.subset (hs.admitted hk)
  · have hm : live i (e :: (s.attempts i).calls) = some m := hm
    rcases deleteWrote_record hw with hw | ⟨-, hk', -⟩
    · cases hl : live i (s.attempts i).calls with
      | some m' =>
        obtain rfl := Option.some.inj ((live_cons e hl).symm.trans hm)
        exact hs.wanted hk m' hl hd hw
      | none =>
        have := (hfresh m hl hm).deletion.mpr (hs.deleted hw).1
        rw [hd] at this
        cases this
    · exact hk hk'
  · rcases deleteWrote_record hw with hw | ⟨-, hk, p, hj, hne⟩
    · obtain ⟨hmark, hready⟩ := hs.deleted hw
      refine ⟨hlater.subset hmark, fun ht => ?_⟩
      rcases hU.wakes ht with hold | ⟨hk, m, hm, hd⟩
      · exact hready (hbefore ▸ hold)
      · exact hs.wanted hk m hm hd hw
    · exact ⟨hlater.subset (hs.admitted hk), hU.deletes hk p hj hne⟩

/-- Users do not write the status. -/
theorem attested_user {j : Journal} {wrote : Prop} {l : Local} {e : Event} (he : e.isUser = true)
    (h : Attested i j wrote l) : Attested i (e :: j) wrote l := by
  have hst : statusOf (e :: j) = statusOf j := statusOf_other fun p hp => by rw [hp] at he; cases he
  refine ⟨?_, h.read, fun hk => List.mem_cons_of_mem _ (h.admitted hk), h.wanted,
    fun hw => ⟨List.mem_cons_of_mem _ (h.deleted hw).1, ?_⟩⟩
  · rw [hst]; exact h.reliable
  · rw [hst]; exact (h.deleted hw).2

/-- A new attempt knows as much; a deletion begins on a Machine that is marked. -/
theorem attested_fresh {j : Journal} {wrote : Prop} {l : Local} {a : Attempt} {w : World}
    (ha : a = .delete → Event.marked ∈ j) (h : Attested i j wrote l) : Attested i j wrote (.fresh a w) :=
  ⟨h.reliable, by rintro m ⟨⟩, ha, by rintro - m ⟨⟩, h.deleted⟩

/-- The run: every state is attested as long as waiting deletions keep quiet. -/
theorem runs_attested (h : Reachable ((handlers S id).limit (QuietWait i)) (idle (Site.empty MachineRef)) c) :
    Attested i (journal i c.world.world) (DeleteWrote c.world i) (c.world.attempts i) := by
  have hG : AlwaysGuarded S id (QuietWait i) fun k a e earlier =>
      Permitted k a e earlier ∧ OnlyFor i (UprightIf i) k a e earlier := by
    intro c hc k later e earlier he
    refine ⟨always_permitted c hc k later e earlier he, ?_⟩
    have hrun := (framed_runs id (K := Attentive S i) (G := OnlyFor i (UprightIf i)) (Z := fun k a r l => k = i → Concluded i r l)
      (I := fun c => Reachable (handlers S id) (idle (Site.empty MachineRef)) c) (fun _ hc => limit_reachable hc)
      (fun _ _ _ _ _ _ _ hc hk _ hC => ⟨serial_known hc hk, fun hi => hC hi⟩)
      (fun k a => framed_only (fun _ _ _ h => h.1.basic) (framed_upright i a)) hc k).1
    exact hrun later e earlier he
  refine runs_keep id (P := fun s => Attested i (journal i s.world) (DeleteWrote s i) (s.attempts i)) hG ?_ ?_ ?_ ?_ h
  · refine ⟨reliable_empty, by rintro m ⟨⟩, by rintro ⟨⟩, by rintro - m ⟨⟩, ?_⟩
    rintro ⟨x, ⟨⟩, -⟩
  · intro s ch w' hs _ ho
    obtain ⟨k, es, hes, hj⟩ := ho.journal
    change Attested i (journal i w') (DeleteWrote s i) (s.attempts i)
    rw [hj]
    split
    · cases es with
      | none => exact hs
      | some e => exact attested_user (hes e rfl) hs
    · exact hs
  · intro s k a hs ha
    by_cases hk : k = i
    · subst hk
      rw [id, put_same]
      exact attested_fresh (fun hd => by subst hd; exact ha) hs
    · rw [put_other _ _ _ (Ne.symm hk)]
      exact hs
  · rintro s k e hs hcall ⟨hp, hg⟩ -
    by_cases hk : k = i
    · subst hk
      rw [id, recorded_same]
      exact attested_call hs hcall hp (hg rfl)
    · obtain ⟨es, hj, -⟩ := written_journal hp.within (called_written hcall)
      have hsame : journal i e.after = journal i s.world := by
        rw [hj, if_neg (show i ≠ id k from Ne.symm hk), hcall.before]
        rfl
      have hwrote : DeleteWrote (s.record k (id k) e) i = DeleteWrote s i := propext
        ⟨fun hw => (deleteWrote_record hw).resolve_right fun hn => hk hn.1,
          fun ⟨x, hx, hr⟩ => ⟨x, List.mem_cons_of_mem _ hx, hr⟩⟩
      rw [recorded_world, hsame, hwrote, recorded_other _ _ _ (Ne.symm hk)]
      exact hs

/-- Every stored status of `i` is coherent, and not ready once a deletion has written one. -/
structure ReportsOne (i : MachineRef) (s : Site MachineRef) : Prop where
  coherent : ∀ m, s.world.machines.lookup i.key = some m → m.metadata.uid = i.uid → Coherent m.status
  deleted : DeleteWrote s i → ∀ m, s.world.machines.lookup i.key = some m → m.metadata.uid = i.uid →
    m.status.ready ≠ some true

/-- As long as no deletion that waits for a reboot persists over a status that still is ready,
reports stay coherent and a deletion that has reported once has said not ready. -/
theorem status_coherent (h : Reachable ((handlers S id).limit (QuietWait i)) (idle (Site.empty MachineRef)) c) :
    ReportsOne i c.world := by
  have ha := runs_attested h
  have hst : ∀ m, c.world.world.machines.lookup i.key = some m → m.metadata.uid = i.uid →
      m.status = statusOf (journal i c.world.world) := by
    intro m hm hu
    obtain ⟨-, -, ht⟩ := (serialized_consistent (limit_reachable h)).accounted.machine _ m hm
    rw [hu] at ht
    exact ht.status
  refine ⟨fun m hm hu => ?_, fun hw m hm hu => ?_⟩
  · rw [hst m hm hu]; exact ha.reliable.coherent
  · rw [hst m hm hu]; exact (ha.deleted hw).2

/-- The status write that a call has made of `i`. -/
def Exchange.wrote (i : MachineRef) (e : Exchange) : Option StatusPatch :=
  match journal i e.after with
  | .status p :: rest => if rest = journal i e.before then some p else none
  | _ => none

theorem wrote_some {e : Exchange} : e.wrote i = some p ↔ journal i e.after = .status p :: journal i e.before := by
  unfold Exchange.wrote
  split
  · rename_i q rest hj
    rw [hj]
    split
    · rename_i hrest
      rw [hrest]
      simp
    · rename_i hrest
      exact ⟨by rintro ⟨⟩, fun h => absurd (List.cons.inj h).2 hrest⟩
  · rename_i hn
    exact ⟨by rintro ⟨⟩, fun h => absurd h (hn p _)⟩

/-- This call is a status write of a deletion. -/
def deleteWrites (i : MachineRef) (x : Made) : Bool :=
  decide (x.machine = i ∧ x.kind = .delete) && (x.exchange.wrote i).any fun p => p != .empty

theorem deleteWrote_any {s : Site MachineRef} (h : s.history.any (deleteWrites i) = true) : DeleteWrote s i := by
  obtain ⟨x, hx, hw⟩ := List.any_eq_true.mp h
  rw [deleteWrites, Bool.and_eq_true, decide_eq_true_eq] at hw
  obtain ⟨⟨rfl, hk⟩, hw⟩ := hw
  obtain ⟨p, hp, hne⟩ := (Option.any_eq_true _ _).mp hw
  exact ⟨x, hx, rfl, hk, p, wrote_some.mp hp, by simpa using hne⟩

def requested : Change :=
  .editMachine ⟨"n", "m"⟩ { smallSpec (some "a") with requestedAt := some "r" } (smallMeta "m")

/-- A Machine whose host has rebooted is deleted before that was observed. -/
def deletedInReboot : List (Turn MachineRef) :=
  bootstrapped ++ [.change requested, .start (smallRef "m" 1) .reconcile, .usual (smallRef "m" 1) 32,
    .finish (smallRef "m" 1), .change (.rebootHost ⟨"a", 22⟩), .change (.deleteMachine ⟨"n", "m"⟩ 0),
    .start (smallRef "m" 1) .delete, .usual (smallRef "m" 1) 21]

def storedReady (i : MachineRef) (s : Site MachineRef) : Bool :=
  (s.world.machines.lookup i.key).any fun m => m.metadata.uid == i.uid && m.status.ready == some true

/-- The host has rebooted when its Machine is deleted: the deletion persists what it has observed,
and nothing of its own report. -/
theorem deletion_ready : ¬ ∀ c : Crew MachineRef,
    Reachable (handlers smallSetting id) (idle (Site.empty MachineRef)) c → ReportsOne (smallRef "m" 1) c.world := by
  intro hall
  have h : (takes smallSetting id unchecked smallUsual deletedInReboot (idle (Site.empty MachineRef))).any (fun c =>
      c.world.history.any (deleteWrites (smallRef "m" 1)) && storedReady (smallRef "m" 1) c.world) = true := by
    decide +kernel
  obtain ⟨c, hc, hb⟩ := takes_exists h
  rw [Bool.and_eq_true, storedReady] at hb
  obtain ⟨hw, hr⟩ := hb
  cases hm : c.world.world.machines.lookup (smallRef "m" 1).key with
  | none => rw [hm] at hr; cases hr
  | some m =>
    rw [hm, Option.any_some, Bool.and_eq_true, beq_iff_eq, beq_iff_eq] at hr
    exact (hall c hc).deleted (deleteWrote_any hw) m hm hr.1 hr.2

/-- The Machine is deleted before its host has rebooted: the deletion looks at the host and
waits. Kopf stores what it has staged, so the next one that waits records the reboot of a
Machine that is not ready any more; a third one resets the host. -/
def deletedWaiting : List (Turn MachineRef) :=
  bootstrapped ++ [.change requested, .start (smallRef "m" 1) .reconcile, .usual (smallRef "m" 1) 32,
    .finish (smallRef "m" 1), .change (.deleteMachine ⟨"n", "m"⟩ 0), .start (smallRef "m" 1) .delete,
    .usual (smallRef "m" 1) 22, .finish (smallRef "m" 1), .change (.rebootHost ⟨"a", 22⟩),
    .start (smallRef "m" 1) .delete, .usual (smallRef "m" 1) 26, .finish (smallRef "m" 1),
    .start (smallRef "m" 1) .delete, .usual (smallRef "m" 1) 21]

/-- These are the calls of a deletion that waits for a reboot. -/
def awaitsBoot (i : MachineRef) (a : Attempt) (calls : List Exchange) : Bool :=
  a == .delete && (live i calls).any fun m => (m.status.reboot.getD .empty).pending

/-- What `QuietWait` asks of a call. -/
def quietly (k : MachineRef) (e : Exchange) (s : Site MachineRef) : Bool :=
  !awaitsBoot k (s.attempts k).kind (s.attempts k).calls || e.op.applies || (e.wrote k).isNone ||
    (statusOf (journal k e.before)).ready != some true

theorem quietly_waits {u k : MachineRef} {op : Op} {s : Site MachineRef} {r : Except Exc (Reply op)} {w' : World}
    (h : quietly k ⟨op, r, s.meets id k, w'⟩ s = true) :
    QuietWait u k op s r (s.record k (id k) ⟨op, r, s.meets id k, w'⟩) := by
  intro _ hk m hm hp happ p hj hready
  have hwrote : Exchange.wrote k ⟨op, r, s.meets id k, w'⟩ = some p := wrote_some.mpr hj
  have hready : (statusOf (journal k (s.meets id k))).ready = some true := hready
  simp [quietly, awaitsBoot, hk, hm, hp, happ, hwrote, hready] at h

/-- A deletion that waits has persisted a status itself, and the host has been reset. -/
def waitedAndReset (i : MachineRef) (s : Site MachineRef) : Bool :=
  (s.history.any fun x => awaitsBoot i x.kind x.earlier && !x.exchange.op.applies && deleteWrites i x) &&
    s.history.any fun x => x.exchange.op.resets.isSome

/-- A deletion waits for the boot, persists it, and resets the host afterwards. -/
theorem status_coherent_deleted : ∃ c : Crew MachineRef,
    Reachable ((handlers smallSetting id).limit (QuietWait (smallRef "m" 1))) (idle (Site.empty MachineRef)) c ∧
      waitedAndReset (smallRef "m" 1) c.world = true ∧ ReportsOne (smallRef "m" 1) c.world := by
  have h : (takes smallSetting id quietly smallUsual deletedWaiting (idle (Site.empty MachineRef))).any (fun c =>
      waitedAndReset (smallRef "m" 1) c.world) = true := by
    decide +kernel
  obtain ⟨c, hc, hb⟩ := takes_limited_exists (fun k op s r w' => quietly_waits) h
  exact ⟨c, hc, hb, status_coherent hc⟩

end runs

end CapiSsh
