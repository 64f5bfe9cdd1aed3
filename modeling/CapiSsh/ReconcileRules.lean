import CapiSsh.CleanupRules

/-!
# What an attempt writes

The walk through `sshmachine.py`. Bootstrap takes ownership before anything of a cleanup
can have happened, and touches the host only through jobs that the host itself fences.
Every attempt therefore keeps to the discipline, and so does every run of the cluster.
-/
namespace CapiSsh

open Effect Interference

variable {S : Setting} {i : MachineRef} {P A E : Fact} {spec : MachineSpec} {status : MachineStatus}
  {metadata : ObjectMeta} {tools : PayloadTools} {timeout : Time}

/-- A report writes conditions and flags. -/
theorem only_reportLifecycle {r : LifecycleReport} : (reportLifecycle status metadata r).Only Op.harmless :=
  Prog.only_bind (only_quiet (by rfl)) fun _ => only_patchConditions

theorem only_stageReady {ready provisioned : Bool} : (stageReady ready provisioned).Only Op.harmless :=
  only_stage fun _ _ => ⟨rfl, rfl, .inl rfl, rfl⟩

theorem only_reportNotReady {reason message bootstrapReason bootstrapMessage : String} :
    (reportNotReady status metadata reason message bootstrapReason bootstrapMessage).Only Op.harmless :=
  Prog.only_bind only_stageReady fun _ => only_reportLifecycle

theorem only_readSshKey {ns name key : String} : (readSshKey ns name key).Only Op.harmless := by
  refine Prog.only_bind (only_quiet (by rfl)) fun data => ?_
  split <;> trivial

/-- Turning a missing object into a retry adds no call. -/
theorem only_orMissing {read : Act α} (h : read.Only Op.harmless) : (orMissing read).Only Op.harmless := by
  refine Prog.only_handle (Prog.only_bind h fun _ => trivial) fun e => ?_
  split <;> trivial

/-- Payloads are only read. -/
theorem only_readBootstrapData {ns machineName : String} : (readBootstrapData ns machineName).Only Op.harmless := by
  refine Prog.only_bind (only_orMissing (only_quiet (by rfl))) fun machine => ?_
  split
  · trivial
  · split
    · trivial
    · refine Prog.only_bind (only_orMissing (only_quiet (by rfl))) fun data => ?_
      split <;> trivial

/-- Staging reads the certificates. -/
theorem only_stagedScript {ns : String} {config : Option ExternalEtcd} {script : String} :
    (stagedScript tools ns config script).Only Op.harmless := by
  unfold stagedScript
  split
  · trivial
  · exact Prog.only_bind only_readSshKey fun _ => Prog.only_bind only_readSshKey fun _ =>
      Prog.only_bind only_readSshKey fun _ => trivial

theorem only_backfill {providerID address : String} :
    (backfillProvisionedFields spec status metadata providerID address).Only Op.harmless :=
  Prog.only_bind (only_stage fun _ _ => ⟨rfl, rfl, .inl rfl, rfl⟩) fun _ => only_onlyIf only_reportLifecycle

theorem only_stillWanted {key : ObjectKey} {uid : Uid} {message : String} :
    (stillWanted key uid message).Only Op.harmless := by
  refine Prog.only_bind (only_orMissing (only_quiet (by rfl))) fun latest => ?_
  split
  · trivial
  · exact Prog.only_bind only_raiseIf fun _ => Prog.only_bind only_isPaused fun _ => trivial

/-- A command that the host answers without doing anything is harmless. -/
theorem only_execute {conn : Conn} {command : Command} (h : (Op.run conn command).quiet = true) :
    (execute conn command).Only Op.harmless :=
  Prog.only_bind (only_quiet h) fun _ => trivial

/-- Waiting for a receipt asks the same quiet question in every round. -/
theorem only_observeReceipt {conn : Conn} {uid : Uid} {deadline : Time} : ∀ rounds : Nat,
    (observeReceipt (execute conn) (call .now) (pure ()) id uid deadline rounds).Only Op.harmless
  | 0 => trivial
  | rounds + 1 => by
    refine Prog.only_bind (only_quiet (by rfl)) fun time => ?_
    split
    · trivial
    · refine Prog.only_bind (only_execute (by rfl)) fun result => ?_
      split
      · split <;> try trivial
        exact only_observeReceipt rounds
      · trivial

/-- For the journal of the Machine its bootstrap job is harmless. -/
theorem only_durableBootstrap {conn : Conn} {uid : Uid} {path : String} :
    (durableBootstrap (execute conn) (call .now) (pure ()) id uid path timeout).Only Op.harmless := by
  refine Prog.only_bind (only_execute (by rfl)) fun submitted => ?_
  split
  · exact Prog.only_bind (only_quiet (by rfl)) fun _ => only_observeReceipt _
  · trivial

theorem only_bootstrapError {e : Exc} : (bootstrapError status metadata e : Act α).Only Op.harmless := by
  unfold bootstrapError
  split
  · exact Prog.only_bind only_reportNotReady fun _ => trivial
  · exact Prog.only_bind only_reportNotReady fun _ => trivial
  · exact Prog.only_bind only_reportNotReady fun _ => trivial
  · trivial

theorem only_reportProvisioned {address providerID strategy : String} :
    (reportProvisioned status metadata address providerID strategy).Only Op.harmless :=
  Prog.only_bind (only_stage fun _ _ => ⟨rfl, rfl, .inl rfl, rfl⟩) fun _ =>
    Prog.only_bind only_stageReady fun _ => only_reportLifecycle

/-- A dry run is harmless from end to end. -/
theorem only_dryRun {binding : Binding} {sshKey knownHosts : String} :
    (dryRun status metadata binding sshKey knownHosts).Only Op.harmless := by
  refine Prog.only_bind (Prog.only_handle (Prog.only_bind (only_quiet (by rfl)) fun _ => only_quiet (by rfl))
    fun e => ?_) fun _ => Prog.only_bind only_stageReady fun _ => only_reportLifecycle
  exact Prog.only_bind only_raiseIf fun _ => Prog.only_bind only_reportNotReady fun _ => trivial

/-- What bootstrap knows: the record of its object, and that no cleanup has had an effect. -/
structure Bootstraps (spec : MachineSpec) (status : MachineStatus) (j : Journal) (s : Option RebootState) : Prop where
  follows : Follows spec status false j s
  unstarted : ¬ started j

/-- A cleanup that has not begun does not begin by another event. -/
theorem unstarted_step {j : Journal} {e : Event} (h : ¬ started j) (he : e.startsCleanup = false) :
    ¬ started (e :: j) := by
  rw [started_cons, he]
  simpa using h

/-- No user can disturb what a bootstrap expects. -/
theorem bootstraps_calm : Calm (Bootstraps spec status) where
  requested j s v h := ⟨follows_calm.requested j s v h.follows, h.unstarted⟩
  marked j s h := ⟨follows_calm.marked j s h.follows, h.unstarted⟩

/-- Nor do the events of its own binding. -/
theorem bootstraps_bind {T : Trust} : BindStable T i (Bootstraps spec status) where
  toCalm := bootstraps_calm
  claim j s x ref p h := ⟨(follows_bind (T := T) (i := i)).claim j s x ref p h.follows, unstarted_step h.unstarted rfl⟩
  claimed j s x ref p h :=
    ⟨(follows_bind (T := T) (i := i)).claimed j s x ref p h.follows, unstarted_step h.unstarted rfl⟩
  allocation j s b cs hb h := ⟨follows_bind.allocation j s b cs hb h.follows, unstarted_step h.unstarted rfl⟩

/-- The same, with the target bound. -/
def Bound (spec : MachineSpec) (status : MachineStatus) (binding : Binding) : Fact := fun j s =>
  Bootstraps spec status j s ∧ identityOf j = some binding.identity

theorem bound_calm {binding : Binding} : Calm (Bound spec status binding) :=
  calm_and bootstraps_calm (fun _ _ h => h) fun _ h => h

/-- An event that leaves the identity, the record and the cleanup alone leaves the Machine bound. -/
theorem bound_step {binding : Binding} {j : Journal} {s : Option RebootState} {e : Event}
    (h : Bound spec status binding j s) (hid : identityOf (e :: j) = identityOf j) (hrec : record (e :: j) = record j)
    (hsent : sentOf (e :: j) = sentOf j ∧ requestOf (e :: j) = requestOf j) (he : e.startsCleanup = false) :
    Bound spec status binding (e :: j) s :=
  ⟨⟨follows_step h.1.follows (fun _ hd => hid.trans hd) hrec (.inr hsent), unstarted_step h.1.unstarted he⟩,
    hid.trans h.2⟩

/-- A quarantine is a mark on the host; the Machine stays bound. -/
theorem proves_quarantine {binding : Binding} {reason : String} :
    Proves S i (Bound spec status binding) (setHostPhase binding i.key i.uid .quarantined reason)
      (fun _ => Bound spec status binding) (Bound spec status binding) := by
  refine proves_conseq (proves_setHostPhase (A := Bound spec status binding) bound_calm
    (fun _ _ _ h => h) ?_ ?_) (fun _ _ _ h => h) (fun _ _ _ _ h => h) fun _ _ _ h => h.elim id id
  · exact fun x _ _ j s _ _ => ⟨by rintro ⟨⟩, by rintro ⟨⟩, fun _ _ => by rintro ⟨⟩⟩
  · exact fun x _ j s ref old h _ => bound_step h rfl rfl ⟨rfl, rfl⟩ rfl

/-- The ownership that bootstrap writes, or had written, is one that the journal allows. -/
theorem law_ownership {T : Trust} {j : Journal} {s : Option RebootState} {binding : Binding} {o : Ownership}
    (h : Bound spec status binding j s) (ho : status.bootstrapOwnership = some o ∨
      status.bootstrapOwnership = none ∧ o.toBinding = binding) :
    identityOf j = some o.identity ∧
      Law T i j (.status { StatusPatch.empty with bootstrapOwnership := some o }) := by
  have hd : identityOf j = some o.identity := by
    rcases ho with ho | ⟨-, ho⟩
    · exact (h.1.follows.target o ho).2.1
    · rw [ho]; exact h.2
  refine ⟨hd, StatusLaw.mk ?_ ?_ ?_ ?_⟩
  · rintro b ⟨⟩
  · rintro o' ⟨⟩
    obtain ⟨b, hb, hi⟩ := Option.map_eq_some_iff.mp hd
    exact ⟨⟨b, hb, hi.symm⟩, .inr ⟨h.1.unstarted, rfl⟩⟩
  · rintro c ⟨⟩
  · rintro r ⟨⟩

/-- Ownership is persisted before the host is asked to record it. -/
theorem proves_ensureOwnership {conn : Conn} {binding : Binding} :
    Proves S i (Bound spec status binding) (ensureBootstrapOwnership conn binding i.key i.uid status)
      (fun _ => Bound spec status binding) (Bound spec status binding) := by
  have hP : Calm (Bound spec status binding) := bound_calm
  unfold ensureBootstrapOwnership
  refine proves_skip (only_quiet (by rfl)) hP (fun _ _ h => h) fun now => ?_
  dsimp only
  generalize hown : status.bootstrapOwnership.getD { toBinding := binding, startedAt := some now } = o
  have ho : status.bootstrapOwnership = some o ∨ status.bootstrapOwnership = none ∧ o.toBinding = binding := by
    cases hs : status.bootstrapOwnership with
    | none => rw [hs] at hown; exact .inr ⟨rfl, by rw [← hown]; rfl⟩
    | some o' => rw [hs] at hown; exact .inl (congrArg some hown)
  refine proves_guard (fun _ _ h => h) fun _ => ?_
  let K : Fact := fun j s => Bound spec status binding j s ∧ owned j ∧ identityOf j = some o.identity
  have hK : Calm K := calm_and hP (fun _ _ h => h) fun _ h => h
  refine proves_bind (A := fun _ => K) ?_ fun _ => proves_bind (A := fun _ => Bound spec status binding) ?_ fun _ => ?_
  · refine proves_conseq (proves_persist (A := K) hP (fun j s _ h => ⟨(law_ownership h ho).2, .inl rfl⟩) ?_)
      (fun _ _ _ h => h) (fun _ _ _ _ h => h) fun _ _ _ h => h.elim id And.left
    intro j s cs h
    refine ⟨bound_step h ?_ (record_untouched rfl) ⟨rfl, rfl⟩ rfl, ?_, ?_⟩
    · rfl
    · simp [owned, statusOf, StatusPatch.apply, mergeKey]
    · exact (law_ownership (T := S.trust) (i := i) h ho).1
  · refine rule_stage hK fun j t p _ hc h => ⟨⟨hc.allocation, ?_, hc.cleanup, hc.reboot⟩, h.1⟩
    rintro o' ⟨⟩
    exact h.2
  · refine proves_skip (only_execute (by rfl)) hP (fun _ _ h => h) fun claim => ?_
    refine proves_onlyIf (fun _ => ?_) fun _ _ _ h => h
    refine proves_bind (A := fun _ => Bound spec status binding) (proves_onlyIf (fun _ => ?_) fun _ _ _ h => h)
      fun _ => proves_throw fun _ _ _ h => h
    exact proves_bind proves_quarantine fun _ => proves_throw fun _ _ _ h => h

/-- Under the lease the Machine stays bound, whether the job is started or found. -/
theorem proves_bootstrapUnderLease {operation : HostLeaseRef} {conn : Conn} {binding : Binding}
    {script strategy : String} (hk : metadata.key = i.key) (hu : metadata.uid = i.uid) :
    Proves S i (Bound spec status binding)
      (bootstrapUnderLease tools operation conn spec status metadata binding script strategy timeout)
      (fun _ => Bound spec status binding) (Bound spec status binding) := by
  have hP : Calm (Bound spec status binding) := bound_calm
  have hid : ∀ j s, Bound spec status binding j s → Bound spec status binding j s := fun _ _ h => h
  unfold bootstrapUnderLease
  simp only [hk, hu]
  refine proves_skip only_stillWanted hP hid fun wanted => ?_
  split
  · refine proves_skip only_checkLease hP hid fun _ => proves_bind proves_ensureOwnership fun _ => ?_
    refine proves_skip only_stagedScript hP hid fun _ => proves_skip (only_quiet (by rfl)) hP hid fun suffix => ?_
    refine proves_skip only_checkLease hP hid fun _ => proves_skip (only_quiet (by rfl)) hP hid fun _ => ?_
    refine proves_skip only_checkLease hP hid fun _ => proves_skip only_stillWanted hP hid fun wanted => ?_
    split
    · refine proves_skip only_durableBootstrap hP hid fun result => ?_
      refine proves_bind (A := fun _ => Bound spec status binding) (proves_onlyIf (fun _ => ?_) fun _ _ _ h => h)
        fun _ => ?_
      · refine proves_bind proves_quarantine fun _ => ?_
        exact proves_skip only_reportNotReady hP hid fun _ => proves_throw fun _ _ _ h => h
      · refine proves_bind (A := fun _ => Bound spec status binding) (proves_onlyIf (fun _ => ?_) fun _ _ _ h => h)
          fun _ => proves_pure fun _ _ _ h => h
        refine proves_skip (only_execute (by rfl)) hP hid fun readiness => proves_onlyIf (fun _ => ?_) fun _ _ _ h => h
        refine proves_skip only_stageReady hP hid fun _ => ?_
        exact proves_skip only_reportLifecycle hP hid fun _ => proves_throw fun _ _ _ h => h
    · exact proves_pure fun _ _ _ h => h
  · exact proves_pure fun _ _ _ h => h

/-- What holds across the body holds across the lease and the connection around it. -/
theorem proves_withTarget {A : α → Fact} {binding : Binding} {uid : Uid} {key knownHosts : String}
    {body : HostLeaseRef → Conn → Act α} (hP : Calm P) (hA : ∀ a, Calm (A a)) (hE : Calm E)
    (hPE : ∀ j s, P j s → E j s) (h : ∀ lease conn, Proves S i P (body lease conn) A E) :
    Proves S i P (withTarget binding uid key knownHosts body) (Left A E) E :=
  proves_hostOperation hP hA hE hPE fun lease =>
    proves_withConn (t := binding.target) hA hE hPE (rule_connect hP) fun conn _ => h lease conn

/-- The whole way from the payload to the report keeps the journal lawful. -/
theorem proves_bootstrapMachine {owner : OwnerReference} {binding : Binding} {strategy : String}
    (hk : metadata.key = i.key) (hu : metadata.uid = i.uid) :
    Proves S i (Bound spec status binding) (bootstrapMachine tools spec status metadata owner binding strategy timeout)
      (fun _ => Bound spec status binding) (Bound spec status binding) := by
  have hP : Calm (Bound spec status binding) := bound_calm
  have hid : ∀ j s, Bound spec status binding j s → Bound spec status binding j s := fun _ _ h => h
  unfold bootstrapMachine
  dsimp only
  refine proves_skip only_readBootstrapData hP hid fun data => ?_
  split
  · exact proves_skip only_reportNotReady hP hid fun _ => proves_throw fun _ _ _ h => h
  · split
    · exact proves_skip only_reportNotReady hP hid fun _ => proves_throw fun _ _ _ h => h
    · exact proves_throw fun _ _ _ h => h
    · split
      · exact proves_skip only_reportNotReady hP hid fun _ => proves_throw fun _ _ _ h => h
      · refine proves_skip ?_ hP hid fun keys => ?_
        · refine Prog.only_handle (Prog.only_bind only_readSshKey fun _ =>
            Prog.only_bind only_readKnownHosts fun _ => trivial) fun e => ?_
          exact Prog.only_bind only_raiseIf fun _ => Prog.only_bind only_reportNotReady fun _ => trivial
        · split
          · exact proves_harmless only_dryRun hP
          · refine proves_bind (A := fun _ => Bound spec status binding) ?_ fun wanted => ?_
            · refine proves_handle (E := Bound spec status binding) ?_ fun e => proves_harmless only_bootstrapError hP
              refine proves_bind (proves_withTarget hP (fun _ => hP) hP hid fun operation conn =>
                proves_bootstrapUnderLease hk hu) fun exit => proves_value hid fun _ => hid
            · split
              · exact proves_harmless only_reportProvisioned hP
              · exact proves_pure fun _ _ _ h => h

/-- What was read at the start of a reconciliation. -/
structure Fresh (spec : MachineSpec) (status : MachineStatus) (metadata : ObjectMeta) (j : Journal)
    (s : Option RebootState) : Prop where
  follows : Follows spec status false j s
  target : SameTarget status j
  unmarked : metadata.deletionTimestamp = none → ¬ started j

theorem fresh_calm : Calm (Fresh spec status metadata) where
  requested j s v h := ⟨follows_calm.requested j s v h.follows, h.target, h.unmarked⟩
  marked j s h := ⟨follows_calm.marked j s h.follows, h.target, h.unmarked⟩

/-- Whatever bootstrap comes to, the record that it started with still stands. -/
theorem proves_reconcileImpl (hk : metadata.key = i.key) (hu : metadata.uid = i.uid) :
    Proves S i (Fresh spec status metadata) (sshmachineReconcileImpl tools spec status metadata timeout)
      (fun _ => Follows spec status false) Any := by
  have hskip : ∀ j s, Fresh spec status metadata j s → Any j s := fun _ _ _ => trivial
  unfold sshmachineReconcileImpl
  refine proves_skip (only_reportPause only_isPaused) fresh_calm hskip fun paused => ?_
  split
  · exact proves_pure fun _ _ _ h => h.follows
  · rename_i hlive
    simp only [Bool.or_eq_true, not_or] at hlive
    have hlive : metadata.deletionTimestamp = none := by simpa using hlive.2
    split
    · exact proves_conseq (proves_harmless only_reportNotReady fresh_calm) (fun _ _ _ h => h)
        (fun _ _ _ _ h => h.follows) fun _ _ _ _ => trivial
    · split
      · exact proves_skip only_reportNotReady fresh_calm hskip fun _ => proves_throw fun _ _ _ _ => trivial
      · rw [hk, hu]
        refine proves_bind (proves_conseq (proves_bindMachine (P := Bootstraps spec status) bootstraps_bind)
          (fun j s _ h => ⟨⟨h.follows, h.unmarked hlive⟩, h.target⟩) (fun _ _ _ _ h => h)
          fun _ _ _ _ => trivial) fun binding => ?_
        split
        · have hP : Calm (Bound spec status binding) := bound_calm
          exact proves_conseq (proves_harmless only_backfill hP) (fun _ _ _ h => h)
            (fun _ _ _ _ h => h.1.follows) fun _ _ _ _ => trivial
        · exact proves_conseq (proves_bootstrapMachine hk hu) (fun _ _ _ h => h)
            (fun _ _ _ _ h => h.1.follows) fun _ _ _ _ => trivial

/-- What the live object tells about a journal whose attempt has staged nothing yet. -/
theorem fresh_read {j : Journal} {m : Machine} (hl : Lawful S.trust i j) (h : Read i m j) :
    Fresh m.spec m.status m.metadata j none := by
  have hrec : record j = m.status.reboot.getD .empty := by rw [h.status]; rfl
  refine ⟨⟨hrec, rfl, ?_, fun _ => h.fresh⟩, by rw [SameTarget, h.status, identityOf], h.unmarked⟩
  intro o ho
  rw [h.status] at ho ⊢
  have hd := ownership_identity hl o ho
  obtain ⟨b, hb, hi⟩ := Option.map_eq_some_iff.mp hd
  exact ⟨by rw [owned, ho]; rfl, hd, b, hb, hi⟩

/-- An attempt that deletes was started for a marked Machine. -/
def Started (a : Action) : Fact := fun j s => s = none ∧ (a = .delete → Event.marked ∈ j)

theorem started_calm {a : Action} : Calm (Started a) :=
  ⟨fun _ _ _ h => ⟨h.1, fun ha => List.mem_cons_of_mem _ (h.2 ha)⟩,
    fun _ _ h => ⟨h.1, fun ha => List.mem_cons_of_mem _ (h.2 ha)⟩⟩

/-- Whichever action has begun, the attempt that has read the Machine obeys the law. -/
theorem proves_reconcileLatest {m : Machine} {action : Action} (hu : m.metadata.uid = i.uid) :
    Proves S i (fun j s => Started action j s ∧ Read i m j) (reconcileLatest tools m action timeout)
      (fun _ => Any) Any := by
  refine proves_have (m.metadata.key = i.key) (fun _ _ _ h => h.2.key) fun hk => ?_
  unfold reconcileLatest
  cases action with
  | delete =>
    exact proves_weaken (proves_deleteMachine hk hu) fun j s _ h => ⟨h.1.2 rfl, h.2.status.symm, h.1.1⟩
  | reconcile =>
    refine proves_bind (proves_weaken (proves_reconcileImpl hk hu) ?_) fun _ => ?_
    · rintro j s hl ⟨⟨rfl, -⟩, hread⟩
      exact fresh_read hl hread
    · change Proves _ _ _ (if _ then _ else _) _ _
      split
      · exact proves_reconcileReboot hk hu
      · exact proves_pure fun _ _ _ _ => trivial

/-- Reading the Machine once more yields what the journal holds. -/
theorem proves_readCurrent (hP : Calm P) : Proves S i P (readCurrentSshmachine i.key)
    (fun r j s => P j s ∧ ∀ m, r = some m → m.metadata.uid = i.uid → Read i m j) P := by
  refine proves_handle (E := P) (proves_bind (rule_readMachine hP rfl) fun m => proves_pure fun j s _ h => ?_) fun e => ?_
  · refine ⟨h.1, ?_⟩
    rintro m' ⟨⟩ hu
    exact h.2 hu
  · split
    · exact proves_pure fun j s _ h => ⟨h, by rintro m ⟨⟩⟩
    · exact proves_throw fun _ _ _ h => h

theorem only_acquireLock {key : ObjectKey} : (acquireDistributedLockOrRequeue key).Only Op.harmless := by
  refine Prog.only_bind (Prog.only_handle (only_quiet (by rfl)) fun e => ?_) fun _ => only_raiseIf
  split <;> trivial

theorem only_releaseLock {key : ObjectKey} : (releaseDistributedLockWithLogging key).Only Op.harmless := by
  refine Prog.only_bind (Prog.only_handle (only_quiet (by rfl)) fun e => ?_) fun _ => trivial
  split <;> trivial

theorem proves_sshmachineReconcile {action : Action} :
    Proves S i (Started action) (sshmachineReconcile tools i.key i.uid action timeout) (fun _ => Any) Any := by
  unfold sshmachineReconcile
  refine proves_skip only_acquireLock started_calm (fun _ _ _ => trivial) fun _ => ?_
  have hrel : Proves S i Any (releaseDistributedLockWithLogging i.key) (fun _ => Any) Any :=
    proves_harmless only_releaseLock calm_any
  refine proves_finally (E := Any) ?_ (fun _ => hrel) hrel
  refine proves_bind (proves_handle (E := Started action) (proves_readCurrent started_calm) fun e => ?_) fun latest => ?_
  · split <;> exact proves_throw fun _ _ _ _ => trivial
  · cases latest with
    | none => exact proves_pure fun _ _ _ _ => trivial
    | some live =>
      change Proves _ _ _ (if _ then _ else _) _ _
      split
      · exact proves_pure fun _ _ _ _ => trivial
      · rename_i hu
        have hu : live.metadata.uid = i.uid := by simpa using hu
        exact proves_weaken (proves_reconcileLatest hu) fun j s _ h => ⟨h.1, h.2 live rfl hu⟩

end CapiSsh
