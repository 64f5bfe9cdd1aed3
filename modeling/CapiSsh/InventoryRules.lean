import CapiSsh.Rules

/-!
# What binding and releasing write

The walks through `contracts.py` and `inventory.py`: each function keeps to the discipline
and, for a fact that its events leave alone, keeps that fact.
-/
namespace CapiSsh

open Effect Interference

variable {S : Setting} {i : MachineRef} {P A E : Fact}

theorem only_quiet {op : Op} (h : op.quiet = true) : (call op).Only Op.harmless :=
  Prog.only_perform (.inl h)

theorem only_stage {f : Time → Patch → Patch} (h : harmless f) : (stage f).Only Op.harmless :=
  Prog.only_perform (.inr ⟨f, rfl, h⟩)

theorem only_readOwner {plural version : String} {key : ObjectKey} {message : String} :
    (readOwner plural version key message).Only Op.harmless := by
  unfold readOwner
  refine Prog.only_handle (Prog.only_bind (only_quiet (by rfl)) fun _ => Prog.only_pure _) fun e => ?_
  split <;> trivial

theorem only_isPausedOwners {ns : String} (owners : List OwnerReference) : ∀ (name : Option String) (version : String),
    (isPausedOwners ns owners name version).Only Op.harmless := by
  induction owners with
  | nil =>
    intro name version
    unfold isPausedOwners
    split
    · trivial
    · refine Prog.only_bind only_readOwner fun o => ?_
      cases o <;> trivial
  | cons owner rest ih =>
    intro name version
    unfold isPausedOwners
    split
    · exact ih _ _
    · split
      · exact ih _ _
      · refine Prog.only_bind only_readOwner fun o => ?_
        cases o with
        | none => trivial
        | some obj =>
          simp only
          split
          · trivial
          · split
            · trivial
            · split
              · trivial
              · exact ih _ _

/-- The pause check is harmless. -/
theorem only_isPaused {spec : MachineSpec} {metadata : ObjectMeta} {ns : String} :
    (isPaused spec metadata ns).Only Op.harmless := by
  unfold isPaused
  split
  · trivial
  · exact only_isPausedOwners _ _ _

theorem only_readKnownHosts {ns : String} {ref : SecretRef} : (readKnownHosts ns ref).Only Op.harmless := by
  unfold readKnownHosts
  split
  · trivial
  · refine Prog.only_bind (only_quiet (by rfl)) fun data => ?_
    split <;> trivial

/-- The conditions of a write are no part of the law. -/
theorem law_conditions {T : Trust} {j : Journal} {p : StatusPatch} (cs : Option (List Condition))
    (h : Law T i j (.status p)) : Law T i j (.status { p with conditions := cs }) :=
  ⟨h.allocation, h.ownership, h.cleanup, h.reboot⟩

/-- A write that obeys the law is persisted as it is. -/
theorem proves_persist {changes : StatusPatch} (hP : Calm P)
    (h : ∀ j s, Lawful S.trust i j → P j s → Law S.trust i j (.status changes) ∧
      (changes.reboot = none ∨ s = none ∨ s = changes.reboot ∧ ∃ r, changes.reboot = some r ∧ Updates j r))
    (hA : ∀ j s cs, P j s → A (.status { changes with conditions := cs } :: j) s) :
    Proves S i P (persistMachineStatus i.key i.uid changes) (fun _ => A) (fun j s => P j s ∨ A j s) := by
  have hquiet : ∀ {op : Op}, op.quiet = true → Proves S i P (call op) (fun _ => P) (fun j s => P j s ∨ A j s) :=
    fun hq => proves_conseq (rule_quiet hq hP) (fun _ _ _ h => h) (fun _ _ _ _ h => h) fun _ _ _ h => .inl h
  unfold persistMachineStatus
  refine proves_bind (hquiet (by rfl)) fun current => proves_guard (fun _ _ h => .inl h) fun _ => ?_
  refine proves_bind (hquiet (by rfl)) fun now => proves_handle (E := fun j s => P j s ∨ A j s) ?_ fun e => ?_
  · refine rule_patchStatus hP fun j s hl hp => ?_
    obtain ⟨hlaw, hs⟩ := h j s hl hp
    exact ⟨law_conditions _ hlaw, hs, hA _ _ _ hp⟩
  · split <;> exact proves_throw fun _ _ _ h => h

/-- The host that was read is one that the Machine claims. -/
def Holding (T : Trust) (P : Fact) (host : Host) : Fact :=
  fun j s => P j s ∧ (T.claims = true → (heldOf host.metadata.uid j).isSome)

theorem holding_calm {T : Trust} (hP : Calm P) (host : Host) : Calm (Holding T P host) :=
  ⟨fun j s v h => ⟨hP.requested j s v h.1, h.2⟩, fun j s h => ⟨hP.marked j s h.1, h.2⟩⟩

theorem holding_read {T : Trust} {host : Host} (hsame : sameConsumer host.spec.consumerRef i.key i.uid = true) :
    ∀ j s, Lawful T i j → P j s ∧ Claims T i host j → Holding T P host j s := by
  rintro j s - ⟨hp, hcl⟩
  refine ⟨hp, fun hT => ?_⟩
  obtain ⟨p, hp, -⟩ := hcl hsame hT
  simp [hp]

/-- The phase of the host that a binding names, when the Machine still claims it. -/
theorem proves_setHostPhase {binding : Binding} {phase : HostPhase} {reason : String} (hP : Calm P)
    (hnone : binding.hostRef = none → ∀ j s, P j s → A j s)
    (h : ∀ x, binding.hostRef.isSome → binding.hostUID = some x → ∀ j s, Lawful S.trust i j → P j s →
      (phase = .cleaning → Event.marked ∈ j ∧ ∃ b, (statusOf j).allocation = some b ∧ b.hostUID = some x) ∧
      phase ≠ .available ∧
      (S.trust.claims = true → S.trust.phases = true → phase = .claimed → ∀ p, heldOf x j = some p → unclean p = false))
    (hA : ∀ x, binding.hostUID = some x → ∀ j s ref old, P j s →
      (S.trust.claims = true → (heldOf x j).isSome) → A (.phase x ref old phase :: j) s) :
    Proves S i P (setHostPhase binding i.key i.uid phase reason) (fun _ => A) (fun j s => P j s ∨ A j s) := by
  unfold setHostPhase
  split
  · rename_i hr
    exact proves_pure fun j s _ hp => hnone hr j s hp
  · rename_i ref hr
    refine proves_bind (proves_conseq (rule_readHost hP) (fun _ _ _ h => h) (fun _ _ _ _ h => h)
      fun _ _ _ h => .inl h) fun host => proves_guard (fun _ _ h => .inl h.1) fun hcheck => ?_
    simp only [not_or, Bool.not_eq_false, ne_eq, Decidable.not_not] at hcheck
    obtain ⟨hu, hsame⟩ := hcheck
    refine proves_bind (A := fun _ => A) ?_ fun _ => proves_pure fun _ _ _ h => h
    refine proves_conseq (rule_phase (A := A) (holding_calm hP host) ?_ ?_) (holding_read hsame)
      (fun _ _ _ _ h => h.2) ?_
    · rintro j s hl ⟨hp, hheld⟩
      obtain ⟨h₁, h₂, h₃⟩ := h _ (by simp [hr]) hu.symm j s hl hp
      refine ⟨h₁, fun h => absurd h h₂, fun hT => ?_⟩
      obtain ⟨p, hp⟩ := Option.isSome_iff_exists.mp (hheld hT)
      exact ⟨p, hp, fun hPh hn => h₃ hT hPh hn p hp⟩
    · rintro j s ref old ⟨hp, hheld⟩
      exact hA _ hu.symm j s ref old hp hheld
    · rintro j s - (h | h)
      · exact .inl h.1
      · exact .inr h

/-- Releasing a host needs nothing but the receipt. -/
theorem proves_releaseHost {binding : Binding} (hP : Calm P)
    (hs : ∀ j s, P j s → (statusOf j).cleanup = some .succeeded)
    (hphase : ∀ j s x ref old new, P j s → P (.phase x ref old new :: j) s)
    (hclaim : ∀ j s x ref, P j s → P (.unclaim x ref :: j) s) :
    Proves S i P (releaseHost binding i.key i.uid) (fun _ => P) P := by
  unfold releaseHost
  split
  · exact proves_pure fun _ _ _ h => h
  · rename_i ref hr
    refine proves_bind (proves_conseq (rule_readHost hP) (fun _ _ _ h => h) (fun _ _ _ _ h => h)
      fun _ _ _ h => h) fun host => proves_guard (fun _ _ h => h.1) fun _ => ?_
    refine proves_onlyIf (fun _ => proves_guard (fun _ _ h => h.1) fun hsame => ?_) fun _ _ _ h => h.1
    simp only [Bool.not_eq_false] at hsame
    refine proves_bind (A := fun host' j s => host'.metadata.uid = host.metadata.uid ∧
      Holding S.trust P host j s) ?_ fun host' => proves_intro fun hu => ?_
    · refine proves_conseq (rule_phase (A := Holding S.trust P host) (holding_calm hP host) ?_ ?_)
        (holding_read hsame) (fun _ _ _ _ h => h) ?_
      · rintro j s - ⟨hp, hheld⟩
        refine ⟨nofun, fun _ => hs j s hp, fun hT => ?_⟩
        obtain ⟨p, hp⟩ := Option.isSome_iff_exists.mp (hheld hT)
        exact ⟨p, hp, fun _ => nofun⟩
      · rintro j s ref old ⟨hp, hheld⟩
        exact ⟨hphase _ _ _ _ _ _ hp, fun hT => by rw [heldOf_phase]; simpa using hheld hT⟩
      · rintro j s - (h | h)
        · exact h.1
        · exact h.1
    · have hpre : Host.precondition host' = ⟨host.metadata.uid, host'.metadata.resourceVersion⟩ := by
        change (⟨host'.metadata.uid, _⟩ : Precondition) = _
        rw [hu]
      rw [hpre]
      refine proves_bind (A := fun _ => P) ?_ fun _ => proves_pure fun _ _ _ h => h
      refine proves_conseq (rule_unclaim (A := P) (holding_calm hP host) ?_ ?_) (fun _ _ _ h => h)
        (fun _ _ _ _ h => h) ?_
      · rintro j s - ⟨hp, hheld⟩
        exact ⟨hs j s hp, fun hT => Option.isSome_iff_exists.mp (hheld hT)⟩
      · rintro j s ref ⟨hp, -⟩
        exact hclaim _ _ _ _ hp
      · rintro j s - (h | h)
        · exact h.1
        · exact h

theorem claimFirst_rule (labels : List (String × String)) (hP : Calm P)
    (hA : ∀ j s x ref p, P j s → P (.claim x ref p :: j) s) : ∀ hosts : List Host,
    Triple (cluster S) (discipline S.trust) i (fun w => At i P w ∧ ∀ h ∈ hosts, Seen h w)
      (claimFirst labels i.key i.uid hosts)
      (post (fun h => At i (fun j s => P j s ∧ Held S.trust h j)) fun _ => At i P)
  | [] => triple_throw fun _ _ h => h.1
  | host :: rest => by
    have ih := claimFirst_rule labels hP hA rest
    have hrest : ∀ w, At i P w ∧ (∀ h ∈ host :: rest, Seen h w) → At i P w ∧ ∀ h ∈ rest, Seen h w :=
      fun w h => ⟨h.1, fun h' hh => h.2 h' (List.mem_cons_of_mem _ hh)⟩
    unfold claimFirst
    split
    · exact triple_weaken ih fun w _ h => hrest w h
    · rename_i hskip
      have hfree : host.spec.consumerRef = none := by
        simp only [skipHost, Bool.or_eq_true, not_or] at hskip
        simpa using hskip.1.1.2
      refine triple_handle (rule_claim rest hP hfree hA) fun e => ?_
      have hthrow : Triple (cluster S) (discipline S.trust) i
          (fun w => At i P w ∧ ((e = .api 404 ∨ e = .api 409) → ∀ h' ∈ rest, Seen h' w)) (throw e : Act Host)
          (post (fun h => At i (fun j s => P j s ∧ Held S.trust h j)) fun _ => At i P) :=
        triple_throw fun _ _ h => h.1
      split
      · rename_i status
        split
        · rename_i hst
          exact triple_weaken ih fun w _ h => ⟨h.1, h.2 (by rcases hst with rfl | rfl <;> simp)⟩
        · exact hthrow
      · exact hthrow

/-- The host that a new binding names is held. -/
def Claimable (T : Trust) (b : Binding) (j : Journal) : Prop :=
  T.claims = true → ∀ x, b.hostUID = some x → (heldOf x j).isSome

/-- It was not closed to bootstrap when it was last looked at. -/
def Open (T : Trust) (b : Binding) (j : Journal) : Prop :=
  T.claims = true → T.phases = true → b.hostRef.isSome → ∀ x p, b.hostUID = some x → heldOf x j = some p →
    unclean p = false

theorem pool_claimable {T : Trust} {host : Host} {j : Journal} (h : Held T host j) :
    Claimable T (poolBinding host i.uid) j := by
  rintro hT x ⟨⟩
  obtain ⟨p, hp, -⟩ := h hT
  simp [hp]

theorem held_open {T : Trust} {host : Host} {b : Binding} {j : Journal} (h : Held T host j)
    (hu : some host.metadata.uid = b.hostUID) (hc : unclean host.status.phase = false) : Open T b j := by
  intro hT hPh _ x p hx hp
  obtain rfl : host.metadata.uid = x := Option.some.inj (hu.trans hx)
  obtain ⟨q, hq, hph⟩ := h hT
  obtain rfl : p = q := Option.some.inj (hp.symm.trans hq)
  rw [← hph hPh]
  exact hc

/-- The claim that a crash has left behind is held. -/
theorem proves_recover (hP : Calm P) : Proves S i P (recoverUnstartedClaim i.key i.uid)
    (fun r j s => P j s ∧ ∀ b, r = some b →
      b.machineUID = i.uid ∧ (b.hostRef = none → b.hostUID = none) ∧ Claimable S.trust b j) P := by
  refine triple_bind (rule_listHosts hP) fun hosts => ?_
  split
  · exact triple_pure fun w _ h => ⟨h.1.1, h.1.2.1, by rintro b ⟨⟩⟩
  · rename_i host hf
    refine triple_pure fun w _ h => ⟨h.1.1, h.1.2.1, ?_⟩
    rintro b ⟨⟩
    have hm : host ∈ hosts.filter fun h => sameConsumer h.spec.consumerRef i.key i.uid := by rw [hf]; simp
    obtain ⟨hm, hsame⟩ := List.mem_filter.mp hm
    exact ⟨rfl, nofun, pool_claimable (h.1.2.2 host hm hsame)⟩
  · exact triple_throw fun w _ h => ⟨h.1.1, h.1.2.1⟩

theorem proves_selectHost {spec : MachineSpec} {status : MachineStatus} (hP : Calm P)
    (hA : ∀ j s x ref p, P j s → P (.claim x ref p :: j) s) :
    Proves S i P (selectHost spec status i.key i.uid) (fun h j s => P j s ∧ Held S.trust h j) P := by
  refine triple_bind (rule_listHosts hP) fun hosts => ?_
  split
  · rename_i host hf
    refine triple_pure fun w _ h => ⟨h.1.1, h.1.2.1, ?_⟩
    have hm : host ∈ hosts.filter fun h => sameConsumer h.spec.consumerRef i.key i.uid := by rw [hf]; simp
    obtain ⟨hm, hsame⟩ := List.mem_filter.mp hm
    exact h.1.2.2 host hm hsame
  · exact triple_throw fun w _ h => ⟨h.1.1, h.1.2.1⟩
  · unfold raiseIf
    split
    · exact triple_throw fun w _ h => ⟨h.1.1, h.1.2.1⟩
    · change Triple _ _ _ _ (Prog.bind (if _ then _ else _) _) _
      split
      · exact triple_throw fun w _ h => ⟨h.1.1, h.1.2.1⟩
      · refine triple_weaken (claimFirst_rule _ hP hA _) fun w _ h => ⟨⟨h.1.1, h.1.2.1⟩, fun h' hh => ?_⟩
        exact h.2 h' ((List.perm_insertionSort _ _).mem_iff.mp hh)

/-- The target of a binding is the persisted one, or the first. -/
def Binds (T : Trust) (i : MachineRef) (b : Binding) (j : Journal) : Prop :=
  identityOf j = some b.identity ∨
    (identityOf j = none ∧ b.machineUID = i.uid ∧ (b.hostRef = none → b.hostUID = none) ∧ Claimable T b j)

/-- Facts that the events of a binding leave alone. -/
structure BindStable (T : Trust) (i : MachineRef) (P : Fact) : Prop extends Calm P where
  claim : ∀ j s x ref p, P j s → P (.claim x ref p :: j) s
  claimed : ∀ j s x ref old, P j s → P (.phase x ref old .claimed :: j) s
  allocation : ∀ j s b cs, Binds T i b j → P j s →
    P (.status { StatusPatch.empty with allocation := some b, conditions := cs } :: j) s

theorem proves_checkAllocation {spec : MachineSpec} {allocated : Binding} (hP : Calm P) :
    Proves S i P (checkAllocation allocated spec i.key i.uid)
      (fun b j s => P j s ∧ b.identity = allocated.identity ∧ Open S.trust b j) P := by
  have hid : ∀ j s, P j s → P j s := fun _ _ h => h
  unfold checkAllocation
  refine proves_guard hid fun _ => proves_guard hid fun _ => proves_guard hid fun _ => proves_guard hid fun _ =>
    proves_guard hid fun _ => ?_
  split
  · refine proves_bind (rule_readHost hP) fun host => proves_guard (fun _ _ h => h.1) fun hown => ?_
    refine proves_guard (fun _ _ h => h.1) fun _ => proves_guard (fun _ _ h => h.1) fun _ =>
      proves_guard (fun _ _ h => h.1) fun hclean => ?_
    simp only [not_or, Bool.not_eq_false, ne_eq, Decidable.not_not] at hown
    refine proves_pure fun j s _ h => ⟨h.1, rfl, held_open (h.2 hown.2) hown.1 ?_⟩
    simpa using hclean
  · rename_i hr
    exact proves_pure fun j s _ h => ⟨h, rfl, fun _ _ hs => by simp [hr] at hs⟩

theorem proves_newBinding {spec : MachineSpec} {status : MachineStatus} (hP : Calm P)
    (hA : ∀ j s x ref p, P j s → P (.claim x ref p :: j) s) :
    Proves S i P (newBinding spec status i.key i.uid)
      (fun b j s => P j s ∧ b.machineUID = i.uid ∧ (b.hostRef = none → b.hostUID = none) ∧
        Claimable S.trust b j ∧ Open S.trust b j) P := by
  unfold newBinding
  split
  · refine proves_bind (proves_selectHost hP hA) fun host => proves_guard (fun _ _ h => h.1) fun hclean => ?_
    exact proves_pure fun j s _ h =>
      ⟨h.1, rfl, nofun, pool_claimable h.2, held_open h.2 rfl (by simpa using hclean)⟩
  · split
    · exact proves_throw fun _ _ _ h => h
    · split
      · exact proves_throw fun _ _ _ h => h
      · exact proves_pure fun j s _ h => ⟨h, rfl, fun _ => rfl, nofun, fun _ _ hs => by cases hs⟩

theorem law_allocation {T : Trust} {b : Binding} {j : Journal} (h : Lawful T i j) (hb : Binds T i b j) :
    Law T i j (.status { StatusPatch.empty with allocation := some b }) := by
  refine StatusLaw.mk ?_ ?_ ?_ ?_
  · rintro b' ⟨⟩
    rcases hb with hb | ⟨hn, hu, hr, hcl⟩
    · obtain ⟨old, ho, hi⟩ := Option.map_eq_some_iff.mp hb
      obtain ⟨hu, hr⟩ := allocation_formed h old ho
      refine ⟨(congrArg Identity.machineUID hi).symm.trans hu, fun hn => ?_, by rw [ho]; exact hi.symm⟩
      exact (congrArg Identity.hostUID hi).symm.trans (hr ((congrArg Identity.hostRef hi).trans hn))
    · rw [show (statusOf j).allocation = none from Option.map_eq_none_iff.mp hn]
      exact ⟨hu, hr, hcl⟩
  · rintro o ⟨⟩
  · rintro c ⟨⟩
  · rintro r ⟨⟩

theorem identityOf_allocated {T : Trust} {b : Binding} {j : Journal} (cs : Option (List Condition))
    (hb : Binds T i b j) :
    identityOf (.status { StatusPatch.empty with allocation := some b, conditions := cs } :: j) = some b.identity := by
  rcases hb with hb | ⟨hn, -⟩
  · obtain ⟨old, ho, hi⟩ := Option.map_eq_some_iff.mp hb
    simp only [identityOf, statusOf, StatusPatch.apply, ho, mergeKey, Option.map_some, Option.some.injEq]
    rw [binding_merge_same old b hi.symm, hi]
  · have hn : (statusOf j).allocation = none := Option.map_eq_none_iff.mp hn
    simp [identityOf, statusOf, StatusPatch.apply, hn, mergeKey]

theorem proves_persistAllocation {b : Binding} (hP : BindStable S.trust i P) :
    Proves S i (fun j s => P j s ∧ Binds S.trust i b j ∧ Open S.trust b j)
      (persistMachineStatus i.key i.uid { StatusPatch.empty with allocation := some b })
      (fun _ j s => P j s ∧ identityOf j = some b.identity ∧ Open S.trust b j) P := by
  refine proves_conseq (proves_persist (A := fun j s => P j s ∧ identityOf j = some b.identity ∧ Open S.trust b j)
    ?_ ?_ ?_) (fun _ _ _ h => h) (fun _ _ _ _ h => h) ?_
  · exact ⟨fun j s v h => ⟨hP.requested j s v h.1, h.2⟩, fun j s h => ⟨hP.marked j s h.1, h.2⟩⟩
  · exact fun j s hl h => ⟨law_allocation hl h.2.1, .inl rfl⟩
  · exact fun j s cs h => ⟨hP.allocation j s b cs h.2.1 h.1, identityOf_allocated cs h.2.1, h.2.2⟩
  · rintro j s - (h | h)
    · exact h.1
    · exact h.1

theorem proves_commitBinding {b : Binding} (hP : BindStable S.trust i P) :
    Proves S i (fun j s => P j s ∧ Binds S.trust i b j ∧ Open S.trust b j) (commitBinding b i.key i.uid)
      (fun _ j s => P j s ∧ identityOf j = some b.identity ∧ Open S.trust b j) P := by
  have hQ : Calm fun j s => P j s ∧ Binds S.trust i b j ∧ Open S.trust b j :=
    ⟨fun j s v h => ⟨hP.requested j s v h.1, h.2⟩, fun j s h => ⟨hP.marked j s h.1, h.2⟩⟩
  have hE : ∀ j s, Lawful S.trust i j → P j s ∧ Binds S.trust i b j ∧ Open S.trust b j → P j s :=
    fun _ _ _ h => h.1
  unfold commitBinding
  refine proves_bind (proves_conseq (rule_quiet (by rfl) hQ) (fun _ _ _ h => h) (fun _ _ _ _ h => h) hE)
    fun current => proves_guard (fun _ _ h => h.1) fun _ => ?_
  refine proves_bind (proves_conseq (rule_patchMachine hQ) (fun _ _ _ h => h) (fun _ _ _ _ h => h) hE) fun _ => ?_
  exact proves_bind (proves_persistAllocation hP) fun _ => proves_pure fun _ _ _ h => h

/-- The status that an attempt works from has the allocation that is stored. -/
def SameTarget (status : MachineStatus) (j : Journal) : Prop :=
  identityOf j = status.allocation.map Binding.identity

theorem proves_bindMachine {spec : MachineSpec} {status : MachineStatus} (hP : BindStable S.trust i P) :
    Proves S i (fun j s => P j s ∧ SameTarget status j) (bindMachine spec status i.key i.uid)
      (fun b j s => P j s ∧ identityOf j = some b.identity) P := by
  have calm : ∀ Q : Journal → Prop, (∀ j v, Q j → Q (.requested v :: j)) → (∀ j, Q j → Q (.marked :: j)) →
      Calm fun j s => P j s ∧ Q j := fun Q h₁ h₂ =>
    ⟨fun j s v h => ⟨hP.requested j s v h.1, h₁ _ _ h.2⟩, fun j s h => ⟨hP.marked j s h.1, h₂ _ h.2⟩⟩
  unfold bindMachine
  refine proves_bind (A := fun b j s => P j s ∧ (status.allocation = some b → identityOf j = some b.identity) ∧
    Binds S.trust i b j ∧ Open S.trust b j) ?_ fun b => ?_
  · unfold deriveBinding
    split
    · rename_i allocated ha
      refine proves_conseq (proves_checkAllocation (calm (SameTarget status) (fun _ _ h => h) fun _ h => h))
        (fun _ _ _ h => h) ?_ (fun _ _ _ h => h.1)
      rintro b j s - ⟨⟨hp, hs⟩, hi, ho⟩
      rw [SameTarget, ha, Option.map_some] at hs
      rw [← hi] at hs
      exact ⟨hp, fun _ => hs, .inl hs, ho⟩
    · rename_i ha
      refine proves_conseq (proves_newBinding (calm (SameTarget status) (fun _ _ h => h) fun _ h => h)
        fun j s x ref p h => ⟨hP.claim j s x ref p h.1, h.2⟩) (fun _ _ _ h => h) ?_ (fun _ _ _ h => h.1)
      rintro b j s - ⟨⟨hp, hs⟩, hu, hr, hc, ho⟩
      rw [SameTarget, ha, Option.map_none] at hs
      refine ⟨hp, fun h => ?_, .inr ⟨hs, hu, hr, hc⟩, ho⟩
      rw [ha] at h
      cases h
  · refine proves_bind (A := fun _ j s => P j s ∧ identityOf j = some b.identity ∧ Open S.trust b j) ?_ fun _ => ?_
    · refine proves_onlyIf (fun _ => proves_weaken (proves_commitBinding hP) fun _ _ _ h => ⟨h.1, h.2.2⟩) ?_
      rintro hc j s ⟨hp, hi, -, ho⟩
      exact ⟨hp, hi (by simpa using hc), ho⟩
    · have hQ : Calm fun j s => P j s ∧ identityOf j = some b.identity ∧ Open S.trust b j :=
        calm (fun j => identityOf j = some b.identity ∧ Open S.trust b j) (fun _ _ h => h) fun _ h => h
      refine proves_bind (A := fun _ j s => P j s ∧ identityOf j = some b.identity ∧ Open S.trust b j) ?_ fun _ => ?_
      · refine rule_stage hQ ?_
        rintro j t p - hc ⟨hp, hi, ho⟩
        refine ⟨⟨?_, hc.ownership, hc.cleanup, hc.reboot⟩, hp, hi, ho⟩
        rintro b' ⟨⟩
        exact hi
      · refine proves_bind (A := fun _ j s => P j s ∧ identityOf j = some b.identity) ?_ fun _ =>
          proves_pure fun _ _ _ h => h
        refine proves_conseq (proves_setHostPhase (A := fun j s => P j s ∧ identityOf j = some b.identity) hQ
          (fun _ _ _ h => ⟨h.1, h.2.1⟩) ?_ ?_) (fun _ _ _ h => h) (fun _ _ _ _ h => h) ?_
        · intro x hr hx j s _ h
          exact ⟨nofun, nofun, fun hT hPh _ p hp => h.2.2 hT hPh hr x p hx hp⟩
        · rintro x - j s ref old ⟨hp, hi, -⟩ -
          exact ⟨hP.claimed j s x ref old hp, hi⟩
        · rintro j s - (h | h)
          · exact h.1
          · exact h.1

end CapiSsh
