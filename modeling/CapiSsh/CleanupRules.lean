import CapiSsh.LifecycleRules

/-!
# What deletion writes

The walk through `delete_machine`. A Machine without ownership needs nothing but its own
receipt; one with ownership confines its host, resets it, and records what came of it.
-/
namespace CapiSsh

open Effect Interference

variable {S : Setting} {i : MachineRef} {P A E : Fact} {spec : MachineSpec} {status : MachineStatus}
  {metadata : ObjectMeta}

theorem only_patchConditions {updates : List Condition} :
    (patchConditions status metadata updates).Only Op.harmless :=
  only_stage fun _ _ => ⟨rfl, rfl, .inl rfl, rfl⟩

theorem only_reportPause {check : Act Bool} (h : check.Only Op.harmless) :
    (reportPause status metadata check).Only Op.harmless := by
  refine Prog.only_bind (Prog.only_handle h fun e => ?_) fun paused =>
    Prog.only_bind only_patchConditions fun _ => trivial
  split
  · exact Prog.only_bind only_patchConditions fun _ => trivial
  · trivial

/-- A deletion that cannot go on leaves everything as it is. -/
theorem proves_blocked {message : String} {B : α → Fact} (hP : Calm P) :
    Proves S i P (blocked status metadata message) B Any :=
  proves_skip only_patchConditions hP (fun _ _ _ => trivial) fun _ => proves_throw fun _ _ _ _ => trivial

theorem proves_unless {c : Prop} [Decidable c] {message : String} {f : Unit → Act Unit} (hP : Calm P)
    (hf : ¬ c → Proves S i P (f ()) (fun _ => Any) Any) :
    Proves S i P (onlyIf c (blocked status metadata message) >>= f) (fun _ => Any) Any := by
  refine proves_bind (A := fun _ j s => ¬ c ∧ P j s)
    (proves_onlyIf (fun _ => proves_blocked hP) fun hc j s h => ⟨hc, h⟩) fun _ => proves_intro fun hc => hf hc

/-- The write of a receipt. -/
def receipt (phase : CleanupPhase) : StatusPatch :=
  { StatusPatch.empty with ready := some false, cleanup := some phase }

/-- A phase is lawful if it does not claim more than the journal shows. -/
theorem law_receipt {T : Trust} {j : Journal} {phase : CleanupPhase} (hm : Event.marked ∈ j)
    (h : if phase = .succeeded then owned j → (statusOf j).cleanup = some .succeeded ∨ resetDone j
      else (statusOf j).cleanup ≠ some .succeeded ∧ (T.phases = true → confined j)) :
    Law T i j (.status (receipt phase)) := by
  refine StatusLaw.mk ?_ ?_ ?_ ?_
  · rintro b ⟨⟩
  · rintro o ⟨⟩
  · rintro c ⟨⟩
    exact ⟨hm, h⟩
  · rintro r ⟨⟩

/-- Each recorded phase is such a one. -/
theorem proves_recordCleanup {phase : CleanupPhase} {reason message : String} (hk : metadata.key = i.key)
    (hu : metadata.uid = i.uid) (hP : Calm P) (hC : Calm A)
    (h : ∀ j s, Lawful S.trust i j → P j s → Law S.trust i j (.status (receipt phase)))
    (hA : ∀ j s cs, P j s → A (.status { receipt phase with conditions := cs } :: j) s) :
    Proves S i P (recordCleanup metadata phase reason message) (fun _ => A) (fun j s => P j s ∨ A j s) := by
  unfold recordCleanup
  simp only [hk, hu]
  refine proves_skip (only_quiet (by rfl)) hP (fun _ _ h => .inl h) fun patch => ?_
  refine proves_skip (only_stage fun _ _ => ⟨rfl, rfl, .inr rfl, rfl⟩) hP (fun _ _ h => .inl h) fun _ => ?_
  refine proves_skip (only_quiet (by rfl)) hP (fun _ _ h => .inl h) fun now => ?_
  refine proves_bind (proves_persist hP (fun j s hl hp => ⟨law_conditions _ (h j s hl hp), .inl rfl⟩) fun j s cs hp =>
    hA j s cs hp) fun current => ?_
  exact proves_conseq (proves_harmless (only_stage fun _ _ => ⟨rfl, rfl, .inl rfl, rfl⟩) hC) (fun _ _ _ h => h)
    (fun _ _ _ _ h => h) fun _ _ _ h => .inr h

/-- The receipt is there, so the claim can go. -/
def Cleaned : Fact := fun j _ => (statusOf j).cleanup = some .succeeded

theorem cleaned_calm : Calm Cleaned := ⟨fun _ _ _ h => h, fun _ _ h => h⟩

/-- The receipt that is written is the one that is stored. -/
theorem cleaned_receipt {j : Journal} {cs : Option (List Condition)} :
    (statusOf (.status { receipt .succeeded with conditions := cs } :: j)).cleanup = some .succeeded := by
  simp [statusOf, StatusPatch.apply, receipt]

theorem proves_releaseCleanedHost {binding : Option Binding} (hk : metadata.key = i.key)
    (hu : metadata.uid = i.uid) :
    Proves S i Cleaned (releaseCleanedHost binding metadata status) (fun _ => Any) Any := by
  unfold releaseCleanedHost
  split
  · exact proves_pure fun _ _ _ _ => trivial
  · simp only [hk, hu]
    refine proves_handle (proves_conseq (proves_releaseHost cleaned_calm (fun _ _ h => h) (fun _ _ _ _ _ _ h => h)
      fun _ _ _ _ h => h) (fun _ _ _ h => h) (fun _ _ _ _ _ => trivial) fun _ _ _ h => h) fun e => ?_
    refine proves_guard (fun _ _ _ => trivial) fun _ => ?_
    exact proves_skip only_patchConditions cleaned_calm (fun _ _ _ => trivial) fun _ =>
      proves_throw fun _ _ _ _ => trivial

/-- A marked Machine whose bootstrap never began. -/
structure Unowned (j : Journal) (s : Option RebootState) : Prop where
  marked : Event.marked ∈ j
  unowned : ¬ owned j

theorem unowned_calm : Calm Unowned :=
  ⟨fun _ _ _ h => ⟨List.mem_cons_of_mem _ h.marked, h.unowned⟩,
    fun _ _ h => ⟨List.mem_cons_of_mem _ h.marked, h.unowned⟩⟩

theorem unowned_status {j : Journal} {s : Option RebootState} {p : StatusPatch} (h : Unowned j s)
    (hp : p.bootstrapOwnership = none) : Unowned (.status p :: j) s :=
  ⟨List.mem_cons_of_mem _ h.marked, by simpa [owned, statusOf, StatusPatch.apply, hp, mergeKey] using h.unowned⟩

/-- A recovered claim was one of this Machine. -/
theorem proves_adoptClaim {recovered : Option Binding} (hk : metadata.key = i.key) (hu : metadata.uid = i.uid) :
    Proves S i (fun j s => Unowned j s ∧ ∀ b, recovered = some b → Binds S.trust i b j)
      (adoptClaim spec status metadata recovered) (fun _ => Unowned) Any := by
  unfold adoptClaim
  split
  · exact proves_pure fun _ _ _ h => h.1
  · rename_i b
    have hP : Calm fun j s => Unowned j s ∧ ∀ b', some b = some b' → Binds S.trust i b' j :=
      calm_and unowned_calm (fun _ _ h => h) fun _ h => h
    simp only [hk, hu]
    refine proves_bind (A := fun _ j s => Unowned j s ∧ ∀ b', some b = some b' → Binds S.trust i b' j) ?_ fun _ => ?_
    · exact proves_onlyIf (fun _ => proves_blocked hP) fun _ _ _ h => h
    · refine proves_bind (A := fun _ => Unowned) ?_ fun _ => proves_pure fun _ _ _ h => h
      refine proves_conseq (proves_persist (A := Unowned) hP (fun j s hl h => ⟨law_allocation hl (h.2 b rfl), .inl rfl⟩) ?_)
        (fun _ _ _ h => h) (fun _ _ _ _ h => h) fun _ _ _ _ => trivial
      exact fun j s cs h => unowned_status h.1 rfl

/-- A deletion that refuses a legacy allocation does not go on. -/
theorem proves_refuseLegacy {binding : Option Binding} (hk : metadata.key = i.key) (hu : metadata.uid = i.uid) :
    Proves S i Unowned (refuseLegacy status metadata binding) (fun _ => A) Any := by
  unfold refuseLegacy
  have hb : Proves S i Unowned (blocked status metadata
      "Legacy host ownership is unverified; explicit recovery required" : Act Unit) (fun _ => A) Any :=
    proves_blocked unowned_calm
  cases binding with
  | none => exact hb
  | some binding =>
    simp only [hk, hu]
    refine proves_bind (A := fun _ => Unowned) ?_ fun _ => hb
    refine proves_conseq (proves_setHostPhase (A := Unowned) unowned_calm (fun _ _ _ h => h) ?_ ?_) (fun _ _ _ h => h)
      (fun _ _ _ _ h => h) fun _ _ _ _ => trivial
    · exact fun x _ _ j s _ _ => ⟨by rintro ⟨⟩, by rintro ⟨⟩, fun _ _ => by rintro ⟨⟩⟩
    · exact fun x _ j s ref old h _ => ⟨List.mem_cons_of_mem _ h.marked, h.unowned⟩

/-- What was never owned needs no reset. -/
theorem proves_deleteUnowned (hk : metadata.key = i.key) (hu : metadata.uid = i.uid) :
    Proves S i (fun j s => Unowned j s ∧ SameTarget status j) (deleteUnowned spec status metadata)
      (fun _ => Any) Any := by
  have hP : Calm fun j s => Unowned j s ∧ SameTarget status j := calm_and unowned_calm (fun _ _ h => h) fun _ h => h
  unfold deleteUnowned
  dsimp only
  refine proves_bind (A := fun r j s => Unowned j s ∧ ∀ b, r = some b → Binds S.trust i b j) ?_ fun recovered => ?_
  · unfold recoverIf
    split
    · rename_i hn
      simp only [Bool.and_eq_true] at hn
      have ha : status.allocation = none := by simpa using hn.1.2
      rw [hk, hu]
      refine proves_conseq (proves_recover hP) (fun _ _ _ h => h) ?_ fun _ _ _ _ => trivial
      rintro r j s - ⟨h, hr⟩
      refine ⟨h.1, fun b hb => .inr ⟨?_, hr b hb⟩⟩
      rw [h.2, ha]
      rfl
    · exact proves_pure fun j s _ h => ⟨h.1, by rintro b ⟨⟩⟩
  · refine proves_bind (proves_adoptClaim hk hu) fun _ => ?_
    refine proves_bind (A := fun _ => Unowned) (proves_onlyIf (fun _ => proves_refuseLegacy hk hu)
      fun _ _ _ h => h) fun _ => ?_
    refine proves_bind (A := fun _ => Cleaned) ?_ fun _ => proves_releaseCleanedHost hk hu
    refine proves_conseq (proves_recordCleanup hk hu unowned_calm cleaned_calm ?_ ?_) (fun _ _ _ h => h)
      (fun _ _ _ _ h => h) fun _ _ _ _ => trivial
    · exact fun j s _ h => law_receipt h.marked (by simpa using fun ho => absurd ho h.unowned)
    · exact fun j s cs _ => cleaned_receipt

/-- A marked and owned Machine whose host is still to be reset. -/
structure Resetting (binding : Binding) (j : Journal) : Prop where
  marked : Event.marked ∈ j
  owned : owned j
  allocation : (statusOf j).allocation = some binding
  settled : (record j).pending = false
  due : (statusOf j).cleanup ≠ some .succeeded

/-- Events that keep the status, and writes that change nothing of it but an open cleanup. -/
theorem resetting_step {binding : Binding} {j : Journal} {e : Event} (h : Resetting binding j)
    (ha : (statusOf (e :: j)).allocation = (statusOf j).allocation) (hr : record (e :: j) = record j)
    (hc : (statusOf (e :: j)).cleanup ≠ some .succeeded) : Resetting binding (e :: j) :=
  ⟨List.mem_cons_of_mem _ h.marked, owned_step h.owned, ha.trans h.allocation, by rw [hr]; exact h.settled, hc⟩

/-- The same, with the host closed to bootstrap. -/
def Confined (T : Trust) (binding : Binding) : Fact := fun j _ =>
  Resetting binding j ∧ (T.phases = true → confined j)

theorem resetting_calm {binding : Binding} : Calm fun j _ => Resetting binding j :=
  ⟨fun _ _ _ h => resetting_step h rfl rfl h.due, fun _ _ h => resetting_step h rfl rfl h.due⟩

theorem confined_calm {T : Trust} {binding : Binding} : Calm (Confined T binding) :=
  calm_and resetting_calm (fun _ _ h => h) fun _ h => h

/-- A phase that closes the host of the allocation. -/
theorem proves_confine {binding : Binding} {phase : HostPhase} {reason : String} (hP : Calm P)
    (hphase : phase = .cleaning ∨ phase = .quarantined) (hR : ∀ j s, P j s → Resetting binding j)
    (hnone : binding.hostRef = none → ∀ j s, P j s → S.trust.phases = true → confined j) :
    Proves S i P (setHostPhase binding i.key i.uid phase reason) (fun _ => Confined S.trust binding) Any := by
  refine proves_conseq (proves_setHostPhase (A := Confined S.trust binding) hP ?_ ?_ ?_) (fun _ _ _ h => h)
    (fun _ _ _ _ h => h) fun _ _ _ _ => trivial
  · exact fun hr j s h => ⟨hR j s h, hnone hr j s h⟩
  · intro x hr hx j s _ h
    refine ⟨fun _ => ⟨(hR j s h).marked, binding, (hR j s h).allocation, hx⟩, ?_, fun _ _ => ?_⟩
    · rcases hphase with rfl | rfl <;> rintro ⟨⟩
    · rcases hphase with rfl | rfl <;> rintro ⟨⟩
  · intro x hx j s ref old h hheld
    refine ⟨resetting_step (hR j s h) rfl rfl (hR j s h).due, fun hPh b y hb hy => ?_⟩
    obtain rfl : b = binding := Option.some.inj (Eq.trans (show some b = _ from hb.symm) (hR j s h).allocation)
    obtain rfl : x = y := Option.some.inj (hx.symm.trans hy)
    obtain ⟨p, hp⟩ := Option.isSome_iff_exists.mp (hheld (S.trust.closed hPh))
    refine ⟨some phase, by rw [heldOf_phase, hp]; rfl, ?_⟩
    rcases hphase with rfl | rfl <;> rfl

theorem confined_receipt {T : Trust} {binding : Binding} {phase : CleanupPhase} {j : Journal}
    {s : Option RebootState} {cs : Option (List Condition)} (h : Confined T binding j s) (hp : phase ≠ .succeeded) :
    Confined T binding (.status { receipt phase with conditions := cs } :: j) s := by
  refine ⟨resetting_step h.1 ?_ (record_untouched rfl) ?_, fun hPh b x hb hx => ?_⟩
  · simp [statusOf, StatusPatch.apply, receipt, StatusPatch.empty, mergeKey]
  · simpa [statusOf, StatusPatch.apply, receipt] using hp
  · exact h.2 hPh b x (by simpa [statusOf, StatusPatch.apply, receipt, StatusPatch.empty, mergeKey] using hb) hx

theorem proves_recordOpen {binding : Binding} {phase : CleanupPhase} {reason message : String}
    (hk : metadata.key = i.key) (hu : metadata.uid = i.uid) (hp : phase ≠ .succeeded) :
    Proves S i (Confined S.trust binding) (recordCleanup metadata phase reason message)
      (fun _ => Confined S.trust binding) (Confined S.trust binding) := by
  refine proves_conseq (proves_recordCleanup hk hu confined_calm confined_calm ?_ fun j s cs h => confined_receipt h hp)
    (fun _ _ _ h => h) (fun _ _ _ _ h => h) fun _ _ _ h => h.elim id id
  intro j s _ h
  refine law_receipt h.1.marked ?_
  rw [if_neg hp]
  exact ⟨h.1.due, h.2⟩

/-- Until its receipt is committed, a reset leaves the Machine as it was. -/
theorem proves_resetHost {operation : HostLeaseRef} {conn : Conn} {binding : Binding}
    (hk : metadata.key = i.key) (hu : metadata.uid = i.uid) (ht : conn.target = binding.target) :
    Proves S i (Confined S.trust binding) (resetHost operation conn metadata) (fun _ => Cleaned)
      (fun j s => Confined S.trust binding j s ∨ Cleaned j s) := by
  unfold resetHost execute
  refine proves_skip only_checkCurrent confined_calm (fun _ _ h => .inl h) fun _ => ?_
  refine proves_skip only_checkLease confined_calm (fun _ _ h => .inl h) fun _ => ?_
  refine proves_bind (A := fun r j s => Confined S.trust binding j s ∧ (r.success = true → resetDone j)) ?_ fun r => ?_
  · refine proves_bind (A := fun r j s => Confined S.trust binding j s ∧ (r.outcome = .exited 0 → resetDone j)) ?_
      fun r => proves_pure fun j s _ h => ⟨h.1, fun hs => h.2 ?_⟩
    · refine proves_conseq (rule_reset (A := fun o j s => Confined S.trust binding j s ∧ (o = .exited 0 → resetDone j))
        confined_calm ?_ ?_) (fun _ _ _ h => h) (fun _ _ _ _ h => h) fun _ _ _ h => .inl h.1
      · intro j s hl h
        refine ⟨?_, h.1.marked, h.1.settled, h.2⟩
        rw [ht]
        exact owns_allocated hl h.1.owned (by rw [identityOf, h.1.allocation]; rfl)
      · intro j s o h
        refine ⟨⟨resetting_step h.1 rfl rfl h.1.due, h.2⟩, ?_⟩
        rintro rfl
        exact ⟨binding, h.1.allocation, by rw [← ht]; exact List.mem_cons_self⟩
    · cases he : r.exitStatus with
      | none => simp [Completed.success, Completed.exitCode, he] at hs
      | some c => simpa [Completed.success, Completed.exitCode, Completed.outcome, he] using hs
  · refine proves_guard (fun _ _ h => .inl h.1) fun hok => ?_
    refine proves_conseq (proves_recordCleanup hk hu (P := fun j s => Confined S.trust binding j s ∧ resetDone j)
      ?_ cleaned_calm ?_ fun _ _ _ _ => cleaned_receipt) ?_ (fun _ _ _ _ h => h) fun _ _ _ h => h.imp And.left id
    · exact calm_and confined_calm (fun _ _ h => h.imp fun _ h => ⟨h.1, List.mem_cons_of_mem _ h.2⟩)
        fun _ h => h.imp fun _ h => ⟨h.1, List.mem_cons_of_mem _ h.2⟩
    · exact fun j s _ h => law_receipt h.1.1.marked (by simpa using fun _ => .inr h.2)
    · exact fun j s _ h => ⟨h.1, h.2 (by simpa using hok)⟩

/-- Whether the receipt was committed is read from the object. -/
theorem proves_cleanupFailed {binding : Binding} (hk : metadata.key = i.key) (hu : metadata.uid = i.uid) :
    Proves S i (fun j s => Confined S.trust binding j s ∨ Cleaned j s) (cleanupFailed binding metadata)
      (fun _ => Any) Any := by
  have hP : Calm fun j s => Confined S.trust binding j s ∨ Cleaned j s := calm_or confined_calm cleaned_calm
  unfold cleanupFailed
  refine proves_bind (proves_conseq (rule_readMachine hP hk) (fun _ _ _ h => h) (fun _ _ _ _ h => h)
    fun _ _ _ _ => trivial) fun current => proves_guard (fun _ _ _ => trivial) fun hid => ?_
  split
  · refine proves_weaken (P := Any) ?_ fun _ _ _ _ => trivial
    exact proves_skip (only_stage fun _ _ => ⟨rfl, rfl, .inl rfl, rfl⟩) calm_any (fun _ _ h => h) fun _ =>
      proves_throw fun _ _ _ h => h
  · rename_i hopen
    refine proves_weaken (P := Confined S.trust binding) ?_ ?_
    · rw [hk, hu]
      refine proves_bind (proves_confine confined_calm (.inr rfl) (fun _ _ h => h.1) fun _ _ _ h => h.2) fun _ => ?_
      refine proves_bind (proves_conseq (proves_recordOpen hk hu (by simp)) (fun _ _ _ h => h) (fun _ _ _ _ h => h)
        fun _ _ _ _ => trivial) fun _ => proves_throw fun _ _ _ _ => trivial
    · rintro j s - ⟨h | h, hread⟩
      · exact h
      · rw [(hread (by simpa [hu] using hid)).status] at hopen
        exact absurd h hopen

/-- What is owned is reset before its receipt. -/
theorem proves_cleanHost {binding : Binding} (hk : metadata.key = i.key) (hu : metadata.uid = i.uid) :
    Proves S i (fun j _ => Resetting binding j) (cleanHost binding status metadata) (fun _ => Any) Any := by
  refine proves_have (binding.hostRef = none → binding.hostUID = none)
    (fun j s hl h => (allocation_formed hl binding h.allocation).2) fun hpool => ?_
  have hE : Calm fun j s => Confined S.trust binding j s ∨ Cleaned j s := calm_or confined_calm cleaned_calm
  unfold cleanHost
  refine proves_bind (A := fun _ => Confined S.trust binding) ?_ fun _ => ?_
  · rw [hk, hu]
    refine proves_confine resetting_calm (.inl rfl) (fun _ _ h => h) fun hr j s h _ b x hb hx => ?_
    rw [h.allocation] at hb
    cases hb
    rw [hpool hr] at hx
    cases hx
  refine proves_bind (proves_conseq (proves_recordOpen hk hu (by simp)) (fun _ _ _ h => h) (fun _ _ _ _ h => h)
    fun _ _ _ _ => trivial) fun _ => ?_
  refine proves_bind (A := Left (fun _ : Unit => Cleaned) fun j s => Confined S.trust binding j s ∨ Cleaned j s) ?_
    fun exit => ?_
  · refine proves_handle (proves_withHost confined_calm (fun _ => cleaned_calm) hE (fun _ _ h => .inl h)
      fun operation conn ht => proves_resetHost hk hu ht) fun e => ?_
    exact proves_pure fun j s _ h => ⟨by rintro a ⟨⟩, h⟩
  · split
    · rename_i a hout
      refine proves_weaken (proves_releaseCleanedHost hk hu) fun j s _ h => ?_
      obtain ⟨hr, h⟩ := h
      rw [hr a hout] at h
      exact h
    · exact proves_throw fun _ _ _ _ => trivial
    · refine proves_guard (fun _ _ _ => trivial) fun hret => ?_
      refine proves_weaken (proves_cleanupFailed hk hu) fun j s _ h => ?_
      have hnone : exit.returned = none := by simpa using hret
      have h := h.2
      rw [hnone] at h
      exact h

/-- A reboot that is under way is waited for first. -/
theorem proves_deleteOwned {ownership : Ownership} (hk : metadata.key = i.key) (hu : metadata.uid = i.uid)
    (ho : status.bootstrapOwnership = some ownership) :
    Proves S i (fun j s => Event.marked ∈ j ∧ statusOf j = status ∧ s = none)
      (deleteOwned spec status metadata ownership) (fun _ => Any) Any := by
  have hP : Calm fun j s => Event.marked ∈ j ∧ statusOf j = status ∧ s = none :=
    ⟨fun _ _ _ h => ⟨List.mem_cons_of_mem _ h.1, h.2⟩, fun _ _ h => ⟨List.mem_cons_of_mem _ h.1, h.2⟩⟩
  have howned : ∀ j, statusOf j = status → owned j := fun j hj => by rw [owned, hj, ho]; rfl
  unfold deleteOwned
  split
  · exact proves_blocked hP
  · rename_i binding hb
    refine proves_unless hP fun _ => proves_unless hP fun _ => ?_
    split
    · rename_i hs
      refine proves_bind (A := fun _ => Cleaned) ?_ fun _ => proves_releaseCleanedHost hk hu
      refine proves_conseq (proves_recordCleanup hk hu hP cleaned_calm ?_ ?_) (fun _ _ _ h => h)
        (fun _ _ _ _ h => h) fun _ _ _ _ => trivial
      · exact fun j s _ h => law_receipt h.1 (by simpa using fun _ => .inl (by rw [h.2.1]; exact hs))
      · exact fun j s cs _ => cleaned_receipt
    · rename_i hs
      split
      · refine proves_skip only_patchConditions hP (fun _ _ _ => trivial) fun _ => ?_
        refine proves_bind (A := fun _ => Any) (proves_weaken (proves_reconcileReboot hk hu) ?_) fun _ =>
          proves_throw fun _ _ _ h => h
        rintro j s hl ⟨-, hj, hst⟩
        refine ⟨by rw [record, hj], hst, fun o ho' => ⟨howned j hj, ?_, ?_⟩, by rintro ⟨⟩⟩
        · exact ownership_identity hl o (by rw [hj]; exact ho')
        · have hi := ownership_identity hl o (by rw [hj]; exact ho')
          rw [identityOf, hj, hb, Option.map_some, Option.some.injEq] at hi
          exact ⟨binding, hb, hi⟩
      · rename_i hpend
        refine proves_weaken (proves_cleanHost hk hu) fun j s _ h => ?_
        refine ⟨h.1, howned j h.2.1, by rw [h.2.1]; exact hb, ?_, by rw [h.2.1]; exact hs⟩
        rw [record, h.2.1]
        simpa using hpend

/-- Both ways of a deletion are lawful. -/
theorem proves_deleteMachine (hk : metadata.key = i.key) (hu : metadata.uid = i.uid) :
    Proves S i (fun j s => Event.marked ∈ j ∧ statusOf j = status ∧ s = none) (deleteMachine spec status metadata)
      (fun _ => Any) Any := by
  have hP : Calm fun j s => Event.marked ∈ j ∧ statusOf j = status ∧ s = none :=
    ⟨fun _ _ _ h => ⟨List.mem_cons_of_mem _ h.1, h.2⟩, fun _ _ h => ⟨List.mem_cons_of_mem _ h.1, h.2⟩⟩
  have hskip : ∀ j s, Event.marked ∈ j ∧ statusOf j = status ∧ s = none → Any j s := fun _ _ _ => trivial
  unfold deleteMachine
  dsimp only
  refine proves_skip (only_stage fun _ _ => ⟨rfl, rfl, .inl rfl, rfl⟩) hP hskip fun _ => ?_
  refine proves_skip only_patchConditions hP hskip fun _ => ?_
  refine proves_skip (only_reportPause only_isPaused) hP hskip fun paused => ?_
  refine proves_bind (A := fun _ j s => Event.marked ∈ j ∧ statusOf j = status ∧ s = none)
    (proves_onlyIf (fun _ => ?_) fun _ _ _ h => h) fun _ => ?_
  · exact proves_skip only_patchConditions hP hskip fun _ => proves_throw fun _ _ _ _ => trivial
  refine proves_unless hP fun _ => ?_
  split
  · rename_i ho
    refine proves_weaken (proves_deleteUnowned hk hu) fun j s _ h => ⟨⟨h.1, ?_⟩, ?_⟩
    · rw [owned, h.2.1, ho]; simp
    · rw [SameTarget, identityOf, h.2.1]
  · rename_i ownership ho
    exact proves_deleteOwned hk hu ho

end CapiSsh
