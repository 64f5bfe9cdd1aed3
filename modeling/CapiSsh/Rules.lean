import CapiSsh.Discipline

/-!
# One rule for each call

What an attempt knows after a call, whatever its outcome, given what it has to know before
for the event of the call to be lawful.
-/
namespace CapiSsh

open Effect Interference

variable {S : Setting} {i : MachineRef} {w w' : World} {P E : Fact}

/-- Calls that change nothing and that no journal keeps. -/
def Op.quiet : Op → Bool
  | .patchMachine .. | .patchMachineStatus .. | .patchHost .. | .patchHostStatus .. | .stage _ |
    .applyStaged _ => false
  | .run _ (.owned o) => match o.script with
    | .noop | .job _ => true
    | _ => false
  | _ => true

theorem answer_read {boots : Target → Nat → String} {k : ObjectKey} {c : Choice}
    {r : Except Exc Machine} (ha : answer boots i (.readMachine k) c w = some (r, w')) :
    w' = w ∧ ∀ m, r = .ok m → w.machines.lookup k = some m := by
  cases c with
  | ok =>
    obtain ⟨m, hm, he⟩ := Option.map_eq_some_iff.mp ha
    cases he
    exact ⟨rfl, by rintro m ⟨⟩; exact hm⟩
  | fail e => cases ha; exact ⟨rfl, by rintro m ⟨⟩⟩
  | _ => cases ha

theorem answer_readHost {boots : Target → Nat → String} {k : ObjectKey} {c : Choice}
    {r : Except Exc Host} (ha : answer boots i (.readHost k) c w = some (r, w')) :
    w' = w ∧ ∀ h, r = .ok h → w.hosts.lookup k = some h := by
  cases c with
  | ok =>
    obtain ⟨h, hh, he⟩ := Option.map_eq_some_iff.mp ha
    cases he
    exact ⟨rfl, by rintro h ⟨⟩; exact hh⟩
  | fail e => cases ha; exact ⟨rfl, by rintro m ⟨⟩⟩
  | _ => cases ha

theorem answer_listHosts {boots : Target → Nat → String} {ns : String} {c : Choice}
    {r : Except Exc (List Host)} (ha : answer boots i (.listHosts ns) c w = some (r, w')) :
    w' = w ∧ ∀ l, r = .ok l → ∀ h ∈ l, ∃ k, w.hosts.lookup k = some h := by
  cases c with
  | listing l =>
    simp only [answer] at ha
    split at ha
    · rename_i hp
      cases ha
      refine ⟨rfl, ?_⟩
      rintro l ⟨⟩ h hh
      have hm := (List.isPerm_iff.mp hp).mem_iff.mp hh
      obtain ⟨⟨k, h'⟩, he, rfl⟩ := List.mem_map.mp (List.mem_filter.mp hm).1
      exact ⟨k, AList.mem_lookup_iff.mpr he⟩
    · cases ha
  | fail e => cases ha; exact ⟨rfl, by rintro m ⟨⟩⟩
  | _ => cases ha

/-- A quiet operation leaves the world alone, whatever the answer. -/
theorem answer_quiet {boots : Target → Nat → String} {op : Op} (h : op.quiet = true) {c : Choice}
    {r : Except Exc (Reply op)} (ha : answer boots i op c w = some (r, w')) : w' = w := by
  cases op with
  | readMachine k => exact (answer_read ha).1
  | readHost k => exact (answer_readHost ha).1
  | listHosts ns => exact (answer_listHosts ha).1
  | run conn command =>
    cases command with
    | owned o =>
      obtain ⟨uid, script, claim, cleaned, blocking⟩ := o
      cases script <;> first | (cases h; done) | skip
      all_goals
        cases c <;> simp [answer, ranEvent, raisedEvent, World.noteAll] at ha
        · exact ha.2.2.symm
        · exact ha.2.2.symm
    | _ =>
      cases c <;> simp [answer, ranEvent, raisedEvent, World.noteAll] at ha
      · exact ha.2.2.symm
      · exact ha.2.2.symm
  | _ =>
    first
    | (cases h; done)
    | (cases c <;> simp [answer] at ha <;> exact ha.2.symm)

/-- So every calm fact survives it. -/
theorem rule_quiet {op : Op} (h : op.quiet = true) (hP : Calm P) : Proves S i P (call op) (fun _ => P) P := by
  refine triple_perform (stable_at hP) ?_
  rintro w r w' hw hp ⟨c, ha⟩
  obtain rfl := answer_quiet h ha
  refine ⟨(discipline S.trust).allows_refl hw, ?_⟩
  cases r <;> exact hp

/-- The live object is what the journal tells, and a request that it carries and that is
not on record has not been served. -/
structure Read (i : MachineRef) (m : Machine) (j : Journal) : Prop where
  key : m.metadata.key = i.key
  status : m.status = statusOf j
  unmarked : m.metadata.deletionTimestamp = none → ¬ started j
  fresh : ∀ r, m.spec.requestedAt = some r → (record j).lastRequestedAt ≠ some r → fresh j r

/-- A request that the record does not name is fresh. -/
theorem fresh_of_request {T : Trust} {j : Journal} {r : String} (h : Lawful T i j) (hr : requestOf j = some r)
    (hn : (record j).lastRequestedAt ≠ some r) : fresh j r := by
  intro q hq
  refine ⟨hr.symm, ?_⟩
  rintro rfl
  exact hn (record_of_sent h _ hq hr.symm)

theorem read_of_lookup {T : Trust} {m : Machine} (hw : Consistent T w) (hm : w.machines.lookup i.key = some m)
    (hu : m.metadata.uid = i.uid) : Read i m (journal i w) := by
  obtain ⟨hk, -, ht⟩ := hw.accounted.machine _ _ hm
  rw [hu] at ht
  refine ⟨hk, ht.status, ?_, ?_⟩
  · intro hd hs
    have hmark := ht.deletion.mpr (marked_of_started (hw.lawful i) hs)
    rw [hd] at hmark
    cases hmark
  · intro r hr hn
    exact fresh_of_request (hw.lawful i) (ht.request.symm.trans hr) hn

/-- The Machine that is read is the one of the journal, if it is this one. -/
theorem rule_readMachine {k : ObjectKey} (hP : Calm P) (hk : k = i.key) : Proves S i P (call (.readMachine k))
    (fun m j s => P j s ∧ (m.metadata.uid = i.uid → Read i m j)) P := by
  subst hk
  refine triple_perform (stable_at hP) ?_
  rintro w r w' hw hp ⟨c, ha⟩
  obtain ⟨rfl, hr⟩ := answer_read ha
  refine ⟨(discipline S.trust).allows_refl hw, ?_⟩
  cases r with
  | error e => exact hp
  | ok m => exact ⟨hp.1, hp.2, read_of_lookup hw (hr m rfl)⟩

/-- The journal holds the host, in the phase that it was read with. -/
def Held (T : Trust) (h : Host) (j : Journal) : Prop :=
  T.claims = true → ∃ p, heldOf h.metadata.uid j = some p ∧ (T.phases = true → h.status.phase = p)

/-- A host that names the Machine is one that its journal holds. -/
def Claims (T : Trust) (i : MachineRef) (h : Host) (j : Journal) : Prop :=
  sameConsumer h.spec.consumerRef i.key i.uid = true → Held T h j

/-- The claim that is looked for is the one that would be written. -/
theorem sameConsumer_iff {ref : Option ConsumerRef} :
    sameConsumer ref i.key i.uid = true ↔ ref = some i.consumer := by
  cases ref with
  | none => simp [sameConsumer]
  | some r =>
    obtain ⟨kind, name, ns, uid⟩ := r
    simp [sameConsumer, MachineRef.consumer, consumerRef]
    tauto

theorem claims_of_lookup {T : Trust} {k : ObjectKey} {h : Host} (hw : Consistent T w)
    (hl : w.hosts.lookup k = some h) : Claims T i h (journal i w) := by
  intro hs hT
  obtain ⟨i', hi', hheld⟩ := hw.accounted.holder hT k h _ hl (sameConsumer_iff.mp hs)
  obtain rfl := consumer_injective hi'
  obtain ⟨p, hp⟩ := Option.isSome_iff_exists.mp hheld
  exact ⟨p, hp, (hw.accounted.claimed hT k h i p hl hp).2⟩

/-- A host that is read and claimed by this Machine is held by it. -/
theorem rule_readHost {k : ObjectKey} (hP : Calm P) : Proves S i P (call (.readHost k))
    (fun h j s => P j s ∧ Claims S.trust i h j) P := by
  refine triple_perform (stable_at hP) ?_
  rintro w r w' hw hp ⟨c, ha⟩
  obtain ⟨rfl, hr⟩ := answer_readHost ha
  refine ⟨(discipline S.trust).allows_refl hw, ?_⟩
  cases r with
  | error e => exact hp
  | ok h => exact ⟨hp.1, hp.2, claims_of_lookup hw (hr h rfl)⟩

/-- A committed write is answered, or its response is lost. -/
theorem settle_cases {lost : Option Exc} {a : α} {r : Except Exc α} (h : settle a lost = some r) :
    r = .ok a ∨ ∃ e, r = .error e ∧ e ≠ .api 404 ∧ e ≠ .api 409 := by
  unfold settle at h
  split at h
  · cases h; exact .inl rfl
  · cases h
  · cases h
  · rename_i e h₁ h₂
    cases h
    exact .inr ⟨e, rfl, by rintro rfl; exact h₁ rfl, by rintro rfl; exact h₂ rfl⟩

theorem meets_iff {m : ObjectMeta} {pre : Precondition} :
    m.meets pre = true ↔ m.uid = pre.uid ∧ m.resourceVersion = pre.resourceVersion := by
  simp [ObjectMeta.meets]

theorem patchMachine_cases {k : ObjectKey} {pre : Precondition} {f : Machine → Machine} {m' : Machine}
    (h : w.patchMachine k pre f = some (m', w')) :
    ∃ m, w.machines.lookup k = some m ∧ m.metadata.uid = pre.uid ∧ w' = w.storeMachine k (f m) := by
  unfold World.patchMachine at h
  split at h
  · cases h
  · rename_i m hm
    split at h
    · rename_i hmeet
      cases h
      exact ⟨m, hm, (meets_iff.mp hmeet).1, rfl⟩
    · cases h

theorem answer_patchMachine {boots : Target → Nat → String} {k : ObjectKey} {pre : Precondition} {p : SpecPatch}
    {c : Choice} {r : Except Exc Machine} (ha : answer boots i (.patchMachine k pre p) c w = some (r, w')) :
    w' = w ∨ ∃ m, w.machines.lookup k = some m ∧ m.metadata.uid = pre.uid ∧
      w' = w.storeMachine k { m with spec := p.apply m.spec } := by
  cases c with
  | fail e => cases ha; exact .inl rfl
  | commit lost =>
    simp only [answer] at ha
    split at ha
    · cases ha
    · rename_i hp
      obtain ⟨r', -, he⟩ := Option.map_eq_some_iff.mp ha
      cases he
      exact .inr (patchMachine_cases hp)
  | _ => cases ha

theorem answer_patchStatus {boots : Target → Nat → String} {k : ObjectKey} {pre : Precondition} {p : StatusPatch}
    {c : Choice} {r : Except Exc Machine} (ha : answer boots i (.patchMachineStatus k pre p) c w = some (r, w')) :
    (w' = w ∧ ∃ e, r = .error e) ∨ ∃ m, w.machines.lookup k = some m ∧ m.metadata.uid = pre.uid ∧
      w' = (w.storeMachine k { m with status := p.apply m.status }).note ⟨k, pre.uid⟩ (.status p) := by
  cases c with
  | fail e => cases ha; exact .inl ⟨rfl, e, rfl⟩
  | commit lost =>
    simp only [answer] at ha
    split at ha
    · cases ha
    · rename_i hp
      obtain ⟨r', -, he⟩ := Option.map_eq_some_iff.mp ha
      cases he
      obtain ⟨m, hm, hu, rfl⟩ := patchMachine_cases hp
      exact .inr ⟨m, hm, hu, rfl⟩
  | _ => cases ha

/-- Writing the spec leaves what the user asked for alone. -/
theorem allows_spec {T : Trust} {m : Machine} {p : SpecPatch} (hw : Consistent T w)
    (hm : w.machines.lookup i.key = some m) :
    (discipline T).Allows i w (w.storeMachine i.key { m with spec := p.apply m.spec }) := by
  obtain ⟨hk, huid, ht⟩ := hw.accounted.machine _ _ hm
  refine allows_silent hw ?_ (fun _ => rfl) (fun _ _ => rfl) (hw.staged i) (Nat.le_succ _) fun _ _ h => .inl h
  refine accounted_machine (m := { m with spec := p.apply m.spec }) none hw.accounted (by simp) hk
    (Nat.le_succ_of_le huid) ?_
  exact ⟨ht.status, ht.request, ht.deletion⟩

theorem rule_patchMachine {rv : Nat} {p : SpecPatch} (hP : Calm P) :
    Proves S i P (call (.patchMachine i.key ⟨i.uid, rv⟩ p)) (fun _ => P) P := by
  refine triple_perform (stable_at hP) ?_
  rintro w r w' hw hp ⟨c, ha⟩
  rcases answer_patchMachine ha with rfl | ⟨m, hm, -, rfl⟩
  · refine ⟨(discipline S.trust).allows_refl hw, ?_⟩
    cases r <;> exact hp
  · refine ⟨allows_spec hw hm, ?_⟩
    cases r <;> exact hp

/-- A status write that the law admits. -/
theorem allows_status {T : Trust} {m : Machine} {p : StatusPatch} {f : MachineSpec → MachineSpec}
    (hw : Consistent T w) (hm : w.machines.lookup i.key = some m) (hu : m.metadata.uid = i.uid)
    (hf : (f m.spec).requestedAt = m.spec.requestedAt) (hl : Law T i (journal i w) (.status p))
    (hc : Compatible (.status p :: journal i w) (w.staged i).status) :
    (discipline T).Allows i w
      ((w.storeMachine i.key { m with spec := f m.spec, status := p.apply m.status }).note i (.status p)) := by
  obtain ⟨hk, huid, ht⟩ := hw.accounted.machine _ _ hm
  rw [hu] at ht
  refine allows_event hw ?_ (journal_note_same _ _ _) (fun k hk => journal_note_other _ _ hk) rfl (Nat.le_succ _)
    (fun _ _ h => .inl h) hl hc
  have hacc := accounted_machine (m := { m with spec := f m.spec, status := p.apply m.status })
    (some (.status p)) hw.accounted (by rintro e ⟨⟩; rfl) hk (Nat.le_succ_of_le huid) (by
      change Told (.status p :: journal ⟨i.key, m.metadata.uid⟩ w) _
      rw [hu]
      refine ⟨?_, hf.trans ht.request, ?_⟩
      · change p.apply m.status = p.apply (statusOf (journal i w))
        rw [ht.status]
      · rw [List.mem_cons]
        simpa using ht.deletion)
  change Accounted T ((w.storeMachine i.key _).note ⟨i.key, m.metadata.uid⟩ (.status p)) at hacc
  rw [hu] at hacc
  exact hacc

/-- A status write has to obey the law of the journal, and leave the staged record in step. -/
theorem rule_patchStatus {rv : Nat} {p : StatusPatch} {A : Fact} (hP : Calm P)
    (h : ∀ j s, Lawful S.trust i j → P j s → Law S.trust i j (.status p) ∧
      (p.reboot = none ∨ s = none ∨ s = p.reboot ∧ ∃ r, p.reboot = some r ∧ Updates j r) ∧
      A (.status p :: j) s) :
    Proves S i P (call (.patchMachineStatus i.key ⟨i.uid, rv⟩ p)) (fun _ => A)
      (fun j s => P j s ∨ A j s) := by
  refine triple_perform (stable_at hP) ?_
  rintro w r w' hw ⟨hne, hp⟩ ⟨c, ha⟩
  rcases answer_patchStatus ha with ⟨rfl, e, rfl⟩ | ⟨m, hm, hu, rfl⟩
  · exact ⟨(discipline S.trust).allows_refl hw, hne, .inl hp⟩
  · obtain ⟨hl, hs, hA⟩ := h _ _ (hw.lawful i) hp
    have hc : Compatible (.status p :: journal i w) (w.staged i).status := by
      rcases hs with hn | hn | ⟨hs, r, hr, hup⟩
      · exact compatible_step hl (hw.staged i) (.inl (by simp [Event.touchesReboot, hn]))
      · exact compatible_step hl (hw.staged i) (.inr hn)
      · exact compatible_update hl (hw.staged i) hr hup (.inr (hs.trans hr))
    refine ⟨allows_status (f := id) hw hm hu rfl hl hc, ?_⟩
    have hat : At i A ((w.storeMachine i.key { m with status := p.apply m.status }).note i (.status p)) :=
      ⟨by simp, by rw [journal_note_same]; exact hA⟩
    cases r with
    | ok m' => exact hat
    | error e => exact ⟨hat.1, .inr hat.2⟩

/-- A host is patched only in the version that was read. -/
theorem patchHost_cases {k : ObjectKey} {pre : Precondition} {f : Host → Host} {old new : Host}
    (h : w.patchHost k pre f = some (old, new, w')) :
    w.hosts.lookup k = some old ∧ old.metadata.uid = pre.uid ∧ old.metadata.resourceVersion = pre.resourceVersion ∧
      new = (f old).stamp (w.rev + 1) ∧ w' = w.storeHost k (f old) := by
  unfold World.patchHost at h
  split at h
  · cases h
  · rename_i m hm
    split at h
    · rename_i hmeet
      cases h
      exact ⟨hm, (meets_iff.mp hmeet).1, (meets_iff.mp hmeet).2, rfl, rfl⟩
    · cases h

def Host.claim (h : Host) (claim : Option ConsumerRef) : Host := { h with spec := { h.spec with consumerRef := claim } }

def Host.setPhase (h : Host) (phase : HostPhase) (inUse : Bool) (reason : String) : Host :=
  { h with status := { h.status with phase := some phase, inUse := some inUse, cleanupReason := some reason } }

theorem answer_patchHost {boots : Target → Nat → String} {k : ObjectKey} {pre : Precondition}
    {claim : Option ConsumerRef} {c : Choice} {r : Except Exc Host}
    (ha : answer boots i (.patchHost k pre claim) c w = some (r, w')) :
    (w' = w ∧ ∃ e, r = .error e) ∨ ∃ old, w.hosts.lookup k = some old ∧ old.metadata.uid = pre.uid ∧
      old.metadata.resourceVersion = pre.resourceVersion ∧
      (r = .ok ((old.claim claim).stamp (w.rev + 1)) ∨ ∃ e, r = .error e ∧ e ≠ .api 404 ∧ e ≠ .api 409) ∧
      w' = (w.storeHost k (old.claim claim)).note i (old.claimEvent claim) := by
  cases c with
  | fail e => cases ha; exact .inl ⟨rfl, e, rfl⟩
  | commit lost =>
    simp only [answer] at ha
    split at ha
    · cases ha
    · rename_i hp
      obtain ⟨r', hr, he⟩ := Option.map_eq_some_iff.mp ha
      obtain ⟨hl, hu, hv, rfl, rfl⟩ := patchHost_cases hp
      cases he
      exact .inr ⟨_, hl, hu, hv, settle_cases hr, rfl⟩
  | _ => cases ha

theorem answer_patchHostStatus {boots : Target → Nat → String} {k : ObjectKey} {pre : Precondition}
    {phase : HostPhase} {inUse : Bool} {reason : String} {c : Choice} {r : Except Exc Host}
    (ha : answer boots i (.patchHostStatus k pre phase inUse reason) c w = some (r, w')) :
    (w' = w ∧ ∃ e, r = .error e) ∨ ∃ old, w.hosts.lookup k = some old ∧ old.metadata.uid = pre.uid ∧
      (r = .ok ((old.setPhase phase inUse reason).stamp (w.rev + 1)) ∨ ∃ e, r = .error e) ∧
      w' = (w.storeHost k (old.setPhase phase inUse reason)).note i
        (.phase old.metadata.uid old.spec.consumerRef old.status.phase phase) := by
  cases c with
  | fail e => cases ha; exact .inl ⟨rfl, e, rfl⟩
  | commit lost =>
    simp only [answer] at ha
    split at ha
    · cases ha
    · rename_i hp
      obtain ⟨r', hr, he⟩ := Option.map_eq_some_iff.mp ha
      obtain ⟨hl, hu, -, rfl, rfl⟩ := patchHost_cases hp
      cases he
      exact .inr ⟨_, hl, hu, (settle_cases hr).imp id fun ⟨e, he, _⟩ => ⟨e, he⟩, rfl⟩
  | _ => cases ha

theorem storeHost_lookup {k : ObjectKey} {h : Host} : ∀ k' h', (w.storeHost k h).hosts.lookup k' = some h' →
    w.hosts.lookup k' = some h' ∨ w.rev < h'.metadata.resourceVersion := by
  intro k' h' hl
  have hl : (w.hosts.insert k (h.stamp (w.rev + 1))).lookup k' = some h' := hl
  by_cases hk : k' = k
  · subst hk
    rw [AList.lookup_insert] at hl
    cases hl
    exact .inr (Nat.lt_succ_self _)
  · rw [AList.lookup_insert_ne hk] at hl
    exact .inl hl

/-- A host that the attempt holds names it, and nobody else holds it. -/
theorem held_host {T : Trust} {k : ObjectKey} {h : Host} {p : Option HostPhase} (hw : Consistent T w)
    (hT : T.claims = true) (hl : w.hosts.lookup k = some h)
    (hp : heldOf h.metadata.uid (journal i w) = some p) :
    h.spec.consumerRef = some i.consumer ∧ (T.phases = true → h.status.phase = p) ∧
      ∀ i', i' ≠ i → heldOf h.metadata.uid (journal i' w) = none := by
  obtain ⟨hc, hph⟩ := hw.accounted.claimed hT k h i p hl hp
  refine ⟨hc, hph, fun i' hi' => ?_⟩
  cases hh : heldOf h.metadata.uid (journal i' w) with
  | none => rfl
  | some q =>
    exact absurd (hw.accounted.exclusive hT i' i h.metadata.uid (by simp [hh]) (by simp [hp])) hi'

/-- A phase does not change who holds the host. -/
theorem heldOf_phase {x : Uid} {ref : Option ConsumerRef} {old : Option HostPhase} {new : HostPhase} {j : Journal} :
    heldOf x (.phase x ref old new :: j) = (heldOf x j).map fun _ => some new := by
  simp [heldOf]

/-- A phase is allowed on a host that is held. -/
theorem allows_phase {T : Trust} {k : ObjectKey} {h : Host} {new : HostPhase} {inUse : Bool} {reason : String}
    (hw : Consistent T w) (hne : journal i w ≠ []) (hl : w.hosts.lookup k = some h)
    (hheld : T.claims = true → ∃ p, heldOf h.metadata.uid (journal i w) = some p)
    (hlaw : Law T i (journal i w) (.phase h.metadata.uid h.spec.consumerRef h.status.phase new)) :
    (discipline T).Allows i w ((w.storeHost k (h.setPhase new inUse reason)).note i
      (.phase h.metadata.uid h.spec.consumerRef h.status.phase new)) := by
  obtain ⟨hk, hu, -⟩ := hw.accounted.host k h hl
  refine allows_event hw ?_ (journal_note_same _ _ _) (fun k hk => journal_note_other _ _ hk) rfl (Nat.le_succ _)
    storeHost_lookup hlaw (compatible_step hlaw (hw.staged i) (.inl rfl))
  refine accounted_host (x := h.metadata.uid) (some _) hw.accounted ?_ (by rintro e ⟨⟩; rfl) ?_ hk rfl
    (Nat.le_succ_of_le hu) (fun k' h' hl' hu' => hw.accounted.distinct k' k h' h hl' hl hu') ?_ ?_
  · rintro e ⟨⟩
    exact journal_known hw.accounted hne
  · rintro e ⟨⟩ y j hy
    simp [heldOf, hy.symm]
  · intro hT i' p hp
    obtain ⟨q, hq⟩ := hheld hT
    obtain ⟨hc, -, hothers⟩ := held_host hw hT hl hq
    by_cases hi : i' = i
    · subst hi
      simp only [World.noteAll, journal_note_same, journal_storeHost, heldOf_phase, hq, Option.map_some,
        Option.some.injEq] at hp
      exact ⟨hc, fun _ => hp⟩
    · simp only [World.noteAll, journal_note_other _ _ hi, journal_storeHost, hothers i' hi] at hp
      cases hp
  · intro hT r hr
    obtain ⟨q, hq⟩ := hheld hT
    obtain ⟨hc, -, -⟩ := held_host hw hT hl hq
    refine ⟨i, (Option.some.inj (hr.symm.trans hc)), ?_⟩
    simp [World.noteAll, heldOf_phase, hq]

/-- The phase of a host that the attempt holds. -/
theorem rule_phase {k : ObjectKey} {x : Uid} {rv : Nat} {new : HostPhase} {inUse : Bool} {reason : String}
    {A : Fact} (hP : Calm P)
    (h : ∀ j s, Lawful S.trust i j → P j s →
      (new = .cleaning → Event.marked ∈ j ∧ ∃ b, (statusOf j).allocation = some b ∧ b.hostUID = some x) ∧
      (new = .available → (statusOf j).cleanup = some .succeeded) ∧
      (S.trust.claims = true → ∃ p, heldOf x j = some p ∧
        (S.trust.phases = true → new = .claimed → unclean p = false)))
    (hA : ∀ j s ref old, P j s → A (.phase x ref old new :: j) s) :
    Proves S i P (call (.patchHostStatus k ⟨x, rv⟩ new inUse reason))
      (fun h j s => h.metadata.uid = x ∧ A j s) (fun j s => P j s ∨ A j s) := by
  refine triple_perform (stable_at hP) ?_
  rintro w r w' hw ⟨hne, hp⟩ ⟨c, ha⟩
  rcases answer_patchHostStatus ha with ⟨rfl, e, rfl⟩ | ⟨old, hl, hu, hr, rfl⟩
  · exact ⟨(discipline S.trust).allows_refl hw, hne, .inl hp⟩
  · obtain ⟨h₁, h₂, h₃⟩ := h _ _ (hw.lawful i) hp
    have hu : old.metadata.uid = x := hu
    subst hu
    have hlaw : Law S.trust i (journal i w) (.phase old.metadata.uid old.spec.consumerRef old.status.phase new) := by
      refine ⟨h₁, h₂, fun hT => ?_⟩
      obtain ⟨p, hp, hcl⟩ := h₃ hT
      obtain ⟨hc, hph, -⟩ := held_host hw hT hl hp
      exact ⟨hc, p, hp, fun hPh => ⟨(hph hPh).symm, fun hn => by rw [hph hPh]; exact hcl hPh hn⟩⟩
    refine ⟨allows_phase hw hne hl (fun hT => (h₃ hT).imp fun _ h => h.1) hlaw, ?_⟩
    have hat : At i A ((w.storeHost k (old.setPhase new inUse reason)).note i
        (.phase old.metadata.uid old.spec.consumerRef old.status.phase new)) :=
      ⟨by simp, by rw [journal_note_same]; exact hA _ _ _ _ hp⟩
    rcases hr with rfl | ⟨e, rfl⟩
    · exact ⟨hat.1, rfl, hat.2⟩
    · exact ⟨hat.1, .inr hat.2⟩

/-- A claim is taken back only behind a receipt. -/
theorem allows_unclaim {T : Trust} {k : ObjectKey} {h : Host} (hw : Consistent T w) (hne : journal i w ≠ [])
    (hl : w.hosts.lookup k = some h) (hheld : T.claims = true → ∃ p, heldOf h.metadata.uid (journal i w) = some p)
    (hlaw : Law T i (journal i w) (.unclaim h.metadata.uid h.spec.consumerRef)) :
    (discipline T).Allows i w ((w.storeHost k (h.claim none)).note i
      (.unclaim h.metadata.uid h.spec.consumerRef)) := by
  obtain ⟨hk, hu, -⟩ := hw.accounted.host k h hl
  refine allows_event hw ?_ (journal_note_same _ _ _) (fun k hk => journal_note_other _ _ hk) rfl (Nat.le_succ _)
    storeHost_lookup hlaw (compatible_step hlaw (hw.staged i) (.inl rfl))
  refine accounted_host (x := h.metadata.uid) (some _) hw.accounted ?_ (by rintro e ⟨⟩; rfl) ?_ hk rfl
    (Nat.le_succ_of_le hu) (fun k' h' hl' hu' => hw.accounted.distinct k' k h' h hl' hl hu') ?_ ?_
  · rintro e ⟨⟩
    exact journal_known hw.accounted hne
  · rintro e ⟨⟩ y j hy
    simp [heldOf, hy.symm]
  · intro hT i' p hp
    obtain ⟨q, hq⟩ := hheld hT
    obtain ⟨-, -, hothers⟩ := held_host hw hT hl hq
    by_cases hi : i' = i
    · subst hi
      simp [World.noteAll, heldOf] at hp
    · simp only [World.noteAll, journal_note_other _ _ hi, journal_storeHost, hothers i' hi] at hp
      cases hp
  · rintro - r ⟨⟩

theorem rule_unclaim {k : ObjectKey} {x : Uid} {rv : Nat} {A : Fact} (hP : Calm P)
    (h : ∀ j s, Lawful S.trust i j → P j s → (statusOf j).cleanup = some .succeeded ∧
      (S.trust.claims = true → ∃ p, heldOf x j = some p))
    (hA : ∀ j s ref, P j s → A (.unclaim x ref :: j) s) :
    Proves S i P (call (.patchHost k ⟨x, rv⟩ none)) (fun _ => A) (fun j s => P j s ∨ A j s) := by
  refine triple_perform (stable_at hP) ?_
  rintro w r w' hw ⟨hne, hp⟩ ⟨c, ha⟩
  rcases answer_patchHost ha with ⟨rfl, e, rfl⟩ | ⟨old, hl, hu, -, hr, rfl⟩
  · exact ⟨(discipline S.trust).allows_refl hw, hne, .inl hp⟩
  · obtain ⟨hs, hheld⟩ := h _ _ (hw.lawful i) hp
    have hu : old.metadata.uid = x := hu
    subst hu
    have hlaw : Law S.trust i (journal i w) (.unclaim old.metadata.uid old.spec.consumerRef) := by
      refine ⟨hs, fun hT => ?_⟩
      obtain ⟨p, hp⟩ := hheld hT
      exact ⟨(held_host hw hT hl hp).1, by simp [hp]⟩
    refine ⟨allows_unclaim hw hne hl hheld hlaw, ?_⟩
    have hat : At i A ((w.storeHost k (old.claim none)).note i
        (.unclaim old.metadata.uid old.spec.consumerRef)) :=
      ⟨by simp, by rw [journal_note_same]; exact hA _ _ _ hp⟩
    rcases hr with rfl | ⟨e, rfl, -⟩
    · exact hat
    · exact ⟨hat.1, .inr hat.2⟩

/-- A host as it was read; while its resource version stays, so does everything else. -/
def Seen (h : Host) (w : World) : Prop :=
  h.metadata.resourceVersion ≤ w.rev ∧ ∀ h', w.hosts.lookup h.metadata.key = some h' →
    h'.metadata.resourceVersion = h.metadata.resourceVersion → h' = h

theorem stable_seen {T : Trust} (h : Host) : (discipline T).Stable i (Seen h) := by
  rintro w w' ⟨hrv, hs⟩ hr -
  refine ⟨hrv.trans hr.rev, fun h' hl hv => ?_⟩
  rcases hr.hosts _ _ hl with hl | hlt
  · exact hs h' hl hv
  · rw [hv] at hlt
    omega

/-- Every listed host as it was at one moment. -/
theorem rule_listHosts {ns : String} (hP : Calm P) :
    Triple (cluster S) (discipline S.trust) i (At i P) (call (.listHosts ns))
      (post (fun (l : List Host) w => At i (fun j s => P j s ∧ ∀ h ∈ l, Claims S.trust i h j) w ∧ ∀ h ∈ l, Seen h w)
        fun _ => At i P) := by
  refine triple_perform (stable_at hP) ?_
  rintro w r w' hw hp ⟨c, ha⟩
  obtain ⟨rfl, hr⟩ := answer_listHosts ha
  refine ⟨(discipline S.trust).allows_refl hw, ?_⟩
  cases r with
  | error e => exact hp
  | ok l =>
    refine ⟨⟨hp.1, hp.2, fun h hh => ?_⟩, fun h hh => ?_⟩
    · obtain ⟨k, hl⟩ := hr l rfl h hh
      exact claims_of_lookup hw hl
    · obtain ⟨k, hl⟩ := hr l rfl h hh
      obtain ⟨hk, -, hrv⟩ := hw.accounted.host k h hl
      refine ⟨hrv, fun h' hl' _ => ?_⟩
      rw [hk] at hl'
      exact Option.some.inj (hl'.symm.trans hl)

/-- A free host may be claimed. -/
theorem allows_claim {T : Trust} {k : ObjectKey} {h : Host} (hw : Consistent T w) (hne : journal i w ≠ [])
    (hl : w.hosts.lookup k = some h) (hfree : h.spec.consumerRef = none) :
    (discipline T).Allows i w ((w.storeHost k (h.claim (some i.consumer))).note i
      (.claim h.metadata.uid (some i.consumer) h.status.phase)) := by
  obtain ⟨hk, hu, -⟩ := hw.accounted.host k h hl
  have hnone : T.claims = true → ∀ i', heldOf h.metadata.uid (journal i' w) = none := by
    intro hT i'
    cases hh : heldOf h.metadata.uid (journal i' w) with
    | none => rfl
    | some p =>
      have := (hw.accounted.claimed hT k h i' p hl hh).1
      rw [hfree] at this
      cases this
  have hlaw : Law T i (journal i w) (.claim h.metadata.uid (some i.consumer) h.status.phase) :=
    fun hT => ⟨rfl, hnone hT i⟩
  refine allows_event hw ?_ (journal_note_same _ _ _) (fun k hk => journal_note_other _ _ hk) rfl (Nat.le_succ _)
    storeHost_lookup hlaw (compatible_step hlaw (hw.staged i) (.inl rfl))
  refine accounted_host (x := h.metadata.uid) (some _) hw.accounted ?_ (by rintro e ⟨⟩; rfl) ?_ hk rfl
    (Nat.le_succ_of_le hu) (fun k' h' hl' hu' => hw.accounted.distinct k' k h' h hl' hl hu') ?_ ?_
  · rintro e ⟨⟩
    exact journal_known hw.accounted hne
  · rintro e ⟨⟩ y j hy
    simp [heldOf, hy.symm]
  · intro hT i' p hp
    by_cases hi : i' = i
    · subst hi
      simp only [World.noteAll, journal_note_same, heldOf, if_true, Option.some.injEq] at hp
      exact ⟨rfl, fun _ => hp⟩
    · simp only [World.noteAll, journal_note_other _ _ hi, journal_storeHost, hnone hT i'] at hp
      cases hp
  · intro hT r hr
    refine ⟨i, (Option.some.inj hr).symm, ?_⟩
    simp [World.noteAll, heldOf]

/-- The claim of a host that was seen unclaimed. A refusal has claimed nothing. -/
theorem rule_claim {h : Host} (seen : List Host) (hP : Calm P) (hfree : h.spec.consumerRef = none)
    (hA : ∀ j s x ref p, P j s → P (.claim x ref p :: j) s) :
    Triple (cluster S) (discipline S.trust) i (fun w => At i P w ∧ ∀ h' ∈ h :: seen, Seen h' w)
      (call (.patchHost h.metadata.key h.precondition (some i.consumer)))
      (post (fun h' => At i (fun j s => P j s ∧ Held S.trust h' j)) fun e w =>
        At i P w ∧ ((e = .api 404 ∨ e = .api 409) → ∀ h' ∈ seen, Seen h' w)) := by
  have hK : (discipline S.trust).Stable i (fun w => At i P w ∧ ∀ h' ∈ h :: seen, Seen h' w) :=
    fun w w' hk hr hi => ⟨stable_at hP w w' hk.1 hr hi, fun h' hh => stable_seen h' w w' (hk.2 h' hh) hr hi⟩
  refine triple_perform hK ?_
  rintro w r w' hw ⟨⟨hne, hp⟩, hseen⟩ ⟨c, ha⟩
  rcases answer_patchHost ha with ⟨rfl, e, rfl⟩ | ⟨old, hl, -, hv, hr, rfl⟩
  · exact ⟨(discipline S.trust).allows_refl hw, ⟨hne, hp⟩, fun _ h' hh => hseen h' (List.mem_cons_of_mem _ hh)⟩
  · obtain rfl := (hseen h List.mem_cons_self).2 old hl hv
    refine ⟨allows_claim hw hne hl hfree, ?_⟩
    rcases hr with rfl | ⟨e, rfl, h₁, h₂⟩
    · refine ⟨by simp, ?_, fun _ => ⟨old.status.phase, ?_, fun _ => rfl⟩⟩
      · rw [journal_note_same]; exact hA _ _ _ _ _ hp
      · simp [Host.claim, Host.stamp, Host.claimEvent, heldOf]
    · refine ⟨⟨by simp, ?_⟩, ?_⟩
      · rw [journal_note_same]; exact hA _ _ _ _ _ hp
      · rintro (rfl | rfl)
        · exact absurd rfl h₁
        · exact absurd rfl h₂

theorem restage_same (w : World) (i : MachineRef) (p : Patch) : (w.restage i p).staged i = p := by
  simp [World.restage]

theorem restage_other {k : MachineRef} (w : World) (p : Patch) (h : k ≠ i) :
    (w.restage i p).staged k = w.staged k := by
  simp [World.restage, h]

theorem accounted_restage {T : Trust} {p : Patch} (hw : Accounted T w) : Accounted T (w.restage i p) :=
  ⟨hw.known, hw.machine, hw.host, hw.distinct, hw.heldKnown, hw.claimed, hw.holder, hw.exclusive⟩

/-- What is staged may change as long as it is compatible with the journal. -/
theorem allows_restage {T : Trust} {p : Patch} (hw : Consistent T w) (hc : Compatible (journal i w) p.status) :
    (discipline T).Allows i w (w.restage i p) :=
  allows_silent hw (accounted_restage hw.accounted) (fun _ => rfl) (fun k hk => restage_other w p hk)
    (by rw [restage_same]; exact hc) (Nat.le_refl _) fun _ _ h => .inl h

/-- The rule of staging: compatible before, compatible after. -/
theorem rule_stage {f : Time → Patch → Patch} {A : Fact} (hP : Calm P)
    (h : ∀ j t p, Lawful S.trust i j → Compatible j p.status → P j p.status.reboot →
      Compatible j (f t p).status ∧ A j (f t p).status.reboot) :
    Proves S i P (stage f) (fun _ => A) E := by
  refine triple_perform (stable_at hP) ?_
  rintro w r w' hw ⟨hne, hp⟩ ⟨c, ha⟩
  cases c with
  | time t =>
    cases ha
    obtain ⟨hc, hA⟩ := h _ t _ (hw.lawful i) (hw.staged i) hp
    refine ⟨allows_restage hw hc, hne, ?_⟩
    rw [restage_same]
    exact hA
  | _ => cases ha

/-- The staged fields that the lifecycle rests on stay as they are. -/
def harmless (f : Time → Patch → Patch) : Prop := ∀ t p,
  (f t p).status.allocation = p.status.allocation ∧
  (f t p).status.bootstrapOwnership = p.status.bootstrapOwnership ∧
  ((f t p).status.cleanup = p.status.cleanup ∨ (f t p).status.cleanup = none) ∧
  (f t p).status.reboot = p.status.reboot

theorem harmless_compatible {f : Time → Patch → Patch} {j : Journal} {t : Time} {p : Patch} (hf : harmless f)
    (hc : Compatible j p.status) : Compatible j (f t p).status := by
  obtain ⟨h₁, h₂, h₃, h₄⟩ := hf t p
  refine ⟨by rw [h₁]; exact hc.allocation, by rw [h₂]; exact hc.ownership, ?_, by rw [h₄]; exact hc.reboot⟩
  rcases h₃ with h | h
  · rw [h]; exact hc.cleanup
  · exact h

/-- Calls that no law has to allow. -/
def Op.harmless (op : Op) : Prop := op.quiet = true ∨ ∃ f, op = .stage f ∧ CapiSsh.harmless f

/-- A program of harmless calls keeps every calm fact. -/
theorem proves_harmless {p : Act α} (hp : p.Only Op.harmless) (hP : Calm P) : Proves S i P p (fun _ => P) P := by
  refine triple_only hp (stable_at hP) ?_
  rintro op (hq | ⟨f, rfl, hf⟩) w r w' hw hk ⟨c, ha⟩
  · obtain rfl := answer_quiet hq ha
    exact ⟨(discipline S.trust).allows_refl hw, hk⟩
  · cases c with
    | time t =>
      cases ha
      refine ⟨allows_restage hw (harmless_compatible hf (hw.staged i)), hk.1, ?_⟩
      rw [restage_same, (hf t _).2.2.2]
      exact hk.2
    | _ => cases ha

/-- What Kopf applies has been compatible all along. -/
theorem rule_applyStaged (hP : Calm P) (hl : ∀ j s p, Law S.trust i j (.status p) → P j s → P (.status p :: j) s) :
    Proves S i P (call (.applyStaged i.key)) (fun _ => P) P := by
  refine triple_perform (stable_at hP) ?_
  rintro w r w' hw hp ⟨c, ha⟩
  have hne := hp.1
  cases c with
  | applied spec status error =>
    have key : (discipline S.trust).Allows i w w' ∧ At i P w' := by
      simp only [answer, Option.some.injEq, Prod.mk.injEq] at ha
      obtain ⟨-, rfl⟩ := ha
      split
      · exact ⟨(discipline S.trust).allows_refl hw, hp⟩
      · rename_i m hm
        split
        · rename_i hu
          cases status with
          | false =>
            refine ⟨?_, hp⟩
            cases spec with
            | false =>
              have := allows_spec (p := .empty) hw hm
              rw [spec_apply_empty] at this
              exact this
            | true => exact allows_spec hw hm
          | true =>
            have hlaw := compatible_law (hw.lawful i) (hw.staged i)
            have hc : Compatible (.status (w.staged i).status :: journal i w) (w.staged i).status := by
              cases hr : (w.staged i).status.reboot with
              | none => exact compatible_step hlaw (hw.staged i) (.inr hr)
              | some r => exact compatible_update hlaw (hw.staged i) hr ((hw.staged i).reboot r hr).1 (.inr hr)
            have hat : ∀ m, At i P ((w.storeMachine i.key m).note i (.status (w.staged i).status)) := fun m =>
              ⟨by simp, by rw [journal_note_same]; exact hl _ _ _ hlaw hp.2⟩
            cases spec with
            | false => exact ⟨allows_status (f := id) hw hm hu rfl hlaw hc, hat _⟩
            | true => exact ⟨allows_status (f := (w.staged i).spec.apply) hw hm hu rfl hlaw hc, hat _⟩
        · exact ⟨(discipline S.trust).allows_refl hw, hp⟩
    refine ⟨key.1, ?_⟩
    cases r <;> exact key.2
  | _ => cases ha

/-- An event on the host has to obey the law, and nothing else changes. -/
theorem allows_remote {T : Trust} {e : Event} (hw : Consistent T w) (hne : journal i w ≠ [])
    (hh : e.isHost = false) (hu : e.isUser = false) (hs : ∀ p, e ≠ .status p) (hlaw : Law T i (journal i w) e)
    (hc : Compatible (e :: journal i w) (w.staged i).status) : (discipline T).Allows i w (w.note i e) :=
  allows_event hw (accounted_note hw.accounted (journal_known hw.accounted hne) hh hu hs) (journal_note_same _ _ _)
    (fun _ hk => journal_note_other _ _ hk) rfl (Nat.le_refl _) (fun _ _ h => .inl h) hlaw hc

theorem at_note {e : Event} {A : Fact} (h : A (e :: journal i w) (w.staged i).status.reboot) :
    At i A (w.note i e) :=
  ⟨by simp, by rw [journal_note_same]; exact h⟩

/-- The boot of the host that a connection belongs to. -/
def Setting.boot (S : Setting) (conn : Conn) : String := S.boots conn.target conn.session

/-- Only the owner looks at the boot ID. -/
theorem rule_bootID {conn : Conn} {uid : Uid} {claim cleaned blocking : Bool} {A : Fact} (hP : Calm P)
    (hown : ∀ j s, Lawful S.trust i j → P j s → owns j conn.target)
    (hA : ∀ j s, P j s → A (.observed conn.target (S.boot conn) :: j) s) :
    Proves S i P (call (.run conn (.owned ⟨uid, .bootID, claim, cleaned, blocking⟩)))
      (fun c j s => if c.exitStatus = some 0 then
        strip c.stdout.line = S.boot conn ∧ A j s else P j s) P := by
  refine triple_perform (stable_at hP) ?_
  rintro w r w' hw ⟨hne, hp⟩ ⟨c, ha⟩
  cases c with
  | ran accepted c =>
    simp only [answer] at ha
    split at ha
    · obtain ⟨e, he, hr⟩ := Option.map_eq_some_iff.mp ha
      cases hr
      simp only [ranEvent] at he
      split at he
      · rename_i hexit
        split at he
        · rename_i hline
          cases he
          have hlaw : Law S.trust i (journal i w) (.observed conn.target (S.boot conn)) :=
            hown _ _ (hw.lawful i) hp
          refine ⟨allows_remote hw hne rfl rfl (by simp) hlaw (compatible_step hlaw (hw.staged i) (.inl rfl)), ?_⟩
          have hat : At i A (w.note i (.observed conn.target (S.boot conn))) := at_note (hA _ _ hp)
          refine ⟨hat.1, ?_⟩
          simp only [hexit, if_true]
          exact ⟨hline, hat.2⟩
        · cases he
      · rename_i hexit
        cases he
        refine ⟨(discipline S.trust).allows_refl hw, hne, ?_⟩
        simp only [hexit, if_false]
        exact hp
    · cases ha
  | raised accepted e =>
    simp only [answer] at ha
    split at ha
    · cases ha
      exact ⟨(discipline S.trust).allows_refl hw, hne, hp⟩
    · cases ha
  | _ => cases ha

/-- A reboot needs ownership and a prepared record of a fresh request. -/
theorem rule_reboot {conn : Conn} {uid : Uid} {claim cleaned blocking : Bool} {A : RunOutcome → Fact}
    (hP : Calm P)
    (h : ∀ j s, Lawful S.trust i j → P j s → owns j conn.target ∧ (record j).phase = some .prepared ∧
      (∃ r, (record j).lastRequestedAt = some r ∧ fresh j r) ∧ (record j).previousBootID = some (S.boot conn) ∧
      ∀ r, s = some r → r.phase = some .prepared)
    (hA : ∀ j s a o, P j s → A o (.reboot conn.target a o :: j) s) :
    Proves S i P (call (.run conn (.owned ⟨uid, .reboot, claim, cleaned, blocking⟩)))
      (fun c => A c.outcome) (A .raised) := by
  refine triple_perform (stable_at hP) ?_
  rintro w r w' hw ⟨hne, hp⟩ ⟨c, ha⟩
  obtain ⟨hown, hph, hreq, hprev, hst⟩ := h _ _ (hw.lawful i) hp
  have step : ∀ accepted o, (discipline S.trust).Allows i w
      (w.note i (.reboot conn.target (if accepted = true then some (S.boot conn) else none) o)) := by
    intro accepted o
    have hlaw : Law S.trust i (journal i w)
        (.reboot conn.target (if accepted = true then some (S.boot conn) else none) o) := by
      refine ⟨hown, hph, hreq, fun b hb => ?_⟩
      cases accepted with
      | false => cases hb
      | true => cases hb; exact hprev
    exact allows_remote hw hne rfl rfl (by simp) hlaw (compatible_reboot hlaw (hw.staged i) hst)
  cases c with
  | ran accepted c =>
    simp only [answer] at ha
    split at ha
    · obtain ⟨e, he, hr⟩ := Option.map_eq_some_iff.mp ha
      cases hr
      simp only [ranEvent] at he
      split at he
      · cases he
      · cases he
        exact ⟨step accepted c.outcome, at_note (hA _ _ _ _ hp)⟩
    · cases ha
  | raised accepted e =>
    simp only [answer] at ha
    split at ha
    · cases ha
      exact ⟨step accepted .raised, at_note (hA _ _ _ _ hp)⟩
    · cases ha
  | _ => cases ha

/-- A reset needs ownership, a deletion mark and no reboot under way. -/
theorem rule_reset {conn : Conn} {uid : Uid} {claim cleaned blocking : Bool} {A : RunOutcome → Fact}
    (hP : Calm P)
    (h : ∀ j s, Lawful S.trust i j → P j s → owns j conn.target ∧ Event.marked ∈ j ∧
      (record j).pending = false ∧ (S.trust.phases = true → confined j))
    (hA : ∀ j s o, P j s → A o (.reset conn.target o :: j) s) :
    Proves S i P (call (.run conn (.owned ⟨uid, .reset, claim, cleaned, blocking⟩)))
      (fun c => A c.outcome) (A .raised) := by
  refine triple_perform (stable_at hP) ?_
  rintro w r w' hw ⟨hne, hp⟩ ⟨c, ha⟩
  have hlaw : ∀ o, Law S.trust i (journal i w) (.reset conn.target o) := fun _ => h _ _ (hw.lawful i) hp
  have step : ∀ o, (discipline S.trust).Allows i w (w.note i (.reset conn.target o)) := fun o =>
    allows_remote hw hne rfl rfl (by simp) (hlaw o) (compatible_step (hlaw o) (hw.staged i) (.inl rfl))
  cases c with
  | ran accepted c =>
    simp only [answer] at ha
    split at ha
    · obtain ⟨e, he, hr⟩ := Option.map_eq_some_iff.mp ha
      cases hr
      cases he
      exact ⟨step _, at_note (hA _ _ _ hp)⟩
    · cases ha
  | raised accepted e =>
    simp only [answer] at ha
    split at ha
    · cases ha
      exact ⟨step _, at_note (hA _ _ _ hp)⟩
    · cases ha
  | _ => cases ha

end CapiSsh
