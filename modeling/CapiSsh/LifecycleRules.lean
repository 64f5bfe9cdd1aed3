import CapiSsh.InventoryRules

/-!
# What reboot and cleanup write

The walks through `operations.py` and `lifecycle.py`. A reboot attempt follows the record
that it was started with; a deletion knows that its Machine is marked, and confines the
host before it resets it.
-/
namespace CapiSsh

open Effect Interference

variable {S : Setting} {i : MachineRef} {P A E F : Fact}

/-- Nothing has to be known of a journal whose attempt is over. -/
def Any : Fact := fun _ _ => True

theorem calm_any : Calm Any := ⟨fun _ _ _ _ => trivial, fun _ _ _ => trivial⟩

theorem calm_and {Q : Journal → Prop} (hP : Calm P) (h₁ : ∀ j v, Q j → Q (.requested v :: j))
    (h₂ : ∀ j, Q j → Q (.marked :: j)) : Calm fun j s => P j s ∧ Q j :=
  ⟨fun j s v h => ⟨hP.requested j s v h.1, h₁ j v h.2⟩, fun j s h => ⟨hP.marked j s h.1, h₂ j h.2⟩⟩

theorem calm_or (hP : Calm P) (hE : Calm E) : Calm fun j s => P j s ∨ E j s :=
  ⟨fun j s v h => h.imp (hP.requested j s v) (hE.requested j s v),
    fun j s h => h.imp (hP.marked j s) (hE.marked j s)⟩

/-- A part of an attempt that only fails or leaves what is known alone. -/
theorem proves_skip {p : Act α} {B : β → Fact} {f : α → Act β} (hp : p.Only Op.harmless) (hP : Calm P)
    (hE : ∀ j s, P j s → E j s) (hf : ∀ a, Proves S i P (f a) B E) : Proves S i P (p >>= f) B E :=
  proves_bind (proves_conseq (proves_harmless hp hP) (fun _ _ _ h => h) (fun _ _ _ _ h => h) fun _ _ _ h => hE _ _ h) hf

/-- What is known after a `with` block, by what its body returned. -/
def Left (A : α → Fact) (E : Fact) (exit : Exit α) : Fact := fun j s =>
  (∀ a, exit.outcome = .ok a → exit.returned = some a) ∧ match exit.returned with
    | some a => A a j s
    | none => E j s

theorem left_calm {A : α → Fact} (hA : ∀ a, Calm (A a)) (hE : Calm E) (exit : Exit α) : Calm (Left A E exit) := by
  obtain ⟨returned, outcome⟩ := exit
  cases returned with
  | none => exact ⟨fun j s v h => ⟨h.1, hE.requested j s v h.2⟩, fun j s h => ⟨h.1, hE.marked j s h.2⟩⟩
  | some a => exact ⟨fun j s v h => ⟨h.1, (hA a).requested j s v h.2⟩, fun j s h => ⟨h.1, (hA a).marked j s h.2⟩⟩

theorem left_error {A : α → Fact} {exit : Exit α} {e : Exc} {j : Journal} {s : Option RebootState}
    (h : Left A E exit j s) : Left A E { exit with outcome := .error e } j s :=
  ⟨by rintro a ⟨⟩, h.2⟩

theorem proves_attempt {p : Act α} {A : α → Fact} (h : Proves S i P p A E) :
    Proves S i P p.attempt (fun r j s => match r with
      | .ok a => A a j s
      | .error _ => E j s) F := by
  refine triple_conseq (triple_attempt (F := fun _ => At i F) h) (fun _ _ h => h) ?_ fun _ _ _ h => h
  rintro (e | a) w - h
  · exact h
  · exact h

theorem proves_run {body : Act α} {A : α → Fact} (h : Proves S i P body A E) :
    Proves S i P (Exit.run body) (Left A E) F := by
  refine proves_bind (proves_attempt h) fun r => ?_
  cases r with
  | ok a => exact proves_pure fun j s _ h => ⟨by rintro b ⟨⟩; rfl, h⟩
  | error e => exact proves_pure fun j s _ h => ⟨by rintro b ⟨⟩, h⟩

theorem proves_leave {A : α → Fact} {exit : Exit α} {close : Act Unit} (hA : ∀ a, Calm (A a)) (hE : Calm E)
    (hc : close.Only Op.harmless) : Proves S i (Left A E exit) (exit.leave close) (Left A E) F := by
  refine proves_bind (proves_attempt (proves_harmless hc (left_calm hA hE exit))) fun r => ?_
  cases r with
  | ok a => exact proves_pure fun j s _ h => h
  | error e => exact proves_pure fun j s _ h => left_error h

theorem rule_leaseLost {lease : HostLeaseRef} (hP : Calm P) : Proves S i P (call (.leaseLost lease)) (fun _ => P) E := by
  refine triple_perform (stable_at hP) ?_
  rintro w r w' hw hp ⟨c, ha⟩
  obtain rfl := answer_quiet (by rfl) ha
  refine ⟨(discipline S.trust).allows_refl hw, ?_⟩
  cases c with
  | flag b => cases ha; exact hp
  | _ => cases ha

theorem proves_lost {A : α → Fact} {exit : Exit α} {lease : HostLeaseRef} (hA : ∀ a, Calm (A a)) (hE : Calm E) :
    Proves S i (Left A E exit) (exit.lost lease) (Left A E) F := by
  unfold Exit.lost
  split
  · refine proves_bind (rule_leaseLost (left_calm hA hE exit)) fun lost => ?_
    split
    · exact proves_pure fun _ _ _ h => left_error h
    · exact proves_pure fun _ _ _ h => h
  · exact proves_pure fun _ _ _ h => h

theorem only_releaseLease {lease : HostLeaseRef} : (releaseLease lease).Only Op.harmless := by
  refine Prog.only_handle (only_quiet (by rfl)) fun e => ?_
  split <;> trivial

theorem proves_hostOperation {A : α → Fact} {binding : Binding} {uid : Uid} {body : HostLeaseRef → Act (Exit α)}
    (hP : Calm P) (hA : ∀ a, Calm (A a)) (hE : Calm E) (hPE : ∀ j s, P j s → E j s)
    (h : ∀ lease, Proves S i P (body lease) (Left A E) E) :
    Proves S i P (hostOperation binding uid body) (Left A E) E := by
  unfold hostOperation
  refine proves_skip ?_ hP hPE fun acquired => ?_
  · refine Prog.only_handle (only_quiet (by rfl)) fun e => ?_
    split <;> trivial
  · split
    · refine proves_bind (h _) fun exit => ?_
      exact proves_bind (proves_lost hA hE) fun exit => proves_leave hA hE only_releaseLease
    · exact proves_throw fun _ _ _ h => hPE _ _ h

/-- The part of an operation that has a connection, whichever way it was opened. -/
theorem proves_withConn {A : α → Fact} {dial : Act Conn} {t : Target} {body : Conn → Act α}
    (hA : ∀ a, Calm (A a)) (hE : Calm E) (hPE : ∀ j s, P j s → E j s)
    (hd : Proves S i P dial (fun conn j s => conn.target = t ∧ P j s) P)
    (h : ∀ conn, conn.target = t → Proves S i P (body conn) A E) :
    Proves S i P (withConn dial body) (Left A E) E := by
  refine proves_bind (proves_attempt hd) fun r => ?_
  cases r with
  | error e => exact proves_pure fun j s _ h => ⟨by rintro a ⟨⟩, hPE _ _ h⟩
  | ok conn =>
    refine proves_intro fun ht => proves_bind (proves_run (h conn ht)) fun exit => ?_
    exact proves_leave hA hE (only_quiet (by rfl))

theorem rule_connect {t : Target} {user key knownHosts : String} (hP : Calm P) :
    Proves S i P (call (.connect t user key knownHosts)) (fun conn j s => conn.target = t ∧ P j s) P := by
  refine triple_perform (stable_at hP) ?_
  rintro w r w' hw hp ⟨c, ha⟩
  obtain rfl := answer_quiet (by rfl) ha
  refine ⟨(discipline S.trust).allows_refl hw, ?_⟩
  cases c with
  | ok => cases ha; exact ⟨hp.1, rfl, hp.2⟩
  | fail e => cases ha; exact hp
  | _ => cases ha

theorem proves_connect {binding : Binding} {ns : String} (hP : Calm P) :
    Proves S i P (connect binding ns) (fun conn j s => conn.target = binding.target ∧ P j s) P := by
  unfold connect
  split
  · exact proves_throw fun _ _ _ h => h
  · refine proves_skip (only_quiet (by rfl)) hP (fun _ _ h => h) fun data => ?_
    split
    · exact proves_throw fun _ _ _ h => h
    · exact proves_skip only_readKnownHosts hP (fun _ _ h => h) fun _ => rule_connect hP

theorem proves_withHost {A : α → Fact} {binding : Binding} {uid : Uid} {ns : String}
    {body : HostLeaseRef → Conn → Act α} (hP : Calm P) (hA : ∀ a, Calm (A a)) (hE : Calm E)
    (hPE : ∀ j s, P j s → E j s)
    (h : ∀ lease conn, conn.target = binding.target → Proves S i P (body lease conn) A E) :
    Proves S i P (withHost binding uid ns body) (Left A E) E :=
  proves_hostOperation hP hA hE hPE fun lease => proves_withConn hA hE hPE (proves_connect hP) (h lease)

theorem proves_value {A : α → Fact} {exit : Exit α} (hE : ∀ j s, E j s → F j s) (hA : ∀ a j s, A a j s → F j s) :
    Proves S i (Left A E exit) exit.value A F := by
  obtain ⟨returned, outcome⟩ := exit
  cases outcome with
  | ok a =>
    refine proves_pure fun j s _ h => ?_
    obtain ⟨hr, h⟩ := h
    obtain rfl : returned = some a := hr a rfl
    exact h
  | error e =>
    refine proves_throw fun j s _ h => ?_
    cases returned with
    | none => exact hE j s h.2
    | some a => exact hA a j s h.2

theorem filled_some {v : Option String} {r : String} (h : filled v = some r) : v = some r := by
  unfold filled at h
  split at h
  · split at h
    · cases h
    · exact h
  · cases h

/-- What a reboot attempt knows of the object that it was started with. -/
structure Follows (spec : MachineSpec) (status : MachineStatus) (observeOnly : Bool) (j : Journal)
    (s : Option RebootState) : Prop where
  record : record j = status.reboot.getD .empty
  staged : s = none
  target : ∀ o, status.bootstrapOwnership = some o → owned j ∧ identityOf j = some o.identity ∧
    ∃ b, status.allocation = some b ∧ b.identity = o.identity
  fresh : observeOnly = false → ∀ r, spec.requestedAt = some r → (CapiSsh.record j).lastRequestedAt ≠ some r → fresh j r

variable {spec : MachineSpec} {status : MachineStatus} {metadata : ObjectMeta} {observeOnly : Bool}

/-- Events that leave the record, the target and the period of the request alone. -/
theorem follows_step {e : Event} {j : Journal} {s : Option RebootState} (h : Follows spec status observeOnly j s)
    (hid : ∀ d, identityOf j = some d → identityOf (e :: j) = some d) (hrec : record (e :: j) = record j)
    (hsent : sentOf (e :: j) = [] ∨ sentOf (e :: j) = sentOf j ∧ requestOf (e :: j) = requestOf j) :
    Follows spec status observeOnly (e :: j) s := by
  refine ⟨hrec.trans h.record, h.staged, ?_, ?_⟩
  · intro o ho
    obtain ⟨hown, hd, hb⟩ := h.target o ho
    exact ⟨owned_step hown, hid _ hd, hb⟩
  · intro hb r hr hne q hq
    rcases hsent with hnil | ⟨hs, hreq⟩
    · rw [hnil] at hq; cases hq
    · rw [hs] at hq
      rw [hreq]
      exact h.fresh hb r hr (by rw [← hrec]; exact hne) q hq

theorem follows_calm : Calm (Follows spec status observeOnly) where
  requested _ _ _ h := follows_step h (fun _ h => h) rfl (.inl rfl)
  marked _ _ h := follows_step h (fun _ h => h) rfl (.inr ⟨rfl, rfl⟩)

theorem follows_bind {T : Trust} : BindStable T i (Follows spec status observeOnly) where
  toCalm := follows_calm
  claim _ _ _ _ _ h := follows_step h (fun _ h => h) rfl (.inr ⟨rfl, rfl⟩)
  claimed _ _ _ _ _ h := follows_step h (fun _ h => h) rfl (.inr ⟨rfl, rfl⟩)
  allocation j s b cs hb h := by
    refine follows_step h (fun d hd => ?_) ?_ (.inr ⟨rfl, rfl⟩)
    · have hid := identityOf_allocated cs hb
      rcases hb with hb | ⟨hn, -⟩
      · rw [hid, ← hb, hd]
      · rw [hn] at hd; cases hd
    · exact record_untouched rfl

theorem prepares_again {p : StatusPatch} {j : Journal} {r : RebootState} (hp : p.reboot = some r)
    (hn : Prepares j r) : Updates (.status p :: j) r ∧ (r.phase = some .succeeded →
      (record (.status p :: j)).phase = some .succeeded) := by
  have hrec : record (.status p :: j) = (record j).merge r := by rw [record_status, hp]
  obtain ⟨q, hq, -⟩ := hn.request
  obtain ⟨b, hb, -⟩ := hn.previous
  refine ⟨⟨?_, ?_, .inl ⟨?_, ?_⟩, fun hf => ?_, fun _ => ?_, fun hs => ?_⟩, fun hs => ?_⟩
  · simp [hrec, Reboot.merge, hq]
  · simp [hrec, Reboot.merge, hb]
  · simp [hrec, Reboot.pending, Reboot.merge, hn.phase, RebootPhase.pending]
  · simp [hn.phase, RebootPhase.pending]
  · rw [hn.phase] at hf; cases hf
  · rw [hrec, merge_again]
    exact ⟨hn.cleared.1, rfl, .inr rfl⟩
  · rw [hn.phase] at hs; cases hs
  · rw [hn.phase] at hs; cases hs

theorem updates_user {e : Event} {j : Journal} {r : RebootState} (he : e.isUser = true) (h : Updates j r) :
    Updates (e :: j) r := by
  cases e with
  | requested v => exact ⟨h.request, h.previous, h.outcome, h.unsettled, h.waiting, h.completed⟩
  | marked => exact ⟨h.request, h.previous, h.outcome, h.unsettled, h.waiting, h.completed⟩
  | _ => cases he

/-- A record that is persisted before it is staged. -/
theorem proves_writeReboot {state : RebootState} {Q : Journal → Prop} (hP : Calm P)
    (h₁ : ∀ j v, Q j → Q (.requested v :: j)) (h₂ : ∀ j, Q j → Q (.marked :: j))
    (h : ∀ j s, P j s → (Updates j state ∧ (s = none ∨ s = some state)) ∨ (Prepares j state ∧ s = none))
    (hQ : ∀ j s cs, P j s →
      Q (.status { StatusPatch.empty with reboot := some state, conditions := cs } :: j)) :
    Proves S i P (writeReboot i.key i.uid state) (fun _ j s => Q j ∧ s = some state) Any := by
  let K : Fact := fun j _ => Q j ∧ Updates j state ∧ (state.phase = some .succeeded → (record j).phase = some .succeeded)
  have hK : Calm K := ⟨fun j s v h => ⟨h₁ j v h.1, updates_user rfl h.2.1, h.2.2⟩,
    fun j s h => ⟨h₂ j h.1, updates_user rfl h.2.1, h.2.2⟩⟩
  have hlaw : ∀ j, Updates j state ∨ Prepares j state →
      Law S.trust i j (.status { StatusPatch.empty with reboot := some state }) := by
    intro j hj
    refine StatusLaw.mk ?_ ?_ ?_ ?_
    · rintro b ⟨⟩
    · rintro o ⟨⟩
    · rintro c ⟨⟩
    · rintro r ⟨⟩
      exact hj
  unfold writeReboot
  refine proves_bind (A := fun _ => K) ?_ fun _ => ?_
  · refine proves_conseq (proves_persist (A := K) hP ?_ ?_) (fun _ _ _ h => h) (fun _ _ _ _ h => h)
      fun _ _ _ _ => trivial
    · intro j s _ hp
      rcases h j s hp with ⟨hu, hs⟩ | ⟨hn, hs⟩
      · exact ⟨hlaw j (.inl hu), .inr (hs.imp id fun hs => ⟨hs, state, rfl, hu⟩)⟩
      · exact ⟨hlaw j (.inr hn), .inr (.inl hs)⟩
    · intro j s cs hp
      refine ⟨hQ j s cs hp, ?_⟩
      rcases h j s hp with ⟨hu, -⟩ | ⟨hn, -⟩
      · exact updates_again rfl hu
      · exact prepares_again rfl hn
  · refine rule_stage hK fun j t p _ hc hk => ⟨?_, hk.1, rfl⟩
    refine ⟨hc.allocation, hc.ownership, hc.cleanup, ?_⟩
    rintro r ⟨⟩
    exact hk.2

theorem only_checkLease {lease : HostLeaseRef} : (checkLease lease).Only Op.harmless :=
  Prog.only_bind (only_quiet (by rfl)) fun _ => only_raiseIf

theorem only_checkCurrent {key : ObjectKey} {uid : Uid} : (checkCurrent key uid).Only Op.harmless := by
  refine Prog.only_bind (only_quiet (by rfl)) fun _ => Prog.only_bind only_raiseIf fun _ => ?_
  exact Prog.only_bind only_isPaused fun _ => Prog.only_bind only_raiseIf fun _ => trivial

/-- The boot that the host shows is the one of the connection. -/
theorem proves_observeBoot {conn : Conn} {uid : Uid} (hP : Calm P)
    (hown : ∀ j s, Lawful S.trust i j → P j s → owns j conn.target)
    (hA : ∀ j s, P j s → A (.observed conn.target (S.boot conn) :: j) s) :
    Proves S i P (observeBoot conn uid) (fun b j s => b = S.boot conn ∧ A j s) Any := by
  unfold observeBoot execute
  refine proves_bind (A := fun r j s => r.success = true → strip r.stdout.line = S.boot conn ∧ A j s)
    ?_ fun observed => ?_
  · refine proves_bind (proves_conseq (rule_bootID hP hown hA) (fun _ _ _ h => h) (fun _ _ _ _ h => h)
      fun _ _ _ _ => trivial) fun r => proves_pure fun j s _ h hs => ?_
    have hexit : r.exitStatus = some 0 := by
      cases he : r.exitStatus with
      | none => simp [Completed.success, Completed.exitCode, he] at hs
      | some c => simpa [Completed.success, Completed.exitCode, he] using hs
    rw [if_pos hexit] at h
    exact h
  · refine proves_guard (fun _ _ _ => trivial) fun hok => proves_pure fun j s _ h => ?_
    rw [not_or] at hok
    exact h (by simpa using hok.1)

theorem proves_executeReboot {conn : Conn} {uid : Uid} {A : RunOutcome → Fact} (hP : Calm P)
    (h : ∀ j s, Lawful S.trust i j → P j s → owns j conn.target ∧ (record j).phase = some .prepared ∧
      (∃ r, (record j).lastRequestedAt = some r ∧ fresh j r) ∧ (record j).previousBootID = some (S.boot conn) ∧
      ∀ r, s = some r → r.phase = some .prepared)
    (hA : ∀ j s a o, P j s → A o (.reboot conn.target a o :: j) s) :
    Proves S i P (execute conn (.owned (ownedCommand uid .reboot false false false)))
      (fun r j s => ∃ o, o.isError = !r.success ∧ A o j s) (A .raised) := by
  unfold execute
  refine proves_bind (rule_reboot hP h hA) fun r => proves_pure fun j s _ h => ⟨r.outcome, ?_, h⟩
  cases he : r.exitStatus <;>
    simp [Completed.outcome, Completed.success, Completed.exitCode, RunOutcome.isError, RunOutcome.code, he, bne]

/-- Between the write-ahead record and its outcome. -/
structure Committed (conn : Conn) (requested bootID : String) (j : Journal) (s : Option RebootState) : Prop where
  owns : owns j conn.target
  phase : (record j).phase = some .prepared
  request : (record j).lastRequestedAt = some requested
  previous : (record j).previousBootID = some bootID
  fresh : fresh j requested
  staged : ∀ r, s = some r → r.phase = some .prepared

/-- After the command, the record still says that it was prepared. -/
structure Sent (requested bootID : String) (o : RunOutcome) (j : Journal) : Prop where
  phase : (record j).phase = some .prepared
  request : (record j).lastRequestedAt = some requested
  previous : (record j).previousBootID = some bootID
  last : ∃ a, lastRunOf j = some (a, o)

/-- The dictionary of a record that tells the outcome of the command. -/
structure Outcome (requested bootID : String) (o : RunOutcome) (state : RebootState) : Prop where
  request : state.lastRequestedAt = some requested
  previous : state.previousBootID = some bootID
  unsettled : state.phase ≠ some .succeeded
  phase : state.phase.map RebootPhase.pending = some true ∨
    state.phase = some .failed ∧ o.isError = true
  cleared : state.success = some false ∧ state.lastCompletedAt = .remove ∧ state.observedBootID = none

theorem sent_updates {requested bootID : String} {o : RunOutcome} {j : Journal} {state : RebootState}
    (h : Sent requested bootID o j) (hs : Outcome requested bootID o state) : Updates j state := by
  refine ⟨hs.request.trans h.request.symm, hs.previous.trans h.previous.symm, ?_, ?_, ?_,
    fun hp => absurd hp hs.unsettled⟩
  · rcases hs.phase with hp | ⟨hp, ho⟩
    · exact .inl ⟨by rw [Reboot.pending, h.phase]; rfl, hp⟩
    · obtain ⟨a, ha⟩ := h.last
      exact .inr (.inr ⟨hp, a, o, ha, ho⟩)
  · intro _
    rw [h.phase]
    simp
  · intro _
    simp [Reboot.merge, hs.cleared, Field.apply]

theorem outcome_update {requested bootID message : String} {now : Time} {o : RunOutcome} {phase : RebootPhase}
    (h : phase.pending = true ∨ phase = .failed ∧ o.isError = true) :
    Outcome requested bootID o ((preparedState requested bootID now).update phase message) := by
  refine ⟨rfl, rfl, ?_, ?_, rfl, rfl, rfl⟩
  · change some phase ≠ _
    rcases h with h | ⟨rfl, -⟩
    · cases phase <;> simp [RebootPhase.pending] at h ⊢
    · simp
  · change (some phase).map RebootPhase.pending = _ ∨ some phase = _ ∧ _
    simpa using h

theorem sent_calm {requested bootID : String} {o : RunOutcome} :
    Calm fun j (_ : Option RebootState) => Sent requested bootID o j :=
  ⟨fun _ _ _ h => ⟨h.phase, h.request, h.previous, h.last⟩, fun _ _ h => ⟨h.phase, h.request, h.previous, h.last⟩⟩

/-- The outcome is staged first, in the dictionary that was staged with the preparation. -/
theorem proves_stageOutcome {requested bootID : String} {o : RunOutcome} {state : RebootState}
    (h : Outcome requested bootID o state) : Proves S i (fun j _ => Sent requested bootID o j) (stageReboot state)
      (fun _ j s => Sent requested bootID o j ∧ s = some state) Any := by
  refine rule_stage sent_calm fun j t p _ hc hs => ⟨⟨hc.allocation, hc.ownership, hc.cleanup, ?_⟩, hs, rfl⟩
  rintro r ⟨⟩
  exact ⟨sent_updates hs h, fun hp => absurd hp h.unsettled⟩

theorem proves_writeOutcome {requested bootID : String} {o : RunOutcome} {state : RebootState}
    (h : Outcome requested bootID o state) : Proves S i (fun j s => Sent requested bootID o j ∧ s = some state)
      (writeReboot i.key i.uid state) (fun _ => Any) Any := by
  refine proves_conseq (proves_writeReboot (Q := fun _ => True) ?_ (fun _ _ h => h) (fun _ h => h) ?_
    fun _ _ _ _ => trivial) (fun _ _ _ h => h) (fun _ _ _ _ _ => trivial) fun _ _ _ h => h
  · exact ⟨fun j s v h => ⟨sent_calm.requested j s v h.1, h.2⟩, fun j s h => ⟨sent_calm.marked j s h.1, h.2⟩⟩
  · exact fun j s hs => .inl ⟨sent_updates hs.1 h, .inr hs.2⟩

theorem fresh_requested {j : Journal} {v : Option String} {r : String} : fresh (.requested v :: j) r := by
  intro q hq
  cases hq

/-- What an attempt has seen of the host that the Machine owns. -/
structure Observed (conn : Conn) (bootID : String) (j : Journal) : Prop where
  owns : owns j conn.target
  seen : seenOf j = some bootID
  observed : (conn.target, bootID) ∈ observedOf j

theorem proves_submitReboot {operation : HostLeaseRef} {conn : Conn} {requested : String} :
    Proves S i (fun j s => Observed conn (S.boot conn) j ∧ fresh j requested ∧ s = none)
      (submitReboot operation conn i.key i.uid requested (S.boot conn)) (fun _ => Any) Any := by
  have hP : Calm fun j s => Observed conn (S.boot conn) j ∧ fresh j requested ∧ s = none :=
    ⟨fun j s v h => ⟨⟨h.1.owns, h.1.seen, h.1.observed⟩, fresh_requested, h.2.2⟩,
      fun j s h => ⟨⟨h.1.owns, h.1.seen, h.1.observed⟩, h.2.1, h.2.2⟩⟩
  have hC : Calm (Committed conn requested (S.boot conn)) :=
    ⟨fun j s v h => ⟨h.owns, h.phase, h.request, h.previous, fresh_requested, h.staged⟩,
      fun j s h => ⟨h.owns, h.phase, h.request, h.previous, h.fresh, h.staged⟩⟩
  unfold submitReboot
  refine proves_skip (only_quiet (by rfl)) hP (fun _ _ _ => trivial) fun now => ?_
  have hprep : ∀ j, Observed conn (S.boot conn) j → fresh j requested →
      Prepares j (preparedState requested (S.boot conn) now) :=
    fun j ho hf => ⟨rfl, ⟨rfl, rfl⟩, ⟨rfl, rfl, rfl⟩, ⟨requested, rfl, hf⟩, S.boot conn, rfl, ho.seen⟩
  refine proves_bind (A := fun _ => Committed conn requested (S.boot conn)) ?_ fun _ => ?_
  · refine proves_conseq (proves_writeReboot
      (Q := fun j => Committed conn requested (S.boot conn) j none) hP ?_ ?_ ?_ ?_) (fun _ _ _ h => h) ?_ fun _ _ _ h => h
    · exact fun j v h => hC.requested j none v h
    · exact fun j h => hC.marked j none h
    · exact fun j s h => .inr ⟨hprep j h.1 h.2.1, h.2.2⟩
    · intro j s cs h
      refine ⟨h.1.owns, ?_, ?_, ?_, h.2.1, by rintro r ⟨⟩⟩ <;> rw [record_status] <;> simp [Reboot.merge, preparedState]
    · rintro _ j s - ⟨h, rfl⟩
      exact ⟨h.owns, h.phase, h.request, h.previous, h.fresh, by rintro r ⟨⟩; rfl⟩
  refine proves_skip only_checkLease hC (fun _ _ _ => trivial) fun _ => ?_
  have hsent : ∀ j s a o, Committed conn requested (S.boot conn) j s →
      Sent requested (S.boot conn) o (.reboot conn.target a o :: j) :=
    fun j s a o h => ⟨h.phase, h.request, h.previous, a, rfl⟩
  refine proves_bind (A := fun r j _ => ∃ o, o.isError = !r.success ∧ Sent requested (S.boot conn) o j) ?_ fun r => ?_
  · refine proves_handle (E := fun j _ => Sent requested (S.boot conn) .raised j) (proves_executeReboot hC ?_ hsent)
      fun e => ?_
    · exact fun j s _ h => ⟨h.owns, h.phase, ⟨requested, h.request, h.fresh⟩, h.previous, h.staged⟩
    · refine proves_guard (fun _ _ _ => trivial) fun _ => ?_
      have hout : Outcome requested (S.boot conn) .raised
          ((preparedState requested (S.boot conn) now).update .unknown
            "Command outcome unknown; observe boot ID before retrying") :=
        outcome_update (.inl rfl)
      exact proves_bind (proves_stageOutcome hout) fun _ => proves_bind (proves_writeOutcome hout) fun _ =>
        proves_throw fun _ _ _ h => h
  · refine proves_exists fun o => proves_intro fun ho => ?_
    by_cases hr : r.success = true
    · simp only [hr, Bool.not_true, Bool.false_eq_true, if_false]
      have hout : Outcome requested (S.boot conn) o ((preparedState requested (S.boot conn) now).update .submitted
          "Reboot submitted; completion not yet observed") := outcome_update (.inl rfl)
      exact proves_bind (proves_stageOutcome hout) fun _ => proves_writeOutcome hout
    · simp only [Bool.not_eq_true] at hr
      simp only [hr, Bool.not_false, if_true]
      have hout : Outcome requested (S.boot conn) o ((preparedState requested (S.boot conn) now).update .failed
          s!"Reboot command rejected (exit {r.exitCode})") :=
        outcome_update (.inr ⟨rfl, by rw [ho, hr]; rfl⟩)
      exact proves_bind (proves_stageOutcome hout) fun _ => proves_writeOutcome hout

/-- A pending record is updated from what was observed. -/
theorem proves_writeUpdate {state : RebootState} (hP : Calm P)
    (h : ∀ j s, P j s → Updates j state ∧ s = none) :
    Proves S i P (writeReboot i.key i.uid state) (fun _ => Any) Any :=
  proves_conseq (proves_writeReboot (Q := fun _ => True) hP (fun _ _ h => h) (fun _ h => h)
    (fun j s hp => .inl ⟨(h j s hp).1, .inl (h j s hp).2⟩) fun _ _ _ _ => trivial)
    (fun _ _ _ h => h) (fun _ _ _ _ _ => trivial) fun _ _ _ h => h

/-- Ownership and allocation name one target. -/
theorem owns_allocated {j : Journal} {b : Binding} (h : Lawful S.trust i j) (ho : owned j)
    (hd : identityOf j = some b.identity) : owns j b.target := by
  obtain ⟨o, ho⟩ := Option.isSome_iff_exists.mp ho
  have hi := ownership_identity h o ho
  rw [hd, Option.some.injEq] at hi
  simp only [Binding.identity, Identity.mk.injEq] at hi
  exact ⟨o, ho, by simp only [Binding.target, hi.2.1, hi.2.2.1]⟩

/-- The previous record, written over itself, keeps what it says of the completion. -/
theorem unobserved_kept (previous : Reboot) :
    (previous.merge (unobservedState previous)).observedBootID = previous.observedBootID ∧
      ((previous.merge (unobservedState previous)).lastCompletedAt = none ∨
        (previous.merge (unobservedState previous)).lastCompletedAt = previous.lastCompletedAt) := by
  constructor
  · simp [Reboot.merge, unobservedState, Reboot.toState]
  · right
    cases h : previous.lastCompletedAt <;> simp [Reboot.merge, unobservedState, Reboot.toState, Field.apply, h]

theorem proves_advanceReboot {operation : HostLeaseRef} {conn : Conn} {requested : String} {previous : Reboot}
    (hprev : previous = status.reboot.getD .empty) (hreq : observeOnly = false → spec.requestedAt = some requested)
    (hnew : ¬ (previous.lastRequestedAt = some requested ∧
      (previous.phase = some .succeeded ∨ previous.phase = some .failed))) :
    Proves S i (fun j s => Follows spec status observeOnly j s ∧ Observed conn (S.boot conn) j)
      (advanceReboot operation conn i.key i.uid previous requested (S.boot conn) observeOnly)
      (fun _ => Any) Any := by
  have hP : Calm fun j s => Follows spec status observeOnly j s ∧ Observed conn (S.boot conn) j :=
    calm_and follows_calm (fun j v h => ⟨h.owns, h.seen, h.observed⟩) fun j h => ⟨h.owns, h.seen, h.observed⟩
  have hskip : ∀ j s, Follows spec status observeOnly j s ∧ Observed conn (S.boot conn) j → Any j s :=
    fun _ _ _ => trivial
  -- a request that is not on record may be served
  have hsubmit : observeOnly = false → (¬ previous.lastRequestedAt = some requested ∨ previous.phase = none) →
      Proves S i (fun j s => Follows spec status observeOnly j s ∧ Observed conn (S.boot conn) j)
        (submitReboot operation conn i.key i.uid requested (S.boot conn)) (fun _ => Any) Any := by
    intro hb hr
    refine proves_weaken proves_submitReboot fun j s hl h => ⟨h.2, ?_, h.1.staged⟩
    refine h.1.fresh hb requested (hreq hb) ?_
    have hrec : record j = previous := h.1.record.trans hprev.symm
    rcases hr with hr | hr
    · rw [hrec]; exact hr
    · rw [record_idle hl (by rw [hrec]; exact hr)]
      nofun
  unfold advanceReboot
  dsimp only
  split
  · rename_i hpend
    split
    · rename_i hboot
      refine proves_skip (only_quiet (by rfl)) hP hskip fun now => proves_writeUpdate hP fun j s h => ⟨?_, h.1.staged⟩
      have hrec : record j = previous := h.1.record.trans hprev.symm
      have hne : previous.previousBootID ≠ some (S.boot conn) := fun he => hboot he.symm
      refine ⟨by rw [hrec]; rfl, by rw [hrec]; rfl, .inr (.inl ⟨rfl, .inr ⟨_, h.2.seen, ?_⟩, _, _, h.2.observed, ?_⟩),
        nofun, fun hs => absurd rfl hs, fun _ => ⟨rfl, S.boot conn, now, rfl, rfl, hne⟩⟩
      · rw [hrec]; exact hne
      · rw [hrec]; exact hne
    · split
      · refine proves_skip (only_quiet (by rfl)) hP hskip fun now => ?_
        split
        · exact proves_throw fun _ _ _ _ => trivial
        · split
          · refine proves_writeUpdate hP fun j s h => ⟨?_, h.1.staged⟩
            have hrec : record j = previous := h.1.record.trans hprev.symm
            exact ⟨by rw [hrec]; rfl, by rw [hrec]; rfl, .inl ⟨by rw [hrec]; exact hpend, rfl⟩, nofun,
              fun _ => ⟨rfl, by rw [hrec]; exact unobserved_kept previous⟩, nofun⟩
          · exact proves_throw fun _ _ _ _ => trivial
      · rename_i hsame
        split
        · exact proves_throw fun _ _ _ _ => trivial
        · split
          · exact proves_pure fun _ _ _ _ => trivial
          · rename_i hb
            exact hsubmit (by simpa using hb) (.inl hsame)
  · rename_i hpend
    split
    · exact proves_pure fun _ _ _ _ => trivial
    · rename_i hb
      refine hsubmit (by simpa using hb) ?_
      by_cases hr : previous.lastRequestedAt = some requested
      · refine .inr ?_
        cases hph : previous.phase with
        | none => rfl
        | some ph => cases ph <;> simp [Reboot.pending, RebootPhase.pending, hph, hr] at hpend hnew
      · exact .inl hr

theorem proves_reconcileReboot (hk : metadata.key = i.key) (hu : metadata.uid = i.uid) :
    Proves S i (Follows spec status observeOnly) (reconcileReboot spec status metadata observeOnly)
      (fun _ => Any) Any := by
  have hskip : ∀ j s, Follows spec status observeOnly j s → Any j s := fun _ _ _ => trivial
  unfold reconcileReboot
  simp only [hk, hu]
  split
  · exact proves_pure fun _ _ _ _ => trivial
  · rename_i requested hreq
    refine proves_skip only_isPaused follows_calm hskip fun paused => ?_
    split
    · exact proves_pure fun _ _ _ _ => trivial
    · split
      · exact proves_pure fun _ _ _ _ => trivial
      · refine proves_guard hskip fun hown => ?_
        simp only [not_or, ne_eq, Decidable.not_not] at hown
        obtain ⟨o, ho, -⟩ := Option.map_eq_some_iff.mp hown.1
        have hbind : Proves S i (fun j s => Follows spec status observeOnly j s ∧ SameTarget status j)
            (bindMachine spec status i.key i.uid) (fun b j s => Follows spec status observeOnly j s ∧
              identityOf j = some b.identity) (Follows spec status observeOnly) :=
          proves_bindMachine follows_bind
        refine proves_bind (proves_conseq hbind ?_ (fun _ _ _ _ h => h) fun _ _ _ _ => trivial) fun binding => ?_
        · intro j s _ h
          obtain ⟨-, hd, b, hb, hi⟩ := h.target o ho
          exact ⟨h, by rw [SameTarget, hb, hd, ← hi]; rfl⟩
        split
        · exact proves_pure fun _ _ _ _ => trivial
        · rename_i hnew
          have hP : Calm fun j s => Follows spec status observeOnly j s ∧ owns j binding.target :=
            calm_and follows_calm (fun _ _ h => h) fun _ h => h
          refine proves_bind (A := Left (fun _ : Unit => Any) Any) (proves_weaken (proves_withHost hP
            (fun _ => calm_any) calm_any (fun _ _ _ => trivial) fun operation conn ht => ?_) ?_) fun exit => ?_
          · refine proves_skip only_checkCurrent hP (fun _ _ _ => trivial) fun _ => ?_
            refine proves_skip only_checkLease hP (fun _ _ _ => trivial) fun _ => ?_
            refine proves_bind (proves_observeBoot (A := fun j s => Follows spec status observeOnly j s ∧
              Observed conn (S.boot conn) j) hP (fun j s _ h => by rw [ht]; exact h.2) ?_) fun bootID => ?_
            · intro j s h
              refine ⟨follows_step h.1 (fun _ h => h) rfl (.inr ⟨rfl, rfl⟩), ?_, rfl, List.mem_cons_self⟩
              rw [ht]
              exact h.2
            · refine proves_intro fun hb => ?_
              subst hb
              refine proves_advanceReboot rfl ?_ hnew
              rintro rfl
              exact filled_some hreq
          · intro j s hl h
            exact ⟨h.1, owns_allocated hl (h.1.target o ho).1 h.2⟩
          · exact proves_value (fun _ _ h => h) fun _ _ _ h => h

end CapiSsh
