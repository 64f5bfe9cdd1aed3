import CapiSsh.HandlerReplay
import CapiSsh.Serial
import CapiSsh.Sessions

/-!
# What the provider guarantees about its records

Bootstrap, reboot and cleanup persist what they are about to do before they do it, and go
no further once a read or a write of their Machine has failed. What has reached a host can
therefore be told from the stored status, whatever crashed in between.
-/
namespace CapiSsh

open Effect Interference

/-- A failed read or write of the Machine. -/
def Exchange.refused (e : Exchange) : Bool :=
  match e with
  | ⟨.readMachine _, .error _, _, _⟩ | ⟨.patchMachine .., .error _, _, _⟩
  | ⟨.patchMachineStatus .., .error _, _, _⟩ => true
  | _ => false

/-- The host showed this boot ID. -/
def Exchange.shows (e : Exchange) (t : Target) (bootID : String) : Prop :=
  match e with
  | ⟨.run conn (.owned o), .ok r, _, _⟩ =>
    conn.target = t ∧ o.script = .bootID ∧ r.exitStatus = some 0 ∧ strip r.stdout.line = bootID
  | _ => False

/-- Bootstrap ownership of this Machine and target. -/
def OwnedBy (i : MachineRef) (t : Target) (st : MachineStatus) : Prop :=
  ∃ o, st.bootstrapOwnership = some o ∧ o.machineUID = i.uid ∧ o.target = t

/-- The intent to serve this request, from this boot. -/
def Intends (requested bootID : String) (st : MachineStatus) : Prop :=
  ∃ r, st.reboot = some r ∧ r.phase = some .prepared ∧ r.lastRequestedAt = some requested ∧
    r.previousBootID = some bootID

def CleanupRuns (st : MachineStatus) : Prop := st.ready = some false ∧ st.cleanup = some .running

/-- What is stored when a call is made covers what the call does to a host. -/
structure Recorded (i : MachineRef) (e : Exchange) : Prop where
  owned : ∀ t, e.op.takes = some t → OwnedBy i t (statusOf (journal i e.before))
  rebooted : ∀ t, e.op.reboots = some t → ∃ r b, Intends r b (statusOf (journal i e.before))
  reset : ∀ t, e.op.resets = some t → CleanupRuns (statusOf (journal i e.before))

def Op.leavesMark (op : Op) : Prop := op.takes.isSome ∨ op.reboots.isSome ∨ op.resets.isSome

/-- The record names the request that the attempt serves and a boot that it has seen itself,
and nothing that the attempt asked of its Machine was refused. -/
structure Ahead (i : MachineRef) (_ : Attempt) (e : Exchange) (earlier : List Exchange) : Prop where
  recorded : Recorded i e
  named : ∀ t, e.op.reboots = some t → ∃ m r b, live i earlier = some m ∧ m.spec.requestedAt = some r ∧
    (∃ x ∈ earlier, x.shows t b) ∧ Intends r b (statusOf (journal i e.before))
  acknowledged : e.op.leavesMark → ∀ x ∈ earlier, x.refused = false

variable {S : Setting} {i : MachineRef} {m : Machine} {P : Powers} {op : Op} {F F' : MachineStatus → Prop}
  {xs : List Exchange}

/-- Powers that leave no mark on a host. -/
structure Powers.Markless (P : Powers) : Prop where
  bootstrap : ¬ P.bootstrap
  reboot : ¬ P.reboot
  reset : ¬ P.reset

theorem unmarked_ahead {a : Attempt} {e : Exchange} {earlier : List Exchange} (ht : e.op.takes = none)
    (hr : e.op.reboots = none) (hs : e.op.resets = none) : Ahead i a e earlier := by
  refine ⟨⟨?_, ?_, ?_⟩, ?_, ?_⟩
  · rw [ht]; rintro t ⟨⟩
  · rw [hr]; rintro t ⟨⟩
  · rw [hs]; rintro t ⟨⟩
  · rw [hr]; rintro t ⟨⟩
  · rw [Op.leavesMark, ht, hr, hs]
    rintro (h | h | h) <;> cases h

/-- Powers that leave no mark need no record. -/
theorem markless_ahead {a : Attempt} {e : Exchange} {earlier : List Exchange} (hP : P.Markless) (h : P.allows i e.op) :
    Ahead i a e earlier :=
  unmarked_ahead (Option.eq_none_iff_forall_ne_some.mpr fun _ ht => hP.bootstrap (takes_power h ht))
    (Option.eq_none_iff_forall_ne_some.mpr fun _ hr => hP.reboot (reboots_power h hr))
    (Option.eq_none_iff_forall_ne_some.mpr fun _ hs => hP.reset (resets_power h hs))

/-- All but leaving a mark. -/
def closing : Powers :=
  ⟨True, True, True, True, True, True, True, True, True, True, False, False, False, False, fun _ => True⟩

/-- The same without looking at the Machine. -/
def aside : Powers := { closing with look := False }

theorem closing_markless : closing.Markless := ⟨id, id, id⟩

theorem aside_markless : aside.Markless := ⟨id, id, id⟩

theorem keeps_closing : Keeps S (Serial S) i (Ahead i) (closing.allows i) fun _ => True :=
  fun _ hop _ _ _ _ _ _ _ _ _ => ⟨markless_ahead closing_markless hop, trivial⟩

theorem keeps_anything : Keeps S (Serial S) i (Ahead i) (aside.allows i) fun _ => True :=
  fun _ hop _ _ _ _ _ _ _ _ _ => ⟨markless_ahead aside_markless hop, trivial⟩

theorem walks_closing {p : Act α} {K : Local → Prop} (h : p.Only (closing.allows i)) :
    Walks S (Serial S) i (Ahead i) K p (fun _ _ => True) fun _ _ => True :=
  walks_weaken (walks_kept keeps_closing h) fun _ _ => trivial

/-- An attempt on `m` that nothing was refused, with what is stored and some calls it made. -/
structure Ready (i : MachineRef) (m : Machine) (F : MachineStatus → Prop) (xs : List Exchange) (l : Local) : Prop where
  live : live i l.calls = some m
  accepted : ∀ x ∈ l.calls, x.refused = false
  stored : F (l.stored i)
  made : ∀ x ∈ xs, x ∈ l.calls

theorem ready_push {l : Local} {e : Exchange} (h : Ready i m F xs l) (he : e.refused = false)
    (hF : F' ((l.push i e).stored i)) : Ready i m F' xs (l.push i e) := by
  refine ⟨live_cons e h.live, fun x hx => ?_, hF, fun x hx => List.mem_cons_of_mem _ (h.made x hx)⟩
  rcases List.mem_cons.mp hx with rfl | hx
  · exact he
  · exact h.accepted x hx

theorem aside_calls (h : aside.allows i op) :
    op.writesStatus = false ∧ ∀ r w w', Exchange.refused ⟨op, r, w, w'⟩ = false := by
  cases op with
  | readMachine key => exact h.2.elim
  | patchMachine key pre p => exact h.2.2.1.elim
  | patchMachineStatus key pre p => exact h.2.2.1.elim
  | applyStaged key => exact h.2.elim
  | _ => exact ⟨rfl, fun _ _ _ => rfl⟩

/-- A call beside the status leaves what is stored as it is. -/
theorem keeps_aside : Keeps S (Serial S) i (Ahead i) (aside.allows i) (Ready i m F xs) := by
  intro op hop l c w r w' hl _ ha hk
  obtain ⟨hst, hr⟩ := aside_calls hop
  refine ⟨markless_ahead aside_markless hop, ready_push hl (hr r w w') ?_⟩
  rw [stored_same hk ha hst]
  exact hl.stored

theorem walks_aside {p : Act α} {f : α → Act β} {B : β → Local → Prop} (hp : p.Only (aside.allows i))
    (hf : ∀ a, Walks S (Serial S) i (Ahead i) (Ready i m F xs) (f a) B fun _ _ => True) :
    Walks S (Serial S) i (Ahead i) (Ready i m F xs) (p >>= f) B fun _ _ => True :=
  walks_skip keeps_aside hp (fun _ _ _ => trivial) hf

/-- The read of the Machine yields what is stored. -/
theorem walks_look : Walks S (Serial S) i (Ahead i) (Ready i m F xs) (call (.readMachine i.key))
    (fun _ => Ready i m F xs) fun _ _ => True := by
  refine walks_call fun l c w r w' hl _ ha hk => ⟨unmarked_ahead rfl rfl rfl, ?_⟩
  cases r with
  | error e => trivial
  | ok current => exact ready_push hl rfl (by rw [stored_same hk ha rfl]; exact hl.stored)

/-- A write that was not refused is stored. -/
theorem walks_persist {changes : StatusPatch}
    (hF : ∀ st cs, F st → F' (StatusPatch.apply { changes with conditions := cs } st)) :
    Walks S (Serial S) i (Ahead i) (Ready i m F xs) (persistMachineStatus i.key i.uid changes)
      (fun _ => Ready i m F' xs) fun _ _ => True := by
  refine walks_bind walks_look fun current => walks_guard (fun _ _ => trivial) fun _ =>
    walks_aside (may_call trivial) fun now => walks_handle (E := fun _ _ => True) ?_ fun e => ?_
  · refine walks_call fun l c w r w' hl _ ha hk => ⟨unmarked_ahead rfl rfl rfl, ?_⟩
    rcases stored_persist hk ha with ⟨-, e, rfl⟩ | hst
    · trivial
    · cases r with
      | error e => trivial
      | ok stored => exact ready_push hl rfl (by rw [hst]; exact hF _ _ hl.stored)
  · split <;> exact walks_throw fun _ _ => trivial

/-- The target of the binding is the one that is allocated. -/
def Allotted (t : Target) (st : MachineStatus) : Prop := ∃ b, st.allocation = some b ∧ b.target = t

theorem allotted_merge {b : Binding} {cs : Option (List Condition)} (st : MachineStatus) :
    Allotted b.target (StatusPatch.apply { StatusPatch.empty with allocation := some b, conditions := cs } st) := by
  refine ⟨_, rfl, ?_⟩
  cases st.allocation <;> rfl

/-- The allocation that is committed is the one that is used. -/
theorem walks_commitBinding {b : Binding} (hnew : ∀ cs st,
      F' (StatusPatch.apply { StatusPatch.empty with allocation := some b, conditions := cs } st)) :
    Walks S (Serial S) i (Ahead i) (Ready i m F xs) (commitBinding b i.key i.uid) (fun _ => Ready i m F' xs)
      fun _ _ => True := by
  refine walks_bind walks_look fun current => walks_guard (fun _ _ => trivial) fun _ => ?_
  refine walks_bind (A := fun _ => Ready i m F xs) ?_ fun _ => walks_bind (walks_persist fun st cs _ => hnew cs st)
    fun _ => walks_pure fun _ hl => hl
  refine walks_call fun l c w r w' hl _ ha hk => ⟨unmarked_ahead rfl rfl rfl, ?_⟩
  cases r with
  | error e => trivial
  | ok stored => exact ready_push hl rfl (by rw [stored_same hk ha rfl]; exact hl.stored)

/-- What is stored of a target once it is bound. -/
theorem walks_bindMachine {B : Target → MachineStatus → Prop} {spec : MachineSpec} {status : MachineStatus}
    (hnew : ∀ (b : Binding) cs st,
      B b.target (StatusPatch.apply { StatusPatch.empty with allocation := some b, conditions := cs } st))
    (hold : ∀ b st, F st → status.allocation = some b → B b.target st) :
    Walks S (Serial S) i (Ahead i) (Ready i m F xs) (bindMachine spec status i.key i.uid)
      (fun b => Ready i m (B b.target) xs) fun _ _ => True := by
  have hderive : Walks S (Serial S) i (Ahead i) (Ready i m F xs) (deriveBinding spec status i.key i.uid)
      (fun _ => Ready i m F xs) fun _ => Ready i m F xs := walks_kept keeps_aside (may_deriveBinding trivial)
  refine walks_bind (walks_conseq hderive (fun _ hl => hl) (fun _ _ hl => hl) fun _ _ _ => trivial) fun binding => ?_
  refine walks_bind (A := fun _ => Ready i m (B binding.target) xs) ?_ fun _ => ?_
  · refine walks_onlyIf (fun _ => walks_commitBinding (hnew binding)) fun hsame l hl => ?_
    have ha : status.allocation = some binding := by simpa using hsame
    exact ⟨hl.live, hl.accepted, hold _ _ hl.stored ha, hl.made⟩
  · refine walks_aside (may_call fun _ _ => ⟨.inl rfl, .inl trivial, .inr rfl, .inr rfl, .inr ⟨rfl, rfl⟩, .inr rfl⟩)
      fun _ => walks_aside (may_setHostPhase trivial) fun _ => walks_pure fun _ hl => hl

theorem walks_stillWanted {message : String} :
    Walks S (Serial S) i (Ahead i) (Ready i m F xs) (stillWanted i.key i.uid message) (fun _ => Ready i m F xs)
      fun _ _ => True := by
  have hread : Walks S (Serial S) i (Ahead i) (Ready i m F xs) (readCurrentSshmachine i.key)
      (fun r l => r.isSome = true → Ready i m F xs l) fun _ _ => True := by
    refine walks_handle (walks_bind walks_look fun _ => walks_pure fun _ hl _ => hl) fun e => ?_
    split
    · exact walks_pure fun _ _ => by rintro ⟨⟩
    · exact walks_throw fun _ _ => trivial
  refine walks_bind hread fun r => ?_
  cases r with
  | none => exact walks_throw fun _ _ => trivial
  | some latest =>
    refine walks_guard (fun _ _ => trivial) fun _ => walks_weaken (K := Ready i m F xs) ?_ fun l hl => hl rfl
    exact walks_aside may_isPaused fun _ => walks_pure fun _ hl => hl

/-- Ownership of the target is stored. -/
def Taken (t : Target) (st : MachineStatus) : Prop := Allotted t st ∧ st.bootstrapOwnership.isSome = true

/-- Whoever has taken a target owns it as this Machine. -/
theorem taken_owned {j : Journal} {t : Target} (h : Lawful S.trust i j) (ht : Taken t (statusOf j)) :
    OwnedBy i t (statusOf j) := by
  obtain ⟨⟨b, hb, hbt⟩, ho⟩ := ht
  obtain ⟨o, ho⟩ := Option.isSome_iff_exists.mp ho
  have hid := ownership_identity h o ho
  rw [identityOf, hb, Option.map_some, Option.some.injEq, Binding.identity, Binding.identity, Identity.mk.injEq] at hid
  obtain ⟨hu, ha, hp, -, -⟩ := hid
  refine ⟨o, ho, hu.symm.trans (allocation_formed h b hb).1, ?_⟩
  rw [← hbt, Binding.target, Binding.target, ha, hp]

/-- A call that takes the target, once ownership of it is stored. -/
theorem walks_take {t : Target} (h : op.takes = some t) (hb : op.reboots = none) (hs : op.resets = none)
    (hw : op.writesStatus = false) (hr : ∀ r w w', Exchange.refused ⟨op, r, w, w'⟩ = false) :
    Walks S (Serial S) i (Ahead i) (Ready i m (Taken t) xs) (call op) (fun _ => Ready i m (Taken t) xs)
      fun _ _ => True := by
  refine walks_call fun l c w r w' hl _ ha hk => ⟨⟨⟨fun t' ht => ?_, ?_, ?_⟩, ?_, fun _ => hl.accepted⟩, ?_⟩
  · obtain rfl := Option.some.inj (h.symm.trans ht)
    refine taken_owned (hk.consistent.lawful i) ?_
    rw [serial_stored hk]
    exact hl.stored
  · rw [hb]; rintro t ⟨⟩
  · rw [hs]; rintro t ⟨⟩
  · rw [hb]; rintro t ⟨⟩
  · cases r with
    | error e => trivial
    | ok a => exact ready_push hl (hr _ _ _) (by rw [stored_same hk ha hw]; exact hl.stored)

/-- Ownership is stored before the payload goes out. -/
theorem walks_ensureBootstrapOwnership {conn : Conn} {binding : Binding} {status : MachineStatus} :
    Walks S (Serial S) i (Ahead i) (Ready i m (Allotted conn.target) xs)
      (ensureBootstrapOwnership conn binding i.key i.uid status) (fun _ => Ready i m (Taken conn.target) xs)
      fun _ _ => True := by
  refine walks_aside (may_call trivial) fun now => walks_guard (fun _ _ => trivial) fun _ => ?_
  refine walks_bind (A := fun _ => Ready i m (Taken conn.target) xs) (walks_persist ?_) fun _ => ?_
  · rintro st cs ⟨b, hb, ht⟩
    refine ⟨⟨b, hb, ht⟩, ?_⟩
    cases hst : st.bootstrapOwnership <;> simp [StatusPatch.apply, mergeKey, hst]
  · refine walks_aside (may_call fun _ _ => ⟨.inl rfl, .inr rfl, .inl trivial, .inr rfl, .inr ⟨rfl, rfl⟩, .inr rfl⟩)
      fun _ => walks_bind (A := fun _ => Ready i m (Taken conn.target) xs) ?_ fun claim => ?_
    · exact walks_bind (walks_take rfl rfl rfl rfl fun _ _ _ => rfl) fun _ => walks_pure fun _ hl => hl
    · refine walks_onlyIf (fun _ => ?_) fun _ _ hl => hl
      refine walks_bind (A := fun _ _ => True) (walks_closing (may_onlyIf fun _ =>
        Prog.only_bind (may_setHostPhase trivial) fun _ => trivial)) fun _ => walks_throw fun _ _ => trivial

/-- So the job is started behind its record. -/
theorem walks_bootstrapUnderLease {operation : HostLeaseRef} {conn : Conn} {binding : Binding} {spec : MachineSpec}
    {status : MachineStatus} {metadata : ObjectMeta} {script strategy : String} (hk : metadata.key = i.key)
    (hu : metadata.uid = i.uid) :
    Walks S (Serial S) i (Ahead i) (Ready i m (Allotted conn.target) xs)
      (bootstrapUnderLease S.tools operation conn spec status metadata binding script strategy S.timeout)
      (fun _ _ => True) fun _ _ => True := by
  unfold bootstrapUnderLease
  simp only [hk, hu]
  refine walks_bind walks_stillWanted fun _ => walks_ite (fun _ => ?_) fun _ => walks_pure fun _ _ => trivial
  refine walks_aside may_checkLease fun _ => walks_bind walks_ensureBootstrapOwnership fun _ => ?_
  refine walks_aside may_stagedScript fun _ => walks_aside (may_call trivial) fun suffix => ?_
  refine walks_aside may_checkLease fun _ => walks_bind (walks_take rfl rfl rfl rfl fun _ _ _ => rfl) fun _ => ?_
  refine walks_aside may_checkLease fun _ => walks_bind walks_stillWanted fun _ => ?_
  refine walks_ite (fun _ => ?_) fun _ => walks_pure fun _ _ => trivial
  refine walks_bind (A := fun _ _ => True) ?_ fun result => walks_closing ?_
  · -- the launch itself, and then only observation
    refine walks_bind (A := fun _ _ => True) (walks_bind (walks_conseq (walks_take rfl rfl rfl rfl fun _ _ _ => rfl)
      (fun _ hl => hl) (fun _ _ _ => trivial) fun _ _ h => h) fun _ => walks_pure fun _ _ => trivial) fun submitted => ?_
    exact walks_closing (may_ite (fun _ => Prog.only_bind (may_call trivial) fun _ => may_observeReceipt _) fun _ => trivial)
  · refine Prog.only_bind (may_onlyIf fun _ => Prog.only_bind (may_setHostPhase trivial) fun _ =>
      Prog.only_bind (may_reportNotReady trivial trivial) fun _ => trivial) fun _ => ?_
    exact Prog.only_bind (may_onlyIf fun _ => Prog.only_bind (may_execute trivial) fun _ => may_onlyIf fun _ =>
      Prog.only_bind (may_stageReady trivial trivial) fun _ => Prog.only_bind (may_reportLifecycle trivial) fun _ =>
        trivial) fun _ => trivial

theorem walks_bootstrapMachine {spec : MachineSpec} {status : MachineStatus} {metadata : ObjectMeta}
    {owner : OwnerReference} {binding : Binding} {strategy : String} (hk : metadata.key = i.key)
    (hu : metadata.uid = i.uid) :
    Walks S (Serial S) i (Ahead i) (Ready i m (Allotted binding.target) xs)
      (bootstrapMachine S.tools spec status metadata owner binding strategy S.timeout) (fun _ _ => True)
      fun _ _ => True := by
  unfold bootstrapMachine
  dsimp only
  refine walks_aside may_readBootstrapData fun data => ?_
  split
  · exact walks_closing (Prog.only_bind (may_reportNotReady trivial trivial) fun _ => trivial)
  · split
    · exact walks_closing (Prog.only_bind (may_reportNotReady trivial trivial) fun _ => trivial)
    · exact walks_throw fun _ _ => trivial
    · split
      · exact walks_closing (Prog.only_bind (may_reportNotReady trivial trivial) fun _ => trivial)
      · refine walks_aside (Prog.only_handle (Prog.only_bind may_readSshKey fun _ =>
          Prog.only_bind may_readKnownHosts fun _ => trivial) fun _ => Prog.only_bind may_raiseIf fun _ =>
            Prog.only_bind (may_reportNotReady trivial trivial) fun _ => trivial) fun keys => ?_
        refine walks_ite (fun _ => walks_closing (may_dryRun trivial trivial trivial)) fun _ => ?_
        refine walks_bind (A := fun _ _ => True) (walks_handle (E := fun _ _ => True) ?_ fun e =>
          walks_closing (may_bootstrapError trivial trivial)) fun _ =>
            walks_closing (may_ite (fun _ => may_reportProvisioned trivial trivial) fun _ => trivial)
        refine walks_bind (walks_withTarget (P := aside) (F := fun _ => True) (A := fun _ _ => True)
          (E := fun _ => True) trivial (fun _ => keeps_anything) keeps_anything (fun _ _ _ => trivial)
          (fun _ _ => trivial) keeps_aside (fun _ _ => trivial) fun lease conn ht => ?_) fun exit =>
            walks_closing may_value
        rw [← ht]
        exact walks_bootstrapUnderLease hk hu

/-- A Machine that is bootstrapped was not provisioned when it was read. -/
theorem walks_reconcileImpl (hk : m.metadata.key = i.key) (hu : m.metadata.uid = i.uid) :
    Walks S (Serial S) i (Ahead i) (Ready i m (fun st => st = m.status) [])
      (sshmachineReconcileImpl S.tools m.spec m.status m.metadata S.timeout)
      (fun _ l => m.status.provisioned = some true → Ready i m (fun _ => True) [] l) fun _ _ => True := by
  have hskip : ∀ (F : MachineStatus → Prop) l, Ready i m F [] l → m.status.provisioned = some true →
      Ready i m (fun _ => True) [] l := fun _ l hl _ => ⟨hl.live, hl.accepted, trivial, hl.made⟩
  refine walks_aside (may_reportPause trivial may_isPaused) fun _ => walks_ite (fun _ => walks_pure (hskip _)) fun _ => ?_
  split
  · exact walks_conseq (walks_kept keeps_aside (may_reportNotReady trivial trivial)) (fun _ hl => hl)
      (fun _ => hskip _) fun _ _ _ => trivial
  · split
    · exact walks_aside (may_reportNotReady trivial trivial) fun _ => walks_throw fun _ _ => trivial
    · rw [hk, hu]
      refine walks_bind (walks_bindMachine (B := Allotted) (fun b cs st => allotted_merge st) ?_) fun binding =>
        walks_ite (fun _ => ?_) fun hn => ?_
      · rintro b st rfl hb
        exact ⟨b, hb, rfl⟩
      · exact walks_conseq (walks_kept keeps_aside (may_backfillProvisionedFields trivial)) (fun _ hl => hl)
          (fun _ => hskip _) fun _ _ _ => trivial
      · refine walks_conseq (walks_bootstrapMachine hk hu) (fun _ hl => hl) (fun _ _ _ hp => ?_) fun _ _ _ => trivial
        rw [isAlreadyProvisioned, hp] at hn
        exact absurd rfl hn

/-- The record that is written first names the request and the boot. -/
theorem intends_prepared {requested bootID : String} {now : Time} {cs : Option (List Condition)} (st : MachineStatus) :
    Intends requested bootID (StatusPatch.apply
      { StatusPatch.empty with reboot := some (preparedState requested bootID now), conditions := cs } st) := by
  refine ⟨_, rfl, ?_⟩
  cases st.reboot <;> exact ⟨rfl, rfl, rfl⟩

theorem walks_checkCurrent :
    Walks S (Serial S) i (Ahead i) (Ready i m F xs) (checkCurrent i.key i.uid) (fun _ => Ready i m F xs)
      fun _ _ => True :=
  walks_bind walks_look fun _ => walks_guard (fun _ _ => trivial) fun _ => walks_aside may_isPaused fun _ =>
    walks_guard (fun _ _ => trivial) fun _ => walks_pure fun _ hl => hl

/-- The boot ID of the host, and the call that has shown it. -/
theorem walks_observeBoot {conn : Conn} {uid : Uid} :
    Walks S (Serial S) i (Ahead i) (Ready i m F []) (observeBoot conn uid)
      (fun b l => ∃ x, x.shows conn.target b ∧ Ready i m F [x] l) fun _ _ => True := by
  let command : Command := .owned (ownedCommand uid .bootID false false false)
  refine walks_bind (A := fun r l => r.exitStatus = some 0 →
    ∃ x, x.shows conn.target (strip r.stdout.line) ∧ Ready i m F [x] l) ?_ fun observed => ?_
  · refine walks_bind (A := fun (r : Completed) l => r.exitStatus = some 0 →
      ∃ x, x.shows conn.target (strip r.stdout.line) ∧ Ready i m F [x] l) ?_ fun r => walks_pure fun l hl hexit => ?_
    · refine walks_call fun l c w r w' hl _ ha hk => ⟨unmarked_ahead rfl rfl rfl, ?_⟩
      cases r with
      | error e => trivial
      | ok r =>
        refine fun hexit => ⟨⟨.run conn command, .ok r, w, w'⟩, ⟨rfl, rfl, hexit, rfl⟩, ?_⟩
        have hpush : Ready i m F [] (l.push i ⟨.run conn command, .ok r, w, w'⟩) :=
          ready_push hl rfl (by rw [stored_same hk ha rfl]; exact hl.stored)
        refine ⟨hpush.live, hpush.accepted, hpush.stored, fun x hx => ?_⟩
        rw [List.mem_singleton.mp hx]
        exact List.mem_cons_self
    · cases he : r.exitStatus with
      | none => simp [he] at hexit
      | some code => exact hl (by simpa [he] using hexit)
  · refine walks_guard (fun _ _ => trivial) fun hok => walks_pure fun l hl => hl ?_
    rw [not_or] at hok
    cases he : observed.exitStatus with
    | none => simp [Completed.success, Completed.exitCode, he] at hok
    | some code => simpa [Completed.success, Completed.exitCode, he] using hok.1

/-- A reboot is sent with its record stored and the boot seen. -/
theorem walks_submitReboot {operation : HostLeaseRef} {conn : Conn} {requested bootID : String} {x : Exchange}
    (hreq : m.spec.requestedAt = some requested) (hx : x.shows conn.target bootID) :
    Walks S (Serial S) i (Ahead i) (Ready i m F [x]) (submitReboot operation conn i.key i.uid requested bootID)
      (fun _ _ => True) fun _ _ => True := by
  refine walks_aside (may_call trivial) fun now => ?_
  refine walks_bind (A := fun _ => Ready i m (Intends requested bootID) [x]) ?_ fun _ => ?_
  · exact walks_bind (walks_persist fun st cs _ => intends_prepared st) fun _ => walks_conseq
      (walks_kept keeps_aside (may_stageReboot trivial)) (fun _ hl => hl) (fun _ _ hl => hl) fun _ _ _ => trivial
  · refine walks_aside may_checkLease fun _ => walks_bind (A := fun _ _ => True) ?_ fun result =>
      walks_closing (Prog.only_bind (may_stageReboot trivial) fun _ => may_writeReboot trivial trivial)
    refine walks_handle (E := fun _ _ => True) (walks_bind (A := fun _ _ => True) ?_ fun _ => walks_pure fun _ _ => trivial)
      fun e => walks_closing (Prog.only_bind may_raiseIf fun _ => Prog.only_bind (may_stageReboot trivial) fun _ =>
        Prog.only_bind (may_writeReboot trivial trivial) fun _ => trivial)
    refine walks_call fun l c w r w' hl _ ha hk => ⟨?_, by cases r <;> trivial⟩
    have hintends : Intends requested bootID (statusOf (journal i w)) := by
      rw [serial_stored hk]
      exact hl.stored
    refine ⟨⟨by rintro t ⟨⟩, fun _ _ => ⟨_, _, hintends⟩, by rintro t ⟨⟩⟩, ?_, fun _ => hl.accepted⟩
    rintro t ⟨⟩
    exact ⟨m, requested, bootID, hl.live, hreq, ⟨x, hl.made x List.mem_cons_self, hx⟩, hintends⟩

theorem walks_advanceReboot {operation : HostLeaseRef} {conn : Conn} {previous : Reboot} {requested bootID : String}
    {x : Exchange} (hreq : m.spec.requestedAt = some requested) (hx : x.shows conn.target bootID) :
    Walks S (Serial S) i (Ahead i) (Ready i m F [x])
      (advanceReboot operation conn i.key i.uid previous requested bootID false) (fun _ _ => True) fun _ _ => True := by
  have hsubmit : Walks S (Serial S) i (Ahead i) (Ready i m F [x])
      (submitReboot operation conn i.key i.uid requested bootID) (fun _ _ => True) fun _ _ => True :=
    walks_submitReboot hreq hx
  refine walks_ite (fun _ => walks_ite (fun _ => ?_) fun _ => walks_ite (fun _ => ?_) fun _ =>
    walks_ite (fun _ => walks_throw fun _ _ => trivial) fun _ => walks_ite (fun _ => walks_pure fun _ _ => trivial)
      fun _ => hsubmit) fun _ => walks_ite (fun _ => walks_pure fun _ _ => trivial) fun _ => hsubmit
  · exact walks_closing (Prog.only_bind (may_call trivial) fun _ => may_writeReboot trivial trivial)
  · refine walks_closing (Prog.only_bind (may_call trivial) fun _ => ?_)
    split
    · trivial
    · exact may_ite (fun _ => may_writeReboot trivial trivial) fun _ => trivial

/-- Only a provisioned Machine is rebooted. -/
theorem walks_reconcileReboot (hk : m.metadata.key = i.key) (hu : m.metadata.uid = i.uid) :
    Walks S (Serial S) i (Ahead i) (fun l => m.status.provisioned = some true → Ready i m (fun _ => True) [] l)
      (reconcileReboot m.spec m.status m.metadata false) (fun _ _ => True) fun _ _ => True := by
  unfold reconcileReboot
  simp only [hk, hu]
  split
  · exact walks_pure fun _ _ => trivial
  · rename_i requested hreq
    have hreq : m.spec.requestedAt = some requested := filled_some (by simpa using hreq)
    by_cases hp : m.status.provisioned = some true
    · refine walks_weaken (K := Ready i m (fun _ => True) []) ?_ fun l hl => hl hp
      refine walks_aside may_isPaused fun _ => walks_ite (fun _ => walks_pure fun _ _ => trivial) fun _ => ?_
      refine walks_ite (fun _ => walks_pure fun _ _ => trivial) fun _ => walks_guard (fun _ _ => trivial) fun _ => ?_
      refine walks_bind (walks_bindMachine (B := fun _ _ => True) (fun _ _ _ => trivial) fun _ _ _ _ => trivial)
        fun binding => walks_ite (fun _ => walks_pure fun _ _ => trivial) fun _ => ?_
      refine walks_bind (walks_withHost (P := aside) (F := fun _ => True) (A := fun _ _ => True) (E := fun _ => True)
        trivial (fun _ => keeps_anything) keeps_anything (fun _ _ _ => trivial) (fun _ _ => trivial) keeps_aside
        (fun _ _ => trivial) fun lease conn _ => ?_) fun exit => walks_closing may_value
      refine walks_bind walks_checkCurrent fun _ => walks_aside may_checkLease fun _ =>
        walks_bind walks_observeBoot fun bootID => walks_exists fun x => ?_
      exact walks_intro fun hx => walks_advanceReboot hreq hx
    · -- what is not provisioned is not rebooted
      refine walks_closing (Prog.only_bind may_isPaused fun _ => may_ite (fun _ => trivial) fun _ =>
        may_ite (fun _ => trivial) fun _ => ?_)
      rw [raiseIf, if_pos (.inr hp)]
      trivial

/-- A running cleanup is stored before the reset. -/
theorem walks_recordRunning {reason message : String} (hk : m.metadata.key = i.key) (hu : m.metadata.uid = i.uid) :
    Walks S (Serial S) i (Ahead i) (Ready i m F xs) (recordCleanup m.metadata .running reason message)
      (fun _ => Ready i m CleanupRuns xs) fun _ _ => True := by
  unfold recordCleanup
  rw [hk, hu]
  refine walks_aside (may_call trivial) fun patch => walks_aside (may_call fun _ _ => ?_) fun _ =>
    walks_aside (may_call trivial) fun now => walks_bind (A := fun _ => Ready i m CleanupRuns xs) (walks_persist ?_)
      fun current => ?_
  · exact ⟨.inr rfl, .inr rfl, .inr rfl, .inr rfl, .inl trivial, .inr rfl⟩
  · exact fun st cs _ => ⟨rfl, rfl⟩
  · exact walks_conseq (walks_kept keeps_aside (may_call fun _ _ => stages_report trivial rfl rfl rfl rfl rfl))
      (fun _ hl => hl) (fun _ _ hl => hl) fun _ _ _ => trivial

theorem walks_resetHost {operation : HostLeaseRef} {conn : Conn} (hk : m.metadata.key = i.key)
    (hu : m.metadata.uid = i.uid) :
    Walks S (Serial S) i (Ahead i) (Ready i m CleanupRuns xs) (resetHost operation conn m.metadata)
      (fun _ _ => True) fun _ _ => True := by
  unfold resetHost
  rw [show checkCurrent m.metadata.key m.metadata.uid = checkCurrent i.key i.uid by rw [hk, hu]]
  refine walks_bind walks_checkCurrent fun _ => walks_aside may_checkLease fun _ => ?_
  refine walks_bind (A := fun _ _ => True) (walks_bind (A := fun _ _ => True) ?_ fun _ => walks_pure fun _ _ => trivial)
    fun _ => walks_closing (Prog.only_bind may_raiseIf fun _ => may_recordCleanup trivial hk hu trivial trivial)
  refine walks_call fun l c w r w' hl _ ha hk => ⟨?_, by cases r <;> trivial⟩
  refine ⟨⟨by rintro t ⟨⟩, by rintro t ⟨⟩, fun _ _ => ?_⟩, by rintro t ⟨⟩, fun _ => hl.accepted⟩
  rw [serial_stored hk]
  exact hl.stored

/-- Hence the reset finds it stored. -/
theorem walks_cleanHost {binding : Binding} (hk : m.metadata.key = i.key) (hu : m.metadata.uid = i.uid) :
    Walks S (Serial S) i (Ahead i) (Ready i m F xs) (cleanHost binding m.status m.metadata) (fun _ _ => True)
      fun _ _ => True := by
  refine walks_aside (may_setHostPhase trivial) fun _ => walks_bind (walks_recordRunning hk hu) fun _ => ?_
  refine walks_bind (A := fun _ _ => True) (walks_handle (E := fun _ _ => True) ?_ fun _ => walks_pure fun _ _ => trivial)
    fun exit => walks_closing ?_
  · exact walks_conseq (walks_withHost (P := aside) (F := fun _ => True) (A := fun _ _ => True) (E := fun _ => True)
      trivial (fun _ => keeps_anything) keeps_anything (fun _ _ _ => trivial) (fun _ _ => trivial) keeps_aside
      (fun _ _ => trivial) fun lease conn _ => walks_resetHost hk hu) (fun _ hl => hl) (fun _ _ _ => trivial)
      fun _ _ _ => trivial
  · split
    · exact may_releaseCleanedHost trivial trivial trivial
    · trivial
    · exact Prog.only_bind may_raiseIf fun _ => may_cleanupFailed trivial hk hu trivial trivial trivial

/-- The cleanup is the only part of a deletion that leaves a mark. -/
theorem walks_deleteMachine (hk : m.metadata.key = i.key) (hu : m.metadata.uid = i.uid) :
    Walks S (Serial S) i (Ahead i) (Ready i m F xs) (deleteMachine m.spec m.status m.metadata) (fun _ _ => True)
      fun _ _ => True := by
  have hblocked : ∀ {message : String}, (blocked m.status m.metadata message : Act Unit).Only (aside.allows i) :=
    may_blocked trivial
  refine walks_aside (may_call fun _ _ => stages_report trivial rfl rfl rfl rfl rfl) fun _ =>
    walks_aside (may_patchConditions trivial) fun _ => walks_aside (may_reportPause trivial may_isPaused) fun _ =>
      walks_aside (may_onlyIf fun _ => Prog.only_bind (may_patchConditions trivial) fun _ => trivial) fun _ =>
        walks_aside (may_onlyIf fun _ => hblocked) fun _ => ?_
  split
  · exact walks_closing (may_deleteUnowned trivial hk hu trivial trivial trivial trivial trivial)
  · unfold deleteOwned
    split
    · exact walks_closing (may_blocked trivial)
    · refine walks_aside (may_onlyIf fun _ => hblocked) fun _ => walks_aside (may_onlyIf fun _ => hblocked) fun _ =>
        walks_ite (fun _ => walks_closing ?_) fun _ => walks_ite (fun _ => walks_closing ?_) fun _ =>
          walks_cleanHost hk hu
      · exact Prog.only_bind (may_recordCleanup trivial hk hu trivial trivial) fun _ =>
          may_releaseCleanedHost trivial trivial trivial
      · exact Prog.only_bind (may_patchConditions trivial) fun _ => Prog.only_bind (may_reconcileReboot trivial hk hu
          trivial trivial trivial trivial trivial (by rintro ⟨⟩)) fun _ => trivial

theorem began_ready {a : Attempt} {l : Local} (h : Began (Serial S) i a m l) (hu : m.metadata.uid = i.uid) :
    Ready i m (fun st => st = m.status) [] l :=
  ⟨began_live h hu, began_calls h (fun x hx => by
    obtain ⟨op, r, w, w'⟩ := x
    cases op with
    | acquireLock key => rfl
    | _ => exact hx.elim) fun _ => rfl, began_stored (fun _ _ h => h) h hu, by rintro x ⟨⟩⟩

/-- Every part of every attempt keeps ahead. -/
theorem walks_part {a : Attempt} (hu : m.metadata.uid = i.uid) :
    Walks S (Serial S) i (Ahead i) (Began (Serial S) i a m) (a.part S.tools S.timeout i m) (fun _ _ => True)
      fun _ _ => True := by
  refine walks_have (m.metadata.key = i.key) (fun l h => h.key) fun hk => ?_
  refine walks_weaken (K := Ready i m (fun st => st = m.status) []) ?_ fun l h => began_ready h hu
  cases a with
  | bind => exact walks_closing (Prog.only_bind (may_bindMachine trivial trivial trivial trivial) fun _ => trivial)
  | reboot =>
    refine walks_bind (A := fun _ _ => True) (walks_weaken (walks_reconcileReboot hk hu) fun l hl _ => ?_)
      fun _ => walks_pure fun _ _ => trivial
    exact ⟨hl.live, hl.accepted, trivial, hl.made⟩
  | reconcile =>
    refine walks_bind (A := fun _ _ => True) (walks_bind (walks_reconcileImpl hk hu) fun _ => walks_ite
      (fun _ => walks_reconcileReboot hk hu) fun _ => walks_pure fun _ _ => trivial) fun _ => walks_pure fun _ _ => trivial
  | delete =>
    exact walks_bind (A := fun _ _ => True) (walks_deleteMachine hk hu) fun _ => walks_pure fun _ _ => trivial

theorem framed_ahead (i : MachineRef) (a : Attempt) : Framed S (Serial S) i (Ahead i) a fun _ _ => True where
  basic _ _ h := h.basic
  guard a e earlier h _ := by
    refine unmarked_ahead ?_ ?_ ?_ <;> cases ho : e.op <;> rw [ho] at h <;> first | rfl | exact h.elim
  locking _ _ _ := trivial
  missed _ _ _ _ := trivial
  part m hu := walks_part hu
  release _ _ _ _ _ _ _ _ _ _ := ⟨unmarked_ahead rfl rfl rfl, trivial⟩
  raised _ _ _ _ := trivial
  apply _ _ _ _ _ _ _ _ _ _ := unmarked_ahead rfl rfl rfl

section runs

variable {c : Crew MachineRef}

theorem owned_append {j₁ j₂ : Journal} (h : owned j₂) : owned (j₁ ++ j₂) := by
  induction j₁ with
  | nil => exact h
  | cons e j₁ ih => exact owned_step ih

/-- Ownership that was recorded stays on record. -/
theorem ownedBy_suffix {T : Trust} {j₁ j₂ : Journal} {t : Target} (h : Lawful T i (j₁ ++ j₂))
    (ho : OwnedBy i t (statusOf j₂)) : OwnedBy i t (statusOf (j₁ ++ j₂)) := by
  obtain ⟨o, ho, hu, ht⟩ := ho
  obtain ⟨o', ho'⟩ := Option.isSome_iff_exists.mp (owned_append (show owned j₂ by rw [owned, ho]; rfl))
  have hid := (ownership_identity h o' ho').symm.trans
    (identityOf_suffix h (ownership_identity (lawful_suffix h) o ho))
  rw [Option.some.injEq, Binding.identity, Binding.identity, Identity.mk.injEq] at hid
  obtain ⟨hu', ha, hp, -, -⟩ := hid
  refine ⟨o', ho', hu'.trans hu, ?_⟩
  rw [← ht, Binding.target, Binding.target, ha, hp]

/-- Of every call that any attempt has made. -/
structure Remembers (s : Site MachineRef) : Prop where
  ahead : ∀ x ∈ s.history, Ahead x.machine x.kind x.exchange x.earlier
  before : ∀ x ∈ s.history, journal x.machine x.exchange.before <:+ journal x.machine s.world

/-- The step: a call adds one exchange, whose record is in the journal. -/
theorem remembers_call {s : Site MachineRef} {k : MachineRef} {e : Exchange} (h : Remembers s) (hc : Called S id s k e)
    (ha : Ahead k (s.attempts k).kind e (s.attempts k).calls) : Remembers (s.record k (id k) e) := by
  have hjournal : ∀ i, journal i e.before = journal i s.world := fun i => by rw [hc.before]; rfl
  have hlater : ∀ i, journal i s.world <:+ journal i e.after := fun i => by
    rw [← hjournal i]
    exact journal_suffix (written_later (called_written hc)).log i
  refine ⟨fun x hx => ?_, fun x hx => ?_⟩
  · rcases List.mem_cons.mp hx with rfl | hx
    · exact ha
    · exact h.ahead x hx
  · rcases List.mem_cons.mp hx with rfl | hx
    · change journal k e.before <:+ journal k e.after
      rw [hjournal]
      exact hlater k
    · exact (h.before x hx).trans (hlater x.machine)

/-- The run: the journal still holds every record that was made. -/
theorem handlers_remember (h : Reachable (handlers S id) (idle (Site.empty MachineRef)) c) : Remembers c.world := by
  have hlimit : Reachable ((handlers S id).limit fun _ _ _ _ _ => True) (idle (Site.empty MachineRef)) c :=
    reachable_limit (fun _ _ _ _ _ => trivial) h
  refine runs_keep id (P := Remembers) (serial_always framed_ahead) ?_ ?_ ?_ ?_ hlimit
  · exact ⟨by rintro x ⟨⟩, by rintro x ⟨⟩⟩
  · intro s ch w' hs _ ho
    exact ⟨hs.ahead, fun x hx => (hs.before x hx).trans (journal_suffix ho.later.log x.machine)⟩
  · exact fun s k a hs _ => ⟨hs.ahead, hs.before⟩
  · exact fun s k e hs hc ha _ => remembers_call hs hc ha

/-- What has reached a host is on record, whatever became of the attempts that sent it. -/
structure WriteAhead (c : Crew MachineRef) : Prop where
  ahead : ∀ x ∈ c.world.history, Ahead x.machine x.kind x.exchange x.earlier
  before : ∀ x ∈ c.world.history, journal x.machine x.exchange.before <:+ journal x.machine c.world.world
  owned : ∀ x ∈ c.world.history, ∀ t, x.exchange.op.takes = some t →
    OwnedBy x.machine t (statusOf (journal x.machine c.world.world))

/-- Every call of every attempt, judged by what that attempt itself had asked for before. -/
theorem records_before_effects (h : Reachable (handlers S id) (idle (Site.empty MachineRef)) c) : WriteAhead c := by
  have hr := handlers_remember h
  refine ⟨hr.ahead, hr.before, fun x hx t ht => ?_⟩
  obtain ⟨post, hj⟩ := hr.before x hx
  have hl := (serialized_consistent h).lawful x.machine
  rw [← hj] at hl ⊢
  exact ownedBy_suffix hl ((hr.ahead x hx).recorded.owned t ht)

/-- A bootstrap, and a deletion up to its reset. -/
def bootstrappedThenReset : List (Turn MachineRef) :=
  bootstrapped ++ [.change (.deleteMachine ⟨"n", "m"⟩ 0), .start (smallRef "m" 1) .delete, .usual (smallRef "m" 1) 21]

/-- A launch has reached the host, a reset as well, and each was sent by an attempt that had
written the status before. -/
def launchedAndReset (s : Site MachineRef) : Bool :=
  (s.history.any fun x => x.exchange.op.takes.isSome && x.earlier.any fun y => y.op.writesStatus) &&
    s.history.any fun x => x.exchange.op.resets.isSome && x.earlier.any fun y => y.op.writesStatus

/-- A payload is launched and the host reset, each behind its record. -/
theorem records_before_effects_reset : ∃ c : Crew MachineRef,
    Reachable (handlers smallSetting id) (idle (Site.empty MachineRef)) c ∧ launchedAndReset c.world = true ∧
      WriteAhead c := by
  have h : (takes smallSetting id unchecked smallUsual bootstrappedThenReset (idle (Site.empty MachineRef))).any
      (fun c => launchedAndReset c.world) = true := by
    decide +kernel
  obtain ⟨c, hc, hb⟩ := takes_exists h
  exact ⟨c, hc, hb, records_before_effects hc⟩

end runs

end CapiSsh
