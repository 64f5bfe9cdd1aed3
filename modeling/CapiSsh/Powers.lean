import CapiSsh.Attempts

/-!
# What a part of the provider can do

A `Powers` names the effects that a program may have on its Machine, on hosts and on the
SSH target, and whether it looks at its Machine at all; leases and locks need none. Every
function of the provider has the powers that it needs and no others, whatever its calls
answer, and no part of it touches another Machine than its own, stages a cleanup phase or
persists initialization.
-/
namespace CapiSsh

open Effect

structure Powers where
  look : Prop
  allocate : Prop
  own : Prop
  record : Prop
  clean : Prop
  report : Prop
  provision : Prop
  claim : Prop
  mark : Prop
  dial : Prop
  bootstrap : Prop
  reboot : Prop
  reset : Prop
  apply : Prop
  /-- the scripts that it may upload -/
  uploads : String → Prop

/-- A patch of the Machine's status that is persisted. -/
structure Powers.writes (P : Powers) (p : StatusPatch) : Prop where
  allocation : P.allocate ∨ p.allocation = none
  ownership : P.own ∨ p.bootstrapOwnership = none
  reboot : P.record ∨ p.reboot = none
  cleanup : P.clean ∨ p.cleanup = none ∧ p.ready = none ∧ p.conditions = none
  provisioned : p.provisioned = none

/-- A change of the staged patch. -/
structure Powers.stages (P : Powers) (old new : StatusPatch) : Prop where
  cleanup : new.cleanup = old.cleanup ∨ new.cleanup = none
  allocation : P.allocate ∨ new.allocation = old.allocation
  ownership : P.own ∨ new.bootstrapOwnership = old.bootstrapOwnership
  reboot : P.record ∨ new.reboot = old.reboot
  ready : P.report ∨ new.ready = old.ready ∧ new.conditions = old.conditions
  provisioned : P.provision ∨ new.provisioned = old.provisioned

def Powers.commands (P : Powers) : Command → Prop
  | .owned o => (o.claim = true → P.bootstrap) ∧ match o.script with
    | .reboot => P.reboot
    | .reset => P.reset
    | .job _ => P.bootstrap
    | .noop | .bootID => True
  | .launch _ => P.bootstrap
  | _ => True

def Powers.allows (P : Powers) (i : MachineRef) : Op → Prop
  | .readMachine key => key = i.key ∧ P.look
  | .patchMachine key pre _ => key = i.key ∧ pre.uid = i.uid ∧ P.look ∧ P.allocate
  | .patchMachineStatus key pre p => key = i.key ∧ pre.uid = i.uid ∧ P.look ∧ P.writes p
  | .patchHost .. => P.claim
  | .patchHostStatus .. => P.mark
  | .stage f => ∀ t p, P.stages p.status (f t p).status
  | .connect .. => P.dial
  | .upload _ script _ => P.bootstrap ∧ P.uploads script
  | .run _ command => P.commands command
  | .applyStaged key => key = i.key ∧ P.apply
  | _ => True

def Op.dials : Op → Bool
  | .connect .. => true
  | _ => false

/-- The target on which a call leaves an owner record, a script or its launch. -/
def Op.takes : Op → Option Target
  | .upload conn .. | .run conn (.launch _) | .run conn (.owned ⟨_, .job _, _, _, _⟩)
  | .run conn (.owned ⟨_, _, true, _, _⟩) => some conn.target
  | _ => none

def Op.reboots : Op → Option Target
  | .run conn (.owned ⟨_, .reboot, _, _, _⟩) => some conn.target
  | _ => none

def Op.resets : Op → Option Target
  | .run conn (.owned ⟨_, .reset, _, _, _⟩) => some conn.target
  | _ => none

variable {P : Powers} {i : MachineRef} {spec : MachineSpec} {status : MachineStatus} {metadata : ObjectMeta}
  {tools : PayloadTools} {timeout : Time}

variable {op : Op}

/-- Only the power to bootstrap lets a call take a payload. -/
theorem takes_power {t : Target} (h : P.allows i op) (ht : op.takes = some t) : P.bootstrap := by
  cases op with
  | upload conn script path => exact h.1
  | run conn command =>
    cases command with
    | owned o =>
      obtain ⟨uid, script, claim, cleaned, blocking⟩ := o
      cases script <;> cases claim <;> first | cases ht; done | exact h.2 | exact h.1 rfl
    | launch o => exact h
    | _ => cases ht
  | _ => cases ht

theorem reboots_power {t : Target} (h : P.allows i op) (ht : op.reboots = some t) : P.reboot := by
  cases op with
  | run conn command =>
    cases command with
    | owned o =>
      obtain ⟨uid, script, claim, cleaned, blocking⟩ := o
      cases script <;> first | cases ht; done | exact h.2
    | _ => cases ht
  | _ => cases ht

theorem resets_power {t : Target} (h : P.allows i op) (ht : op.resets = some t) : P.reset := by
  cases op with
  | run conn command =>
    cases command with
    | owned o =>
      obtain ⟨uid, script, claim, cleaned, blocking⟩ := o
      cases script <;> first | cases ht; done | exact h.2
    | _ => cases ht
  | _ => cases ht

theorem may_call {op : Op} (h : P.allows i op) : (call op).Only (P.allows i) := Prog.only_perform h

/-- Each branch may rely on its own side of the test. -/
theorem may_ite {c : Prop} [Decidable c] {p q : Act α} (hp : c → p.Only (P.allows i))
    (hq : ¬ c → q.Only (P.allows i)) : (if c then p else q).Only (P.allows i) := by
  split
  · rename_i h; exact hp h
  · rename_i h; exact hq h

theorem may_raiseIf {c : Prop} [Decidable c] {e : Exc} : (raiseIf c e).Only (P.allows i) :=
  may_ite (fun _ => trivial) fun _ => trivial

/-- A guarded call needs its powers only where the guard lets it through. -/
theorem may_onlyIf {c : Prop} [Decidable c] {p : Act Unit} (h : c → p.Only (P.allows i)) :
    (onlyIf c p).Only (P.allows i) :=
  may_ite h fun _ => trivial

/-- A change of the other fields needs no more than the power to report. -/
theorem stages_report {old new : StatusPatch} (h : P.report) (h₁ : new.cleanup = old.cleanup)
    (h₂ : new.allocation = old.allocation) (h₃ : new.bootstrapOwnership = old.bootstrapOwnership)
    (h₄ : new.reboot = old.reboot) (h₅ : new.provisioned = old.provisioned) : P.stages old new :=
  ⟨.inl h₁, .inr h₂, .inr h₃, .inr h₄, .inl h, .inr h₅⟩

/-- Conditions are part of a report. -/
theorem may_patchConditions {updates : List Condition} (h : P.report) :
    (patchConditions status metadata updates).Only (P.allows i) :=
  may_call fun _ _ => stages_report h rfl rfl rfl rfl rfl

theorem may_readOwner {plural version message : String} {key : ObjectKey} :
    (readOwner plural version key message).Only (P.allows i) := by
  refine Prog.only_handle (Prog.only_bind (may_call trivial) fun _ => trivial) fun e => ?_
  split <;> trivial

/-- The pause check only reads, however many owners it walks over. -/
theorem may_isPausedOwners {ns : String} (owners : List OwnerReference) : ∀ (name : Option String) (version : String),
    (isPausedOwners ns owners name version).Only (P.allows i) := by
  induction owners with
  | nil =>
    intro name version
    unfold isPausedOwners
    split
    · trivial
    · refine Prog.only_bind may_readOwner fun o => ?_
      cases o <;> trivial
  | cons owner rest ih =>
    intro name version
    unfold isPausedOwners
    split
    · exact ih _ _
    · refine may_ite (fun _ => ih _ _) fun _ => Prog.only_bind may_readOwner fun o => ?_
      cases o with
      | none => trivial
      | some obj =>
        exact may_ite (fun _ => trivial) fun _ => may_ite (fun _ => trivial) fun _ =>
          may_ite (fun _ => trivial) fun _ => ih _ _

theorem may_isPaused {ns : String} : (isPaused spec metadata ns).Only (P.allows i) :=
  may_ite (fun _ => trivial) fun _ => may_isPausedOwners _ _ _

/-- A pause is reported in a condition. -/
theorem may_reportPause {check : Act Bool} (h : P.report) (hc : check.Only (P.allows i)) :
    (reportPause status metadata check).Only (P.allows i) := by
  refine Prog.only_bind (Prog.only_handle hc fun e => ?_) fun _ =>
    Prog.only_bind (may_patchConditions h) fun _ => trivial
  split
  · exact Prog.only_bind (may_patchConditions h) fun _ => trivial
  · trivial

/-- Persisted fields need the powers of the fields, and a look at the Machine. -/
theorem may_persist {changes : StatusPatch} (hl : P.look) (h : P.writes changes) :
    (persistMachineStatus i.key i.uid changes).Only (P.allows i) := by
  refine Prog.only_bind (may_call ⟨rfl, hl⟩) fun current => Prog.only_bind may_raiseIf fun _ =>
    Prog.only_bind (may_call trivial) fun now => Prog.only_handle (may_call ⟨rfl, rfl, hl, ?_⟩) fun e => ?_
  · refine ⟨h.allocation, h.ownership, h.reboot, h.cleanup.imp id ?_, h.provisioned⟩
    rintro ⟨h₁, h₂, h₃⟩
    exact ⟨h₁, h₂, by rw [h₃]; rfl⟩
  · split <;> trivial

/-- The three records that are persisted on their own need one power each. -/
theorem writes_allocation {b : Binding} (h : P.allocate) :
    P.writes { StatusPatch.empty with allocation := some b } :=
  ⟨.inl h, .inr rfl, .inr rfl, .inr ⟨rfl, rfl, rfl⟩, rfl⟩

theorem writes_ownership {o : Ownership} (h : P.own) :
    P.writes { StatusPatch.empty with bootstrapOwnership := some o } :=
  ⟨.inr rfl, .inl h, .inr rfl, .inr ⟨rfl, rfl, rfl⟩, rfl⟩

theorem writes_reboot {r : RebootState} (h : P.record) : P.writes { StatusPatch.empty with reboot := some r } :=
  ⟨.inr rfl, .inr rfl, .inl h, .inr ⟨rfl, rfl, rfl⟩, rfl⟩

/-- A phase of the host is a mark. -/
theorem may_setHostPhase {binding : Binding} {key : ObjectKey} {uid : Uid} {phase : HostPhase} {reason : String}
    (h : P.mark) : (setHostPhase binding key uid phase reason).Only (P.allows i) := by
  unfold setHostPhase
  split
  · trivial
  · exact Prog.only_bind (may_call trivial) fun _ => Prog.only_bind may_raiseIf fun _ =>
      Prog.only_bind (may_call h) fun _ => trivial

/-- A release writes the phase and the claim. -/
theorem may_releaseHost {binding : Binding} {key : ObjectKey} {uid : Uid} (hm : P.mark) (hc : P.claim) :
    (releaseHost binding key uid).Only (P.allows i) := by
  unfold releaseHost
  split
  · trivial
  · exact Prog.only_bind (may_call trivial) fun _ => Prog.only_bind may_raiseIf fun _ =>
      may_onlyIf fun _ => Prog.only_bind may_raiseIf fun _ => Prog.only_bind (may_call hm) fun _ =>
        Prog.only_bind (may_call hc) fun _ => trivial

/-- The search for an unstarted claim writes nothing. -/
theorem may_recoverUnstartedClaim {key : ObjectKey} {uid : Uid} :
    (recoverUnstartedClaim key uid).Only (P.allows i) := by
  refine Prog.only_bind (may_call trivial) fun hosts => ?_
  split <;> trivial

/-- Nothing is written on the way through the candidates but claims. -/
theorem may_claimFirst {labels : List (String × String)} {key : ObjectKey} {uid : Uid} (h : P.claim)
    (hosts : List Host) : (claimFirst labels key uid hosts).Only (P.allows i) := by
  induction hosts with
  | nil => trivial
  | cons host rest ih =>
    refine may_ite (fun _ => ih) fun _ => Prog.only_handle (may_call h) fun e => ?_
    split
    · exact may_ite (fun _ => ih) fun _ => trivial
    · trivial

theorem may_selectHost {key : ObjectKey} {uid : Uid} (h : P.claim) :
    (selectHost spec status key uid).Only (P.allows i) := by
  refine Prog.only_bind (may_call trivial) fun hosts => ?_
  split
  · trivial
  · trivial
  · exact Prog.only_bind may_raiseIf fun _ => Prog.only_bind may_raiseIf fun _ => may_claimFirst h _

theorem may_checkAllocation {binding : Binding} {key : ObjectKey} {uid : Uid} :
    (checkAllocation binding spec key uid).Only (P.allows i) := by
  unfold checkAllocation
  refine Prog.only_bind may_raiseIf fun _ => Prog.only_bind may_raiseIf fun _ => Prog.only_bind may_raiseIf fun _ =>
    Prog.only_bind may_raiseIf fun _ => Prog.only_bind may_raiseIf fun _ => ?_
  split
  · exact Prog.only_bind (may_call trivial) fun _ => Prog.only_bind may_raiseIf fun _ =>
      Prog.only_bind may_raiseIf fun _ => Prog.only_bind may_raiseIf fun _ => Prog.only_bind may_raiseIf fun _ => trivial
  · trivial

theorem may_newBinding {key : ObjectKey} {uid : Uid} (h : P.claim) :
    (newBinding spec status key uid).Only (P.allows i) := by
  refine may_ite (fun _ => ?_) fun _ => ?_
  · exact Prog.only_bind (may_selectHost h) fun _ => Prog.only_bind may_raiseIf fun _ => trivial
  · split
    · trivial
    · exact may_ite (fun _ => trivial) fun _ => trivial

theorem may_deriveBinding {key : ObjectKey} {uid : Uid} (h : P.claim) :
    (deriveBinding spec status key uid).Only (P.allows i) := by
  unfold deriveBinding
  split
  · exact may_checkAllocation
  · exact may_newBinding h

theorem may_commitBinding {binding : Binding} (hl : P.look) (h : P.allocate) :
    (commitBinding binding i.key i.uid).Only (P.allows i) :=
  Prog.only_bind (may_call ⟨rfl, hl⟩) fun _ => Prog.only_bind may_raiseIf fun _ =>
    Prog.only_bind (may_call ⟨rfl, rfl, hl, h⟩) fun _ => Prog.only_bind (may_persist hl (writes_allocation h)) fun _ =>
      trivial

/-- Binding claims, records the allocation and marks the host; it never dials. -/
theorem may_bindMachine (hl : P.look) (ha : P.allocate) (hc : P.claim) (hm : P.mark) :
    (bindMachine spec status i.key i.uid).Only (P.allows i) :=
  Prog.only_bind (may_deriveBinding hc) fun _ => Prog.only_bind (may_onlyIf fun _ => may_commitBinding hl ha) fun _ =>
    Prog.only_bind (may_call fun _ _ => ⟨.inl rfl, .inl ha, .inr rfl, .inr rfl, .inr ⟨rfl, rfl⟩, .inr rfl⟩) fun _ =>
      Prog.only_bind (may_setHostPhase hm) fun _ => trivial

theorem may_readKnownHosts {ns : String} {ref : SecretRef} : (readKnownHosts ns ref).Only (P.allows i) := by
  unfold readKnownHosts
  split
  · trivial
  · refine Prog.only_bind (may_call trivial) fun data => ?_
    split <;> trivial

theorem may_connect {binding : Binding} {ns : String} (h : P.dial) : (connect binding ns).Only (P.allows i) := by
  unfold connect
  split
  · trivial
  · refine Prog.only_bind (may_call trivial) fun data => ?_
    split
    · trivial
    · exact Prog.only_bind may_readKnownHosts fun _ => may_call h

/-- A command needs the power that its own text needs. -/
theorem may_execute {conn : Conn} {command : Command} (h : P.commands command) :
    (execute conn command).Only (P.allows i) :=
  Prog.only_bind (may_call h) fun _ => trivial

theorem may_checkLease {lease : HostLeaseRef} : (checkLease lease).Only (P.allows i) :=
  Prog.only_bind (may_call trivial) fun _ => may_raiseIf

theorem may_run {body : Act α} (h : body.Only (P.allows i)) : (Exit.run body).Only (P.allows i) := by
  refine Prog.only_bind (Prog.only_attempt h) fun r => ?_
  cases r <;> trivial

/-- Closing needs no power beyond those of the call that closes. -/
theorem may_leave {exit : Exit α} {close : Act Unit} (h : close.Only (P.allows i)) :
    (exit.leave close).Only (P.allows i) := by
  refine Prog.only_bind (Prog.only_attempt h) fun r => ?_
  cases r <;> trivial

theorem may_lost {exit : Exit α} {lease : HostLeaseRef} : (exit.lost lease).Only (P.allows i) := by
  unfold Exit.lost
  split
  · exact Prog.only_bind (may_call trivial) fun _ => may_ite (fun _ => trivial) fun _ => trivial
  · trivial

theorem may_value {exit : Exit α} : exit.value.Only (P.allows i) := by
  unfold Exit.value
  split <;> trivial

theorem may_releaseLease {lease : HostLeaseRef} : (releaseLease lease).Only (P.allows i) :=
  Prog.only_handle (may_call trivial) fun _ => may_ite (fun _ => trivial) fun _ => trivial

/-- The lease around an operation needs no power of its own. -/
theorem may_hostOperation {binding : Binding} {uid : Uid} {body : HostLeaseRef → Act (Exit α)}
    (h : ∀ lease, (body lease).Only (P.allows i)) : (hostOperation binding uid body).Only (P.allows i) := by
  refine Prog.only_bind (Prog.only_handle (may_call trivial) fun _ => may_ite (fun _ => trivial) fun _ => trivial)
    fun acquired => may_ite (fun _ => ?_) fun _ => trivial
  exact Prog.only_bind (h _) fun _ => Prog.only_bind may_lost fun _ => may_leave may_releaseLease

/-- What runs on a connection, and the power to dial. -/
theorem may_withConn {dial : Act Conn} {body : Conn → Act α} (hd : dial.Only (P.allows i))
    (h : ∀ conn, (body conn).Only (P.allows i)) : (withConn dial body).Only (P.allows i) := by
  refine Prog.only_bind (Prog.only_attempt hd) fun r => ?_
  cases r with
  | error e => trivial
  | ok conn => exact Prog.only_bind (may_run (h conn)) fun _ => may_leave (may_call trivial)

theorem may_withHost {binding : Binding} {uid : Uid} {ns : String} {body : HostLeaseRef → Conn → Act α}
    (hd : P.dial) (h : ∀ lease conn, (body lease conn).Only (P.allows i)) :
    (withHost binding uid ns body).Only (P.allows i) :=
  may_hostOperation fun lease => may_withConn (may_connect hd) (h lease)

/-- The check that the Machine is still current is a look at it. -/
theorem may_checkCurrent {uid : Uid} (hl : P.look) : (checkCurrent i.key uid).Only (P.allows i) :=
  Prog.only_bind (may_call ⟨rfl, hl⟩) fun _ => Prog.only_bind may_raiseIf fun _ =>
    Prog.only_bind may_isPaused fun _ => Prog.only_bind may_raiseIf fun _ => trivial

theorem may_stageReboot {state : RebootState} (h : P.record) : (stageReboot state).Only (P.allows i) :=
  may_call fun _ _ => ⟨.inl rfl, .inr rfl, .inr rfl, .inl h, .inr ⟨rfl, rfl⟩, .inr rfl⟩

theorem may_writeReboot {state : RebootState} (hl : P.look) (h : P.record) :
    (writeReboot i.key i.uid state).Only (P.allows i) :=
  Prog.only_bind (may_persist hl (writes_reboot h)) fun _ => may_stageReboot h

theorem may_observeBoot {conn : Conn} {uid : Uid} : (observeBoot conn uid).Only (P.allows i) :=
  Prog.only_bind (may_execute ⟨by rintro ⟨⟩, trivial⟩) fun _ => Prog.only_bind may_raiseIf fun _ => trivial

/-- Sending a reboot needs the power to record it besides. -/
theorem may_submitReboot {operation : HostLeaseRef} {conn : Conn} {requested bootID : String} (hl : P.look) (h : P.record)
    (hr : P.reboot) : (submitReboot operation conn i.key i.uid requested bootID).Only (P.allows i) := by
  refine Prog.only_bind (may_call trivial) fun _ => Prog.only_bind (may_writeReboot hl h) fun _ =>
    Prog.only_bind may_checkLease fun _ => Prog.only_bind (Prog.only_handle (may_execute ⟨by rintro ⟨⟩, hr⟩)
      fun e => ?_) fun _ => Prog.only_bind (may_stageReboot h) fun _ => may_writeReboot hl h
  exact Prog.only_bind may_raiseIf fun _ => Prog.only_bind (may_stageReboot h) fun _ =>
    Prog.only_bind (may_writeReboot hl h) fun _ => trivial

/-- Observation alone sends nothing. -/
theorem may_advanceReboot {operation : HostLeaseRef} {conn : Conn} {previous : Reboot} {requested bootID : String}
    {observeOnly : Bool} (hl : P.look) (h : P.record) (hr : observeOnly = false → P.reboot) :
    (advanceReboot operation conn i.key i.uid previous requested bootID observeOnly).Only (P.allows i) := by
  have submit : observeOnly ≠ true → (submitReboot operation conn i.key i.uid requested bootID).Only (P.allows i) :=
    fun ho => may_submitReboot hl h (hr (by simpa using ho))
  refine may_ite (fun _ => may_ite (fun _ => ?_) fun _ => may_ite (fun _ => ?_) fun _ =>
    may_ite (fun _ => trivial) fun _ => may_ite (fun _ => trivial) submit) fun _ =>
      may_ite (fun _ => trivial) submit
  · exact Prog.only_bind (may_call trivial) fun _ => may_writeReboot hl h
  · refine Prog.only_bind (may_call trivial) fun _ => ?_
    split
    · trivial
    · exact may_ite (fun _ => may_writeReboot hl h) fun _ => trivial

/-- Where the reboot is only observed, the power to reboot is not needed. -/
theorem may_reconcileReboot {observeOnly : Bool} (hl : P.look) (hk : metadata.key = i.key) (hu : metadata.uid = i.uid)
    (ha : P.allocate) (hc : P.claim) (hm : P.mark) (hd : P.dial) (h : P.record)
    (hr : observeOnly = false → P.reboot) :
    (reconcileReboot spec status metadata observeOnly).Only (P.allows i) := by
  unfold reconcileReboot
  simp only [hk, hu]
  split
  · trivial
  · refine Prog.only_bind may_isPaused fun _ => may_ite (fun _ => trivial) fun _ => may_ite (fun _ => trivial) fun _ =>
      Prog.only_bind may_raiseIf fun _ => Prog.only_bind (may_bindMachine hl ha hc hm) fun _ =>
        may_ite (fun _ => trivial) fun _ => Prog.only_bind (may_withHost hd fun _ _ => ?_) fun _ => may_value
    exact Prog.only_bind (may_checkCurrent hl) fun _ => Prog.only_bind may_checkLease fun _ =>
      Prog.only_bind may_observeBoot fun _ => may_advanceReboot hl h hr

/-- A cleanup phase is written together with its report. -/
theorem may_recordCleanup {phase : CleanupPhase} {reason message : String} (hl : P.look) (hk : metadata.key = i.key)
    (hu : metadata.uid = i.uid) (hc : P.clean) (hr : P.report) :
    (recordCleanup metadata phase reason message).Only (P.allows i) := by
  unfold recordCleanup
  rw [hk, hu]
  refine Prog.only_bind (may_call trivial) fun _ => Prog.only_bind (may_call fun _ _ => ?_) fun _ =>
    Prog.only_bind (may_call trivial) fun _ => Prog.only_bind (may_persist hl ?_) fun _ => may_call fun _ _ => ?_
  · exact ⟨.inr rfl, .inr rfl, .inr rfl, .inr rfl, .inl hr, .inr rfl⟩
  · exact ⟨.inr rfl, .inr rfl, .inr rfl, .inl hc, rfl⟩
  · exact ⟨.inl rfl, .inr rfl, .inr rfl, .inr rfl, .inl hr, .inr rfl⟩

/-- The release after a cleanup may fail, and reports it then. -/
theorem may_releaseCleanedHost {binding : Option Binding} (hr : P.report) (hm : P.mark) (hc : P.claim) :
    (releaseCleanedHost binding metadata status).Only (P.allows i) := by
  cases binding with
  | none => trivial
  | some binding =>
    exact Prog.only_handle (may_releaseHost hm hc) fun _ => Prog.only_bind may_raiseIf fun _ =>
      Prog.only_bind (may_patchConditions hr) fun _ => trivial

theorem may_blocked {message : String} (hr : P.report) :
    (blocked status metadata message : Act α).Only (P.allows i) :=
  Prog.only_bind (may_patchConditions hr) fun _ => trivial

theorem may_recoverIf {needed : Bool} {key : ObjectKey} {uid : Uid} :
    (recoverIf needed key uid).Only (P.allows i) := by
  cases needed with
  | false => trivial
  | true => exact may_recoverUnstartedClaim

/-- A recovered claim is written down as an allocation. -/
theorem may_adoptClaim {recovered : Option Binding} (hl : P.look) (hk : metadata.key = i.key) (hu : metadata.uid = i.uid)
    (ha : P.allocate) (hr : P.report) : (adoptClaim spec status metadata recovered).Only (P.allows i) := by
  cases recovered with
  | none => trivial
  | some binding =>
    unfold adoptClaim
    rw [hk, hu]
    exact Prog.only_bind (may_onlyIf fun _ => may_blocked hr) fun _ =>
      Prog.only_bind (may_persist hl (writes_allocation ha)) fun _ => trivial

/-- A legacy allocation is refused with a mark on its host. -/
theorem may_refuseLegacy {binding : Option Binding} (hr : P.report) (hm : P.mark) :
    (refuseLegacy status metadata binding).Only (P.allows i) := by
  cases binding with
  | none => exact may_blocked hr
  | some binding => exact Prog.only_bind (may_setHostPhase hm) fun _ => may_blocked hr

/-- Without an ownership record the host is neither dialed nor reset. -/
theorem may_deleteUnowned (hl : P.look) (hk : metadata.key = i.key) (hu : metadata.uid = i.uid) (ha : P.allocate)
    (hc : P.clean) (hr : P.report) (hm : P.mark) (hcl : P.claim) : (deleteUnowned spec status metadata).Only (P.allows i) :=
  Prog.only_bind may_recoverIf fun _ => Prog.only_bind (may_adoptClaim hl hk hu ha hr) fun _ =>
    Prog.only_bind (may_onlyIf fun _ => may_refuseLegacy hr hm) fun _ =>
      Prog.only_bind (may_recordCleanup hl hk hu hc hr) fun _ => may_releaseCleanedHost hr hm hcl

/-- A reset comes with the phases of its cleanup. -/
theorem may_resetHost {operation : HostLeaseRef} {conn : Conn} (hl : P.look) (hk : metadata.key = i.key)
    (hu : metadata.uid = i.uid) (hc : P.clean) (hr : P.report) (hs : P.reset) :
    (resetHost operation conn metadata).Only (P.allows i) :=
  Prog.only_bind (by rw [hk]; exact may_checkCurrent hl) fun _ => Prog.only_bind may_checkLease fun _ =>
    Prog.only_bind (may_execute ⟨by rintro ⟨⟩, hs⟩) fun _ => Prog.only_bind may_raiseIf fun _ =>
      may_recordCleanup hl hk hu hc hr

theorem may_cleanupFailed {binding : Binding} (hl : P.look) (hk : metadata.key = i.key) (hu : metadata.uid = i.uid)
    (hc : P.clean) (hr : P.report) (hm : P.mark) : (cleanupFailed binding metadata).Only (P.allows i) := by
  refine Prog.only_bind (may_call ⟨hk, hl⟩) fun current => Prog.only_bind may_raiseIf fun _ =>
    may_ite (fun _ => ?_) fun _ => ?_
  · exact Prog.only_bind (may_call fun _ _ => stages_report hr rfl rfl rfl rfl rfl) fun _ => trivial
  · exact Prog.only_bind (may_setHostPhase hm) fun _ => Prog.only_bind (may_recordCleanup hl hk hu hc hr) fun _ =>
      trivial

/-- One cleanup: the dial, the reset, its record and the release. -/
theorem may_cleanHost {binding : Binding} (hl : P.look) (hk : metadata.key = i.key) (hu : metadata.uid = i.uid)
    (hc : P.clean) (hr : P.report) (hm : P.mark) (hcl : P.claim) (hd : P.dial) (hs : P.reset) :
    (cleanHost binding status metadata).Only (P.allows i) := by
  refine Prog.only_bind (may_setHostPhase hm) fun _ => Prog.only_bind (may_recordCleanup hl hk hu hc hr) fun _ =>
    Prog.only_bind (Prog.only_handle (may_withHost hd fun _ _ => may_resetHost hl hk hu hc hr hs) fun _ => trivial)
      fun exit => ?_
  split
  · exact may_releaseCleanedHost hr hm hcl
  · trivial
  · exact Prog.only_bind may_raiseIf fun _ => may_cleanupFailed hl hk hu hc hr hm

/-- The deletion of what bootstrap owns takes no new ownership, starts nothing and reboots nothing. -/
theorem may_deleteOwned {ownership : Ownership} (hl : P.look) (hk : metadata.key = i.key) (hu : metadata.uid = i.uid)
    (ha : P.allocate) (hc : P.clean) (hr : P.report) (hm : P.mark) (hcl : P.claim) (hrec : P.record) (hd : P.dial)
    (hs : P.reset) : (deleteOwned spec status metadata ownership).Only (P.allows i) := by
  unfold deleteOwned
  split
  · exact may_blocked hr
  · refine Prog.only_bind (may_onlyIf fun _ => may_blocked hr) fun _ =>
      Prog.only_bind (may_onlyIf fun _ => may_blocked hr) fun _ => may_ite (fun _ => ?_) fun _ =>
        may_ite (fun _ => ?_) fun _ => may_cleanHost hl hk hu hc hr hm hcl hd hs
    · exact Prog.only_bind (may_recordCleanup hl hk hu hc hr) fun _ => may_releaseCleanedHost hr hm hcl
    · exact Prog.only_bind (may_patchConditions hr) fun _ =>
        Prog.only_bind (may_reconcileReboot hl hk hu ha hcl hm hd hrec (by rintro ⟨⟩)) fun _ => trivial

/-- Only a Machine that recorded ownership is dialled, observed and reset. -/
theorem may_deleteMachine (hl : P.look) (hk : metadata.key = i.key) (hu : metadata.uid = i.uid) (ha : P.allocate)
    (hc : P.clean) (hr : P.report) (hm : P.mark) (hcl : P.claim)
    (hown : status.bootstrapOwnership.isSome = true → P.record ∧ P.dial ∧ P.reset) :
    (deleteMachine spec status metadata).Only (P.allows i) := by
  refine Prog.only_bind (may_call fun _ _ => stages_report hr rfl rfl rfl rfl rfl) fun _ =>
    Prog.only_bind (may_patchConditions hr) fun _ => Prog.only_bind (may_reportPause hr may_isPaused) fun _ =>
      Prog.only_bind (may_onlyIf fun _ => Prog.only_bind (may_patchConditions hr) fun _ => trivial) fun _ =>
        Prog.only_bind (may_onlyIf fun _ => may_blocked hr) fun _ => ?_
  cases ho : status.bootstrapOwnership with
  | none => exact may_deleteUnowned hl hk hu ha hc hr hm hcl
  | some ownership =>
    obtain ⟨h₁, h₂, h₃⟩ := hown (by rw [ho]; rfl)
    exact may_deleteOwned hl hk hu ha hc hr hm hcl h₁ h₂ h₃

/-- A lifecycle report is only a report. -/
theorem may_reportLifecycle {r : LifecycleReport} (hr : P.report) :
    (reportLifecycle status metadata r).Only (P.allows i) :=
  Prog.only_bind (may_call trivial) fun _ => may_patchConditions hr

/-- The `provisioned` field is not a report. -/
theorem may_stageReady {ready provisioned : Bool} (hr : P.report) (hp : P.provision) :
    (stageReady ready provisioned).Only (P.allows i) :=
  may_call fun _ _ => ⟨.inl rfl, .inr rfl, .inr rfl, .inr rfl, .inl hr, .inl hp⟩

theorem may_reportNotReady {reason message bootstrapReason bootstrapMessage : String} (hr : P.report)
    (hp : P.provision) :
    (reportNotReady status metadata reason message bootstrapReason bootstrapMessage).Only (P.allows i) :=
  Prog.only_bind (may_stageReady hr hp) fun _ => may_reportLifecycle hr

theorem may_readSshKey {ns name key : String} : (readSshKey ns name key).Only (P.allows i) := by
  refine Prog.only_bind (may_call trivial) fun data => ?_
  split <;> trivial

theorem may_orMissing {read : Act α} (h : read.Only (P.allows i)) : (orMissing read).Only (P.allows i) := by
  refine Prog.only_handle (Prog.only_bind h fun _ => trivial) fun e => ?_
  split <;> trivial

/-- Payloads are read without any power. -/
theorem may_readBootstrapData {ns name : String} : (readBootstrapData ns name).Only (P.allows i) := by
  refine Prog.only_bind (may_orMissing (may_call trivial)) fun machine => ?_
  split
  · trivial
  · split
    · trivial
    · refine Prog.only_bind (may_orMissing (may_call trivial)) fun data => ?_
      split <;> trivial

/-- The script is staged in memory. -/
theorem may_stagedScript {ns : String} {config : Option ExternalEtcd} {script : String} :
    (stagedScript tools ns config script).Only (P.allows i) := by
  cases config with
  | none => trivial
  | some config =>
    exact Prog.only_bind may_readSshKey fun _ => Prog.only_bind may_readSshKey fun _ =>
      Prog.only_bind may_readSshKey fun _ => trivial

/-- The script with the certificates in front of it, whatever their Secrets hold. -/
def Staged (tools : PayloadTools) (config : Option ExternalEtcd) (script text : String) : Prop :=
  match config with
  | none => text = script
  | some config => ∃ ca cert key, text = tools.certificates config ca cert key script

/-- What comes out is the script as the tools stage it with the certificates that were read. -/
theorem returns_stagedScript {ns : String} {config : Option ExternalEtcd} {script : String} :
    (stagedScript tools ns config script).Returns (Staged tools config script) := by
  cases config with
  | none => exact rfl
  | some config =>
    exact Prog.returns_last fun ca => Prog.returns_last fun cert => Prog.returns_last fun key => ⟨ca, cert, key, rfl⟩

/-- The provider ID and the addresses are filled in as a report. -/
theorem may_backfillProvisionedFields {providerID address : String} (hr : P.report) :
    (backfillProvisionedFields spec status metadata providerID address).Only (P.allows i) :=
  Prog.only_bind (may_call fun _ _ => stages_report hr rfl rfl rfl rfl rfl) fun _ =>
    may_onlyIf fun _ => may_reportLifecycle hr

/-- The ownership record, the claim on the host itself, and a quarantine where that is refused. -/
theorem may_ensureBootstrapOwnership {conn : Conn} {binding : Binding} (hl : P.look) (ho : P.own) (hb : P.bootstrap)
    (hm : P.mark) :
    (ensureBootstrapOwnership conn binding i.key i.uid status).Only (P.allows i) := by
  refine Prog.only_bind (may_call trivial) fun _ => Prog.only_bind may_raiseIf fun _ =>
    Prog.only_bind (may_persist hl (writes_ownership ho)) fun _ =>
      Prog.only_bind (may_call fun _ _ => ⟨.inl rfl, .inr rfl, .inl ho, .inr rfl, .inr ⟨rfl, rfl⟩, .inr rfl⟩) fun _ =>
        Prog.only_bind (may_execute ⟨fun _ => hb, trivial⟩) fun _ => may_onlyIf fun _ =>
          Prog.only_bind (may_onlyIf fun _ => Prog.only_bind (may_setHostPhase hm) fun _ => trivial) fun _ => trivial

theorem may_stillWanted {uid : Uid} {message : String} (hl : P.look) :
    (stillWanted i.key uid message).Only (P.allows i) := by
  refine Prog.only_bind (may_orMissing (may_call ⟨rfl, hl⟩)) fun latest => ?_
  cases latest with
  | none => trivial
  | some latest =>
    exact Prog.only_bind may_raiseIf fun _ => Prog.only_bind may_isPaused fun _ => trivial

/-- Waiting for a receipt only asks, however long it takes. -/
theorem may_observeReceipt {conn : Conn} {uid : Uid} {deadline : Time} (rounds : Nat) :
    (observeReceipt (execute conn) (call .now) (pure ()) id uid deadline rounds).Only (P.allows i) := by
  induction rounds with
  | zero => trivial
  | succ n ih =>
    refine Prog.only_bind (may_call trivial) fun _ => may_ite (fun _ => trivial) fun _ =>
      Prog.only_bind (may_execute trivial) fun result => may_ite (fun _ => ?_) fun _ => trivial
    split <;> trivial

/-- Starting the job is what needs the power to bootstrap. -/
theorem may_durableBootstrap {conn : Conn} {uid : Uid} {path : String} (hb : P.bootstrap) :
    (durableBootstrap (execute conn) (call .now) (pure ()) id uid path timeout).Only (P.allows i) :=
  Prog.only_bind (may_execute hb) fun _ => may_ite
    (fun _ => Prog.only_bind (may_call trivial) fun _ => may_observeReceipt _) fun _ => trivial

theorem may_bootstrapUnderLease {operation : HostLeaseRef} {conn : Conn} {binding : Binding}
    {script strategy : String} (hl : P.look) (hk : metadata.key = i.key) (hu : metadata.uid = i.uid) (ho : P.own)
    (hb : P.bootstrap) (hm : P.mark) (hr : P.report) (hp : P.provision)
    (hs : ∀ text, Staged tools spec.externalEtcd script text → P.uploads text) :
    (bootstrapUnderLease tools operation conn spec status metadata binding script strategy timeout).Only
      (P.allows i) := by
  unfold bootstrapUnderLease
  simp only [hk, hu]
  refine Prog.only_bind (may_stillWanted hl) fun _ => may_ite (fun _ => ?_) fun _ => trivial
  refine Prog.only_bind may_checkLease fun _ => Prog.only_bind (may_ensureBootstrapOwnership hl ho hb hm) fun _ =>
    Prog.only_returns may_stagedScript returns_stagedScript fun text ht => Prog.only_bind (may_call trivial) fun _ =>
      Prog.only_bind may_checkLease fun _ => Prog.only_bind (may_call ⟨hb, hs text ht⟩) fun _ =>
        Prog.only_bind may_checkLease fun _ => Prog.only_bind (may_stillWanted hl) fun _ =>
          may_ite (fun _ => ?_) fun _ => trivial
  refine Prog.only_bind (may_durableBootstrap hb) fun _ => Prog.only_bind (may_onlyIf fun _ =>
    Prog.only_bind (may_setHostPhase hm) fun _ => Prog.only_bind (may_reportNotReady hr hp) fun _ => trivial) fun _ =>
      Prog.only_bind (may_onlyIf fun _ => Prog.only_bind (may_execute trivial) fun _ => may_onlyIf fun _ =>
        Prog.only_bind (may_stageReady hr hp) fun _ => Prog.only_bind (may_reportLifecycle hr) fun _ => trivial)
          fun _ => trivial

theorem may_bootstrapError {e : Exc} (hr : P.report) (hp : P.provision) :
    (bootstrapError status metadata e : Act α).Only (P.allows i) := by
  cases e <;> first | trivial | exact Prog.only_bind (may_reportNotReady hr hp) fun _ => trivial

/-- The dial of a target, and what runs on it. -/
theorem may_withTarget {binding : Binding} {uid : Uid} {key knownHosts : String} {body : HostLeaseRef → Conn → Act α}
    (hd : P.dial) (h : ∀ lease conn, (body lease conn).Only (P.allows i)) :
    (withTarget binding uid key knownHosts body).Only (P.allows i) :=
  may_hostOperation fun lease => may_withConn (may_call hd) (h lease)

theorem may_reportProvisioned {address providerID strategy : String} (hr : P.report) (hp : P.provision) :
    (reportProvisioned status metadata address providerID strategy).Only (P.allows i) :=
  Prog.only_bind (may_call fun _ _ => stages_report hr rfl rfl rfl rfl rfl) fun _ =>
    Prog.only_bind (may_stageReady hr hp) fun _ => may_reportLifecycle hr

/-- A dry run dials and reports. -/
theorem may_dryRun {binding : Binding} {sshKey knownHosts : String} (hd : P.dial) (hr : P.report) (hp : P.provision) :
    (dryRun status metadata binding sshKey knownHosts).Only (P.allows i) :=
  Prog.only_bind (Prog.only_handle (Prog.only_bind (may_call hd) fun _ => may_call trivial) fun _ =>
    Prog.only_bind may_raiseIf fun _ => Prog.only_bind (may_reportNotReady hr hp) fun _ => trivial) fun _ =>
      Prog.only_bind (may_stageReady hr hp) fun _ => may_reportLifecycle hr

/-- A script that the tools have rendered for a Machine, as it is uploaded. -/
def Prepared (tools : PayloadTools) (spec : MachineSpec) (text : String) : Prop :=
  ∃ data address script, tools.render spec data (providerIDOf address) = .ok script ∧
    Staged tools spec.externalEtcd script text

/-- Dry-run dials its target and does nothing there. -/
theorem may_bootstrapMachine {owner : OwnerReference} {binding : Binding} {strategy : String} (hl : P.look)
    (hk : metadata.key = i.key) (hu : metadata.uid = i.uid) (hd : P.dial) (hm : P.mark) (hr : P.report)
    (hp : P.provision) (hb : spec.dryRun = false → P.own ∧ P.bootstrap)
    (hs : ∀ text, Prepared tools spec text → P.uploads text) :
    (bootstrapMachine tools spec status metadata owner binding strategy timeout).Only (P.allows i) := by
  unfold bootstrapMachine
  dsimp only
  refine Prog.only_bind may_readBootstrapData fun data => ?_
  split
  · exact Prog.only_bind (may_reportNotReady hr hp) fun _ => trivial
  · next payload =>
    split
    · exact Prog.only_bind (may_reportNotReady hr hp) fun _ => trivial
    · trivial
    · next script hrender =>
      split
      · exact Prog.only_bind (may_reportNotReady hr hp) fun _ => trivial
      · refine Prog.only_bind (Prog.only_handle (Prog.only_bind may_readSshKey fun _ =>
          Prog.only_bind may_readKnownHosts fun _ => trivial) fun _ => Prog.only_bind may_raiseIf fun _ =>
            Prog.only_bind (may_reportNotReady hr hp) fun _ => trivial) fun keys => ?_
        refine may_ite (fun _ => may_dryRun hd hr hp) fun hdry => ?_
        obtain ⟨ho, hb⟩ := hb (by simpa using hdry)
        refine Prog.only_bind (Prog.only_handle (Prog.only_bind (may_withTarget hd fun _ _ =>
          may_bootstrapUnderLease hl hk hu ho hb hm hr hp fun text ht =>
            hs text ⟨payload, binding.address, script, hrender, ht⟩) fun _ => may_value) fun _ => may_bootstrapError hr hp)
            fun _ => may_ite (fun _ => may_reportProvisioned hr hp) fun _ => trivial

theorem may_sshmachineReconcileImpl (hl : P.look) (hk : metadata.key = i.key) (hu : metadata.uid = i.uid) (ha : P.allocate)
    (hc : P.claim) (hm : P.mark) (hd : P.dial) (hr : P.report) (hp : P.provision)
    (hb : spec.dryRun = false → P.own ∧ P.bootstrap) (hs : ∀ text, Prepared tools spec text → P.uploads text) :
    (sshmachineReconcileImpl tools spec status metadata timeout).Only (P.allows i) := by
  refine Prog.only_bind (may_reportPause hr may_isPaused) fun _ => may_ite (fun _ => trivial) fun _ => ?_
  split
  · exact may_reportNotReady hr hp
  · split
    · exact Prog.only_bind (may_reportNotReady hr hp) fun _ => trivial
    · rw [hk, hu]
      exact Prog.only_bind (may_bindMachine hl ha hc hm) fun _ => may_ite (fun _ => may_backfillProvisionedFields hr)
        fun _ => may_bootstrapMachine hl hk hu hd hm hr hp hb hs

end CapiSsh
