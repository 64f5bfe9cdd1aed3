import CapiSsh.Identity
import CapiSsh.Serial
import CapiSsh.Sessions
import CapiSsh.HandlerReplay

/-!
# What the provider guarantees about claims that are left behind

A deletion that returns has given back every host that names its Machine, as long as it
records its cleanup while it still knows of each of them: by the allocation that it has
read or, where there is none, because the spec that it has read asks for a host.
-/
namespace CapiSsh

open Effect Interference

variable {S : Setting} {T : Trust} {i : MachineRef} {m : Machine} {w w' : World} {l : Local} {e : Exchange}
  {Q Q' : ObjectKey → Prop} {P : Powers}

/-- The hosts of its namespace that name the Machine are all of these. -/
def NamedBy (i : MachineRef) (w : World) (Q : ObjectKey → Prop) : Prop :=
  ∀ k h, w.hosts.lookup k = some h → k.ns = i.key.ns → h.names i.uid → Q k

/-- The hosts of its namespace that it has claimed are all of these. -/
def ClaimedBy (i : MachineRef) (w : World) (Q : ObjectKey → Prop) : Prop :=
  ∀ k h, w.hosts.lookup k = some h → k.ns = i.key.ns → h.spec.consumerRef = some i.consumer → Q k

theorem claimedBy_named (h : NamedBy i w Q) : ClaimedBy i w Q :=
  fun k x hx hns hc => h k x hx hns (names_consumer hc)

theorem namedBy_claimed (hT : T.claims = true) (ha : Accounted T w) (hn : Numbered w) (hi : journal i w ≠ [])
    (h : ClaimedBy i w Q) : NamedBy i w Q :=
  fun k x hx hns hu => h k x hx hns (consumer_named hT ha hn hi hx hu)

theorem claimedBy_weaken (h : ClaimedBy i w Q) (hQ : ∀ k, Q k → Q' k) : ClaimedBy i w Q' :=
  fun k x hx hns hc => hQ k (h k x hx hns hc)

/-- Nobody but the provider claims a host, and each Machine only claims its own. -/
theorem claim_back {k : ObjectKey} {h : Host} (hT : T.claims = true) (hr : Relies i w w') (hl : Lineage w w')
    (ha : Accounted T w) (ha' : Accounted T w') (hh : w'.hosts.lookup k = some h)
    (hc : h.spec.consumerRef = some i.consumer) :
    ∃ h₀, w.hosts.lookup k = some h₀ ∧ h₀.spec.consumerRef = some i.consumer := by
  have hheld := held_of_claimed ha' hT hh hc
  obtain ⟨us, hj, hu⟩ := hr.journal
  have hsame : heldOf h.metadata.uid (us ++ journal i w) = heldOf h.metadata.uid (journal i w) := by
    clear hj
    induction us with
    | nil => rfl
    | cons e us ih =>
      have he := hu e List.mem_cons_self
      rw [List.cons_append, heldOf_other (by cases e <;> first | rfl | cases he)]
      exact ih fun e' he' => hu e' (List.mem_cons_of_mem _ he')
  rw [hj, hsame] at hheld
  obtain ⟨h₀, hh₀, huid⟩ := hl k h hh (ha.heldKnown i _ hheld)
  obtain ⟨p, hp⟩ := Option.isSome_iff_exists.mp hheld
  exact ⟨h₀, hh₀, (ha.claimed hT k h₀ i p hh₀ (huid ▸ hp)).1⟩

theorem claimedBy_later (hT : T.claims = true) (hr : Relies i w w') (hl : Lineage w w') (ha : Accounted T w)
    (ha' : Accounted T w') (h : ClaimedBy i w Q) : ClaimedBy i w' Q := by
  intro k x hx hns hc
  obtain ⟨x₀, hx₀, hc₀⟩ := claim_back hT hr hl ha ha' hx hc
  exact h k x₀ hx₀ hns hc₀

def Op.claims : Op → Bool
  | .patchHost .. => true
  | _ => false

theorem storeHost_claimed {key : ObjectKey} {old new : Host} (hl : w.hosts.lookup key = some old)
    (hc : new.spec.consumerRef = some i.consumer → old.spec.consumerRef = some i.consumer) (h : ClaimedBy i w Q) :
    ClaimedBy i (w.storeHost key new) Q := by
  intro k x hx hns hcx
  have hx : (w.hosts.insert key (new.stamp (w.rev + 1))).lookup k = some x := hx
  by_cases hk : k = key
  · subst hk
    rw [AList.lookup_insert] at hx
    cases hx
    exact h k old hl hns (hc hcx)
  · rw [AList.lookup_insert_ne hk] at hx
    exact h k x hx hns hcx

theorem claimedBy_written {op : Op} (hop : op.claims = false) (hw : Written i op w w') (h : ClaimedBy i w Q) :
    ClaimedBy i w' Q := by
  cases hw with
  | claim ho _ _ => rw [ho] at hop; cases hop
  | phase _ hl _ => exact storeHost_claimed (Q := Q) hl id h
  | _ => exact h

/-- The hosts that a deletion of `m` will look for. -/
def Machine.expects (m : Machine) (k : ObjectKey) : Prop :=
  match m.status.allocation with
  | some binding => binding.hostRef = some k
  | none => m.spec.hostRef.isSome = true ∨ m.spec.hostSelector.isSome = true

/-- No host is forgotten by this call: not by a Machine that is removed, nor by a receipt. -/
structure Minds (i : MachineRef) (l : Local) (e : Exchange) : Prop where
  gone : live i l.calls = none → e.gone i = true → NamedBy i e.before fun _ => False
  receipt : ∀ m key pre p, live i l.calls = some m → e.op = .patchMachineStatus key pre p →
    p.cleanup = some .succeeded → NamedBy i e.before m.expects

/-- What every call of a serialized attempt can rely on, where no host of `u` is forgotten. -/
structure Mindful (S : Setting) (u i : MachineRef) (l : Local) (e : Exchange) : Prop where
  serial : Serial S i l e
  lineage : Lineage l.seen e.before
  accounted : Accounted S.trust l.seen
  minds : i = u → l.kind = .delete → Minds i l e

/-- The deletion of `m`, which has claimed none but these hosts. -/
structure Deleting (i : MachineRef) (m : Machine) (Q : ObjectKey → Prop) (l : Local) : Prop where
  kind : l.kind = .delete
  live : live i l.calls = some m
  claims : ClaimedBy i l.seen Q

abbrev Unguarded (_ : Attempt) (_ : Exchange) (_ : List Exchange) : Prop := True

/-- What becomes of a deletion that raises does not matter here. -/
abbrev Frees (S : Setting) (i : MachineRef) (K : Local → Prop) (p : Act α) (A : α → Local → Prop) : Prop :=
  Walks S (Mindful S i) i Unguarded K p A fun _ _ => True

theorem mindful_claims (hT : S.trust.claims = true) (h : Mindful S i i l e) (hq : ClaimedBy i l.seen Q) :
    ClaimedBy i e.before Q :=
  claimedBy_later hT h.serial.relies h.lineage (accounted_restage h.accounted) h.serial.consistent.accounted hq

theorem deleting_weaken (h : Deleting i m Q l) (hQ : ∀ k, Q k → Q' k) : Deleting i m Q' l :=
  ⟨h.kind, h.live, claimedBy_weaken h.claims hQ⟩

theorem claimedBy_unclaimed {ref : ObjectKey} {old : Host} {ev : Event} (h : ClaimedBy i w fun k => k = ref) :
    ClaimedBy i ((w.storeHost ref (old.claim none)).note i ev) fun _ => False := by
  intro k x hx hns hc
  have hx : (w.hosts.insert ref ((old.claim none).stamp (w.rev + 1))).lookup k = some x := hx
  by_cases hk : k = ref
  · subst hk
    rw [AList.lookup_insert] at hx
    cases hx
    cases hc
  · rw [AList.lookup_insert_ne hk] at hx
    exact hk (h k x hx hns hc)

/-- Everything but writes to the claim of a host. -/
def Powers.holding : Powers :=
  { look := True, allocate := True, own := True, record := True, clean := True, report := True, provision := True,
    claim := False, mark := True, dial := True, bootstrap := True, reboot := True, reset := True, apply := True,
    uploads := fun _ => True }

/-- The hosts of what a deletion releases. -/
def releases (binding : Option Binding) (k : ObjectKey) : Prop := ∃ b, binding = some b ∧ b.hostRef = some k

section anything

variable {Known : MachineRef → Local → Exchange → Prop} {K : Local → Prop}

theorem walks_any (p : Act α) : Walks S Known i Unguarded K p (fun _ _ => True) fun _ _ => True :=
  walks_conseq (walks_only (K := fun _ => True) (only_true p) fun _ _ _ _ _ _ _ _ _ _ _ => ⟨trivial, trivial⟩)
    (fun _ _ => trivial) (fun _ _ _ => trivial) fun _ _ _ => trivial

theorem walks_kind {a : Attempt} (p : Act α) :
    Walks S Known i Unguarded (fun l => l.kind = a) p (fun _ l => l.kind = a) fun _ l => l.kind = a :=
  walks_only (only_true p) fun _ _ _ _ _ _ _ hl _ _ _ => ⟨trivial, hl⟩

/-- A part that raises in the end. -/
theorem walks_raising {p : Act α} {e : Exc} {A : β → Local → Prop} :
    Walks S Known i Unguarded K (p >>= fun _ => throw e) A fun _ _ => True :=
  walks_bind (walks_any p) fun _ => walks_throw fun _ _ => trivial

theorem walks_blocked {message : String} {A : α → Local → Prop} :
    Walks S Known i Unguarded K (blocked m.status m.metadata message : Act α) A fun _ _ => True :=
  walks_raising

theorem walks_cleanupFailed {binding : Binding} {A : Unit → Local → Prop} :
    Walks S Known i Unguarded K (cleanupFailed binding m.metadata) A fun _ _ => True := by
  refine walks_bind (walks_any _) fun current => walks_guard (fun _ _ => trivial) fun _ =>
    walks_ite (fun _ => walks_raising) fun _ => walks_bind (walks_any _) fun _ => walks_raising

end anything

/-- All hosts of the namespace are listed. -/
theorem listed {ns : String} {c : Choice} {hosts : List Host}
    (ha : answer S.boots i (.listHosts ns) c w = some (.ok hosts, w')) {k : ObjectKey} {h : Host}
    (hl : w.hosts.lookup k = some h) (hns : h.metadata.key.ns = ns) : h ∈ hosts := by
  cases c with
  | listing l =>
    simp only [answer] at ha
    split at ha
    · rename_i hp
      cases ha
      refine (List.isPerm_iff.mp hp).mem_iff.mpr (List.mem_filter.mpr ⟨?_, by simpa using hns⟩)
      exact List.mem_map.mpr ⟨⟨k, h⟩, AList.mem_lookup_iff.mp hl, rfl⟩
    · cases ha
  | _ => cases ha

theorem expects_allocation {binding : Binding} (hb : m.status.allocation = some binding) {k : ObjectKey}
    (h : True ∧ m.expects k) : releases (some binding) k := by
  rw [Machine.expects, hb] at h
  exact ⟨binding, rfl, h.2⟩

/-- The search for a claim that a crash has left behind. -/
theorem frees_recoverIf {needed : Bool} :
    Frees S i (Deleting i m fun _ => True) (recoverIf needed i.key i.uid)
      fun recovered => Deleting i m fun k => needed = true → releases recovered k := by
  cases needed with
  | false => exact walks_pure fun l hl => deleting_weaken hl (by rintro k - ⟨⟩)
  | true =>
    refine walks_bind (A := fun (hosts : List Host) => Deleting i m fun k => ∃ h ∈ hosts,
      h.metadata.key = k ∧ sameConsumer h.spec.consumerRef i.key i.uid = true) ?_ fun hosts => ?_
    · refine walks_call fun l c w r w' hl hs ha hkn => ⟨trivial, ?_⟩
      obtain ⟨rfl, -⟩ := answer_listHosts ha
      cases r with
      | error e => trivial
      | ok hosts =>
        refine ⟨hl.kind, live_cons _ hl.live, fun k x hx hns hc => ⟨x, ?_, ?_, sameConsumer_iff.mpr hc⟩⟩
        · exact listed ha hx (((hkn.serial.basic.accounted.host k x hx).1 ▸ rfl : x.metadata.key.ns = k.ns).trans hns)
        · exact (hkn.serial.basic.accounted.host k x hx).1
    · have hmem : ∀ k, (∃ h ∈ hosts, h.metadata.key = k ∧ sameConsumer h.spec.consumerRef i.key i.uid = true) →
          ∃ h ∈ hosts.filter (fun h => sameConsumer h.spec.consumerRef i.key i.uid), h.metadata.key = k := by
        rintro k ⟨h, hh, hk, hc⟩
        exact ⟨h, List.mem_filter.mpr ⟨hh, hc⟩, hk⟩
      split
      · rename_i hf
        refine walks_pure fun l hl => deleting_weaken hl fun k hk _ => ?_
        obtain ⟨h, hh, -⟩ := hmem k hk
        rw [hf] at hh
        cases hh
      · rename_i host hf
        refine walks_pure fun l hl => deleting_weaken hl fun k hk _ => ?_
        obtain ⟨h, hh, rfl⟩ := hmem k hk
        rw [hf] at hh
        obtain rfl := List.mem_singleton.mp hh
        exact ⟨_, rfl, rfl⟩
      · exact walks_throw fun _ _ => trivial

section walks

variable (hT : S.trust.claims = true)

include hT

theorem deleting_push {op : Op} {r : Except Exc (Reply op)} (hl : Deleting i m Q l)
    (hop : op.claims = false) (hw : Written i op w w') (hk : Mindful S i i l ⟨op, r, w, w'⟩) :
    Deleting i m Q (l.push i ⟨op, r, w, w'⟩) :=
  ⟨hl.kind, live_cons _ hl.live, claimedBy_written hop hw (mindful_claims hT hk hl.claims)⟩

theorem keeps_deleting : Keeps S (Mindful S i) i Unguarded (Powers.holding.allows i) (Deleting i m Q) := by
  intro op hop l c w r w' hl hs ha hk
  refine ⟨trivial, deleting_push hT hl ?_ (answer_written ha) hk⟩
  cases op with
  | patchHost key pre ref => exact hop.elim
  | _ => rfl

/-- A part that writes no claim. -/
theorem frees_skip {p : Act α} {f : α → Act β} {B : β → Local → Prop} (hp : p.Only (Powers.holding.allows i))
    (hf : ∀ a, Frees S i (Deleting i m Q) (f a) B) : Frees S i (Deleting i m Q) (p >>= f) B :=
  walks_skip (keeps_deleting hT) hp (fun _ _ _ => trivial) hf

theorem frees_kept {p : Act α} (hp : p.Only (Powers.holding.allows i)) :
    Frees S i (Deleting i m Q) p fun _ => Deleting i m Q :=
  walks_conseq (walks_kept (keeps_deleting hT) hp) (fun _ hl => hl) (fun _ _ hl => hl) fun _ _ _ => trivial

/-- The receipt: no host is forgotten when it is written. -/
theorem frees_receipt {reason message : String} (hk : m.metadata.key = i.key) (hu : m.metadata.uid = i.uid) :
    Frees S i (Deleting i m Q) (recordCleanup m.metadata .succeeded reason message)
      fun _ => Deleting i m fun k => Q k ∧ m.expects k := by
  unfold recordCleanup
  rw [hk, hu]
  refine frees_skip hT (may_call trivial) fun patch => frees_skip hT (may_call fun _ _ => ?_) fun _ =>
    frees_skip hT (may_call trivial) fun now => walks_bind (A := fun _ => Deleting i m fun k => Q k ∧ m.expects k) ?_
      fun stored => frees_kept hT (may_call fun _ _ => stages_report trivial rfl rfl rfl rfl rfl)
  · exact ⟨.inr rfl, .inr rfl, .inr rfl, .inr rfl, .inl trivial, .inr rfl⟩
  refine frees_skip hT (may_call ⟨rfl, trivial⟩) fun current => walks_guard (fun _ _ => trivial) fun _ =>
    frees_skip hT (may_call trivial) fun time => walks_handle (E := fun _ _ => True) ?_ fun e => ?_
  · refine walks_call fun l c w r w' hl hs ha hkn => ⟨trivial, ?_⟩
    cases r with
    | error e => trivial
    | ok stored =>
      have hold := mindful_claims hT hkn hl.claims
      have hexp := claimedBy_named ((hkn.minds rfl hl.kind).receipt m _ _ _ hl.live rfl rfl)
      exact ⟨hl.kind, live_cons _ hl.live, claimedBy_written rfl (answer_written ha)
        fun k x hx hns hc => ⟨hold k x hx hns hc, hexp k x hx hns hc⟩⟩
  · split <;> exact walks_throw fun _ _ => trivial

/-- The host of the binding is given back. -/
theorem frees_releaseHost {binding : Binding} {key : ObjectKey} {uid : Uid} :
    Frees S i (Deleting i m fun k => binding.hostRef = some k) (releaseHost binding key uid)
      fun _ => Deleting i m fun _ => False := by
  unfold releaseHost
  cases hb : binding.hostRef with
  | none => exact walks_pure fun l hl => deleting_weaken hl (by rintro k ⟨⟩)
  | some ref =>
    refine walks_bind (A := fun host => Deleting i m fun k => k = ref ∧ host.spec.consumerRef.isSome = true) ?_
      fun host => walks_guard (fun _ _ => trivial) fun _ => walks_onlyIf (fun _ => ?_) fun hn l hl =>
        deleting_weaken hl fun _ hk => hn hk.2
    · refine walks_call fun l c w r w' hl hs ha hkn => ⟨trivial, ?_⟩
      have hold := mindful_claims hT hkn hl.claims
      obtain ⟨rfl, hread⟩ := answer_readHost ha
      cases r with
      | error e => trivial
      | ok host =>
        refine ⟨hl.kind, live_cons _ hl.live, fun k x hx hns hc => ?_⟩
        obtain rfl : k = ref := (Option.some.inj (hold k x hx hns hc)).symm
        obtain rfl := Option.some.inj ((hread host rfl).symm.trans hx)
        exact ⟨rfl, by rw [hc]; rfl⟩
    · refine walks_guard (fun _ _ => trivial) fun _ => frees_skip hT (may_call trivial) fun host => ?_
      refine walks_bind (A := fun _ => Deleting i m fun _ => False) ?_ fun _ => walks_pure fun _ hl => hl
      refine walks_call fun l c w r w' hl hs ha hkn => ⟨trivial, ?_⟩
      have hold := mindful_claims hT hkn hl.claims
      cases r with
      | error e => trivial
      | ok host =>
        rcases answer_patchHost ha with ⟨-, e, he⟩ | ⟨old, -, -, -, -, rfl⟩
        · cases he
        · exact ⟨hl.kind, live_cons _ hl.live, claimedBy_unclaimed (claimedBy_weaken hold fun _ hk => hk.1)⟩

theorem frees_releaseCleanedHost {binding : Option Binding} :
    Frees S i (Deleting i m (releases binding)) (releaseCleanedHost binding m.metadata m.status)
      fun _ => Deleting i m fun _ => False := by
  cases binding with
  | none => exact walks_pure fun l hl => deleting_weaken hl (by rintro k ⟨b, ⟨⟩, -⟩)
  | some binding =>
    refine walks_handle (E := fun _ _ => True) (walks_weaken (frees_releaseHost hT) fun l hl =>
      deleting_weaken hl ?_) fun e => ?_
    · rintro k ⟨b, hb, hk⟩
      cases hb
      exact hk
    · exact walks_guard (fun _ _ => trivial) fun _ => walks_raising

/-- Nothing was started; the host goes back as soon as that is recorded. -/
theorem frees_deleteUnowned (hk : m.metadata.key = i.key) (hu : m.metadata.uid = i.uid) :
    Frees S i (Deleting i m fun _ => True) (deleteUnowned m.spec m.status m.metadata)
      fun _ => Deleting i m fun _ => False := by
  unfold deleteUnowned
  dsimp only
  rw [hk, hu]
  refine walks_bind (frees_recoverIf) fun recovered =>
    frees_skip hT (may_adoptClaim trivial hk hu trivial trivial) fun _ => ?_
  refine walks_bind (A := fun _ l => ¬ ((m.status.provisioned == some true || (filled m.spec.providerID).isSome) = true ∨
    m.spec.hostRef.isSome = true ∧ (m.status.allocation.or recovered).isNone = true) ∧ Deleting i m (fun k =>
      ((!(m.status.provisioned == some true || (filled m.spec.providerID).isSome) && m.status.allocation.isNone &&
        (m.spec.hostRef.isSome || m.spec.hostSelector.isSome)) = true → releases recovered k)) l) ?_ fun _ =>
    walks_intro fun hfresh => ?_
  · refine walks_onlyIf (fun _ => ?_) fun hn l hl => ⟨hn, hl⟩
    cases m.status.allocation.or recovered with
    | none => exact walks_blocked
    | some binding => exact walks_bind (walks_any _) fun _ => walks_blocked
  refine walks_bind (frees_receipt hT hk hu) fun _ => walks_weaken (frees_releaseCleanedHost hT) fun l hl =>
    deleting_weaken hl ?_
  rintro k ⟨hrec, hexp⟩
  unfold Machine.expects at hexp
  cases hb : m.status.allocation with
  | some binding =>
    rw [hb] at hexp
    exact ⟨binding, rfl, hexp⟩
  | none =>
    rw [hb] at hexp
    -- the spec that asks for a host is what the search was made for
    refine hrec ?_
    rcases hexp with h | h <;> simp_all

/-- The reset of a host, up to its receipt. -/
theorem frees_resetHost {operation : HostLeaseRef} {conn : Conn} (hk : m.metadata.key = i.key)
    (hu : m.metadata.uid = i.uid) :
    Frees S i (Deleting i m fun _ => True) (resetHost operation conn m.metadata)
      fun _ => Deleting i m fun k => True ∧ m.expects k := by
  unfold resetHost
  refine frees_skip hT (by rw [hk]; exact may_checkCurrent trivial) fun _ => frees_skip hT may_checkLease fun _ =>
    frees_skip hT (may_execute ⟨by rintro ⟨⟩, trivial⟩) fun _ => walks_guard (fun _ _ => trivial) fun _ =>
      frees_receipt hT hk hu

theorem frees_cleanHost {binding : Binding} (hb : m.status.allocation = some binding) (hk : m.metadata.key = i.key)
    (hu : m.metadata.uid = i.uid) :
    Frees S i (Deleting i m fun _ => True) (cleanHost binding m.status m.metadata)
      fun _ => Deleting i m fun _ => False := by
  unfold cleanHost
  refine frees_skip hT (may_setHostPhase trivial) fun _ =>
    frees_skip hT (may_recordCleanup trivial hk hu trivial trivial) fun _ => ?_
  refine walks_bind (A := Closed (fun _ => Deleting i m fun k => True ∧ m.expects k) fun _ => True) ?_ fun exit => ?_
  · refine walks_handle (E := fun _ _ => True) (walks_conseq (walks_withHost (P := Powers.holding)
      (F := fun _ => True) trivial (fun _ => keeps_deleting hT) (fun _ _ _ _ _ _ _ _ _ _ _ => ⟨trivial, trivial⟩)
      (fun _ _ _ => trivial) (fun _ _ => trivial) (keeps_deleting hT) (fun _ _ => trivial)
      fun lease conn _ => frees_resetHost hT hk hu) (fun _ hl => hl) (fun _ _ hl => hl) fun _ _ _ => trivial) fun e => ?_
    exact walks_pure fun l _ => ⟨by rintro a ⟨⟩, trivial⟩
  · split
    · rename_i a ho
      refine walks_weaken (frees_releaseCleanedHost hT) fun l hl => ?_
      obtain ⟨hr, hl⟩ := hl
      rw [hr a ho] at hl
      exact deleting_weaken hl fun k => expects_allocation hb
    · exact walks_throw fun _ _ => trivial
    · exact walks_guard (fun _ _ => trivial) fun _ => walks_cleanupFailed

theorem frees_deleteOwned {ownership : Ownership} (hk : m.metadata.key = i.key) (hu : m.metadata.uid = i.uid) :
    Frees S i (Deleting i m fun _ => True) (deleteOwned m.spec m.status m.metadata ownership)
      fun _ => Deleting i m fun _ => False := by
  unfold deleteOwned
  split
  · exact walks_blocked
  · rename_i binding hb
    refine frees_skip hT (may_onlyIf fun _ => may_blocked trivial) fun _ =>
      frees_skip hT (may_onlyIf fun _ => may_blocked trivial) fun _ => walks_ite (fun _ => ?_) fun _ =>
        walks_ite (fun _ => walks_bind (walks_any _) fun _ => walks_raising) fun _ => frees_cleanHost hT hb hk hu
    exact walks_bind (frees_receipt hT hk hu) fun _ => walks_weaken (frees_releaseCleanedHost hT) fun l hl =>
      deleting_weaken hl fun k => expects_allocation hb

theorem frees_deleteMachine (hk : m.metadata.key = i.key) (hu : m.metadata.uid = i.uid) :
    Frees S i (Deleting i m fun _ => True) (deleteMachine m.spec m.status m.metadata)
      fun _ => Deleting i m fun _ => False := by
  unfold deleteMachine
  refine frees_skip hT (may_call fun _ _ => stages_report trivial rfl rfl rfl rfl rfl) fun _ =>
    frees_skip hT (may_patchConditions trivial) fun _ => frees_skip hT (may_reportPause trivial may_isPaused) fun _ =>
      frees_skip hT (may_onlyIf fun _ => Prog.only_bind (may_patchConditions trivial) fun _ => trivial) fun _ =>
        frees_skip hT (may_onlyIf fun _ => may_blocked trivial) fun _ => ?_
  split
  · exact frees_deleteUnowned hT hk hu
  · exact frees_deleteOwned hT hk hu

/-- What is known of an attempt when it has ended. -/
def Freed (i : MachineRef) (r : Except Exc (Option Binding)) (l : Local) : Prop :=
  ∀ b, r = .ok b → l.kind = .delete → ClaimedBy i l.seen fun _ => False

theorem framed_freed (a : Attempt) : Framed S (Mindful S i) i Unguarded a (Freed i) where
  basic _ _ h := h.serial.basic
  guard _ _ _ _ _ := trivial
  locking l e h := by rintro b ⟨⟩
  missed l r h hv := by
    rintro b rfl hkind
    obtain ⟨l₀, e, rfl, he⟩ := h.calls
    obtain ⟨e', he', hgone⟩ := hv b rfl
    obtain rfl : e = e' := by simpa [Local.push] using he'
    have hnone : live i l₀.calls = none := by rw [live, firstRead_locks he.locks]; rfl
    have hclear := claimedBy_named ((he.known.minds rfl hkind).gone hnone hgone)
    change ClaimedBy i e.after _
    rw [he.after]
    exact hclear
  part m hu := by
    by_cases ha : a = .delete
    · subst ha
      refine walks_have (m.metadata.key = i.key) (fun l h => h.key) fun hk => ?_
      refine walks_conseq (walks_bind (B := fun _ => Deleting i m fun _ => False) (frees_deleteMachine hT hk hu)
        fun _ => walks_pure fun _ hl => hl) (fun l h => ⟨h.kind, began_live h hu, fun _ _ _ _ _ => trivial⟩)
        (fun r l hl b _ _ => hl.claims) ?_
      rintro e l - b ⟨⟩
    · refine walks_conseq (walks_kind _) (fun l h => h.kind) (fun r l hl b _ hkind => absurd (hl.symm.trans hkind) ha) ?_
      rintro e l - b ⟨⟩
  release l r c w b w' h hs ha hk := by
    refine ⟨trivial, fun b' hb hkind => ?_⟩
    exact claimedBy_written rfl (answer_written ha) (mindful_claims hT hk (h b' hb hkind))
  raised l r e h := by rintro b ⟨⟩
  apply _ _ _ _ _ _ _ _ _ _ := trivial

end walks

section runs

variable {c : Crew MachineRef}

theorem seen_accounted (h : Reachable (handlers S id) (idle (Site.empty MachineRef)) c) :
    ∀ k, Accounted S.trust (c.world.attempts k).seen := by
  induction h with
  | refl => exact fun _ => accounted_empty
  | tail hr hs ih =>
    have hnow := (serialized_consistent (hr.tail hs)).accounted
    have hthen := (serialized_consistent hr).accounted
    intro i
    cases hs with
    | env he => obtain ⟨ch, w', -, rfl⟩ := he; exact ih i
    | @start k p s' hn he =>
      obtain ⟨a, -, -, rfl⟩ := he
      rw [set_world]
      by_cases hk : i = k
      · subst hk
        rw [put_same]
        exact hthen
      · rw [put_other _ _ _ hk]
        exact ih i
    | @call k op kont r s' hk he =>
      obtain ⟨ch, w', -, rfl⟩ := he
      rw [set_world] at hnow ⊢
      by_cases hki : i = k
      · subst hki
        rw [recorded_same]
        exact hnow
      · rw [recorded_other _ _ _ hki]
        exact ih i
    | finish _ _ he => obtain rfl := he; exact ih i
    | crash _ he => obtain rfl := he; exact ih i

/-- The branch that goes wrong is not taken for `u`: none of its deletions finds it removed
while a host still names it, or records its cleanup while one does that it does not look for. -/
def KeepsTrack (u : MachineRef) : RunCondition MachineRef := fun k op s r s' =>
  k = u → (s.attempts k).kind = .delete → Minds k (s.attempts k) ⟨op, r, s.meets id k, s'.world⟩

/-- A deletion of `i` that has returned leaves no host of its namespace that names `i`. -/
theorem claims_returned {b : Option Binding} (hT : S.trust.claims = true)
    (h : Reachable ((handlers S id).limit (KeepsTrack i)) (idle (Site.empty MachineRef)) c)
    (hend : c.thread i = some (.pure (.ok b))) (hkind : (c.world.attempts i).kind = .delete) :
    NamedBy i c.world.world fun _ => False := by
  have hfollow := framed_runs id (K := Mindful S i) (G := OnlyFor i Unguarded)
    (Z := fun k _ r l => k = i → Freed i r l)
    (I := fun c => Reachable (handlers S id) (idle (Site.empty MachineRef)) c) (fun _ hc => limit_reachable hc)
    (fun c k op kont r ch w' hc hk _ hC => ⟨serial_known hc hk, (reachable_named hc).lineage k, seen_accounted hc k, hC⟩)
    (fun k a => framed_only (fun _ _ _ h => h.serial.basic) (framed_freed hT a)) h i
  obtain ⟨a, l₀, e, hfreed, he, (hl : c.world.attempts i = l₀.push i e)⟩ := hfollow.2 _ hend _ rfl
  have hreach := limit_reachable h
  have hsteady := reachable_steady hreach
  have hnow := (serialized_consistent hreach).accounted
  -- what the attempt knew before Kopf's write, after it, and until now
  have hwritten : Written i e.op e.before e.after := by
    obtain ⟨ch, ha⟩ := he.answered
    exact answer_written ha
  have hkind' : l₀.kind = .delete := by rw [hl] at hkind; exact hkind
  have hafter : ClaimedBy i e.after fun _ => False :=
    claimedBy_written (by rw [he.op]; rfl) hwritten (mindful_claims hT he.known (hfreed rfl b rfl hkind'))
  have hseen : ClaimedBy i ((c.world.attempts i).view i) fun _ => False := by rw [hl, push_view]; exact hafter
  exact namedBy_claimed hT hnow (reachable_named hreach).numbered (hsteady.known i _ hend)
    (claimedBy_later hT (serialized_undisturbed hreach i) ((reachable_named hreach).lineage i)
      (accounted_restage (seen_accounted hreach i)) hnow hseen)

/-- A Machine whose attempt ended right after its claim of a host was committed. -/
def claimedThenCrashed : List (Turn MachineRef) :=
  [.change (.createHost (smallHost "h" "a")), .change (.createMachine (smallMachine "m" none)),
    .start (smallRef "m" 2) .reconcile, .usual (smallRef "m" 2) 6, .crash (smallRef "m" 2)]

/-- Its spec no longer asks for a host when it is deleted. -/
def deletedElsewhere : List (Turn MachineRef) :=
  claimedThenCrashed ++ [.change (.editMachine ⟨"n", "m"⟩ (smallSpec (some "b")) (smallMeta "m")),
    .change (.deleteMachine ⟨"n", "m"⟩ 0), .start (smallRef "m" 2) .delete, .usual (smallRef "m" 2) 15]

/-- A deletion of `i` has returned. -/
def deleted (i : MachineRef) (c : Crew MachineRef) : Bool :=
  match c.thread i with
  | some (.pure (.ok _)) => (c.world.attempts i).kind == .delete
  | _ => false

theorem deleted_thread {c : Crew MachineRef} (h : deleted i c = true) :
    ∃ b, c.thread i = some (.pure (.ok b)) ∧ (c.world.attempts i).kind = .delete := by
  unfold deleted at h
  split at h
  · rename_i b hp
    exact ⟨b, hp, by simpa using h⟩
  · cases h

/-- The selector is removed from the spec before the Machine is deleted. -/
theorem claim_left : ¬ ∀ (c : Crew MachineRef) (b : Option Binding),
    Reachable (handlers smallSetting id) (idle (Site.empty MachineRef)) c →
      c.thread (smallRef "m" 2) = some (.pure (.ok b)) → (c.world.attempts (smallRef "m" 2)).kind = .delete →
        NamedBy (smallRef "m" 2) c.world.world fun _ => False := by
  intro hall
  have h : (takes smallSetting id unchecked smallUsual deletedElsewhere (idle (Site.empty MachineRef))).any (fun c =>
      deleted (smallRef "m" 2) c && (c.world.world.hosts.lookup ⟨"n", "h"⟩).any fun h => h.names 2) = true := by
    decide +kernel
  obtain ⟨c, hc, hb⟩ := takes_exists h
  rw [Bool.and_eq_true] at hb
  obtain ⟨hd, hn⟩ := hb
  obtain ⟨b, hend, hkind⟩ := deleted_thread hd
  obtain ⟨x, hx, hn⟩ := (Option.any_eq_true _ _).mp hn
  exact hall c b hc hend hkind ⟨"n", "h"⟩ x hx rfl (of_decide_eq_true hn)

/-- Its spec still asks for one. -/
def deletedInPlace : List (Turn MachineRef) :=
  claimedThenCrashed ++ [.change (.deleteMachine ⟨"n", "m"⟩ 0), .start (smallRef "m" 2) .delete,
    .usual (smallRef "m" 2) 22]

def recovering (k : MachineRef) (e : Exchange) (s : Site MachineRef) : Bool :=
  !e.gone k && (live k (s.attempts k).calls).all fun m => m.status.allocation.isNone && m.spec.hostSelector.isSome

/-- A claim whose allocation was never written is found and given back. -/
theorem claims_returned_recovered : ∃ (c : Crew MachineRef) (b : Option Binding),
    Reachable ((handlers smallSetting id).limit (KeepsTrack (smallRef "m" 2))) (idle (Site.empty MachineRef)) c ∧
      c.thread (smallRef "m" 2) = some (.pure (.ok b)) ∧ (c.world.attempts (smallRef "m" 2)).kind = .delete ∧
        NamedBy (smallRef "m" 2) c.world.world fun _ => False := by
  have h : (takes smallSetting id recovering smallUsual deletedInPlace (idle (Site.empty MachineRef))).any
      (deleted (smallRef "m" 2)) = true := by
    decide +kernel
  have hC : ∀ k op s r w', recovering k ⟨op, r, s.meets id k, w'⟩ s = true →
      KeepsTrack (smallRef "m" 2) k op s r (s.record k (id k) ⟨op, r, s.meets id k, w'⟩) := by
    rintro k op s r w' hcheck - -
    rw [recovering, Bool.and_eq_true, Bool.not_eq_true'] at hcheck
    refine ⟨fun _ hg => absurd (hcheck.1.symm.trans hg) (by decide), fun m key pre p hm _ _ k' x _ _ _ => ?_⟩
    rw [hm] at hcheck
    have hasks := hcheck.2
    simp only [Option.all_some, Bool.and_eq_true, Option.isNone_iff_eq_none] at hasks
    rw [Machine.expects, hasks.1]
    exact .inr hasks.2
  obtain ⟨c, hc, hb⟩ := takes_limited_exists hC h
  obtain ⟨b, hend, hkind⟩ := deleted_thread hb
  exact ⟨c, b, hc, hend, hkind, claims_returned rfl hc hend hkind⟩

end runs

end CapiSsh
