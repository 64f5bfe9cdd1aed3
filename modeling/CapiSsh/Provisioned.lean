import CapiSsh.HandlerReplay
import CapiSsh.Permits

/-!
# What the provider guarantees about initialization

A Machine that is stored as provisioned stays so, as long as no attempt leaves through an
exit that comes before the check for that: a Machine without a CAPI owner or with an
unknown check strategy is reported as not provisioned, whatever it was before.
-/
namespace CapiSsh

open Effect Interference

def Op.stages : Op → Bool
  | .stage _ => true
  | _ => false

/-- Nothing that the call has read pauses the Machine. -/
def Exchange.unpaused (e : Exchange) : Bool :=
  match e with
  | ⟨.readCapi .., .ok obj, _, _⟩ => !obj.isPaused
  | ⟨.readCapi .., .error _, _, _⟩ => false
  | _ => true

/-- A provisioned Machine that reconciliation does not get as far as to recognize. -/
def Machine.exposed (m : Machine) : Bool :=
  m.status.provisioned == some true && m.metadata.deletionTimestamp.isNone &&
    !(m.spec.paused || hasKey pausedAnnotation m.metadata.annotations) &&
    ((m.metadata.ownerReferences.find? isMachineOwner).isNone || (normalizeBootstrapCheckStrategy m.spec).isNone)

/-- The pause check has been passed, and that has been staged. -/
def LetThrough (calls : List Exchange) : Prop :=
  (∃ e ∈ calls, e.op.stages = true) ∧ ∀ e ∈ calls, e.unpaused = true

/-- An attempt that works on an exposed Machine stages nothing once it is let through. -/
def NoExit (i : MachineRef) (l : Local) (op : Op) : Prop :=
  l.kind = .reconcile → ∀ m, live i l.calls = some m → m.exposed = true → LetThrough l.calls → op.stages = false

/-- Staging does not take initialization back. -/
def KeepsProvisioned (i : MachineRef) (a : Attempt) (e : Exchange) (earlier : List Exchange) : Prop :=
  a = .reconcile → ∀ m, live i earlier = some m → m.status.provisioned = some true → ∀ f, e.op = .stage f →
    ∀ t p, p.status.provisioned ≠ some false → (f t p).status.provisioned ≠ some false

/-- Everything but reporting initialization. -/
def keeping : Powers :=
  ⟨True, True, True, True, True, True, False, True, True, True, True, True, True, False, fun _ => True⟩

section walks

variable {S : Setting} {i : MachineRef} {m : Machine}

/-- What is known when an exit would be taken. -/
def Careful (u i : MachineRef) (l : Local) (e : Exchange) : Prop := Basic i l e ∧ (i = u → NoExit u l e.op)

/-- The attempt works on the provisioned Machine `m`. -/
structure Works (i : MachineRef) (m : Machine) (l : Local) : Prop where
  kind : l.kind = .reconcile
  live : live i l.calls = some m
  provisioned : m.status.provisioned = some true

theorem works_push {l : Local} (e : Exchange) (h : Works i m l) : Works i m (l.push i e) :=
  ⟨h.kind, live_cons e h.live, h.provisioned⟩

/-- Everything but a report of initialization leaves it alone. -/
theorem keeps_allowed {a : Attempt} {e : Exchange} {earlier : List Exchange} (h : keeping.allows i e.op) :
    KeepsProvisioned i a e earlier := by
  intro _ m _ _ f hf t p hp
  rw [hf] at h
  rcases (h t p).provisioned with hn | he
  · exact hn.elim
  · rw [he]; exact hp

theorem walks_keeping {p : Act α} (hp : p.Only (keeping.allows i)) :
    Walks S (Careful i) i (KeepsProvisioned i) (Works i m) p (fun _ => Works i m) fun _ => Works i m :=
  walks_only hp fun _ hop _ _ _ _ _ hl _ _ _ => ⟨keeps_allowed hop, works_push _ hl⟩

/-- All that was read of the owners lets the attempt through. -/
def Clear (i : MachineRef) (m : Machine) (l : Local) : Prop := Works i m l ∧ ∀ e ∈ l.calls, e.unpaused = true

theorem clear_push {l : Local} {e : Exchange} (h : Clear i m l) (he : e.unpaused = true) : Clear i m (l.push i e) := by
  refine ⟨works_push e h.1, fun x hx => ?_⟩
  rcases List.mem_cons.mp hx with rfl | hx
  · exact he
  · exact h.2 x hx

theorem walks_readOwner {plural version message : String} {key : ObjectKey} :
    Walks S (Careful i) i (KeepsProvisioned i) (Clear i m) (readOwner plural version key message)
      (fun o l => Works i m l ∧ ∀ obj, o = some obj → obj.isPaused = false → Clear i m l) fun _ => Works i m := by
  have hcall : Walks S (Careful i) i (KeepsProvisioned i) (Clear i m) (call (.readCapi plural version key))
      (fun obj l => Works i m l ∧ (CapiObject.isPaused obj = false → Clear i m l)) fun _ => Works i m := by
    refine walks_call fun l c w r w' hl _ _ _ => ⟨keeps_allowed trivial, ?_⟩
    cases r with
    | error e => exact works_push _ hl.1
    | ok obj => exact ⟨works_push _ hl.1, fun hp => clear_push hl (congrArg Bool.not hp)⟩
  refine walks_handle (walks_bind hcall fun obj => walks_pure ?_) fun e => ?_
  · rintro l ⟨hw, hc⟩
    refine ⟨hw, ?_⟩
    rintro _ ⟨⟩ hp
    exact hc hp
  · split
    · exact walks_pure fun l hl => ⟨hl, by rintro obj ⟨⟩⟩
    · exact walks_throw fun l hl => hl
    · exact walks_throw fun l hl => hl

/-- An attempt that is let through has read nothing that pauses its Machine. -/
theorem walks_isPausedOwners {ns : String} (owners : List OwnerReference) :
    ∀ (name : Option String) (version : String),
      Walks S (Careful i) i (KeepsProvisioned i) (Clear i m) (isPausedOwners ns owners name version)
        (fun paused l => Works i m l ∧ (paused = false → Clear i m l)) fun _ => Works i m := by
  induction owners with
  | nil =>
    intro name version
    unfold isPausedOwners
    split
    · exact walks_pure fun l hl => ⟨hl.1, fun _ => hl⟩
    · refine walks_bind walks_readOwner fun o => ?_
      cases o with
      | none => exact walks_pure fun l hl => ⟨hl.1, by rintro ⟨⟩⟩
      | some obj => exact walks_pure fun l hl => ⟨hl.1, hl.2 obj rfl⟩
  | cons owner rest ih =>
    intro name version
    unfold isPausedOwners
    split
    · exact ih _ _
    · refine walks_ite (fun _ => ih _ _) fun _ => walks_bind walks_readOwner fun o => ?_
      cases o with
      | none => exact walks_pure fun l hl => ⟨hl.1, by rintro ⟨⟩⟩
      | some obj =>
        refine walks_ite (fun _ => walks_throw fun l hl => hl.1) fun _ => walks_ite (fun _ => ?_) fun hp => ?_
        · exact walks_pure fun l hl => ⟨hl.1, by rintro ⟨⟩⟩
        · have hclear : obj.isPaused = false := by simpa using hp
          refine walks_ite (fun _ => walks_pure fun l hl => ⟨hl.1, fun _ => hl.2 obj rfl hclear⟩) fun _ => ?_
          exact walks_weaken (ih _ _) fun l hl => hl.2 obj rfl hclear

/-- What is known of an attempt whose pause check has ended. -/
def Checked (i : MachineRef) (m : Machine) (paused : Bool) (l : Local) : Prop :=
  Works i m l ∧ (paused = false →
    (m.spec.paused || hasKey pausedAnnotation m.metadata.annotations) = false ∧ Clear i m l)

/-- The walk over the owners ends let through only where nothing paused it. -/
theorem walks_isPaused {ns : String} :
    Walks S (Careful i) i (KeepsProvisioned i) (Clear i m) (isPaused m.spec m.metadata ns) (Checked i m)
      fun _ => Works i m := by
  refine walks_ite (fun _ => walks_pure fun l hl => ⟨hl.1, by rintro ⟨⟩⟩) fun hp => ?_
  exact walks_conseq (walks_isPausedOwners _ _ _) (fun l hl => hl)
    (fun paused l hl => ⟨hl.1, fun h => ⟨by simpa using hp, hl.2 h⟩⟩) fun _ l hl => hl

theorem walks_patchConditions {paused : Bool} {updates : List Condition} :
    Walks S (Careful i) i (KeepsProvisioned i) (Checked i m paused) (patchConditions m.status m.metadata updates)
      (fun _ l => Checked i m paused l ∧ ∃ e ∈ l.calls, e.op.stages = true) fun _ => Works i m := by
  refine walks_call fun l c w r w' hl _ _ _ => ⟨keeps_allowed fun _ _ => stages_report trivial rfl rfl rfl rfl rfl, ?_⟩
  have hpush : Checked i m paused (l.push i ⟨_, r, w, w'⟩) :=
    ⟨works_push _ hl.1, fun hp => ⟨(hl.2 hp).1, clear_push (hl.2 hp).2 rfl⟩⟩
  cases r with
  | error e => exact hpush.1
  | ok u => exact ⟨hpush, _, List.mem_cons_self, rfl⟩

/-- The verdict is staged before the attempt goes on. -/
theorem walks_reportPause {ns : String} :
    Walks S (Careful i) i (KeepsProvisioned i) (Clear i m)
      (reportPause m.status m.metadata (isPaused m.spec m.metadata ns))
      (fun paused l => Checked i m paused l ∧ ∃ e ∈ l.calls, e.op.stages = true) fun _ => Works i m := by
  refine walks_bind (A := Checked i m) (walks_handle walks_isPaused fun e => ?_) fun paused =>
    walks_bind walks_patchConditions fun _ => walks_pure fun l hl => hl
  have hreport : Walks S (Careful i) i (KeepsProvisioned i) (Works i m)
      (patchConditions m.status m.metadata [condition "Paused" "Unknown" "PauseCheckFailed"
        "Cannot establish CAPI pause and owner state"]) (fun _ => Works i m) fun _ => Works i m :=
    walks_keeping (may_patchConditions trivial)
  change Walks S (Careful i) i (KeepsProvisioned i) (Works i m) (if e ≠ .cancelled then _ else _) _ _
  split
  · exact walks_bind hreport fun _ => walks_throw fun l hl => hl
  · exact walks_throw fun l hl => hl

/-- The exit that is not taken. -/
theorem walks_noExit {A : Unit → Local → Prop} {E : Exc → Local → Prop} {reason message bootstrapReason
    bootstrapMessage : String} (hm : m.metadata.deletionTimestamp.isNone = true)
    (he : (m.metadata.ownerReferences.find? isMachineOwner).isNone = true ∨
      (normalizeBootstrapCheckStrategy m.spec).isNone = true) :
    Walks S (Careful i) i (KeepsProvisioned i)
      (fun l => Checked i m false l ∧ ∃ e ∈ l.calls, e.op.stages = true)
      (reportNotReady m.status m.metadata reason message bootstrapReason bootstrapMessage) A E := by
  refine walks_bind (A := fun _ _ => False) ?_ fun _ l _ h => h.elim
  refine walks_call ?_
  rintro l c w r w' ⟨⟨hw, hc⟩, hst⟩ _ _ ⟨-, hn⟩
  obtain ⟨hp, hclear⟩ := hc rfl
  have hexposed : m.exposed = true := by
    simp only [Machine.exposed, hw.provisioned, hm, hp, beq_self_eq_true, Bool.not_false, Bool.true_and,
      Bool.or_eq_true]
    exact he
  have := hn rfl hw.kind m hw.live hexposed ⟨hst, hclear.2⟩
  cases this

/-- A provisioned Machine that is clear is recognized before anything is reported of it. -/
theorem walks_impl (hk : m.metadata.key = i.key) (hu : m.metadata.uid = i.uid) :
    Walks S (Careful i) i (KeepsProvisioned i) (Clear i m)
      (sshmachineReconcileImpl S.tools m.spec m.status m.metadata S.timeout) (fun _ => Works i m)
      fun _ => Works i m := by
  refine walks_bind walks_reportPause fun paused => ?_
  refine walks_ite (fun _ => walks_pure fun l hl => hl.1.1) fun hpd => ?_
  have hpaused : paused = false := by simp at hpd; exact hpd.1
  have hdel : m.metadata.deletionTimestamp.isNone = true := by simp at hpd; simp [hpd.2]
  subst hpaused
  split
  · rename_i hown
    exact walks_noExit hdel (.inl (by rw [hown]; rfl))
  · split
    · rename_i hstrategy
      exact walks_bind (walks_noExit (A := fun _ _ => False) hdel (.inr (by rw [hstrategy]; rfl)))
        fun _ l _ h => h.elim
    · refine walks_conseq (K := Works i m) ?_ (fun l hl => hl.1.1) (fun _ _ hl => hl) fun _ _ hl => hl
      rw [hk, hu]
      refine walks_bind (walks_keeping (may_bindMachine trivial trivial trivial trivial)) fun binding => ?_
      refine walks_have (isAlreadyProvisioned m.status = true) (fun l hl => by
        rw [isAlreadyProvisioned, hl.provisioned]; rfl) fun hp => ?_
      rw [if_pos hp]
      exact walks_keeping (may_backfillProvisionedFields trivial)

theorem began_clear {l : Local} (h : Began (Careful i) i .reconcile m l) (hu : m.metadata.uid = i.uid)
    (hp : m.status.provisioned = some true) : Clear i m l := by
  refine ⟨⟨h.kind, began_live h hu, hp⟩, began_calls h (fun x hx => ?_) fun _ => rfl⟩
  obtain ⟨op, r, w, w'⟩ := x
  cases op with
  | acquireLock key => rfl
  | _ => cases hx

theorem walks_provisioned (hu : m.metadata.uid = i.uid) (hp : m.status.provisioned = some true) :
    Walks S (Careful i) i (KeepsProvisioned i) (Began (Careful i) i .reconcile m) (Attempt.reconcile.part S.tools S.timeout i m)
      (fun _ _ => True) fun _ _ => True := by
  refine walks_have (m.metadata.key = i.key) (fun l h => h.key) fun hk => ?_
  refine walks_conseq (K := Clear i m) (A := fun _ => Works i m) (E := fun _ => Works i m) ?_
    (fun l h => began_clear h hu hp) (fun _ _ _ => trivial) fun _ _ _ => trivial
  refine walks_bind (A := fun _ => Works i m) (walks_bind (walks_impl hk hu) fun _ => ?_) fun _ =>
    walks_pure fun l hl => hl
  exact walks_ite (fun _ => walks_keeping (may_reboot hk hu trivial fun _ => ⟨trivial, trivial, trivial, trivial, trivial,
    trivial⟩)) fun _ => walks_pure fun l hl => hl

/-- Every attempt keeps initialization, as long as no exit is taken. -/
theorem framed_provisioned (u : MachineRef) (a : Attempt) :
    Framed S (Careful u) u (KeepsProvisioned u) a fun _ _ => True where
  basic _ _ h := h.1
  guard a e earlier h _ := by
    rintro - m - - f hf
    rw [hf] at h
    exact h.elim
  locking _ _ _ := trivial
  missed _ _ _ _ := trivial
  part m hu := by
    by_cases ha : a = .reconcile ∧ m.status.provisioned = some true
    · obtain ⟨rfl, hp⟩ := ha
      exact walks_provisioned hu hp
    · refine walks_conseq (walks_only (K := fun l => l.kind = a ∧ live u l.calls = some m) (only_true _) ?_)
        (fun l h => ⟨h.kind, began_live h hu⟩) (fun _ _ _ => trivial) fun _ _ _ => trivial
      rintro op - l c w r w' ⟨hk, hl⟩ - - -
      refine ⟨fun hrec m' hm' hp => absurd ⟨hk.symm.trans hrec, ?_⟩ ha, hk, live_cons _ hl⟩
      rw [hl] at hm'
      rw [Option.some.inj hm']
      exact hp
  release _ _ _ _ _ _ _ _ _ _ := ⟨keeps_allowed trivial, trivial⟩
  raised _ _ _ _ := trivial
  apply _ _ _ _ _ _ _ _ _ _ := by
    rintro - m - - f hf
    cases hf

end walks

section runs

variable {S : Setting} {i : MachineRef} {c : Crew MachineRef} {j : Journal}

/-- The branch that goes wrong is not taken for `u`. -/
def NoEarlyExit (u : MachineRef) : RunCondition MachineRef := fun k op s _ _ =>
  k = u → NoExit u (s.attempts k) op

/-- Initialization is never taken back. -/
def OneWay (j : Journal) : Prop := ∀ post p pre, j = post ++ .status p :: pre →
  (statusOf pre).provisioned = some true → p.provisioned ≠ some false

/-- A write that does not take initialization back continues a run that has not. -/
theorem oneWay_cons {e : Event} (h : OneWay j)
    (he : ∀ p, e = .status p → (statusOf j).provisioned = some true → p.provisioned ≠ some false) :
    OneWay (e :: j) := by
  intro post p pre hj
  cases post with
  | nil =>
    obtain ⟨rfl, rfl⟩ := List.cons.inj hj
    exact he p rfl
  | cons e' post =>
    obtain ⟨-, hj⟩ := List.cons.inj hj
    exact h post p pre hj

/-- What the attempt of `i` has staged and read of initialization. -/
structure Tracks (i : MachineRef) (j : Journal) (f : MachineRef → Local) : Prop where
  oneWay : OneWay j
  staged : (statusOf j).provisioned = some true → (f i).staged.status.provisioned ≠ some false
  read : (∀ x ∈ (f i).calls, x.op.applies = false) → ∀ m, live i (f i).calls = some m →
    m.status.provisioned = (statusOf j).provisioned

theorem tracks_owned : Owned id i (Tracks i) where
  init := by
    refine ⟨fun post p pre hj => ?_, by rintro ⟨⟩, by rintro - m ⟨⟩⟩
    cases post <;> cases hj
  frame j f g h hf := by
    have hi : f i = g i := h i rfl
    exact ⟨hf.oneWay, by rw [← hi]; exact hf.staged, by rw [← hi]; exact hf.read⟩
  user j f e he hf := by
    have hs : statusOf (e :: j) = statusOf j := statusOf_other fun p hp => by rw [hp] at he; cases he
    refine ⟨oneWay_cons hf.oneWay (fun p hp => by rw [hp] at he; cases he), ?_, ?_⟩
    · rw [hs]; exact hf.staged
    · rw [hs]; exact hf.read

/-- A call of the attempt itself is tracked. -/
theorem tracks_staged {s : Site MachineRef} {e : Exchange} (hs : Tracks i (journal i s.world) s.attempts)
    (h : Called S id s i e) (hp : Permitted i (s.attempts i).kind e (s.attempts i).calls)
    (hg : KeepsProvisioned i (s.attempts i).kind e (s.attempts i).calls)
    (hstored : (statusOf (journal i s.world)).provisioned = some true) :
    (e.after.staged i).status.provisioned ≠ some false := by
  have hold := hs.staged hstored
  rcases called_staged h with ⟨f, t, ho, hst⟩ | hst
  · have hstage : Powers.stages _ _ _ := called_stages h hp.within
    cases hl : live i (s.attempts i).calls with
    | none =>
      rw [hl] at hstage
      rcases hstage.provisioned with hn | he
      · cases hk : (s.attempts i).kind <;> rw [hk] at hn <;> exact hn.elim
      · rw [show e.after.staged i = e.after.staged (id i) from rfl, he]; exact hold
    | some m =>
      by_cases hk : (s.attempts i).kind = .reconcile
      · have hread := (hs.read hp.before m hl).trans hstored
        rw [show e.after.staged i = e.after.staged (id i) from rfl, hst]
        exact hg hk m hl hread f ho t _ hold
      · rw [hl] at hstage
        rcases hstage.provisioned with hn | he
        · cases hk' : (s.attempts i).kind <;> rw [hk'] at hn hk <;> first | exact hn.elim | exact absurd rfl hk
        · rw [show e.after.staged i = e.after.staged (id i) from rfl, he]; exact hold
  · rw [show e.after.staged i = e.after.staged (id i) from rfl, hst]; exact hold

theorem statusOf_provisioned {p : StatusPatch} :
    (statusOf (.status p :: j)).provisioned = p.provisioned.or (statusOf j).provisioned := rfl

/-- So is the call of any other. -/
theorem tracks_call {s : Site MachineRef} {e : Exchange} (hs : Tracks i (journal i s.world) s.attempts)
    (h : Called S id s i e) (hp : Permitted i (s.attempts i).kind e (s.attempts i).calls)
    (hg : KeepsProvisioned i (s.attempts i).kind e (s.attempts i).calls) :
    Tracks i (journal i e.after) (s.record i i e).attempts := by
  obtain ⟨es, hj, hes⟩ := written_journal hp.within (called_written h)
  have hj : journal i e.after = es.toList ++ journal i s.world := by
    rw [hj, if_pos rfl, h.before]; rfl
  have hstage := tracks_staged hs h hp hg
  -- a status write is one that keeps initialization, or Kopf's write of what is staged
  have hcases : ((statusOf (journal i e.after)).provisioned = (statusOf (journal i s.world)).provisioned ∧
      ∀ p, es = some (.status p) → p.provisioned = none) ∨
      e.op.applies = true ∧ es = some (.status (s.attempts i).staged.status) := by
    rcases hes' : es with - | e'
    · exact .inl ⟨by rw [hj, hes']; rfl, by rintro p ⟨⟩⟩
    · by_cases hst : ∃ p, e' = .status p
      · obtain ⟨p, rfl⟩ := hst
        obtain ⟨op, r, w, w'⟩ := e
        cases hes p hes' with
        | persisted =>
          have hnone : p.provisioned = none := (show Powers.writes _ p from hp.within.2.2.2).provisioned
          refine .inl ⟨?_, ?_⟩
          · rw [hj, hes', Option.toList_some, List.singleton_append, statusOf_provisioned, hnone, Option.none_or]
          · rintro _ ⟨⟩
            exact hnone
        | applied =>
          have hw : w = s.meets id i := h.before
          refine .inr ⟨rfl, ?_⟩
          rw [hw, Site.meets, id, restage_same]
      · refine .inl ⟨?_, fun p hp => absurd ⟨p, Option.some.inj hp⟩ hst⟩
        rw [hj, hes', Option.toList_some, List.singleton_append, statusOf_other fun p hp => hst ⟨p, hp⟩]
  have hone : OneWay (journal i e.after) := by
    rw [hj]
    cases es with
    | none => exact hs.oneWay
    | some e' =>
      refine oneWay_cons hs.oneWay fun p hpe hstored => ?_
      rcases hcases with ⟨-, hn⟩ | ⟨-, he⟩
      · rw [hn p (by rw [hpe])]; rintro ⟨⟩
      · rw [hpe] at he
        cases he
        exact hs.staged hstored
  refine ⟨hone, fun hstored => ?_, fun hopen m hm => ?_⟩
  · rw [recorded_same]
    rcases hcases with ⟨hsame, -⟩ | ⟨hap, he⟩
    · exact hstage (hsame ▸ hstored)
    · intro hfalse
      rcases called_staged h with ⟨f, t, ho, -⟩ | hst
      · rw [ho] at hap; cases hap
      · rw [show (s.attempts i).push i e = ⟨_, _, e.after.staged (id i), _⟩ from rfl, hst] at hfalse
        rw [hj, he, Option.toList_some, List.singleton_append, statusOf_provisioned, hfalse] at hstored
        cases hstored
  · rw [recorded_same] at hopen hm
    rcases hcases with ⟨hsame, -⟩ | ⟨hap, -⟩
    · rw [hsame]
      cases hl : live i (s.attempts i).calls with
      | some m' =>
        obtain rfl := Option.some.inj ((live_cons e hl).symm.trans hm)
        exact hs.read hp.before m' hl
      | none =>
        obtain ⟨he, hu⟩ := live_read hl hm
        rw [(called_told h hp.within he hu).2.status]
        rfl
    · have := hopen e List.mem_cons_self
      rw [hap] at this
      cases this

/-- The condition is on the attempts that go on to bootstrap; nothing is asked of users. -/
theorem provisioned_one_way (h : Reachable ((handlers S id).limit (NoEarlyExit i)) (idle (Site.empty MachineRef)) c) :
    OneWay (journal i c.world.world) := by
  have hG : AlwaysGuarded S id (NoEarlyExit i) (OnlyFor i (KeepsProvisioned i)) := fun c hc k =>
    (framed_runs id (K := Careful i) (G := OnlyFor i (KeepsProvisioned i)) (Z := fun k _ _ _ => k = i → True)
      (I := Steady noTrust id) (fun _ hc => reachable_steady (limit_reachable hc))
      (fun _ _ _ _ _ _ _ hs hk _ hC => ⟨basic_known hs hk, fun hi => hC hi⟩)
      (fun k a => framed_only (fun _ _ _ h => h.1) (framed_provisioned i a)) hc k).1
  refine (runs_keep_own hG tracks_owned ?_ ?_ h).oneWay
  · rintro s k a rfl hs -
    refine ⟨hs.oneWay, fun _ => ?_, fun _ m hm => ?_⟩
    · rw [id, put_same]
      rintro ⟨⟩
    · rw [id, put_same] at hm
      cases hm
  · rintro s k e rfl hs h hp hg -
    exact tracks_call hs h hp (hg rfl)

/-- It loses its owner reference and is reconciled. -/
def orphaned : List (Turn MachineRef) :=
  bootstrapped ++ [.change (.editMachine ⟨"n", "m"⟩ (smallSpec (some "a"))
      { smallMeta "m" with ownerReferences := [] }), .start (smallRef "m" 1) .reconcile, .usual (smallRef "m" 1) 8]

/-- The last status write takes initialization back. -/
def takesBack (j : Journal) : Bool :=
  match j with
  | .status p :: pre => (statusOf pre).provisioned == some true && p.provisioned == some false
  | _ => false

/-- A provisioned Machine loses its owner reference and is reconciled. -/
theorem orphan_unprovisioned : ¬ ∀ c : Crew MachineRef,
    Reachable (handlers smallSetting id) (idle (Site.empty MachineRef)) c →
      OneWay (journal (smallRef "m" 1) c.world.world) := by
  intro hall
  have h : (takes smallSetting id unchecked smallUsual orphaned (idle (Site.empty MachineRef))).any (fun c =>
      takesBack (journal (smallRef "m" 1) c.world.world)) = true := by
    decide +kernel
  obtain ⟨c, hc, hb⟩ := takes_exists h
  unfold takesBack at hb
  split at hb
  · rename_i p pre hj
    rw [Bool.and_eq_true, beq_iff_eq, beq_iff_eq] at hb
    exact hall c hc [] p pre hj hb.1 hb.2
  · cases hb

/-- The same Machine is reconciled with its owner. -/
def resynced : List (Turn MachineRef) :=
  bootstrapped ++ [.start (smallRef "m" 1) .reconcile, .usual (smallRef "m" 1) 8]

def unexposed (k : MachineRef) (_ : Exchange) (s : Site MachineRef) : Bool :=
  match live k (s.attempts k).calls with
  | some m => !m.exposed
  | none => true

/-- A provisioned Machine is reconciled once more. -/
theorem provisioned_one_way_resynced : ∃ c : Crew MachineRef,
    Reachable ((handlers smallSetting id).limit (NoEarlyExit (smallRef "m" 1))) (idle (Site.empty MachineRef)) c ∧
      ((statusOf (journal (smallRef "m" 1) c.world.world)).provisioned == some true) = true ∧
        OneWay (journal (smallRef "m" 1) c.world.world) := by
  have h : (takes smallSetting id unexposed smallUsual resynced (idle (Site.empty MachineRef))).any (fun c =>
      (statusOf (journal (smallRef "m" 1) c.world.world)).provisioned == some true) = true := by
    decide +kernel
  have hC : ∀ k op s r w', unexposed k ⟨op, r, s.meets id k, w'⟩ s = true →
      NoEarlyExit (smallRef "m" 1) k op s r (s.record k (id k) ⟨op, r, s.meets id k, w'⟩) := by
    rintro k op s r w' hcheck rfl - m hm hexposed -
    simp [unexposed, hm, hexposed] at hcheck
  obtain ⟨c, hc, hb⟩ := takes_limited_exists hC h
  exact ⟨c, hc, hb, provisioned_one_way hc⟩

end runs

end CapiSsh
