import CapiSsh.Powers

/-!
# What an attempt is permitted

The powers of an attempt are decided by its kind and by the Machine that it has read under
the lock. No attempt goes beyond them, in any run.
-/
namespace CapiSsh

open Effect Interference

def Powers.none : Powers :=
  ⟨False, False, False, False, False, False, False, False, False, False, False, False, False, False, fun _ => True⟩

/-- A dry run binds, dials its target and reports; a deletion needs recorded ownership to
do more than give a host back. -/
def permitted : Attempt → Option Machine → Powers
  | _, none => { Powers.none with look := True }
  | .bind, some _ => { Powers.none with look := True, allocate := True, claim := True, mark := True }
  | .reboot, some m =>
    let wet := m.spec.dryRun = false
    { Powers.none with
      look := True, allocate := wet, claim := wet, mark := wet, dial := wet, record := wet, reboot := wet }
  | .reconcile, some m =>
    let wet := m.spec.dryRun = false
    { look := True, allocate := True, own := wet, record := wet, clean := False, report := True, provision := True,
      claim := True, mark := True, dial := True, bootstrap := wet, reboot := wet, reset := False, apply := False,
      uploads := fun _ => True }
  | .delete, some m =>
    let owned := m.status.bootstrapOwnership.isSome = true
    { look := True, allocate := True, own := False, record := owned, clean := True, report := True,
      provision := False, claim := True, mark := True, dial := owned, bootstrap := False, reboot := False, reset := owned,
      apply := False, uploads := fun _ => True }

def Op.applies : Op → Bool
  | .applyStaged _ => true
  | _ => false

/-- Each call stays within the powers of its attempt, until Kopf applies what was staged. -/
structure Permitted (i : MachineRef) (a : Attempt) (e : Exchange) (earlier : List Exchange) : Prop where
  within : Powers.allows { permitted a (live i earlier) with apply := True } i e.op
  before : ∀ x ∈ earlier, x.op.applies = false

variable {S : Setting} {Known : MachineRef → Local → Exchange → Prop} {i : MachineRef} {P : Powers} {m : Machine}

theorem may_dryReboot {spec : MachineSpec} {status : MachineStatus} {metadata : ObjectMeta}
    (h : spec.dryRun = true) : (reconcileReboot spec status metadata false).Only (P.allows i) := by
  unfold reconcileReboot
  simp only [h, Bool.not_false, Bool.and_self, if_true]
  split
  · trivial
  · exact Prog.only_bind may_isPaused fun _ => may_ite (fun _ => trivial) fun _ => trivial

theorem may_reboot (hk : m.metadata.key = i.key) (hu : m.metadata.uid = i.uid) (hl : P.look)
    (h : m.spec.dryRun = false → P.allocate ∧ P.claim ∧ P.mark ∧ P.dial ∧ P.record ∧ P.reboot) :
    (reconcileReboot m.spec m.status m.metadata false).Only (P.allows i) := by
  cases hd : m.spec.dryRun with
  | true => exact may_dryReboot hd
  | false =>
    obtain ⟨ha, hc, hm, hdial, hr, hb⟩ := h hd
    exact may_reconcileReboot hl hk hu ha hc hm hdial hr fun _ => hb

theorem may_part {a : Attempt} (hk : m.metadata.key = i.key) (hu : m.metadata.uid = i.uid) :
    (a.part S.tools S.timeout i m).Only ((permitted a (some m)).allows i) := by
  cases a with
  | bind => exact Prog.only_bind (may_bindMachine trivial trivial trivial trivial) fun _ => trivial
  | reboot => exact Prog.only_bind (may_reboot hk hu trivial fun hd => ⟨hd, hd, hd, hd, hd, hd⟩) fun _ => trivial
  | reconcile =>
    refine Prog.only_bind (Prog.only_bind (may_sshmachineReconcileImpl trivial hk hu trivial trivial trivial trivial trivial
      trivial (fun hd => ⟨hd, hd⟩) fun _ _ => trivial) fun _ => may_ite (fun _ => ?_) fun _ => trivial) fun _ => trivial
    exact may_reboot hk hu trivial fun hd => ⟨trivial, trivial, trivial, trivial, hd, hd⟩
  | delete =>
    exact Prog.only_bind (may_deleteMachine trivial hk hu trivial trivial trivial trivial trivial fun ho => ⟨ho, ho, ho⟩)
      fun _ => trivial

/-- The power to apply what was staged is not one of a handler. -/
theorem allows_apply {op : Op} (hP : ¬ P.apply) (h : P.allows i op) :
    Powers.allows { P with apply := True } i op ∧ op.applies = false := by
  cases op with
  | patchMachineStatus key pre p =>
    obtain ⟨hk, hu, hl, hw⟩ := h
    exact ⟨⟨hk, hu, hl, ⟨hw.allocation, hw.ownership, hw.reboot, hw.cleanup, hw.provisioned⟩⟩, rfl⟩
  | stage f =>
    refine ⟨fun t p => ?_, rfl⟩
    have hs := h t p
    exact ⟨hs.cleanup, hs.allocation, hs.ownership, hs.reboot, hs.ready, hs.provisioned⟩
  | run conn command =>
    refine ⟨?_, rfl⟩
    cases command with
    | owned o =>
      obtain ⟨uid, script, claim, cleaned, blocking⟩ := o
      cases script <;> exact h
    | _ => exact h
  | applyStaged key => exact absurd h.2 hP
  | _ => exact ⟨h, rfl⟩

theorem permitted_look (a : Attempt) (m : Option Machine) : (permitted a m).look := by
  cases m <;> cases a <;> exact trivial

theorem permitted_apply (a : Attempt) (m : Option Machine) : ¬ (permitted a m).apply := by
  cases m <;> cases a <;> exact id

theorem locks_apply {op : Op} (h : op.locks) : op.applies = false := by
  cases op with
  | applyStaged key => exact h.elim
  | _ => rfl

theorem locks_before {calls : List Exchange} (h : ∀ x ∈ calls, x.op.locks) : ∀ x ∈ calls, x.op.applies = false :=
  fun x hx => locks_apply (h x hx)

theorem before_push {l : Local} {op : Op} {r : Except Exc (Reply op)} {w w' : World}
    (h : ∀ x ∈ l.calls, x.op.applies = false) (ho : op.applies = false) :
    ∀ x ∈ (l.push i ⟨op, r, w, w'⟩).calls, x.op.applies = false := by
  intro x hx
  rcases List.mem_cons.mp hx with rfl | hx
  · exact ho
  · exact h x hx

theorem framed_permitted (hK : ∀ l e, Known i l e → Basic i l e) (a : Attempt) :
    Framed S Known i (Permitted i) a fun _ l => l.kind = a ∧ ∀ x ∈ l.calls, x.op.applies = false where
  basic := hK
  guard a e earlier h hl := by
    refine ⟨?_, locks_before hl⟩
    cases ho : e.op with
    | acquireLock key => trivial
    | readMachine key =>
      rw [ho] at h
      exact ⟨h, permitted_look _ _⟩
    | _ => rw [ho] at h; exact h.elim
  locking l e h := ⟨h.kind, locks_before h.calls⟩
  missed l r h _ := by
    obtain ⟨l₀, e, rfl, he⟩ := h.calls
    refine ⟨h.kind, fun x hx => ?_⟩
    rcases List.mem_cons.mp hx with rfl | hx
    · rw [he.op]; rfl
    · exact locks_before he.locks x hx
  part m hu := by
    refine walks_have (m.metadata.key = i.key) (fun l h => h.key) fun hk => ?_
    refine walks_conseq (walks_only (K := fun l => live i l.calls = some m ∧ l.kind = a ∧
      ∀ x ∈ l.calls, x.op.applies = false) (may_part hk hu) ?_) (fun l h => ⟨began_live h hu, h.kind, ?_⟩)
      (fun _ _ h => h.2) fun _ _ h => h.2
    · rintro op hop l c w r w' ⟨hm, ha, hb⟩ - - -
      obtain ⟨hwithin, ho⟩ := allows_apply (permitted_apply a (some m)) hop
      exact ⟨⟨by rw [ha, hm]; exact hwithin, hb⟩, live_cons _ hm, ha, before_push hb ho⟩
    · exact began_calls h (fun x hx => locks_apply hx) fun _ => rfl
  release l r c w b w' h _ _ _ := ⟨⟨trivial, h.2⟩, h.1, before_push h.2 rfl⟩
  raised l r e h := h
  apply l r c w u w' h _ _ _ := ⟨⟨rfl, trivial⟩, h.2⟩

variable {w w' : World} {op : Op}

/-- The status write of a call. -/
inductive StatusWrite (i : MachineRef) (w : World) : Op → StatusPatch → Prop
  | persisted {key pre p} : StatusWrite i w (.patchMachineStatus key pre p) p
  | applied {key} : StatusWrite i w (.applyStaged key) (w.staged i).status

/-- An attempt writes its own journal only, at most one event at a time. -/
theorem written_journal (ha : P.allows i op) (h : Written i op w w') :
    ∃ es : Option Event, (∀ j, journal j w' = (if j = i then es.toList else []) ++ journal j w) ∧
      ∀ p, es = some (.status p) → StatusWrite i w op p := by
  have hnone : ∀ w'' : World, w''.log = w.log →
      ∃ es : Option Event, (∀ j, journal j w'' = (if j = i then es.toList else []) ++ journal j w) ∧
        ∀ p, es = some (.status p) → StatusWrite i w op p :=
    fun w'' hl => ⟨none, fun j => by simp [journal, hl], by rintro p ⟨⟩⟩
  have hsome : ∀ (w'' : World) (e : Event), w''.log = (i, e) :: w.log → (∀ p, e = .status p → StatusWrite i w op p) →
      ∃ es : Option Event, (∀ j, journal j w'' = (if j = i then es.toList else []) ++ journal j w) ∧
        ∀ p, es = some (.status p) → StatusWrite i w op p := by
    refine fun w'' e hl hp => ⟨some e, fun j => ?_, fun p he => hp p (Option.some.inj he)⟩
    by_cases hj : j = i
    · subst hj; simp [journal, hl]
    · simp [journal, hl, hj, Ne.symm hj]
  cases h with
  | same => exact hnone _ rfl
  | staged f p _ => exact hnone _ rfl
  | spec _ _ _ => exact hnone _ rfl
  | @status key pre p m ho hm hu =>
    subst ho
    obtain ⟨hk, hi, -⟩ := ha
    refine hsome _ (.status p) (by rw [hk, hi]; rfl) ?_
    rintro p ⟨⟩
    exact .persisted
  | @claim key pre ref old ho hl hp =>
    refine hsome _ _ rfl fun p he => ?_
    cases ref <;> cases he
  | phase ho hl hp => exact hsome _ _ rfl (by rintro p ⟨⟩)
  | applied f ho hm hu hf => exact hnone _ rfl
  | appliedStatus f ho hm hu hf =>
    subst ho
    obtain ⟨rfl, -⟩ := ha
    refine hsome _ (.status (w.staged i).status) rfl ?_
    rintro p ⟨⟩
    exact .applied
  | noted e ho h₁ h₂ h₃ => exact hsome _ _ rfl fun p he => absurd he (h₃ p)

theorem stages_refl (p : StatusPatch) : P.stages p p := ⟨.inl rfl, .inr rfl, .inr rfl, .inr rfl, .inr ⟨rfl, rfl⟩, .inr rfl⟩

section runs

variable {ι : Type} [DecidableEq ι] {who : ι → MachineRef} {C : RunCondition ι} {c : Crew ι}

/-- In every run, every call of every attempt is permitted. -/
theorem attempts_permitted (h : Reachable (handlers S who) (idle (Site.empty ι)) c) (k : ι) :
    Guarded (Permitted (who k)) (c.world.attempts k) :=
  framed_always (fun _ a => framed_permitted (fun _ _ h => h) a) h k

omit [DecidableEq ι] in
theorem called_staged {s : Site ι} {k : ι} {e : Exchange} (h : Called S who s k e) :
    (∃ f t, e.op = .stage f ∧ e.after.staged (who k) = f t (s.attempts k).staged) ∨
      e.after.staged (who k) = (s.attempts k).staged := by
  have hb : e.before.staged (who k) = (s.attempts k).staged := by rw [h.before]; exact restage_same _ _ _
  obtain ⟨op, r, w, w'⟩ := e
  obtain ⟨ch, hans⟩ := h.answered
  rw [← hb]
  by_cases hf : ∃ f, op = .stage f
  · obtain ⟨f, rfl⟩ := hf
    obtain ⟨t, ht⟩ := answer_stage hans
    refine .inl ⟨f, t, rfl, ?_⟩
    rw [ht]
    exact restage_same _ _ _
  · exact .inr (congrFun (answer_staged hans fun f ho => hf ⟨f, ho⟩) _)

omit [DecidableEq ι] in
/-- What a permitted call stages. -/
theorem called_stages {s : Site ι} {k : ι} {e : Exchange} (h : Called S who s k e) (ha : P.allows (who k) e.op) :
    P.stages (s.attempts k).staged.status (e.after.staged (who k)).status := by
  rcases called_staged h with ⟨f, t, ho, hs⟩ | hs
  · rw [ho] at ha
    rw [hs]
    exact ha t _
  · rw [hs]
    exact stages_refl _

omit [DecidableEq ι] in
/-- What a call reads is what the journal tells. -/
theorem called_told {s : Site ι} {k : ι} {e : Exchange} {m : Machine} (h : Called S who s k e)
    (ha : P.allows (who k) e.op) (hm : e.machine = some m) (hu : m.metadata.uid = (who k).uid) :
    m.metadata.key = (who k).key ∧ Told (journal (who k) s.world) m := by
  obtain ⟨key, he⟩ := machine_some hm
  have hkey : key = (who k).key := by rw [he] at ha; exact ha.1
  obtain ⟨ch, hans⟩ := h.answered
  rw [he] at hans
  obtain ⟨-, hl⟩ := answer_read hans
  obtain ⟨hk, -, ht⟩ := h.basic.accounted.machine key m (hl m rfl)
  rw [hkey, hu, h.before] at ht
  exact ⟨hk.trans hkey, ht⟩

theorem always_permitted {C : RunCondition ι} : AlwaysGuarded S who C Permitted :=
  fun _ h k => attempts_permitted (limit_reachable h) k

/-- About the journal of one Machine and its attempts. -/
structure Owned (who : ι → MachineRef) (i : MachineRef) (P : Journal → (ι → Local) → Prop) : Prop where
  init : P [] fun _ => .fresh .bind World.empty
  frame : ∀ j f g, (∀ k, who k = i → f k = g k) → P j f → P j g
  user : ∀ j f e, e.isUser = true → P j f → P (e :: j) f

/-- Only the user and the attempts of a Machine itself have to keep what is known of it. -/
theorem runs_keep_own {C : RunCondition ι} {G : MachineRef → Attempt → Exchange → List Exchange → Prop}
    {Q : Journal → (ι → Local) → Prop} (hG : AlwaysGuarded S who C G) (hQ : Owned who i Q)
    (hstart : ∀ (s : Site ι) (k : ι) (a : Attempt), who k = i → Q (journal i s.world) s.attempts →
      a.admitted i s.world →
      Q (journal i s.world) (s.put k (.fresh a s.world) s.world).attempts)
    (hcall : ∀ (s : Site ι) (k : ι) (e : Exchange), who k = i → Q (journal i s.world) s.attempts →
      Called S who s k e → Permitted i (s.attempts k).kind e (s.attempts k).calls → G i (s.attempts k).kind e (s.attempts k).calls →
      C k e.op s e.reply (s.record k i e) → Q (journal i e.after) (s.record k i e).attempts)
    (hc : Reachable ((handlers S who).limit C) (idle (Site.empty ι)) c) :
    Q (journal i c.world.world) c.world.attempts := by
  refine runs_keep who (G := fun i a e earlier => Permitted i a e earlier ∧ G i a e earlier)
    (P := fun s => Q (journal i s.world) s.attempts) ?_ hQ.init ?_ ?_ ?_ hc
  · intro c hc k later e earlier he
    exact ⟨always_permitted c hc k later e earlier he, hG c hc k later e earlier he⟩
  · intro s ch w' hs _ ho
    obtain ⟨k, es, hes, hj⟩ := ho.journal
    change Q (journal i w') s.attempts
    rw [hj]
    split
    · cases es with
      | none => exact hs
      | some e => exact hQ.user _ _ e (hes e rfl) hs
    · exact hs
  · intro s k a hs ha
    by_cases hk : who k = i
    · subst hk
      exact hstart s k a rfl hs ha
    · refine hQ.frame _ _ _ (fun k' hk' => ?_) hs
      exact (put_other _ _ _ (by rintro rfl; exact hk hk')).symm
  · rintro s k e hs h ⟨hp, hg⟩ hC
    by_cases hk : who k = i
    · subst hk
      exact hcall s k e rfl hs h hp hg hC
    · obtain ⟨es, hj, -⟩ := written_journal hp.within (called_written h)
      have hsame : journal i e.after = journal i s.world := by
        rw [hj, if_neg (Ne.symm hk), h.before]
        rfl
      rw [recorded_world, hsame]
      refine hQ.frame _ _ _ (fun k' hk' => ?_) hs
      exact (recorded_other _ _ _ (by rintro rfl; exact hk hk')).symm

end runs

end CapiSsh
