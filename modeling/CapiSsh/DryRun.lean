import CapiSsh.HandlerReplay
import CapiSsh.Permits

/-!
# What the provider guarantees about dry runs

An attempt that has read a dry-run Machine changes nothing on a host, unless it cleans up
after a bootstrap that is on record. A Machine that was only ever read as a dry run never
records a bootstrap, and what deletion does never depends on dry-run.
-/
namespace CapiSsh

open Effect Interference

/-- Commands that change more than the answer of the host. -/
def Command.mutates : Command → Bool
  | .owned o => o.claim || match o.script with
    | .noop | .bootID => false
    | .reboot | .reset | .job _ => true
  | .launch _ => true
  | .observe _ | .readiness => false

def Op.mutates : Op → Bool
  | .upload .. => true
  | .run _ command => command.mutates
  | _ => false

def Op.cleansUp : Op → Bool
  | .run _ (.owned o) => o.script == .reset && !o.claim
  | _ => false

/-- A call that changes a host follows a read that allows it. -/
def DryKept (i : MachineRef) (a : Attempt) (e : Exchange) (earlier : List Exchange) : Prop :=
  e.op.mutates = true → ∃ m, live i earlier = some m ∧
    (m.spec.dryRun = true → a = .delete ∧ m.status.bootstrapOwnership.isSome = true ∧ e.op.cleansUp = true)

variable {S : Setting} {i : MachineRef} {P : Powers} {op : Op}

theorem mutates_power (h : P.allows i op) (hm : op.mutates = true) :
    P.bootstrap ∨ P.reboot ∨ (P.reset ∧ op.cleansUp = true) := by
  cases op with
  | upload conn script path => exact .inl h.1
  | run conn command =>
    cases command with
    | owned o =>
      obtain ⟨uid, script, claim, cleaned, blocking⟩ := o
      obtain ⟨hclaim, hscript⟩ := h
      cases claim with
      | true => exact .inl (hclaim rfl)
      | false =>
        cases script with
        | noop => cases hm
        | bootID => cases hm
        | reboot => exact .inr (.inl hscript)
        | reset => exact .inr (.inr ⟨hscript, rfl⟩)
        | job path => exact .inl hscript
    | launch o => exact .inl h
    | observe uid => cases hm
    | readiness => cases hm
  | _ => cases hm

theorem dryKept_of_permitted {a : Attempt} {e : Exchange} {earlier : List Exchange}
    (h : Permitted i a e earlier) : DryKept i a e earlier := by
  intro hm
  have hp := mutates_power h.within hm
  cases hl : live i earlier with
  | none =>
    rw [hl] at hp
    rcases hp with hp | hp | ⟨hp, -⟩ <;> cases a <;> exact hp.elim
  | some m =>
    rw [hl] at hp
    refine ⟨m, rfl, fun hd => ?_⟩
    cases a with
    | delete =>
      rcases hp with hp | hp | ⟨hp, hc⟩
      · exact hp.elim
      · exact hp.elim
      · exact ⟨rfl, hp, hc⟩
    | bind => rcases hp with hp | hp | ⟨hp, -⟩ <;> exact hp.elim
    | reboot =>
      rcases hp with hp | hp | ⟨hp, -⟩
      · exact hp.elim
      · exact absurd (hp.symm.trans hd) (by rintro ⟨⟩)
      · exact hp.elim
    | reconcile =>
      rcases hp with hp | hp | ⟨hp, -⟩
      · exact absurd (hp.symm.trans hd) (by rintro ⟨⟩)
      · exact absurd (hp.symm.trans hd) (by rintro ⟨⟩)
      · exact hp.elim

section runs

variable {ι : Type} [DecidableEq ι] {who : ι → MachineRef} {c : Crew ι}

/-- Whenever an attempt of `i` reads its Machine under the lock, that is a dry run. -/
def AlwaysDry (who : ι → MachineRef) (i : MachineRef) : RunCondition ι := fun k _ s _ s' =>
  who k = i → live i (s.attempts k).calls = none → ∀ m, live i (s'.attempts k).calls = some m → m.spec.dryRun = true

/-- What is stored and staged for `i`, and what its attempts have read. -/
structure NeverOwned (who : ι → MachineRef) (i : MachineRef) (j : Journal) (f : ι → Local) : Prop where
  stored : ∀ p, Event.status p ∈ j → p.bootstrapOwnership = none
  staged : ∀ k, who k = i → (f k).staged.status.bootstrapOwnership = none
  read : ∀ k, who k = i → ∀ m, live i (f k).calls = some m →
    m.spec.dryRun = true ∧ m.status.bootstrapOwnership = none

omit [DecidableEq ι] in
theorem neverOwned_owned : Owned who i (NeverOwned who i) where
  init := ⟨by rintro p ⟨⟩, fun _ _ => rfl, by rintro k - m ⟨⟩⟩
  frame j f g h hf :=
    ⟨hf.stored, fun k hk => by rw [← h k hk]; exact hf.staged k hk, fun k hk => by rw [← h k hk]; exact hf.read k hk⟩
  user j f e he hf := by
    refine ⟨fun p hp => ?_, hf.staged, hf.read⟩
    rcases List.mem_cons.mp hp with rfl | hp
    · cases he
    · exact hf.stored p hp

theorem statusOf_unowned {j : Journal} (h : ∀ p, Event.status p ∈ j → p.bootstrapOwnership = none) :
    (statusOf j).bootstrapOwnership = none := by
  induction j with
  | nil => rfl
  | cons e j ih =>
    have ih := ih fun p hp => h p (List.mem_cons_of_mem _ hp)
    cases e with
    | status p => simp [statusOf, StatusPatch.apply, h p List.mem_cons_self, ih, mergeKey]
    | _ => exact ih

/-- A dry attempt has no power over ownership. -/
theorem dry_powerless {a : Attempt} {m : Option Machine} (h : ∀ m', m = some m' → m'.spec.dryRun = true) :
    ¬ (permitted a m).own := by
  intro ho
  cases m with
  | none => cases a <;> exact ho
  | some m =>
    cases a with
    | reconcile => exact absurd ((show m.spec.dryRun = false from ho).symm.trans (h m rfl)) (by rintro ⟨⟩)
    | _ => exact ho

theorem neverOwned_call {s : Site ι} {k : ι} {e : Exchange} (hk : who k = i)
    (hs : NeverOwned who i (journal i s.world) s.attempts) (h : Called S who s k e)
    (hp : Permitted i (s.attempts k).kind e (s.attempts k).calls)
    (hC : AlwaysDry who i k e.op s e.reply (s.record k i e)) :
    NeverOwned who i (journal i e.after) (s.record k i e).attempts := by
  subst hk
  have hpower := dry_powerless (a := (s.attempts k).kind) fun m hm => (hs.read k rfl m hm).1
  have hbefore : journal (who k) e.before = journal (who k) s.world := by rw [h.before]; rfl
  refine ⟨fun p hm => ?_, fun k' hk' => ?_, fun k' hk' m hm => ?_⟩
  · obtain ⟨es, hj, hes⟩ := written_journal hp.within (called_written h)
    rw [hj, if_pos rfl, hbefore] at hm
    rcases List.mem_append.mp hm with hm | hm
    · obtain ⟨op, r, w, w'⟩ := e
      cases hes p (by simpa using hm) with
      | persisted => exact (show Powers.writes _ p from hp.within.2.2.2).ownership.resolve_left hpower
      | applied =>
        have hw : w = s.meets who k := h.before
        change (w.staged (who k)).status.bootstrapOwnership = none
        rw [hw, Site.meets, restage_same]
        exact hs.staged k rfl
    · exact hs.stored p hm
  · by_cases hkk : k' = k
    · subst hkk
      rw [recorded_same]
      rcases (called_stages h hp.within).ownership with ho | ho
      · exact absurd ho hpower
      · exact ho.trans (hs.staged k' rfl)
    · rw [recorded_other _ _ _ hkk]
      exact hs.staged k' hk'
  · by_cases hkk : k' = k
    · subst hkk
      rw [recorded_same] at hm
      cases hl : live (who k') (s.attempts k').calls with
      | some m' =>
        obtain rfl := Option.some.inj ((live_cons e hl).symm.trans hm)
        exact hs.read k' rfl m' hl
      | none =>
        obtain ⟨he, hu⟩ := live_read hl hm
        refine ⟨hC rfl hl m (by rw [recorded_same]; exact hm), ?_⟩
        rw [(called_told h hp.within he hu).2.status]
        exact statusOf_unowned hs.stored
    · rw [recorded_other _ _ _ hkk] at hm
      exact hs.read k' hk' m hm

theorem always_never_owned (h : Reachable ((handlers S who).limit (AlwaysDry who i)) (idle (Site.empty ι)) c) :
    NeverOwned who i (journal i c.world.world) c.world.attempts := by
  refine runs_keep_own always_permitted neverOwned_owned ?_ ?_ h
  · intro s k a hk hs ha
    subst hk
    refine ⟨hs.stored, fun k' hk' => ?_, fun k' hk' m hm => ?_⟩
    · by_cases hkk : k' = k
      · subst hkk; rw [put_same]; rfl
      · rw [put_other _ _ _ hkk]; exact hs.staged k' hk'
    · by_cases hkk : k' = k
      · subst hkk; rw [put_same] at hm; cases hm
      · rw [put_other _ _ _ hkk] at hm; exact hs.read k' hk' m hm
  · exact fun s k e hk hs h hp _ hC => neverOwned_call hk hs h hp hC

theorem dials_power (h : P.allows i op) (hd : op.dials = true) : P.dial := by
  cases op with
  | connect target user key knownHosts => exact h
  | _ => cases hd

theorem reboot_observed_dry (spec : MachineSpec) (status : MachineStatus) (metadata : ObjectMeta) (b : Bool) :
    reconcileReboot { spec with dryRun := b } status metadata true = reconcileReboot spec status metadata true := by
  simp only [reconcileReboot, Bool.not_true, Bool.and_false]
  rfl

/-- Dry-run does not reach the program of a deletion. -/
theorem delete_ignores_dryRun (tools : PayloadTools) (timeout : Time) (m : Machine) (b : Bool) :
    Attempt.delete.part tools timeout i { m with spec := { m.spec with dryRun := b } } =
      Attempt.delete.part tools timeout i m := by
  have hreboot : ∀ ownership, deleteOwned { m.spec with dryRun := b } m.status m.metadata ownership =
      deleteOwned m.spec m.status m.metadata ownership := fun ownership => by
    simp only [deleteOwned, reboot_observed_dry]
  simp only [Attempt.part, reconcileLatest, deleteMachine, hreboot]
  rfl

/-- Dry runs of every Machine, in every run of attempts that may overlap. -/
structure DryRunSafe (S : Setting) (who : ι → MachineRef) (c : Crew ι) : Prop where
  mutates : ∀ k, Guarded (DryKept (who k)) (c.world.attempts k)
  never : ∀ i, Reachable ((handlers S who).limit (AlwaysDry who i)) (idle (Site.empty ι)) c →
    (statusOf (journal i c.world.world)).bootstrapOwnership = none ∧
      ∀ k, who k = i → (c.world.attempts k).kind = .delete → ∀ e ∈ (c.world.attempts k).calls, e.op.dials = false
  deletion : ∀ i m b, Attempt.delete.part S.tools S.timeout i { m with spec := { m.spec with dryRun := b } } =
    Attempt.delete.part S.tools S.timeout i m

/-- The call that mutates, the deletion and the allocation, all in any run. -/
theorem dry_run_never_mutates (h : Reachable (handlers S who) (idle (Site.empty ι)) c) : DryRunSafe S who c := by
  refine ⟨fun k later e earlier he => ?_, fun i hi => ?_, fun i => delete_ignores_dryRun _ _⟩
  · exact dryKept_of_permitted (attempts_permitted h k later e earlier he)
  · have hs := always_never_owned hi
    refine ⟨statusOf_unowned hs.stored, fun k hk hkind e he => ?_⟩
    subst hk
    obtain ⟨later, earlier, hc⟩ := List.append_of_mem he
    have hp := attempts_permitted h k later e earlier hc
    cases hd : e.op.dials with
    | false => rfl
    | true =>
      have hdial := dials_power hp.within hd
      rw [hkind] at hdial
      cases hl : live (who k) earlier with
      | none => rw [hl] at hdial; exact hdial.elim
      | some m =>
        rw [hl] at hdial
        have hm : live (who k) (c.world.attempts k).calls = some m := by
          rw [hc]
          exact live_append later (live_cons e hl)
        have hown : m.status.bootstrapOwnership.isSome = true := hdial
        rw [(hs.read k rfl m hm).2] at hown
        cases hown

def editDry (b : Bool) : Turn Replica :=
  .change (.editMachine ⟨"n", "m"⟩ { smallSpec (some "a") with dryRun := b } (smallMeta "m"))

/-- A dry run, a bootstrap, and a deletion that is a dry run again, up to its reset. -/
def dryThenWet : List (Turn Replica) :=
  let k : Replica := (smallRef "m" 1, 0)
  [.change (.createMachine (smallMachine "m" (some "a"))), editDry true, .start k .reconcile, .usual k 21, .finish k,
    editDry false, .start k .reconcile, .usual k 39, .finish k, editDry true,
    .change (.deleteMachine ⟨"n", "m"⟩ 0), .start k .delete, .usual k 21]

/-- A Machine that was bootstrapped is switched to a dry run and deleted. -/
theorem dry_run_never_mutates_toggled : ∃ c : Crew Replica,
    Reachable (handlers smallSetting Prod.fst) (idle (Site.empty Replica)) c ∧
      ((c.world.attempts (smallRef "m" 1, 0)).calls.any fun e => e.op.cleansUp) = true ∧
        DryRunSafe smallSetting Prod.fst c := by
  have h : (takes smallSetting Prod.fst unchecked smallUsual dryThenWet (idle (Site.empty Replica))).any (fun c =>
      (c.world.attempts (smallRef "m" 1, 0)).calls.any fun e => e.op.cleansUp) = true := by
    decide +kernel
  obtain ⟨c, hc, hb⟩ := takes_exists h
  exact ⟨c, hc, hb, dry_run_never_mutates hc⟩

end runs

end CapiSsh
