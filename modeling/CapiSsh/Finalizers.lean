import CapiSsh.Deletions

/-!
# What the provider guarantees about finalizers

Kopf takes the finalizer of a Machine away when its deletion has returned, and also when it
has raised a permanent error. The second only happens to a Machine that the deletion finds
waiting for a reboot, before its host has been cleaned: there the current target is
resolved again, and may be refused. In every other case the Machine was gone, or its
receipt is stored.
-/
namespace CapiSsh

open Effect Interference

variable {S : Setting} {i : MachineRef} {m : Machine} {l : Local}

/-- Only the provider itself raises permanent errors. -/
def Sincere {ι : Type} : RunCondition ι := fun _ _ _ r _ => ∀ e, r = .error e → e.isPermanent = false

/-- What a call can rely on where that holds. -/
structure Spoken (i : MachineRef) (l : Local) (e : Exchange) : Prop where
  basic : Basic i l e
  reply : ∀ x, e.reply = .error x → x.isPermanent = false

/-- Whatever its calls come to, this part raises no permanent error. -/
abbrev Tame (S : Setting) (i : MachineRef) (p : Act α) : Prop :=
  Walks S Spoken i Unguarded (fun _ => True) p (fun _ _ => True) fun e _ => e.isPermanent = false

theorem tame_pure (a : α) : Tame S i (pure a : Act α) := walks_pure fun _ _ => trivial

theorem tame_throw {e : Exc} (h : e.isPermanent = false) : Tame S i (throw e : Act α) := walks_throw fun _ _ => h

/-- A call may fail, but with no permanent error. -/
theorem tame_call {op : Op} : Tame S i (call op) := by
  refine walks_call fun l c w r w' _ _ _ hk => ⟨trivial, ?_⟩
  cases r with
  | ok a => trivial
  | error e => exact hk.reply e rfl

theorem tame_bind {p : Act α} {f : α → Act β} (hp : Tame S i p) (hf : ∀ a, Tame S i (f a)) : Tame S i (p >>= f) :=
  walks_bind hp hf

/-- A handler is reached by tame errors only. -/
theorem tame_handle {p : Act α} {h : Exc → Act α} (hp : Tame S i p)
    (hh : ∀ e, e.isPermanent = false → Tame S i (h e)) : Tame S i (tryCatch p h) :=
  walks_handle hp fun e => walks_have (e.isPermanent = false) (fun _ hl => hl) fun he =>
    walks_weaken (hh e he) fun _ _ => trivial

/-- Whatever is raised inside is replaced. -/
theorem tame_caught {p : Act α} {h : Exc → Act α} (hh : ∀ e, Tame S i (h e)) : Tame S i (tryCatch p h) :=
  walks_handle (walks_any p) hh

/-- What the provider raises itself is looked at case by case. -/
theorem tame_raiseIf {c : Prop} [Decidable c] {e : Exc} (h : c → e.isPermanent = false) : Tame S i (raiseIf c e) :=
  walks_raiseIf (fun hc _ _ => h hc) fun _ _ _ => trivial

theorem tame_onlyIf {c : Prop} [Decidable c] {p : Act Unit} (h : c → Tame S i p) : Tame S i (onlyIf c p) :=
  walks_onlyIf h fun _ _ _ => trivial

theorem tame_readOwner {plural version message : String} {key : ObjectKey} :
    Tame S i (readOwner plural version key message) := by
  refine tame_handle (tame_bind tame_call fun _ => tame_pure _) fun e he => ?_
  split
  · exact tame_pure _
  · exact tame_throw rfl
  · exact tame_throw he

theorem tame_isPausedOwners {ns : String} (owners : List OwnerReference) : ∀ (name : Option String) (version : String),
    Tame S i (isPausedOwners ns owners name version) := by
  induction owners with
  | nil =>
    intro name version
    unfold isPausedOwners
    split
    · exact tame_pure _
    · refine tame_bind tame_readOwner fun o => ?_
      cases o <;> exact tame_pure _
  | cons owner rest ih =>
    intro name version
    unfold isPausedOwners
    split
    · exact ih _ _
    · split
      · exact ih _ _
      · refine tame_bind tame_readOwner fun o => ?_
        cases o with
        | none => exact tame_pure _
        | some obj =>
          refine walks_ite (fun _ => tame_throw rfl) fun _ => walks_ite (fun _ => tame_pure _) fun _ => ?_
          exact walks_ite (fun _ => tame_pure _) fun _ => ih _ _

/-- The pause check raises no permanent error. -/
theorem tame_isPaused {spec : MachineSpec} {metadata : ObjectMeta} {ns : String} :
    Tame S i (isPaused spec metadata ns) := by
  unfold isPaused
  split
  · exact tame_pure _
  · exact tame_isPausedOwners _ _ _

theorem tame_patchConditions {status : MachineStatus} {metadata : ObjectMeta} {updates : List Condition} :
    Tame S i (patchConditions status metadata updates) := tame_call

theorem tame_reportPause {status : MachineStatus} {metadata : ObjectMeta} {check : Act Bool} (h : Tame S i check) :
    Tame S i (reportPause status metadata check) := by
  refine tame_bind (tame_handle h fun e he => ?_) fun paused => tame_bind tame_patchConditions fun _ => tame_pure _
  change Tame S i (if e ≠ .cancelled then _ else _)
  exact walks_ite (fun _ => tame_bind tame_patchConditions fun _ => tame_throw he) fun _ => tame_throw he

theorem tame_persist {key : ObjectKey} {uid : Uid} {changes : StatusPatch} :
    Tame S i (persistMachineStatus key uid changes) := by
  refine tame_bind tame_call fun current => tame_bind (tame_raiseIf fun _ => rfl) fun _ => tame_bind tame_call fun now => ?_
  refine tame_handle tame_call fun e he => ?_
  split
  · exact tame_throw rfl
  · exact tame_throw he

theorem tame_setHostPhase {binding : Binding} {key : ObjectKey} {uid : Uid} {phase : HostPhase} {reason : String} :
    Tame S i (setHostPhase binding key uid phase reason) := by
  unfold setHostPhase
  split
  · exact tame_pure _
  · refine tame_bind tame_call fun host => tame_bind (tame_raiseIf fun _ => rfl) fun _ => tame_bind tame_call fun _ => ?_
    exact tame_pure _

theorem tame_blocked {status : MachineStatus} {metadata : ObjectMeta} {message : String} :
    Tame S i (blocked status metadata message : Act α) :=
  tame_bind tame_patchConditions fun _ => tame_throw rfl

theorem tame_recordCleanup {metadata : ObjectMeta} {phase : CleanupPhase} {reason message : String} :
    Tame S i (recordCleanup metadata phase reason message) :=
  tame_bind tame_call fun _ => tame_bind tame_call fun _ => tame_bind tame_call fun _ =>
    tame_bind tame_persist fun _ => tame_call

/-- A release that fails is left for the next attempt. -/
theorem tame_releaseCleanedHost {binding : Option Binding} {metadata : ObjectMeta} {status : MachineStatus} :
    Tame S i (releaseCleanedHost binding metadata status) := by
  cases binding with
  | none => exact tame_pure _
  | some binding =>
    refine tame_caught fun e => ?_
    refine tame_bind (tame_raiseIf (by rintro rfl; rfl)) fun _ => tame_bind tame_patchConditions fun _ => ?_
    exact tame_throw rfl

/-- Nor does a deletion without an ownership record. -/
theorem tame_deleteUnowned {spec : MachineSpec} {status : MachineStatus} {metadata : ObjectMeta} :
    Tame S i (deleteUnowned spec status metadata) := by
  unfold deleteUnowned
  refine tame_bind ?_ fun recovered => tame_bind ?_ fun _ => tame_bind (tame_onlyIf fun _ => ?_) fun _ =>
    tame_bind tame_recordCleanup fun _ => tame_releaseCleanedHost
  · unfold recoverIf recoverUnstartedClaim
    split
    · refine tame_bind tame_call fun hosts => ?_
      split
      · exact tame_pure _
      · exact tame_pure _
      · exact tame_throw rfl
    · exact tame_pure _
  · cases recovered with
    | none => exact tame_pure _
    | some binding =>
      refine tame_bind (tame_onlyIf fun _ => tame_blocked) fun _ => tame_bind tame_persist fun _ => ?_
      exact tame_pure _
  · unfold refuseLegacy
    split
    · exact tame_blocked
    · exact tame_bind tame_setHostPhase fun _ => tame_blocked

theorem tame_cleanupFailed {binding : Binding} {metadata : ObjectMeta} :
    Tame S i (cleanupFailed binding metadata) := by
  unfold cleanupFailed
  refine tame_bind tame_call fun current => tame_bind (tame_raiseIf fun _ => rfl) fun _ => ?_
  refine walks_ite (fun _ => tame_bind tame_call fun _ => tame_throw rfl) fun _ => ?_
  exact tame_bind tame_setHostPhase fun _ => tame_bind tame_recordCleanup fun _ => tame_throw rfl

/-- The session is closed to everything that it raises. -/
theorem tame_cleanHost {binding : Binding} {status : MachineStatus} {metadata : ObjectMeta} :
    Tame S i (cleanHost binding status metadata) := by
  unfold cleanHost
  refine tame_bind tame_setHostPhase fun _ => tame_bind tame_recordCleanup fun _ =>
    tame_bind (tame_caught fun e => tame_pure _) fun exit => ?_
  split
  · exact tame_releaseCleanedHost
  · exact tame_throw rfl
  · exact tame_bind (tame_raiseIf fun _ => rfl) fun _ => tame_cleanupFailed

/-- Its deletion looks after a reboot before it cleans the host. -/
structure Machine.AwaitsReboot (m : Machine) : Prop where
  owned : m.status.bootstrapOwnership.isSome = true
  unclean : m.status.cleanup ≠ some .succeeded
  pending : (m.status.reboot.getD .empty).pending = true

/-- A deletion that has no reboot to wait for raises none. -/
theorem tame_deleteMachine (hm : ¬ m.AwaitsReboot) : Tame S i (deleteMachine m.spec m.status m.metadata) := by
  unfold deleteMachine
  refine tame_bind tame_call fun _ => tame_bind tame_patchConditions fun _ =>
    tame_bind (tame_reportPause tame_isPaused) fun paused => tame_bind (tame_onlyIf fun _ =>
      tame_bind tame_patchConditions fun _ => tame_throw rfl) fun _ => tame_bind (tame_onlyIf fun _ => tame_blocked) fun _ => ?_
  split
  · exact tame_deleteUnowned
  · rename_i ownership ho
    unfold deleteOwned
    split
    · exact tame_blocked
    · refine tame_bind (tame_onlyIf fun _ => tame_blocked) fun _ => tame_bind (tame_onlyIf fun _ => tame_blocked) fun _ =>
        walks_ite (fun _ => tame_bind tame_recordCleanup fun _ => tame_releaseCleanedHost) fun hc =>
          walks_ite (fun hp => ?_) fun _ => tame_cleanHost
      exact absurd ⟨by rw [ho]; rfl, hc, hp⟩ hm

/-- The deletion looks after a reboot of the Machine that it has read. -/
def Awaiting (i : MachineRef) (l : Local) : Prop := ∃ m, live i l.calls = some m ∧ m.AwaitsReboot

/-- It raises a permanent error for no other reason. -/
def Relents (i : MachineRef) (e : Exc) (l : Local) : Prop := e.isPermanent = true → Awaiting i l

/-- No Machine has been read. -/
def Unread (l : Local) : Prop := firstRead l.calls = none

theorem relents_tame {e : Exc} (h : e.isPermanent = false) : Relents i e l := by
  intro hp
  rw [h] at hp
  cases hp

/-- Cancellation is passed on and is not permanent. -/
theorem relents_cancelled {e : Exc} {K : Local → Prop} {p : Act α} {A : α → Local → Prop}
    (h : Walks S Spoken i Unguarded K p A (Relents i)) :
    Walks S Spoken i Unguarded K (if e = .cancelled then throw e else p) A (Relents i) :=
  walks_ite (fun he => walks_throw fun _ _ => relents_tame (by rw [he]; rfl)) fun _ => h

theorem relents_push {e : Exc} {x : Exchange} (h : Relents i e l) : Relents i e (l.push i x) := by
  intro hp
  obtain ⟨m, hm, hw⟩ := h hp
  exact ⟨m, live_cons x hm, hw⟩

theorem unread_push {e : Exchange} (h : Unread l) (he : ∀ key, e.op ≠ .readMachine key) : Unread (l.push i e) := by
  change (firstRead l.calls).or e.machine = none
  rw [h, machine_other he]
  rfl

/-- A deletion with a permanent error was waiting for a reboot. -/
theorem relents_part : Walks S Spoken i Unguarded (fun l => live i l.calls = some m)
    (deleteMachine m.spec m.status m.metadata) (fun _ _ => True) (Relents i) := by
  by_cases hm : m.AwaitsReboot
  · refine walks_conseq (walks_only (K := fun l => live i l.calls = some m) (only_true _) fun _ _ _ _ _ _ _ hl _ _ _ =>
      ⟨trivial, live_cons _ hl⟩) (fun _ hl => hl) (fun _ _ _ => trivial) ?_
    exact fun e l hl _ => ⟨m, hl, hm⟩
  · exact walks_conseq (tame_deleteMachine hm) (fun _ _ => trivial) (fun _ _ _ => trivial) fun e l he => relents_tame he

theorem relents_acquire : Walks S Spoken i Unguarded Unread (acquireDistributedLockOrRequeue i.key) (fun _ => Unread)
    (Relents i) := by
  refine walks_bind (A := fun _ => Unread) (walks_handle (E := fun _ _ => True) ?_ fun e => ?_) fun acquired =>
    walks_raiseIf (fun _ _ _ => relents_tame rfl) fun _ _ hl => hl
  · refine walks_call fun l c w r w' hl _ _ _ => ⟨trivial, ?_⟩
    cases r with
    | ok b => exact unread_push hl (by rintro key ⟨⟩)
    | error e => trivial
  · exact relents_cancelled (walks_throw fun _ _ => relents_tame rfl)

theorem relents_release {K : Local → Prop} (hK : ∀ l e, K l → K (l.push i e)) :
    Walks S Spoken i Unguarded K (releaseDistributedLockWithLogging i.key) (fun _ => K) (Relents i) := by
  refine walks_bind (A := fun _ => K) (walks_handle (E := fun _ => K) ?_ fun e => ?_) fun _ => walks_pure fun _ hl => hl
  · refine walks_call fun l c w r w' hl _ _ _ => ⟨trivial, ?_⟩
    cases r <;> exact hK _ _ hl
  · exact relents_cancelled (walks_pure fun _ hl => hl)

/-- The read under the lock. -/
theorem relents_read : Walks S Spoken i Unguarded Unread
    (tryCatch (readCurrentSshmachine i.key) fun e => if e = .cancelled then throw e
      else throw (.temporary "failed to refresh live SSHMachine state under reconcile lock" 15))
    (fun r l => ∀ m, r = some m → m.metadata.uid = i.uid → live i l.calls = some m) (Relents i) := by
  refine walks_handle (E := fun _ _ => True) (walks_handle (E := fun _ _ => True) ?_ fun e => ?_) fun e => ?_
  · refine walks_bind (A := fun m l => m.metadata.uid = i.uid → live i l.calls = some m) ?_ fun m =>
      walks_pure fun l hl m' hm hu => by cases hm; exact hl hu
    refine walks_call fun l c w r w' hl _ _ _ => ⟨trivial, ?_⟩
    cases r with
    | error e => trivial
    | ok m =>
      intro hu
      refine live_some.mpr ⟨?_, hu⟩
      change (firstRead l.calls).or (some m) = some m
      rw [hl]
      rfl
  · split
    · exact walks_pure fun l _ m hm => by cases hm
    · exact walks_throw fun _ _ => trivial
  · exact relents_cancelled (walks_throw fun _ _ => relents_tame rfl)

/-- The locks around it change nothing about that. -/
theorem relents_body : Walks S Spoken i Unguarded Unread (Attempt.delete.body S.tools S.timeout i) (fun _ _ => True)
    (Relents i) := by
  refine walks_bind (A := fun _ _ => True) ?_ fun _ => walks_pure fun _ _ => trivial
  refine walks_bind relents_acquire fun _ => walks_finally (A := fun _ _ => True) (E := Relents i) ?_
    (fun _ => relents_release fun _ _ _ => trivial) fun e => relents_release fun _ _ hl => relents_push hl
  refine walks_bind relents_read fun latest => ?_
  cases latest with
  | none => exact walks_pure fun _ _ => trivial
  | some m =>
    refine walks_ite (fun _ => walks_pure fun _ _ => trivial) fun hu => walks_weaken relents_part fun l hl => ?_
    exact hl m rfl (not_not.mp hu)

theorem relents_handled (a : Attempt) (w : World) :
    wp (solo S Spoken i) (alone (Guarded Unguarded)) () (a.handled S.tools S.timeout i) (fun r l =>
      ∀ outcome, r = .ok outcome → l.kind = .delete → ∀ e, outcome = .error e → Relents i e l) (.fresh a w) := by
  by_cases ha : a = .delete
  · subst ha
    have h : Walks S Spoken i Unguarded Unread (Attempt.delete.handled S.tools S.timeout i)
        (fun outcome l => ∀ e, outcome = .error e → Relents i e l) fun _ _ => True := by
      refine walks_bind (walks_attempt (F := fun _ _ => True) relents_body) fun outcome =>
        walks_bind (A := fun _ l => ∀ e, outcome = .error e → Relents i e l) ?_ fun _ => walks_pure fun _ hl => hl
      cases outcome with
      | ok b => exact walks_conseq (walks_any _) (fun _ hl => hl) (fun _ _ _ e he => by cases he) fun _ _ _ => trivial
      | error e =>
        refine walks_conseq (walks_only (K := Relents i e) (only_true _) fun _ _ _ _ _ _ _ hl _ _ _ =>
          ⟨trivial, relents_push hl⟩) (fun _ hl => hl) (fun _ l hl x hx => ?_) fun _ _ _ => trivial
        cases hx
        exact hl
    refine wp_mono guarded_fresh (h _ guarded_fresh rfl) ?_
    rintro (e | outcome) l - hl r hr -
    · cases hr
    · cases hr
      exact hl
  · refine wp_mono guarded_fresh (walks_kind (a := a) (a.handled S.tools S.timeout i) _ guarded_fresh rfl) ?_
    rintro (e | outcome) l - hl r hr hkind
    · cases hr
    · exact absurd (hl.symm.trans hkind) ha

/-- Kopf takes the finalizer away after a handler that has ended so. -/
def dropsFinalizer : Except Exc (Option Binding) → Bool
  | .ok _ => true
  | .error e => e.isPermanent

section runs

variable {c d : Crew MachineRef} {outcome : Except Exc (Option Binding)}

/-- In every run, a deletion that ended with a permanent error was waiting for a reboot. -/
theorem permanent_awaits {e : Exc} (h : Reachable ((handlers S id).limit Sincere) (idle (Site.empty MachineRef)) c)
    (hend : c.thread i = some (.pure (.error e))) (hkind : (c.world.attempts i).kind = .delete)
    (he : e.isPermanent = true) : Awaiting i (c.world.attempts i) := by
  have hfollow := handlers_followed (G := fun _ => Unguarded) (I := Steady noTrust id)
    (fun _ hc => reachable_steady (limit_reachable hc)) (fun _ _ _ _ _ _ _ hs hk _ hC => ⟨basic_known hs hk, hC⟩)
    (fun i a w _ => relents_handled (i := i) a w) h i
  exact hfollow.2 _ hend _ rfl hkind _ rfl he

/-- When the finalizer goes, the Machine is gone, or it has been cleaned up for good, or its
deletion has found it waiting for a reboot. -/
theorem finalizer_kept (h : Reachable ((handlers S id).limit Sincere) (idle (Site.empty MachineRef)) c)
    (hend : c.thread i = some (.pure outcome)) (hkind : (c.world.attempts i).kind = .delete)
    (hdrop : dropsFinalizer outcome = true) (h' : Reachable (handlers S id) c d) :
    ((∃ e ∈ (c.world.attempts i).calls, e.gone i = true) ∨ CleanedUp i d.world.world) ∨
      Awaiting i (c.world.attempts i) := by
  cases outcome with
  | ok b => exact .inl (deletion_cleaned (limit_reachable h) hend hkind h')
  | error e => exact .inr (permanent_awaits h hend hkind hdrop)

/-- No call has failed with a permanent error. -/
def sincerely (_ : MachineRef) (e : Exchange) (_ : Site MachineRef) : Bool :=
  match e.reply with
  | .ok _ => true
  | .error x => !x.isPermanent

theorem sincerely_takes {ts : List (Turn MachineRef)} {f : Crew MachineRef → Bool} {c : Crew MachineRef}
    (h : (takes S id sincerely smallUsual ts c).any f = true) :
    ∃ c', Reachable ((handlers S id).limit Sincere) c c' ∧ f c' = true := by
  refine takes_limited_exists (fun k op s r w' hs e he => ?_) h
  subst he
  simpa [sincerely] using hs

/-- A deletion has ended, and the finalizer goes. -/
def dropped (i : MachineRef) (c : Crew MachineRef) : Bool :=
  match c.thread i with
  | some (.pure outcome) => dropsFinalizer outcome && (c.world.attempts i).kind == .delete
  | _ => false

/-- The thread of such a deletion has ended. -/
theorem dropped_thread (h : dropped i c = true) : ∃ outcome, c.thread i = some (.pure outcome) ∧
    (c.world.attempts i).kind = .delete ∧ dropsFinalizer outcome = true := by
  unfold dropped at h
  split at h
  · rename_i outcome hp
    rw [Bool.and_eq_true, beq_iff_eq] at h
    exact ⟨outcome, hp, h.2, h.1⟩
  · cases h

def bootstrappedThenDeleted : List (Turn MachineRef) :=
  bootstrapped ++ [.change (.deleteMachine ⟨"n", "m"⟩ 0), .start (smallRef "m" 1) .delete, .usual (smallRef "m" 1) 32]

/-- A bootstrapped Machine is deleted, and its host reset. -/
theorem finalizer_kept_bootstrapped : ∃ c : Crew MachineRef,
    Reachable ((handlers smallSetting id).limit Sincere) (idle (Site.empty MachineRef)) c ∧
      owned (journal (smallRef "m" 1) c.world.world) ∧ (((∃ e ∈ (c.world.attempts (smallRef "m" 1)).calls,
        e.gone (smallRef "m" 1) = true) ∨ CleanedUp (smallRef "m" 1) c.world.world) ∨
          Awaiting (smallRef "m" 1) (c.world.attempts (smallRef "m" 1))) := by
  have h : (takes smallSetting id sincerely smallUsual bootstrappedThenDeleted (idle (Site.empty MachineRef))).any
      (fun c => dropped (smallRef "m" 1) c &&
        (statusOf (journal (smallRef "m" 1) c.world.world)).bootstrapOwnership.isSome) = true := by
    decide +kernel
  obtain ⟨c, hc, hb⟩ := sincerely_takes h
  rw [Bool.and_eq_true] at hb
  obtain ⟨hd, ho⟩ := hb
  obtain ⟨outcome, hend, hkind, hdrop⟩ := dropped_thread hd
  exact ⟨c, hc, ho, finalizer_kept hc hend hkind hdrop .refl⟩

/-- The address is edited while a reboot is pending, and the Machine deleted. -/
def deletedWhileRebooting : List (Turn MachineRef) :=
  bootstrapped ++ [.change (.editMachine ⟨"n", "m"⟩ { smallSpec (some "a") with requestedAt := some "r" } (smallMeta "m")),
    .start (smallRef "m" 1) .reboot, .usual (smallRef "m" 1) 26, .finish (smallRef "m" 1),
    .change (.editMachine ⟨"n", "m"⟩ (smallSpec (some "b")) (smallMeta "m")), .change (.deleteMachine ⟨"n", "m"⟩ 0),
    .start (smallRef "m" 1) .delete, .usual (smallRef "m" 1) 10]

/-- The third case does happen, on a host that the Machine owns and that is not cleaned. -/
theorem finalizer_lost : ∃ c : Crew MachineRef,
    Reachable ((handlers smallSetting id).limit Sincere) (idle (Site.empty MachineRef)) c ∧
      dropped (smallRef "m" 1) c = true ∧ owned (journal (smallRef "m" 1) c.world.world) ∧
        ¬ CleanedUp (smallRef "m" 1) c.world.world := by
  have h : (takes smallSetting id sincerely smallUsual deletedWhileRebooting (idle (Site.empty MachineRef))).any
      (fun c => dropped (smallRef "m" 1) c &&
        (statusOf (journal (smallRef "m" 1) c.world.world)).bootstrapOwnership.isSome &&
          (statusOf (journal (smallRef "m" 1) c.world.world)).cleanup.isNone) = true := by
    decide +kernel
  obtain ⟨c, hc, hb⟩ := sincerely_takes h
  simp only [Bool.and_eq_true, Option.isNone_iff_eq_none] at hb
  obtain ⟨⟨hd, ho⟩, hn⟩ := hb
  refine ⟨c, hc, hd, ho, fun hclean => ?_⟩
  have hs := hclean.stored
  rw [hn] at hs
  cases hs

end runs

end CapiSsh
