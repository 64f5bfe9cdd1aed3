import CapiSsh.Leaks
import CapiSsh.Permits

/-!
# What the provider guarantees about deletions that return

Whatever fails on the way, and whatever runs beside it, a deletion that returns has found
the Machine gone or has committed a receipt of its cleanup. Where attempts do not overlap,
the receipt stays, and what the Machine owned was reset before one was written.
-/
namespace CapiSsh

open Effect Interference

variable {S : Setting} {T : Trust} {i : MachineRef} {m : Machine} {w w' : World} {l : Local} {j : Journal}

def Event.cleanup : Event → Option CleanupPhase
  | .status p => p.cleanup
  | _ => none

/-- A receipt was committed. -/
def Receipted (j : Journal) : Prop := ∃ e ∈ j, Event.cleanup e = some .succeeded

theorem cleanup_cons {ev : Event} : (statusOf (ev :: j)).cleanup = ev.cleanup.or (statusOf j).cleanup := by
  cases ev <;> simp [statusOf, Event.cleanup, StatusPatch.apply]

/-- Journals only grow. -/
theorem receipted_later (hl : Later w w') (h : Receipted (journal i w)) : Receipted (journal i w') := by
  obtain ⟨e, he, hc⟩ := h
  exact ⟨e, (journal_suffix hl.log i).subset he, hc⟩

theorem receipted_stored (h : Lawful T i j) : Receipted j → (statusOf j).cleanup = some .succeeded := by
  induction h with
  | nil => rintro ⟨e, he, -⟩; cases he
  | @cons j e _ he ih =>
    rintro ⟨x, hx, hc⟩
    rcases List.mem_cons.mp hx with rfl | hx
    · rw [cleanup_cons, hc]
      rfl
    · exact succeeded_step he (ih ⟨x, hx, hc⟩)

/-- A receipt is stored, and what was owned was reset before one was. -/
structure CleanedUp (i : MachineRef) (w : World) : Prop where
  stored : (statusOf (journal i w)).cleanup = some .succeeded
  reset : owned (journal i w) → cleaned (journal i w)

theorem receipted_cleanedUp (h : Lawful T i (journal i w)) (hr : Receipted (journal i w)) : CleanedUp i w :=
  ⟨receipted_stored h hr, fun ho => cleaned_of_succeeded h ho (receipted_stored h hr)⟩

/-- A receipt had been committed when the last call returned. -/
def Cleared (i : MachineRef) (l : Local) : Prop := Receipted (journal i l.seen)

/-- What becomes of a deletion that raises does not matter here. -/
abbrev Receipts (S : Setting) (i : MachineRef) (K : Local → Prop) (p : Act α) (A : α → Local → Prop) : Prop :=
  Walks S Basic i Unguarded K p A fun _ _ => True

theorem keeps_cleared {s : Op → Prop} : Keeps S Basic i Unguarded s (Cleared i) := by
  intro op _ l c w r w' hl hs ha hk
  exact ⟨trivial, receipted_later (later_trans hk.later (written_later (answer_written ha))) hl⟩

theorem receipts_kept (p : Act α) : Receipts S i (Cleared i) p fun _ => Cleared i :=
  walks_conseq (walks_kept keeps_cleared (only_true p)) (fun _ hl => hl) (fun _ _ hl => hl) fun _ _ _ => trivial

section deletion

variable {K : Local → Prop} (hk : m.metadata.key = i.key) (hu : m.metadata.uid = i.uid)

include hk hu

/-- It returns when the API server has acknowledged the receipt. -/
theorem receipts_record {reason message : String} :
    Receipts S i K (recordCleanup m.metadata .succeeded reason message) fun _ => Cleared i := by
  unfold recordCleanup
  rw [hk, hu]
  refine walks_bind (walks_any _) fun patch => walks_bind (walks_any _) fun _ => walks_bind (walks_any _) fun now =>
    walks_bind (A := fun _ => Cleared i) ?_ fun stored => receipts_kept _
  refine walks_bind (walks_any _) fun current => walks_guard (fun _ _ => trivial) fun _ =>
    walks_bind (walks_any _) fun time => walks_handle (E := fun _ _ => True) ?_ fun e => ?_
  · refine walks_call fun l c w r w' hl hs ha hkn => ⟨trivial, ?_⟩
    cases r with
    | error e => trivial
    | ok stored =>
      rcases answer_patchStatus ha with ⟨-, e, he⟩ | ⟨old, -, -, rfl⟩
      · cases he
      · change Receipted (journal i (World.note _ i _))
        rw [journal_note_same]
        exact ⟨_, List.mem_cons_self, rfl⟩
  · split <;> exact walks_throw fun _ _ => trivial

theorem receipts_deleteUnowned : Receipts S i K (deleteUnowned m.spec m.status m.metadata) fun _ => Cleared i := by
  unfold deleteUnowned
  refine walks_bind (walks_any _) fun recovered => walks_bind (walks_any _) fun _ => walks_bind (walks_any _) fun _ => ?_
  exact walks_bind (receipts_record hk hu) fun _ => receipts_kept _

theorem receipts_resetHost {operation : HostLeaseRef} {conn : Conn} :
    Receipts S i K (resetHost operation conn m.metadata) fun _ => Cleared i := by
  unfold resetHost
  refine walks_bind (walks_any _) fun _ => walks_bind (walks_any _) fun _ => walks_bind (walks_any _) fun result => ?_
  exact walks_guard (fun _ _ => trivial) fun _ => receipts_record hk hu

/-- The receipt is what the session returns; leaving it may fail. -/
theorem receipts_cleanHost {binding : Binding} :
    Receipts S i K (cleanHost binding m.status m.metadata) fun _ => Cleared i := by
  unfold cleanHost
  refine walks_bind (walks_any _) fun _ => walks_bind (walks_any _) fun _ => ?_
  refine walks_bind (A := Closed (fun _ => Cleared i) fun _ => True) ?_ fun exit => ?_
  · refine walks_handle (E := fun _ _ => True) (walks_conseq (walks_withHost (P := Powers.holding)
      (K := fun _ => True) (F := fun _ => True) trivial (fun _ => keeps_cleared)
      (fun _ _ _ _ _ _ _ _ _ _ _ => ⟨trivial, trivial⟩) (fun _ _ _ => trivial) (fun _ _ => trivial)
      (fun _ _ _ _ _ _ _ _ _ _ _ => ⟨trivial, trivial⟩) (fun _ _ => trivial)
      fun lease conn _ => receipts_resetHost hk hu) (fun _ _ => trivial) (fun _ _ hl => hl) fun _ _ _ => trivial) fun e => ?_
    exact walks_pure fun l _ => ⟨by rintro a ⟨⟩, trivial⟩
  · split
    · rename_i a ho
      refine walks_weaken (receipts_kept _) fun l hl => ?_
      obtain ⟨hr, hl⟩ := hl
      rw [hr a ho] at hl
      exact hl
    · exact walks_throw fun _ _ => trivial
    · exact walks_guard (fun _ _ => trivial) fun _ => walks_cleanupFailed

theorem receipts_deleteOwned {ownership : Ownership} :
    Receipts S i K (deleteOwned m.spec m.status m.metadata ownership) fun _ => Cleared i := by
  unfold deleteOwned
  split
  · exact walks_blocked
  · rename_i binding hb
    refine walks_bind (walks_any _) fun _ => walks_bind (walks_any _) fun _ => walks_ite (fun _ => ?_) fun _ =>
      walks_ite (fun _ => walks_bind (walks_any _) fun _ => walks_raising) fun _ => receipts_cleanHost hk hu
    exact walks_bind (receipts_record hk hu) fun _ => receipts_kept _

theorem receipts_deleteMachine : Receipts S i K (deleteMachine m.spec m.status m.metadata) fun _ => Cleared i := by
  unfold deleteMachine
  refine walks_bind (walks_any _) fun _ => walks_bind (walks_any _) fun _ => walks_bind (walks_any _) fun _ =>
    walks_bind (walks_any _) fun _ => walks_bind (walks_any _) fun _ => ?_
  split
  · exact receipts_deleteUnowned hk hu
  · exact receipts_deleteOwned hk hu

end deletion

/-- What is known of an attempt when it has ended. -/
def Concludes (i : MachineRef) (r : Except Exc (Option Binding)) (l : Local) : Prop :=
  ∀ b, r = .ok b → l.kind = .delete → (∃ e ∈ l.calls, e.gone i = true) ∨ Cleared i l

theorem concludes_push {r : Except Exc (Option Binding)} {e : Exchange} (h : Concludes i r l) (hk : Basic i l e)
    (hw : Written i e.op e.before e.after) : Concludes i r (l.push i e) := by
  intro b hb hkind
  rcases h b hb hkind with ⟨x, hx, hg⟩ | hc
  · exact .inl ⟨x, List.mem_cons_of_mem _ hx, hg⟩
  · exact .inr (receipted_later (later_trans hk.later (written_later hw)) hc)

theorem framed_concludes (a : Attempt) : Framed S Basic i Unguarded a (Concludes i) where
  basic _ _ h := h
  guard _ _ _ _ _ := trivial
  locking l e h := by rintro b ⟨⟩
  missed l r h hv := by
    rintro b rfl -
    obtain ⟨e, he, hg⟩ := hv b rfl
    exact .inl ⟨e, List.mem_of_mem_head? he, hg⟩
  part m hu := by
    by_cases ha : a = .delete
    · subst ha
      refine walks_have (m.metadata.key = i.key) (fun l h => h.key) fun hk => ?_
      refine walks_conseq (walks_bind (B := fun _ => Cleared i) (receipts_deleteMachine (K := fun _ => True) hk hu)
        fun _ => walks_pure fun _ hl => hl) (fun _ _ => trivial) (fun r l hl b _ _ => .inr hl) ?_
      rintro e l - b ⟨⟩
    · refine walks_conseq (walks_kind _) (fun l h => h.kind) (fun r l hl b _ hkind => absurd (hl.symm.trans hkind) ha) ?_
      rintro e l - b ⟨⟩
  release l r c w b w' h hs ha hk := ⟨trivial, concludes_push h hk (answer_written ha)⟩
  raised l r e h := by rintro b ⟨⟩
  apply _ _ _ _ _ _ _ _ _ _ := trivial

section overlapping

variable {ι : Type} [DecidableEq ι] {who : ι → MachineRef} {k : ι} {c d : Crew ι} {b : Option Binding}

/-- Even where attempts overlap, a deletion does not return without a receipt. -/
theorem deletion_receipted (h : Reachable (handlers S who) (idle (Site.empty ι)) c)
    (hend : c.thread k = some (.pure (.ok b))) (hkind : (c.world.attempts k).kind = .delete) :
    (∃ e ∈ (c.world.attempts k).calls, e.gone (who k) = true) ∨ Receipted (journal (who k) c.world.world) := by
  have hfollow := framed_runs who (C := fun _ _ _ _ _ => True) (I := Steady noTrust who) (G := fun _ => Unguarded)
    (fun _ hc => reachable_steady (limit_reachable hc)) (fun _ _ _ _ _ _ _ hs hk _ _ => basic_known hs hk)
    (fun i a => framed_concludes a) (reachable_limit (fun _ _ _ _ _ => trivial) h) k
  obtain ⟨a, l₀, e, hz, he, (hl : c.world.attempts k = l₀.push (who k) e)⟩ := hfollow.2 _ hend _ rfl
  have hwritten : Written (who k) e.op e.before e.after := by
    obtain ⟨ch, ha⟩ := he.answered
    exact answer_written ha
  have hpush : Concludes (who k) (.ok b) (c.world.attempts k) := by
    rw [hl]
    exact concludes_push hz he.known hwritten
  rcases hpush b rfl hkind with hg | hc
  · exact .inl hg
  · exact .inr (receipted_later ((reachable_steady h).later k) hc)

theorem handlers_later (h : Steady noTrust who c) (hs : Step (handlers S who) c d) :
    Later c.world.world d.world.world := by
  cases hs with
  | env he =>
    obtain ⟨ch, w', hw, rfl⟩ := he
    exact (change_outside h.accounted (change_trust (by rintro ⟨⟩) (by rintro ⟨⟩) hw)).later
  | start _ he =>
    obtain ⟨a, -, -, rfl⟩ := he
    exact later_restage (later_refl _)
  | call _ he =>
    obtain ⟨ch, w', ha, rfl⟩ := he
    exact later_trans (later_restage (later_refl _)) (written_later (answer_written ha))
  | finish _ _ he =>
    obtain rfl := he
    exact later_refl _
  | crash _ he =>
    obtain rfl := he
    exact later_refl _

theorem runs_later (h : Reachable (handlers S who) (idle (Site.empty ι)) c) (h' : Reachable (handlers S who) c d) :
    Later c.world.world d.world.world := by
  induction h' with
  | refl => exact later_refl _
  | tail hr hs ih => exact later_trans ih (handlers_later (reachable_steady (h.trans hr)) hs)

end overlapping

section serialized

variable {c d : Crew MachineRef} {b : Option Binding}

/-- From the return of a deletion on, a Machine that it has not found gone keeps its receipt,
and has been reset if it ever owned a host. -/
theorem deletion_cleaned (h : Reachable (handlers S id) (idle (Site.empty MachineRef)) c)
    (hend : c.thread i = some (.pure (.ok b))) (hkind : (c.world.attempts i).kind = .delete)
    (h' : Reachable (handlers S id) c d) :
    (∃ e ∈ (c.world.attempts i).calls, e.gone i = true) ∨ CleanedUp i d.world.world := by
  refine (deletion_receipted h hend hkind).imp_right fun hr => ?_
  exact receipted_cleanedUp ((serialized_consistent (h.trans h')).lawful i) (receipted_later (runs_later h h') hr)

end serialized

end CapiSsh
