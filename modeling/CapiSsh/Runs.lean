import CapiSsh.ReconcileRules
import CapiSsh.Replay
import CapiSsh.Writes

/-!
# Every run keeps to the discipline

What users and hosts do keeps it as well, so the journals of every run are lawful and
account for the store, whatever the interleaving of attempts, their crashes included.
-/
namespace CapiSsh

open Effect Interference

variable {T : Trust} {S : Setting} {i : MachineRef} {w w' : World} {c c' : Configuration}

theorem journal_noteAll (k : MachineRef) (es : Option Event) (w : World) :
    journal i (w.noteAll k es) = (if i = k then es.toList else []) ++ journal i w := by
  cases es with
  | none => simp [World.noteAll]
  | some e =>
    by_cases hi : i = k
    · simp [World.noteAll, hi]
    · simp [World.noteAll, hi, journal_note_other]

/-- A change that adds at most one event of a user. -/
structure Outside (T : Trust) (w w' : World) : Prop where
  accounted : Accounted T w'
  staged : w'.staged = w.staged
  later : Later w w'
  journal : ∃ (k : MachineRef) (es : Option Event), (∀ e ∈ es, e.isUser = true) ∧
    ∀ i, journal i w' = (if i = k then es.toList else []) ++ journal i w

/-- What happens outside keeps the world consistent, and nobody is deceived by it. -/
theorem outside_consistent (hw : Consistent T w) (h : Outside T w w') :
    Consistent T w' ∧ ∀ i, Relies i w w' := by
  obtain ⟨k, es, hes, hj⟩ := h.journal
  have hlaw : ∀ i e, e ∈ es → Law T i (journal i w) e ∧ e.touchesReboot = false := by
    intro i e he
    have hu := hes e he
    cases e <;> first | exact ⟨trivial, rfl⟩ | cases hu
  refine ⟨⟨h.accounted, ?_, ?_⟩, ?_⟩
  · intro i
    rw [hj]
    split
    · cases es with
      | none => exact hw.lawful i
      | some e => exact .cons (hw.lawful i) (hlaw i e rfl).1
    · exact hw.lawful i
  · intro i
    rw [hj, h.staged]
    split
    · cases es with
      | none => exact hw.staged i
      | some e => exact compatible_step (hlaw i e rfl).1 (hw.staged i) (.inl (hlaw i e rfl).2)
    · exact hw.staged i
  · intro i
    refine ⟨h.later.rev, by rw [h.staged], ⟨_, hj i, fun e he => ?_⟩, h.later.hosts⟩
    split at he
    · exact hes e (by simpa using he)
    · cases he

theorem outside_machine {k : ObjectKey} {m : Machine} (es : Option Event) (hw : Accounted T w)
    (hes : ∀ e ∈ es, e.isUser = true) (hk : m.metadata.key = k) (hu : m.metadata.uid ≤ w.rev + 1)
    (ht : Told (es.toList ++ journal ⟨k, m.metadata.uid⟩ w) m) :
    Outside T w ((w.storeMachine k m).noteAll ⟨k, m.metadata.uid⟩ es) := by
  have hhost : ∀ e ∈ es, e.isHost = false := by
    intro e he
    have hu := hes e he
    cases e <;> first | rfl | cases hu
  refine ⟨accounted_machine es hw hhost hk hu ht, ?_, ?_, ⟨_, es, hes, fun i => journal_noteAll _ _ _⟩⟩
  · cases es <;> rfl
  · cases es with
    | none => exact later_next rfl (List.suffix_refl _) fun _ _ h => .inl h
    | some e => exact later_next rfl (List.suffix_cons _ _) fun _ _ h => .inl h

/-- A host that users write, in what is left to them. -/
theorem outside_host {k : ObjectKey} {h : Host} (hw : Accounted T w) (hk : h.metadata.key = k)
    (hu : h.metadata.uid ≤ w.rev + 1)
    (hd : ∀ k' h', w.hosts.lookup k' = some h' → h'.metadata.uid = h.metadata.uid → k' = k)
    (hclaimed : T.claims = true → ∀ i p, heldOf h.metadata.uid (journal i w) = some p →
      h.spec.consumerRef = some i.consumer ∧ (T.phases = true → h.status.phase = p))
    (hholder : T.claims = true → ∀ r, h.spec.consumerRef = some r →
      ∃ i, r = i.consumer ∧ (heldOf h.metadata.uid (journal i w)).isSome) :
    Outside T w (w.storeHost k h) := by
  have hacc := accounted_host (i := ⟨k, 0⟩) none hw (by simp) (by simp) (by simp) hk rfl hu hd hclaimed hholder
  exact ⟨hacc, rfl, later_next rfl (List.suffix_refl _) storeHost_lookup, ⟨k, 0⟩, none, by simp, fun i => by simp⟩

/-- Objects that are removed leave their journals. -/
theorem accounted_fewer (hw : Accounted T w) (hlog : w'.log = w.log) (hrev : w'.rev = w.rev)
    (hm : ∀ k m, w'.machines.lookup k = some m → w.machines.lookup k = some m)
    (hh : ∀ k h, w'.hosts.lookup k = some h → w.hosts.lookup k = some h) : Accounted T w' := by
  have hj : ∀ i, journal i w' = journal i w := fun i => by simp only [journal, hlog]
  refine ⟨?_, ?_, ?_, ?_, ?_, ?_, ?_, ?_⟩
  · rw [hlog, hrev]; exact hw.known
  · intro k m h
    rw [hj, hrev]
    exact hw.machine k m (hm k m h)
  · intro k h hl
    rw [hrev]
    exact hw.host k h (hh k h hl)
  · exact fun k k' h h' hl hl' => hw.distinct k k' h h' (hh k h hl) (hh k' h' hl')
  · intro i x hx
    rw [hj] at hx
    rw [hrev]
    exact hw.heldKnown i x hx
  · intro hT k h i p hl hp
    rw [hj] at hp
    exact hw.claimed hT k h i p (hh k h hl) hp
  · intro hT k h r hl hr
    obtain ⟨i, h₁, h₂⟩ := hw.holder hT k h r (hh k h hl) hr
    exact ⟨i, h₁, by rw [hj]; exact h₂⟩
  · intro hT i i' x h₁ h₂
    rw [hj] at h₁ h₂
    exact hw.exclusive hT i i' x h₁ h₂

theorem outside_fewer (hw : Accounted T w) (hlog : w'.log = w.log) (hrev : w'.rev = w.rev)
    (hst : w'.staged = w.staged) (hm : ∀ k m, w'.machines.lookup k = some m → w.machines.lookup k = some m)
    (hh : ∀ k h, w'.hosts.lookup k = some h → w.hosts.lookup k = some h) : Outside T w w' := by
  exact ⟨accounted_fewer hw hlog hrev hm hh, hst, ⟨Nat.le_of_eq hrev.symm, ⟨[], by simp [hlog]⟩,
    fun k h hl => .inl (hh k h hl)⟩, ⟨⟨"", ""⟩, 0⟩, none, by simp, fun i => by simp [journal, hlog]⟩

theorem lookup_of_erase {β : Type} {k k' : ObjectKey} {m : AList fun _ : ObjectKey => β} {b : β}
    (h : (m.erase k).lookup k' = some b) : m.lookup k' = some b := by
  by_cases hk : k' = k
  · subst hk
    rw [AList.lookup_erase] at h
    cases h
  · rwa [AList.lookup_erase_ne hk] at h

/-- Every change of a user is such a step. -/
theorem change_outside {c : Change} (hw : Accounted T w) (h : w.change T c = some w') : Outside T w w' := by
  cases c with
  | createMachine m =>
    simp only [World.change] at h
    split at h
    · cases h
      refine outside_machine (some (.requested m.spec.requestedAt)) (m := { m with
        metadata := { m.metadata with uid := w.rev + 1, deletionTimestamp := none }, status := .empty })
        hw (by rintro e ⟨⟩; rfl) rfl (Nat.le_refl _) ?_
      have hnil : journal ⟨m.metadata.key, w.rev + 1⟩ w = [] := journal_unknown hw (Nat.lt_succ_self _)
      simp only [Option.toList_some, hnil]
      exact ⟨rfl, rfl, by simp⟩
    · cases h
  | editMachine key spec metadata =>
    obtain ⟨m, hm, he⟩ := Option.bind_eq_some_iff.mp h
    obtain ⟨hk, hu, ht⟩ := hw.machine key m hm
    by_cases hr : spec.requestedAt = m.spec.requestedAt
    · simp only [hr, if_true] at he
      cases he
      exact outside_machine none hw (by simp) hk (Nat.le_succ_of_le hu)
        ⟨ht.status, hr.trans ht.request, ht.deletion⟩
    · simp only [hr, if_false] at he
      cases he
      exact outside_machine (some (.requested spec.requestedAt)) hw (by rintro e ⟨⟩; rfl) hk
        (Nat.le_succ_of_le hu) ⟨ht.status, rfl, by rw [List.mem_append]; simpa using ht.deletion⟩
  | deleteMachine key t =>
    obtain ⟨m, hm, he⟩ := Option.bind_eq_some_iff.mp h
    cases he
    obtain ⟨hk, hu, ht⟩ := hw.machine key m hm
    refine outside_machine (some .marked) (m := { m with
      metadata := { m.metadata with deletionTimestamp := some t } }) hw (by rintro e ⟨⟩; rfl) hk
      (Nat.le_succ_of_le hu) ⟨ht.status, ht.request, by simp⟩
  | dropMachine key =>
    cases h
    exact outside_fewer hw rfl rfl rfl (fun _ _ => lookup_of_erase) fun _ _ h => h
  | createHost h' =>
    simp only [World.change] at h
    split at h
    · rename_i hfree
      cases h
      have hnew : ∀ i p, heldOf (w.rev + 1) (journal i w) ≠ some p := by
        intro i p hp
        have := hw.heldKnown i (w.rev + 1) (by simp [hp])
        exact absurd this (Nat.not_succ_le_self _)
      refine outside_host hw rfl (Nat.le_refl _) ?_ ?_ ?_
      · intro k' h hl hu
        have := (hw.host k' h hl).2.1
        rw [hu] at this
        exact absurd this (Nat.not_succ_le_self _)
      · exact fun _ i p hp => absurd hp (hnew i p)
      · intro hT r hr
        rw [hfree.2 hT] at hr
        cases hr
    · cases h
  | editHost key h' =>
    obtain ⟨old, hl, he⟩ := Option.bind_eq_some_iff.mp h
    split at he
    · rename_i hkeep
      cases he
      obtain ⟨hk, hu, -⟩ := hw.host key old hl
      refine outside_host hw hk (Nat.le_succ_of_le hu) ?_ ?_ ?_
      · exact fun k' h hl' hu' => hw.distinct k' key h old hl' hl hu'
      · intro hT i p hp
        obtain ⟨hc, hph⟩ := hw.claimed hT key old i p hl hp
        exact ⟨(hkeep.1 hT).trans hc, fun hP => (hkeep.2 hP).trans (hph hP)⟩
      · intro hT r hr
        exact hw.holder hT key old r hl ((hkeep.1 hT).symm.trans hr)
    · cases he
  | dropHost key =>
    cases h
    exact outside_fewer hw rfl rfl rfl (fun _ _ h => h) fun _ _ => lookup_of_erase
  | rebootHost target =>
    cases h
    exact outside_fewer hw rfl rfl rfl (fun _ _ h => h) fun _ _ h => h

theorem change_consistent {c : Change} (hw : Consistent T w) (h : w.change T c = some w') :
    Consistent T w' ∧ ∀ i, Relies i w w' :=
  outside_consistent hw (change_outside hw.accounted h)

/-- A bind attempt returns the target that is persisted. -/
def Returned (r : Option Binding) : Fact := fun j _ => ∀ b, r = some b → identityOf j = some b.identity

theorem returned_calm {r : Option Binding} : Calm (Returned r) := ⟨fun _ _ _ h => h, fun _ _ h => h⟩

theorem proves_withLive {f : Machine → Act (Option Binding)}
    (hf : ∀ m, m.metadata.uid = i.uid → Proves S i (fun j s => s = none ∧ Read i m j) (f m) Returned Any) :
    Proves S i (fun _ s => s = none) (withLive i f) Returned Any := by
  refine proves_bind (proves_conseq (rule_readMachine ⟨fun _ _ _ h => h, fun _ _ h => h⟩ rfl) (fun _ _ _ h => h)
    (fun _ _ _ _ h => h) fun _ _ _ _ => trivial) fun m => ?_
  change Proves _ _ _ (if _ then _ else _) _ _
  split
  · rename_i hu
    exact proves_weaken (hf m hu) fun j s _ h => ⟨h.1, h.2 hu⟩
  · exact proves_pure fun j s _ _ => by rintro b ⟨⟩

/-- Each kind of attempt keeps the law from beginning to end. -/
theorem proves_body {a : Attempt} :
    Proves S i (fun j s => s = none ∧ (a = .delete → Event.marked ∈ j)) (a.body S.tools S.timeout i)
      Returned Any := by
  cases a with
  | bind =>
    refine proves_weaken (proves_withLive fun m hu => ?_) fun _ _ _ h => h.1
    refine proves_bind (A := fun b j _ => identityOf j = some b.identity) ?_ fun b =>
      proves_pure fun j s _ h => by rintro b' ⟨⟩; exact h
    refine proves_conseq (proves_bindMachine (P := Any)
      ⟨calm_any, fun _ _ _ _ _ _ => trivial, fun _ _ _ _ _ _ => trivial, fun _ _ _ _ _ _ => trivial⟩)
      (fun j s hl h => ⟨trivial, ?_⟩) (fun _ _ _ _ h => h.2) fun _ _ _ _ => trivial
    rw [SameTarget, h.2.status, identityOf]
  | reboot =>
    refine proves_weaken (proves_withLive fun m hu => ?_) fun _ _ _ h => h.1
    refine proves_have (m.metadata.key = i.key) (fun _ _ _ h => h.2.key) fun hk => ?_
    refine proves_bind (proves_weaken (proves_reconcileReboot hk hu) ?_) fun _ =>
      proves_pure fun j s _ _ => by rintro b ⟨⟩
    rintro j s hl ⟨rfl, hread⟩
    exact (fresh_read hl hread).follows
  | reconcile =>
    refine proves_bind (proves_weaken proves_sshmachineReconcile fun j s _ h => ?_) fun _ =>
      proves_pure fun j s _ _ => by rintro b ⟨⟩
    exact ⟨h.1, by rintro ⟨⟩⟩
  | delete =>
    exact proves_bind (proves_weaken proves_sshmachineReconcile fun j s _ h => ⟨h.1, fun _ => h.2 rfl⟩) fun _ =>
      proves_pure fun j s _ _ => by rintro b ⟨⟩

theorem proves_program {a : Attempt} :
    Proves S i (fun j s => s = none ∧ (a = .delete → Event.marked ∈ j)) (a.program S.tools S.timeout i)
      Returned Any := by
  refine proves_finally proves_body (fun r => ?_) ?_
  · refine proves_conseq (rule_applyStaged (P := Returned r) returned_calm fun j s p hl h => ?_) (fun _ _ _ h => h)
      (fun _ _ _ _ h => h) fun _ _ _ _ => trivial
    exact fun b hb => identityOf_step hl (h b hb)
  · exact rule_applyStaged calm_any fun _ _ _ _ h => h

/-- What an attempt that has ended tells of its journal. -/
def ended (i : MachineRef) : Except Exc (Option Binding) → World → Prop
  | .ok (some b), w => identityOf (journal i w) = some b.identity
  | _, _ => True

/-- So the cluster respects the discipline. -/
theorem cluster_respects : Respects (cluster S) (discipline S.trust) ended where
  env w w' hw := by
    rintro ⟨c, h⟩
    exact change_consistent hw h
  start i p w w' hw := by
    rintro ⟨a, ha, rfl, rfl⟩
    have hallow : (discipline S.trust).Allows i w (w.restage i Patch.empty) :=
      allows_restage hw compatible_empty
    have hne : journal i w ≠ [] := by
      cases a with
      | delete => exact List.ne_nil_of_mem ha
      | _ => exact ha
    refine ⟨hallow, wp_mono hallow.1 (proves_program _ hallow.1 ⟨hne, ?_, ?_⟩) ?_⟩
    · rw [restage_same]; rfl
    · rintro rfl; exact ha
    · rintro (e | (- | b)) w' - h
      · trivial
      · trivial
      · exact h.2 b rfl
  finish i r w₀ w w' hw _ _ h := by
    obtain rfl := h
    exact (discipline S.trust).allows_refl hw
  crash i w w' hw h := by
    obtain rfl := h
    exact (discipline S.trust).allows_refl hw

/-- Soundness of every state that is reached. -/
theorem reachable_sound {c : Configuration} (h : Reachable (cluster S) (idle World.empty) c) :
    Sound (cluster S) (discipline S.trust) ended c := by
  exact Discipline.reachable cluster_respects ⟨accounted_empty, fun i => .nil, fun i => compatible_empty⟩ h

theorem answer_log {boots : Target → Nat → String} {op : Op} {ch : Choice} {r : Except Exc (Reply op)}
    (h : answer boots i op ch w = some (r, w')) : w.log <:+ w'.log :=
  (written_later (answer_written h)).log

theorem change_log {T : Trust} {e : Change} (h : w.change T e = some w') : w.log <:+ w'.log := by
  cases e with
  | createMachine m =>
    simp only [World.change] at h
    split at h
    · cases h; exact List.suffix_cons _ _
    · cases h
  | editMachine key spec metadata =>
    obtain ⟨m, -, he⟩ := Option.bind_eq_some_iff.mp h
    cases he
    split
    · exact List.suffix_refl _
    · exact List.suffix_cons _ _
  | deleteMachine key t =>
    obtain ⟨m, -, he⟩ := Option.bind_eq_some_iff.mp h
    cases he
    exact List.suffix_cons _ _
  | createHost h' =>
    simp only [World.change] at h
    split at h
    · cases h; exact List.suffix_refl _
    · cases h
  | editHost key h' =>
    obtain ⟨old, -, he⟩ := Option.bind_eq_some_iff.mp h
    split at he
    · cases he; exact List.suffix_refl _
    · cases he
  | _ => cases h; exact List.suffix_refl _

/-- The log of a run only grows. -/
theorem reachable_log (h : Reachable (cluster S) c c') : c.world.log <:+ c'.world.log := by
  induction h with
  | refl => exact List.suffix_refl _
  | tail _ hs ih =>
    refine ih.trans ?_
    cases hs with
    | env he => obtain ⟨e, he⟩ := he; exact change_log he
    | start _ hs => obtain ⟨a, -, -, rfl⟩ := hs; exact List.suffix_refl _
    | call _ he => obtain ⟨ch, he⟩ := he; exact answer_log he
    | finish _ _ hl => obtain rfl := hl; exact List.suffix_refl _
    | crash _ hl => obtain rfl := hl; exact List.suffix_refl _

/-- Journals grow at the front. -/
theorem reachable_journal (h : Reachable (cluster S) c c') (i : MachineRef) :
    ∃ post, journal i c'.world = post ++ journal i c.world := by
  obtain ⟨post, hp⟩ := reachable_log h
  exact ⟨_, by rw [journal, journal, ← hp, List.filterMap_append]⟩

end CapiSsh
