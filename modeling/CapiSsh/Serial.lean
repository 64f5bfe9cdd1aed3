import CapiSsh.Attempts

/-!
# Attempts that do not overlap

Where the reconcile lock serializes the attempts of a Machine, nobody but its user touches
its journal between two calls of an attempt. What is stored of its status then only
changes by its own writes.
-/
namespace CapiSsh

open Effect Interference

/-- The world as the attempt left it. -/
def Local.view (l : Local) (i : MachineRef) : World := l.seen.restage i l.staged

/-- What every call of a serialized attempt can rely on. -/
structure Serial (S : Setting) (i : MachineRef) (l : Local) (e : Exchange) : Prop where
  basic : Basic i l e
  consistent : Consistent S.trust e.before
  relies : Relies i (l.view i) e.before

/-- The status of the Machine when the attempt last looked. -/
def Local.stored (l : Local) (i : MachineRef) : MachineStatus := statusOf (journal i l.seen)

section runs

variable {S : Setting} {C : RunCondition MachineRef} {c : Crew MachineRef} {i : MachineRef}

theorem push_view (l : Local) (e : Exchange) : (l.push i e).view i = e.after := restage_self _ _

/-- Only users and other Machines have acted since the last call of each attempt. -/
def Undisturbed (c : Crew MachineRef) : Prop := ∀ i, Relies i ((c.world.attempts i).view i) c.world.world

theorem undisturbed_step {c d : Crew MachineRef} {c' : Configuration}
    (hc' : Reachable (cluster S) (idle World.empty) c') (hm : Mirrors c c') (h : Undisturbed c)
    (hs : Step (handlers S id) c d) : Undisturbed d := by
  have hsound := reachable_sound hc'
  rw [Sound, hm.world] at hsound
  cases hs with
  | env he =>
    obtain ⟨ch, w', hw, rfl⟩ := he
    exact fun i => relies_trans (h i) ((change_consistent hsound.1 hw).2 i)
  | @start j p s' hn he =>
    obtain ⟨a, ha, rfl, rfl⟩ := he
    have hallow := allows_restage (i := j) (p := Patch.empty) hsound.1 compatible_empty
    intro i
    rw [set_world, put_world]
    by_cases hi : i = j
    · subst hi
      rw [put_same]
      exact relies_refl i _
    · rw [put_other _ _ _ hi]
      exact relies_trans (h i) (hallow.2 i hi)
  | @call j op kont r s' hk he =>
    obtain ⟨ch, w', ha, rfl⟩ := he
    obtain ⟨p', hp', hsame⟩ := hm.busy j _ hk
    cases hsame with
    | leaf hn _ => exact absurd rfl hn
    | @call _ _ kont' hr =>
      have hallow : (discipline S.trust).Allows j c'.world w' := by
        refine sound_call (r := r) (reachable_sound hc') hp' ⟨ch, ?_⟩
        rw [id, hm.staged j, restage_self] at ha
        rw [hm.world]
        exact ha
      rw [hm.world] at hallow
      intro i
      rw [set_world, recorded_world]
      by_cases hi : i = j
      · subst hi
        rw [recorded_same, id, push_view]
        exact relies_refl i _
      · rw [recorded_other _ _ _ hi]
        exact relies_trans (h i) (hallow.2 i hi)
  | finish hk hr he =>
    obtain rfl := he
    exact h
  | crash hk he =>
    obtain rfl := he
    exact h

theorem serialized_undisturbed (h : Reachable (handlers S id) (idle (Site.empty MachineRef)) c) :
    Undisturbed c := by
  induction h with
  | refl =>
    intro i
    change Relies i (World.empty.restage i (World.empty.staged i)) World.empty
    rw [restage_self]
    exact relies_refl i _
  | tail hr hs ih =>
    obtain ⟨c', hc', hm⟩ := serialized_reachable hr
    exact undisturbed_step hc' hm ih hs

theorem serialized_meets (h : Reachable (handlers S id) (idle (Site.empty MachineRef)) c) (i : MachineRef) :
    c.world.meets id i = c.world.world := by
  obtain ⟨c', -, hm⟩ := serialized_reachable h
  rw [Site.meets, id, hm.staged, restage_self]

theorem serial_known {op : Op} {kont : Except Exc (Reply op) → Act (Except Exc (Option Binding))}
    {r : Except Exc (Reply op)} {w' : World} (h : Reachable (handlers S id) (idle (Site.empty MachineRef)) c)
    (hk : c.thread i = some (.call op kont)) : Serial S i (c.world.attempts i) ⟨op, r, c.world.meets id i, w'⟩ := by
  have hbasic : Basic (id i) (c.world.attempts i) ⟨op, r, c.world.meets id i, w'⟩ :=
    basic_known (reachable_steady h) hk
  refine ⟨hbasic, ?_, ?_⟩
  · change Consistent _ (c.world.meets id i)
    rw [serialized_meets h]
    exact serialized_consistent h
  · change Relies i _ (c.world.meets id i)
    rw [serialized_meets h]
    exact serialized_undisturbed h i

/-- What is guarded in the frame of serialized attempts is guarded in every run of them. -/
theorem serial_always {G : MachineRef → Attempt → Exchange → List Exchange → Prop}
    {Z : MachineRef → Attempt → Except Exc (Option Binding) → Local → Prop}
    (hF : ∀ i a, Framed S (Serial S) i (G i) a (Z i a)) : AlwaysGuarded S id C G := fun _ hc k =>
  (framed_runs id (I := fun c => Reachable (handlers S id) (idle (Site.empty MachineRef)) c)
    (fun _ h => limit_reachable h) (fun _ _ _ _ _ _ _ h hk _ _ => serial_known h hk) hF hc k).1

end runs

section stored

variable {S : Setting} {i : MachineRef} {l : Local} {e : Exchange}

theorem statusOf_users {us j : Journal} (hu : ∀ e ∈ us, Event.isUser e = true) : statusOf (us ++ j) = statusOf j := by
  induction us with
  | nil => rfl
  | cons e us ih =>
    rw [List.cons_append, statusOf_other, ih fun x hx => hu x (List.mem_cons_of_mem _ hx)]
    rintro p rfl
    cases hu _ List.mem_cons_self

/-- Nobody writes the status between two calls. -/
theorem serial_stored (h : Serial S i l e) : statusOf (journal i e.before) = l.stored i := by
  obtain ⟨us, hj, hu⟩ := h.relies.journal
  rw [hj, statusOf_users hu]
  rfl

/-- Calls that write the status of a Machine. -/
def Op.writesStatus : Op → Bool
  | .patchMachineStatus .. | .applyStaged _ => true
  | _ => false

theorem written_status {op : Op} {w w' : World} (h : Written i op w w') (hop : op.writesStatus = false) :
    statusOf (journal i w') = statusOf (journal i w) := by
  have hnote : ∀ (w'' : World) (e : Event), w''.log = (i, e) :: w.log → (∀ p, e ≠ .status p) →
      statusOf (journal i w'') = statusOf (journal i w) := by
    intro w'' e hl he
    simp only [journal, hl, List.filterMap_cons, if_true]
    exact statusOf_other he
  cases h with
  | same => rfl
  | staged f p _ => rfl
  | spec _ _ _ => rfl
  | status ho _ _ => rw [ho] at hop; cases hop
  | @claim key pre ref old _ _ _ => exact hnote _ _ rfl fun p he => by cases ref <;> cases he
  | phase _ _ _ => exact hnote _ _ rfl (by rintro p ⟨⟩)
  | applied f ho _ _ _ => rw [ho] at hop; cases hop
  | appliedStatus f ho _ _ _ => rw [ho] at hop; cases hop
  | noted e _ _ _ he => exact hnote _ _ rfl he

section calls

variable {op : Op} {c : Choice} {r : Except Exc (Reply op)} {w w' : World}

theorem stored_same (h : Serial S i l ⟨op, r, w, w'⟩) (ha : answer S.boots i op c w = some (r, w'))
    (hop : op.writesStatus = false) : (l.push i ⟨op, r, w, w'⟩).stored i = l.stored i :=
  (written_status (answer_written ha) hop).trans (serial_stored h)

end calls

/-- A status write that is acknowledged was made; one that is not may have been. -/
theorem stored_persist {rv : Nat} {p : StatusPatch} {c : Choice} {r : Except Exc Machine} {w w' : World}
    (h : Serial S i l ⟨.patchMachineStatus i.key ⟨i.uid, rv⟩ p, r, w, w'⟩)
    (ha : answer S.boots i (.patchMachineStatus i.key ⟨i.uid, rv⟩ p) c w = some (r, w')) :
    ((l.push i ⟨.patchMachineStatus i.key ⟨i.uid, rv⟩ p, r, w, w'⟩).stored i = l.stored i ∧ ∃ e, r = .error e) ∨
      (l.push i ⟨.patchMachineStatus i.key ⟨i.uid, rv⟩ p, r, w, w'⟩).stored i = p.apply (l.stored i) := by
  rcases answer_patchStatus ha with ⟨rfl, he⟩ | ⟨m, -, -, rfl⟩
  · exact .inl ⟨serial_stored h, he⟩
  · refine .inr ?_
    rw [← serial_stored h]
    simp [Local.stored, Local.push, journal, World.note, statusOf]
    rfl

/-- An attempt begins with what is stored. -/
theorem began_stored {Known : MachineRef → Local → Exchange → Prop} {a : Attempt} {m : Machine}
    (hK : ∀ l e, Known i l e → Serial S i l e) (h : Began Known i a m l) (hu : m.metadata.uid = i.uid) :
    l.stored i = m.status := by
  obtain ⟨l₀, w, rfl, hm, hk, -⟩ := h.read
  obtain ⟨-, -, ht⟩ := (hK _ _ hk).basic.accounted.machine _ m hm
  rw [hu] at ht
  exact ht.status.symm

end stored

end CapiSsh
