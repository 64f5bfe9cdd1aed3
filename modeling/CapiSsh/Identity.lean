import CapiSsh.Attempts

/-!
# What a UID names

A UID is issued once. In every run, two Machines of one UID are the same Machine, and a
host that an attempt has seen stays under the name that it had. A host whose claim has the
UID of a Machine is therefore claimed by that Machine.
-/
namespace CapiSsh

open Effect Interference

variable {S : Setting} {T : Trust} {i j : MachineRef} {w w' w'' : World} {op : Op}

structure Numbered (w : World) : Prop where
  unique : ∀ i j, journal i w ≠ [] → journal j w ≠ [] → i.uid = j.uid → i = j
  stored : ∀ k m, w.machines.lookup k = some m → journal ⟨k, m.metadata.uid⟩ w ≠ []

theorem numbered_empty : Numbered World.empty where
  unique i j h := absurd rfl h
  stored := by rintro k m ⟨⟩

/-- A step after which the same Machines are known. -/
theorem numbered_same (hw : Numbered w) (hj : ∀ i, journal i w' ≠ [] ↔ journal i w ≠ [])
    (hm : ∀ k m', w'.machines.lookup k = some m' →
      ∃ m, w.machines.lookup k = some m ∧ m.metadata.uid = m'.metadata.uid) : Numbered w' where
  unique i j hi hi' hu := hw.unique i j ((hj i).mp hi) ((hj j).mp hi') hu
  stored k m' hl := by
    obtain ⟨m, hl', hu⟩ := hm k m' hl
    rw [hj, ← hu]
    exact hw.stored k m hl'

theorem journal_noted {e : Event} (h : journal i w ≠ []) : journal j (w.note i e) ≠ [] ↔ journal j w ≠ [] := by
  by_cases hj : j = i
  · subst hj
    simp [h]
  · rw [journal_note_other _ _ hj]

theorem storeMachine_uid {key k : ObjectKey} {m f m' : Machine} (hm : w.machines.lookup key = some m)
    (h : (w.storeMachine key f).machines.lookup k = some m') (hf : f.metadata.uid = m.metadata.uid) :
    ∃ m, w.machines.lookup k = some m ∧ m.metadata.uid = m'.metadata.uid := by
  have h : (w.machines.insert key (f.stamp (w.rev + 1))).lookup k = some m' := h
  by_cases hk : k = key
  · subst hk
    rw [AList.lookup_insert] at h
    cases h
    exact ⟨m, hm, hf.symm⟩
  · rw [AList.lookup_insert_ne hk] at h
    exact ⟨m', h, rfl⟩

/-- No write makes a Machine, so no UID is given twice. -/
theorem numbered_written (hw : Numbered w) (hi : journal i w ≠ []) (h : Written i op w w') : Numbered w' := by
  cases h with
  | same => exact hw
  | staged f p _ => exact numbered_same hw (fun _ => Iff.rfl) fun k m h => ⟨m, h, rfl⟩
  | spec _ hm _ => exact numbered_same hw (fun _ => Iff.rfl) fun k m' h => storeMachine_uid hm h rfl
  | @status key pre p m _ hm hu =>
    refine numbered_same hw (fun j => journal_noted ?_) fun k m' h => storeMachine_uid hm h rfl
    rw [journal_storeMachine, ← hu]
    exact hw.stored key m hm
  | claim _ _ _ => exact numbered_same hw (fun j => journal_noted hi) fun k m h => ⟨m, h, rfl⟩
  | phase _ _ _ => exact numbered_same hw (fun j => journal_noted hi) fun k m h => ⟨m, h, rfl⟩
  | applied f _ hm _ _ => exact numbered_same hw (fun _ => Iff.rfl) fun k m' h => storeMachine_uid hm h rfl
  | @appliedStatus key m f _ hm hu _ =>
    refine numbered_same hw (fun j => journal_noted ?_) fun k m' h => storeMachine_uid hm h rfl
    rw [journal_storeMachine, ← hu]
    exact hw.stored key m hm
  | noted e _ _ _ _ => exact numbered_same hw (fun j => journal_noted hi) fun k m h => ⟨m, h, rfl⟩

/-- A Machine that a user makes gets a UID of its own. -/
theorem numbered_change {c : Change} (ha : Accounted T w) (hw : Numbered w) (h : w.change S.trust c = some w') :
    Numbered w' := by
  cases c with
  | createMachine m =>
    simp only [World.change] at h
    split at h
    · cases h
      -- every Machine that is known has a smaller UID
      have hold : ∀ i, journal i w ≠ [] → i.uid ≠ w.rev + 1 := fun i hi he => by
        have := journal_known ha hi
        rw [he] at this
        exact absurd this (Nat.not_succ_le_self _)
      have hknown : ∀ i, journal i ((w.storeMachine m.metadata.key { m with
          metadata := { m.metadata with uid := w.rev + 1, deletionTimestamp := none }
          status := .empty }).note ⟨m.metadata.key, w.rev + 1⟩ (.requested m.spec.requestedAt)) ≠ [] ↔
          i = ⟨m.metadata.key, w.rev + 1⟩ ∨ journal i w ≠ [] := by
        intro i
        by_cases hi : i = ⟨m.metadata.key, w.rev + 1⟩
        · subst hi
          simp
        · rw [journal_note_other _ _ hi, journal_storeMachine]
          simp [hi]
      refine ⟨fun i j hi hj hu => ?_, fun k m' hl => ?_⟩
      · rcases (hknown i).mp hi with rfl | hi
        · rcases (hknown j).mp hj with rfl | hj
          · rfl
          · exact absurd hu.symm (hold j hj)
        · rcases (hknown j).mp hj with rfl | hj
          · exact absurd hu (hold i hi)
          · exact hw.unique i j hi hj hu
      · rw [hknown]
        have hl : (w.machines.insert m.metadata.key _).lookup k = some m' := hl
        by_cases hk : k = m.metadata.key
        · subst hk
          rw [AList.lookup_insert] at hl
          cases hl
          exact .inl rfl
        · rw [AList.lookup_insert_ne hk] at hl
          exact .inr (hw.stored k m' hl)
    · cases h
  | editMachine key spec metadata =>
    obtain ⟨m, hm, he⟩ := Option.bind_eq_some_iff.mp h
    have hstored := hw.stored key m hm
    cases he
    split
    · exact numbered_same hw (fun _ => Iff.rfl) fun k m' h => storeMachine_uid hm h rfl
    · exact numbered_same hw (fun j => journal_noted hstored) fun k m' h => storeMachine_uid hm h rfl
  | deleteMachine key t =>
    obtain ⟨m, hm, he⟩ := Option.bind_eq_some_iff.mp h
    have hstored := hw.stored key m hm
    cases he
    exact numbered_same hw (fun j => journal_noted hstored) fun k m' h => storeMachine_uid hm h rfl
  | dropMachine key =>
    cases h
    exact numbered_same hw (fun _ => Iff.rfl) fun k m h => ⟨m, lookup_of_erase h, rfl⟩
  | createHost h' =>
    simp only [World.change] at h
    split at h
    · cases h; exact numbered_same hw (fun _ => Iff.rfl) fun k m h => ⟨m, h, rfl⟩
    · cases h
  | editHost key h' =>
    obtain ⟨old, -, he⟩ := Option.bind_eq_some_iff.mp h
    split at he
    · cases he; exact numbered_same hw (fun _ => Iff.rfl) fun k m h => ⟨m, h, rfl⟩
    · cases he
  | dropHost key => cases h; exact numbered_same hw (fun _ => Iff.rfl) fun k m h => ⟨m, h, rfl⟩
  | rebootHost target => cases h; exact numbered_same hw (fun _ => Iff.rfl) fun k m h => ⟨m, h, rfl⟩

/-- A host that existed before has kept its name. -/
def Lineage (w w' : World) : Prop := ∀ k h, w'.hosts.lookup k = some h → h.metadata.uid ≤ w.rev →
  ∃ h₀, w.hosts.lookup k = some h₀ ∧ h₀.metadata.uid = h.metadata.uid

theorem lineage_refl (w : World) : Lineage w w := fun _ h hl _ => ⟨h, hl, rfl⟩

theorem lineage_trans (hr : w.rev ≤ w'.rev) (h : Lineage w w') (h' : Lineage w' w'') : Lineage w w'' := by
  intro k x hx hu
  obtain ⟨x', hx', hu'⟩ := h' k x hx (hu.trans hr)
  obtain ⟨x₀, hx₀, hu₀⟩ := h k x' hx' (hu' ▸ hu)
  exact ⟨x₀, hx₀, hu₀.trans hu'⟩

theorem lineage_fewer (h : ∀ k x, w'.hosts.lookup k = some x → w.hosts.lookup k = some x) : Lineage w w' :=
  fun k x hx _ => ⟨x, h k x hx, rfl⟩

theorem lineage_stored {key : ObjectKey} {h old : Host} (hl : w.hosts.lookup key = some old)
    (hu : h.metadata.uid = old.metadata.uid) : Lineage w (w.storeHost key h) := by
  intro k x hx _
  have hx : (w.hosts.insert key (h.stamp (w.rev + 1))).lookup k = some x := hx
  by_cases hk : k = key
  · subst hk
    rw [AList.lookup_insert] at hx
    cases hx
    exact ⟨old, hl, hu.symm⟩
  · rw [AList.lookup_insert_ne hk] at hx
    exact ⟨x, hx, rfl⟩

/-- Writes leave every host under its name. -/
theorem written_lineage (h : Written i op w w') : Lineage w w' := by
  cases h with
  | claim _ hl _ => exact lineage_stored hl rfl
  | phase _ hl _ => exact lineage_stored hl rfl
  | _ => exact lineage_fewer fun _ _ h => h

/-- Users may remove a host, but a new one gets another UID. -/
theorem change_lineage {c : Change} (h : w.change S.trust c = some w') : Lineage w w' := by
  cases c with
  | createMachine m =>
    simp only [World.change] at h
    split at h
    · cases h; exact lineage_fewer fun _ _ h => h
    · cases h
  | editMachine key spec metadata =>
    obtain ⟨m, -, he⟩ := Option.bind_eq_some_iff.mp h
    cases he
    split <;> exact lineage_fewer fun _ _ h => h
  | deleteMachine key t =>
    obtain ⟨m, -, he⟩ := Option.bind_eq_some_iff.mp h
    cases he
    exact lineage_fewer fun _ _ h => h
  | createHost h' =>
    simp only [World.change] at h
    split at h
    · cases h
      intro k x hx hu
      have hx : (w.hosts.insert h'.metadata.key _).lookup k = some x := hx
      by_cases hk : k = h'.metadata.key
      · subst hk
        rw [AList.lookup_insert] at hx
        cases hx
        exact absurd hu (Nat.not_succ_le_self _)
      · rw [AList.lookup_insert_ne hk] at hx
        exact ⟨x, hx, rfl⟩
    · cases h
  | editHost key h' =>
    obtain ⟨old, hl, he⟩ := Option.bind_eq_some_iff.mp h
    split at he
    · cases he; exact lineage_stored hl rfl
    · cases he
  | dropHost key => cases h; exact lineage_fewer fun _ _ => lookup_of_erase
  | _ => cases h; exact lineage_fewer fun _ _ h => h

section runs

variable {ι : Type} [DecidableEq ι] {who : ι → MachineRef} {c c' : Crew ι}

/-- What the UIDs of a run name. -/
structure Named (s : Site ι) : Prop where
  numbered : Numbered s.world
  lineage : ∀ k, Lineage (s.attempts k).seen s.world

/-- The step: UIDs keep naming what they named. -/
theorem named_step (hc : Reachable (handlers S who) (idle (Site.empty ι)) c) (h : Named c.world)
    (hs : Step (handlers S who) c c') : Named c'.world := by
  have hsteady := reachable_steady hc
  cases hs with
  | env he =>
    obtain ⟨ch, w', hw, rfl⟩ := he
    exact ⟨numbered_change hsteady.accounted h.numbered hw,
      fun k => lineage_trans (hsteady.later k).rev (h.lineage k) (change_lineage hw)⟩
  | @start k p s' hn he =>
    obtain ⟨a, ha, rfl, rfl⟩ := he
    refine ⟨numbered_same h.numbered (fun _ => Iff.rfl) fun k m h => ⟨m, h, rfl⟩, fun k' => ?_⟩
    rw [set_world, put_world]
    by_cases hk : k' = k
    · subst hk
      rw [put_same]
      exact lineage_fewer fun _ _ h => h
    · rw [put_other _ _ _ hk]
      exact h.lineage k'
  | @call k op kont r s' hk he =>
    obtain ⟨ch, w', ha, rfl⟩ := he
    have hwritten := answer_written ha
    have hmet : Numbered (c.world.meets who k) :=
      numbered_same h.numbered (fun _ => Iff.rfl) fun k m h => ⟨m, h, rfl⟩
    have hline : Lineage (c.world.meets who k) w' := written_lineage hwritten
    refine ⟨numbered_written hmet (hsteady.known k _ hk) hwritten, fun k' => ?_⟩
    rw [set_world, recorded_world]
    by_cases hk' : k' = k
    · subst hk'
      rw [recorded_same]
      exact lineage_refl _
    · rw [recorded_other _ _ _ hk']
      exact lineage_trans (hsteady.later k').rev (h.lineage k') hline
  | finish _ _ he => obtain rfl := he; exact h
  | crash _ he => obtain rfl := he; exact h

/-- The run: so they do in every reachable state. -/
theorem reachable_named (h : Reachable (handlers S who) (idle (Site.empty ι)) c) : Named c.world := by
  induction h with
  | refl => exact ⟨numbered_empty, fun k => lineage_refl _⟩
  | tail hr hs ih => exact named_step hr ih hs

end runs

/-- The claim of the host has this UID. -/
def Host.names (h : Host) (u : Uid) : Prop := (h.spec.consumerRef.bind ConsumerRef.uid) = some u

instance (h : Host) (u : Uid) : Decidable (h.names u) := by unfold Host.names; infer_instance

theorem names_consumer {h : Host} (hc : h.spec.consumerRef = some i.consumer) : h.names i.uid := by
  rw [Host.names, hc]
  rfl

theorem heldOf_journal {x : Uid} {j : Journal} (h : (heldOf x j).isSome) : j ≠ [] := by
  rintro rfl
  cases h

/-- Where only the provider claims hosts, a claim with the UID of a Machine is its own. -/
theorem consumer_named {k : ObjectKey} {h : Host} (hT : T.claims = true) (ha : Accounted T w) (hn : Numbered w)
    (hi : journal i w ≠ []) (hl : w.hosts.lookup k = some h) (hu : h.names i.uid) :
    h.spec.consumerRef = some i.consumer := by
  obtain ⟨r, hr, hru⟩ := Option.bind_eq_some_iff.mp hu
  obtain ⟨i', rfl, hheld⟩ := ha.holder hT k h r hl hr
  have huid : i'.uid = i.uid := Option.some.inj hru
  rw [hr, hn.unique i' i (heldOf_journal hheld) hi huid]

end CapiSsh
