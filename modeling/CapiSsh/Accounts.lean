import CapiSsh.Cluster

/-!
# Journals account for the store

Every stored object is the one that the journals tell of: a Machine's status is what its
journal has written, and a host that the provider alone may claim is claimed by the one
Machine whose journal holds it. Each write keeps this when the event that it records is
the write that was made.
-/
namespace CapiSsh

variable {T : Trust} {i : MachineRef} {j : Journal} {w : World}

@[simp] theorem journal_note_same (i : MachineRef) (e : Event) (w : World) :
    journal i (w.note i e) = e :: journal i w := by
  simp [journal, World.note]

theorem journal_note_other {i k : MachineRef} (e : Event) (w : World) (h : k ≠ i) :
    journal k (w.note i e) = journal k w := by
  simp [journal, World.note, Ne.symm h]

@[simp] theorem journal_storeMachine (i : MachineRef) (w : World) (key : ObjectKey) (m : Machine) :
    journal i (w.storeMachine key m) = journal i w := rfl

@[simp] theorem journal_storeHost (i : MachineRef) (w : World) (key : ObjectKey) (h : Host) :
    journal i (w.storeHost key h) = journal i w := rfl

theorem journal_mem {e : Event} (h : e ∈ journal i w) : (i, e) ∈ w.log := by
  simp only [journal, List.mem_filterMap] at h
  obtain ⟨⟨k, e'⟩, hm, he⟩ := h
  split at he
  · rename_i hk
    cases hk
    cases he
    exact hm
  · cases he

def Event.isHost : Event → Bool
  | .claim .. | .phase .. | .unclaim .. => true
  | _ => false

theorem heldOf_other {e : Event} {x : Uid} (h : e.isHost = false) : heldOf x (e :: j) = heldOf x j := by
  cases e <;> first | rfl | cases h

/-- The stored object is the one that the journal tells of. -/
structure Told (j : Journal) (m : Machine) : Prop where
  status : m.status = statusOf j
  request : m.spec.requestedAt = requestOf j
  deletion : m.metadata.deletionTimestamp.isSome = true ↔ Event.marked ∈ j

structure Accounted (T : Trust) (w : World) : Prop where
  known : ∀ e ∈ w.log, e.1.uid ≤ w.rev
  machine : ∀ k m, w.machines.lookup k = some m →
    m.metadata.key = k ∧ m.metadata.uid ≤ w.rev ∧ Told (journal ⟨k, m.metadata.uid⟩ w) m
  host : ∀ k h, w.hosts.lookup k = some h →
    h.metadata.key = k ∧ h.metadata.uid ≤ w.rev ∧ h.metadata.resourceVersion ≤ w.rev
  distinct : ∀ k k' h h', w.hosts.lookup k = some h → w.hosts.lookup k' = some h' →
    h.metadata.uid = h'.metadata.uid → k = k'
  heldKnown : ∀ i x, (heldOf x (journal i w)).isSome → x ≤ w.rev
  claimed : T.claims = true → ∀ k h i p, w.hosts.lookup k = some h →
    heldOf h.metadata.uid (journal i w) = some p →
      h.spec.consumerRef = some i.consumer ∧ (T.phases = true → h.status.phase = p)
  holder : T.claims = true → ∀ k h r, w.hosts.lookup k = some h → h.spec.consumerRef = some r →
    ∃ i, r = i.consumer ∧ (heldOf h.metadata.uid (journal i w)).isSome
  exclusive : T.claims = true → ∀ i i' x, (heldOf x (journal i w)).isSome →
    (heldOf x (journal i' w)).isSome → i = i'

theorem accounted_empty : Accounted T World.empty where
  known := by rintro e ⟨⟩
  machine := by rintro k m ⟨⟩
  host := by rintro k h ⟨⟩
  distinct := by rintro k k' h h' ⟨⟩
  heldKnown := by rintro i x ⟨⟩
  claimed := by rintro _ k h i p ⟨⟩
  holder := by rintro _ k h r ⟨⟩
  exclusive := by rintro _ i i' x ⟨⟩

theorem journal_known (hw : Accounted T w) (h : journal i w ≠ []) : i.uid ≤ w.rev := by
  obtain ⟨e, he⟩ := List.exists_mem_of_ne_nil _ h
  exact hw.known _ (journal_mem he)

theorem journal_unknown (hw : Accounted T w) (h : w.rev < i.uid) : journal i w = [] := by
  refine Classical.byContradiction fun hn => ?_
  exact absurd (journal_known hw hn) (Nat.not_le.mpr h)

/-- A write of a Machine, with the event that tells of it. -/
theorem accounted_machine {k : ObjectKey} {m : Machine} (es : Option Event) (hw : Accounted T w)
    (hes : ∀ e ∈ es, e.isHost = false) (hk : m.metadata.key = k) (hu : m.metadata.uid ≤ w.rev + 1)
    (ht : Told (es.toList ++ journal ⟨k, m.metadata.uid⟩ w) m) :
    Accounted T ((w.storeMachine k m).noteAll ⟨k, m.metadata.uid⟩ es) := by
  have hheld : ∀ i x, heldOf x (journal i ((w.storeMachine k m).noteAll ⟨k, m.metadata.uid⟩ es)) =
      heldOf x (journal i w) := by
    intro i x
    cases es with
    | none => rfl
    | some e =>
      by_cases hi : i = ⟨k, m.metadata.uid⟩
      · subst hi
        simp only [World.noteAll, journal_note_same, journal_storeMachine]
        exact heldOf_other (hes e rfl)
      · simp only [World.noteAll, journal_note_other _ _ hi, journal_storeMachine]
  have hhosts : ((w.storeMachine k m).noteAll ⟨k, m.metadata.uid⟩ es).hosts = w.hosts := by cases es <;> rfl
  have hrev : ((w.storeMachine k m).noteAll ⟨k, m.metadata.uid⟩ es).rev = w.rev + 1 := by cases es <;> rfl
  refine ⟨?_, ?_, ?_, ?_, ?_, ?_, ?_, ?_⟩
  · intro e he
    rw [hrev]
    cases es with
    | none => exact Nat.le_succ_of_le (hw.known e he)
    | some e' =>
      rcases List.mem_cons.mp he with rfl | he
      · exact hu
      · exact Nat.le_succ_of_le (hw.known e he)
  · intro k' m' hm
    rw [hrev]
    have hm : (w.machines.insert k (m.stamp (w.rev + 1))).lookup k' = some m' := by cases es <;> exact hm
    by_cases hkk : k' = k
    · subst hkk
      rw [AList.lookup_insert] at hm
      cases hm
      refine ⟨hk, hu, ?_⟩
      have hj : journal ⟨k', m.metadata.uid⟩ ((w.storeMachine k' m).noteAll ⟨k', m.metadata.uid⟩ es) =
          es.toList ++ journal ⟨k', m.metadata.uid⟩ w := by
        cases es with
        | none => rfl
        | some e => simp [World.noteAll]
      change Told (journal ⟨k', m.metadata.uid⟩ _) _
      rw [hj]
      exact ⟨ht.status, ht.request, ht.deletion⟩
    · rw [AList.lookup_insert_ne hkk] at hm
      obtain ⟨hk', hu', ht'⟩ := hw.machine k' m' hm
      refine ⟨hk', Nat.le_succ_of_le hu', ?_⟩
      cases es with
      | none => exact ht'
      | some e =>
        have hne : (⟨k', m'.metadata.uid⟩ : MachineRef) ≠ ⟨k, m.metadata.uid⟩ := by
          intro h
          exact hkk (congrArg MachineRef.key h)
        simpa only [World.noteAll, journal_note_other _ _ hne, journal_storeMachine] using ht'
  · intro k' h hh
    rw [hhosts] at hh
    obtain ⟨h₁, h₂, h₃⟩ := hw.host k' h hh
    rw [hrev]
    exact ⟨h₁, Nat.le_succ_of_le h₂, Nat.le_succ_of_le h₃⟩
  · rw [hhosts]; exact hw.distinct
  · intro i x hx
    rw [hheld] at hx
    rw [hrev]
    exact Nat.le_succ_of_le (hw.heldKnown i x hx)
  · intro hT
    simp only [hhosts, hheld]
    exact hw.claimed hT
  · intro hT
    simp only [hhosts, hheld]
    exact hw.holder hT
  · intro hT
    simp only [hheld]
    exact hw.exclusive hT

theorem told_remote {e : Event} {m : Machine} (he : e.isUser = false) (hs : ∀ p, e ≠ .status p)
    (h : Told j m) : Told (e :: j) m := by
  refine ⟨by rw [h.status, statusOf_other hs], ?_, ?_⟩
  · rw [h.request]
    cases e <;> first | rfl | cases he
  · rw [h.deletion]
    cases e <;> first | (cases he; done) | simp

/-- An event of the Machine's host. -/
theorem accounted_note {e : Event} (hw : Accounted T w) (hi : i.uid ≤ w.rev) (hh : e.isHost = false)
    (hu : e.isUser = false) (hs : ∀ p, e ≠ .status p) : Accounted T (w.note i e) := by
  have hheld : ∀ k x, heldOf x (journal k (w.note i e)) = heldOf x (journal k w) := by
    intro k x
    by_cases hk : k = i
    · subst hk
      rw [journal_note_same]
      exact heldOf_other hh
    · rw [journal_note_other _ _ hk]
  refine ⟨?_, ?_, hw.host, hw.distinct, ?_, ?_, ?_, ?_⟩
  · intro e' he'
    rcases List.mem_cons.mp he' with rfl | he'
    · exact hi
    · exact hw.known e' he'
  · intro k m hm
    obtain ⟨hk, hum, ht⟩ := hw.machine k m hm
    refine ⟨hk, hum, ?_⟩
    by_cases hki : (⟨k, m.metadata.uid⟩ : MachineRef) = i
    · rw [hki] at ht ⊢
      rw [journal_note_same]
      exact told_remote hu hs ht
    · rw [journal_note_other _ _ hki]
      exact ht
  · intro k x hx
    rw [hheld] at hx
    exact hw.heldKnown k x hx
  · intro hT
    simp only [hheld]
    exact hw.claimed hT
  · intro hT
    simp only [hheld]
    exact hw.holder hT
  · intro hT
    simp only [hheld]
    exact hw.exclusive hT

/-- A write of a host, with the event that tells of it; `x` is its UID. -/
theorem accounted_host {k : ObjectKey} {h : Host} {x : Uid} (es : Option Event) (hw : Accounted T w)
    (hi : ∀ e ∈ es, i.uid ≤ w.rev) (hes : ∀ e ∈ es, e.isHost = true)
    (hother : ∀ e ∈ es, ∀ y j, y ≠ x → heldOf y (e :: j) = heldOf y j)
    (hk : h.metadata.key = k) (hx : h.metadata.uid = x) (hu : x ≤ w.rev + 1)
    (hd : ∀ k' h', w.hosts.lookup k' = some h' → h'.metadata.uid = x → k' = k)
    (hclaimed : T.claims = true → ∀ i' p,
      heldOf x (journal i' ((w.storeHost k h).noteAll i es)) = some p →
        h.spec.consumerRef = some i'.consumer ∧ (T.phases = true → h.status.phase = p))
    (hholder : T.claims = true → ∀ r, h.spec.consumerRef = some r →
      ∃ i', r = i'.consumer ∧ (heldOf x (journal i' ((w.storeHost k h).noteAll i es))).isSome) :
    Accounted T ((w.storeHost k h).noteAll i es) := by
  have hsub : ∀ i' y, y ≠ x → heldOf y (journal i' ((w.storeHost k h).noteAll i es)) = heldOf y (journal i' w) := by
    intro i' y hy
    cases es with
    | none => rfl
    | some e =>
      by_cases hi' : i' = i
      · subst hi'
        simp only [World.noteAll, journal_note_same, journal_storeHost]
        exact hother e rfl y _ hy
      · simp only [World.noteAll, journal_note_other _ _ hi', journal_storeHost]
  have hmach : ((w.storeHost k h).noteAll i es).machines = w.machines := by cases es <;> rfl
  have hrev : ((w.storeHost k h).noteAll i es).rev = w.rev + 1 := by cases es <;> rfl
  have hlook : ∀ k' h', ((w.storeHost k h).noteAll i es).hosts.lookup k' = some h' →
      (k' = k ∧ h' = h.stamp (w.rev + 1)) ∨ (k' ≠ k ∧ w.hosts.lookup k' = some h') := by
    intro k' h' hh
    have hh : (w.hosts.insert k (h.stamp (w.rev + 1))).lookup k' = some h' := by cases es <;> exact hh
    by_cases hkk : k' = k
    · subst hkk
      rw [AList.lookup_insert] at hh
      exact .inl ⟨rfl, (Option.some.inj hh).symm⟩
    · rw [AList.lookup_insert_ne hkk] at hh
      exact .inr ⟨hkk, hh⟩
  have hfar : ∀ k' h', k' ≠ k → w.hosts.lookup k' = some h' → h'.metadata.uid ≠ x :=
    fun k' h' hkk hh hu' => hkk (hd k' h' hh hu')
  refine ⟨?_, ?_, ?_, ?_, ?_, ?_, ?_, ?_⟩
  · intro e he
    rw [hrev]
    cases es with
    | none => exact Nat.le_succ_of_le (hw.known e he)
    | some e' =>
      rcases List.mem_cons.mp he with rfl | he
      · exact Nat.le_succ_of_le (hi e' rfl)
      · exact Nat.le_succ_of_le (hw.known e he)
  · intro k' m hm
    rw [hmach] at hm
    obtain ⟨h₁, h₂, ht⟩ := hw.machine k' m hm
    rw [hrev]
    refine ⟨h₁, Nat.le_succ_of_le h₂, ?_⟩
    cases es with
    | none => exact ht
    | some e =>
      have he := hes e rfl
      by_cases hi' : (⟨k', m.metadata.uid⟩ : MachineRef) = i
      · rw [hi'] at ht ⊢
        simp only [World.noteAll, journal_note_same, journal_storeHost]
        refine told_remote ?_ ?_ ht
        · cases e <;> first | rfl | cases he
        · rintro p rfl; cases he
      · simpa only [World.noteAll, journal_note_other _ _ hi', journal_storeHost] using ht
  · intro k' h' hh
    rw [hrev]
    rcases hlook k' h' hh with ⟨rfl, rfl⟩ | ⟨-, hh⟩
    · exact ⟨hk, by rw [Host.stamp, hx]; exact hu, Nat.le_refl _⟩
    · obtain ⟨h₁, h₂, h₃⟩ := hw.host k' h' hh
      exact ⟨h₁, Nat.le_succ_of_le h₂, Nat.le_succ_of_le h₃⟩
  · intro k₁ k₂ h₁ h₂ hl₁ hl₂ huid
    rcases hlook k₁ h₁ hl₁ with ⟨rfl, rfl⟩ | ⟨hn₁, ho₁⟩ <;> rcases hlook k₂ h₂ hl₂ with ⟨rfl, rfl⟩ | ⟨hn₂, ho₂⟩
    · rfl
    · exact absurd (huid.symm.trans hx) (hfar k₂ h₂ hn₂ ho₂)
    · exact absurd (huid.trans hx) (hfar k₁ h₁ hn₁ ho₁)
    · exact hw.distinct k₁ k₂ h₁ h₂ ho₁ ho₂ huid
  · intro i' y hy
    rw [hrev]
    by_cases hyx : y = x
    · subst hyx; exact hu
    · rw [hsub i' y hyx] at hy
      exact Nat.le_succ_of_le (hw.heldKnown i' y hy)
  · intro hT k' h' i' p hl hp
    rcases hlook k' h' hl with ⟨rfl, rfl⟩ | ⟨hn, hl⟩
    · exact hclaimed hT i' p (by simpa only [Host.stamp, hx] using hp)
    · rw [hsub i' _ (hfar k' h' hn hl)] at hp
      exact hw.claimed hT k' h' i' p hl hp
  · intro hT k' h' r hl hr
    rcases hlook k' h' hl with ⟨rfl, rfl⟩ | ⟨hn, hl⟩
    · obtain ⟨i', h₁, h₂⟩ := hholder hT r hr
      exact ⟨i', h₁, by simpa only [Host.stamp, hx] using h₂⟩
    · obtain ⟨i', h₁, h₂⟩ := hw.holder hT k' h' r hl hr
      exact ⟨i', h₁, by rw [hsub i' _ (hfar k' h' hn hl)]; exact h₂⟩
  · intro hT i₁ i₂ y h₁ h₂
    by_cases hyx : y = x
    · subst hyx
      obtain ⟨p₁, hp₁⟩ := Option.isSome_iff_exists.mp h₁
      obtain ⟨p₂, hp₂⟩ := Option.isSome_iff_exists.mp h₂
      have hc₁ := (hclaimed hT i₁ p₁ hp₁).1
      have hc₂ := (hclaimed hT i₂ p₂ hp₂).1
      exact consumer_injective (Option.some.inj (hc₁.symm.trans hc₂))
    · rw [hsub _ _ hyx] at h₁ h₂
      exact hw.exclusive hT i₁ i₂ y h₁ h₂

end CapiSsh
