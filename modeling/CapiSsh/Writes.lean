import CapiSsh.Rules

/-!
# What a call writes

Every outcome of a call is one of eight kinds of write, and each of them leaves the
resource versions increasing and the journals accounting for the store. Only writes to a
host's claim depend on what the caller had seen of the host.
-/
namespace CapiSsh

open Effect Interference

variable {T : Trust} {i : MachineRef} {w w' : World} {op : Op}

/-- `i` calls `op` in `w` and leaves this world. -/
inductive Written (i : MachineRef) (op : Op) (w : World) : World → Prop
  | same : Written i op w w
  | staged (f p) : op = .stage f → Written i op w (w.restage i p)
  | spec {key pre p m} : op = .patchMachine key pre p → w.machines.lookup key = some m → m.metadata.uid = pre.uid →
      Written i op w (w.storeMachine key { m with spec := p.apply m.spec })
  | status {key pre p m} : op = .patchMachineStatus key pre p → w.machines.lookup key = some m →
      m.metadata.uid = pre.uid →
      Written i op w ((w.storeMachine key { m with status := p.apply m.status }).note ⟨key, pre.uid⟩ (.status p))
  | claim {key pre ref old} : op = .patchHost key pre ref → w.hosts.lookup key = some old →
      old.precondition = pre → Written i op w ((w.storeHost key (old.claim ref)).note i (old.claimEvent ref))
  | phase {key pre phase inUse reason old} : op = .patchHostStatus key pre phase inUse reason →
      w.hosts.lookup key = some old → old.precondition = pre →
      Written i op w ((w.storeHost key (old.setPhase phase inUse reason)).note i
        (.phase old.metadata.uid old.spec.consumerRef old.status.phase phase))
  | applied {key m} (f : MachineSpec → MachineSpec) : op = .applyStaged key → w.machines.lookup key = some m →
      m.metadata.uid = i.uid → (f m.spec).requestedAt = m.spec.requestedAt →
      Written i op w (w.storeMachine key { m with spec := f m.spec })
  | appliedStatus {key m} (f : MachineSpec → MachineSpec) : op = .applyStaged key →
      w.machines.lookup key = some m → m.metadata.uid = i.uid → (f m.spec).requestedAt = m.spec.requestedAt →
      Written i op w ((w.storeMachine key { m with
        spec := f m.spec
        status := (w.staged i).status.apply m.status }).note ⟨key, i.uid⟩ (.status (w.staged i).status))
  | noted {conn command} (e : Event) : op = .run conn command → e.isHost = false → e.isUser = false →
      (∀ p, e ≠ .status p) → Written i op w (w.note i e)

theorem ranEvent_remote {boot : String} {t : Target} {accepted : Bool} {c : Completed} {command : Command} {e : Event}
    (h : ranEvent boot t accepted c command = some (some e)) :
    e.isHost = false ∧ e.isUser = false ∧ ∀ p, e ≠ .status p := by
  unfold ranEvent at h
  split at h
  · split at h
    · split at h <;> cases h
      exact ⟨rfl, rfl, by rintro p ⟨⟩⟩
    · cases h
      exact ⟨rfl, rfl, by rintro p ⟨⟩⟩
    · split at h
      · split at h <;> cases h
        exact ⟨rfl, rfl, by rintro p ⟨⟩⟩
      · cases h
    · cases h
  · cases h

theorem raisedEvent_remote {boot : String} {t : Target} {accepted : Bool} {command : Command} {e : Event}
    (h : raisedEvent boot t accepted command = some e) :
    e.isHost = false ∧ e.isUser = false ∧ ∀ p, e ≠ .status p := by
  unfold raisedEvent at h
  split at h
  · split at h <;> cases h
    · exact ⟨rfl, rfl, by rintro p ⟨⟩⟩
    · exact ⟨rfl, rfl, by rintro p ⟨⟩⟩
  · cases h

theorem written_noteAll {conn : Conn} {command : Command} {e : Option Event}
    (he : ∀ x, e = some x → x.isHost = false ∧ x.isUser = false ∧ ∀ p, x ≠ .status p) :
    Written i (.run conn command) w (w.noteAll i e) := by
  cases e with
  | none => exact .same
  | some x =>
    obtain ⟨h₁, h₂, h₃⟩ := he x rfl
    exact .noted x rfl h₁ h₂ h₃

theorem spec_keeps_request (p : SpecPatch) (s : MachineSpec) : (p.apply s).requestedAt = s.requestedAt := rfl

theorem answer_applied {boots : Target → Nat → String} {key : ObjectKey} {c : Choice} {r : Except Exc Unit}
    (h : answer boots i (.applyStaged key) c w = some (r, w')) : Written i (.applyStaged key) w w' := by
  cases c with
  | applied spec status error =>
    simp only [answer] at h
    obtain ⟨-, rfl⟩ := Prod.mk.inj (Option.some.inj h)
    split
    · exact .same
    · rename_i m hm
      split
      · rename_i hu
        cases spec with
        | false =>
          cases status with
          | false => exact .applied id rfl hm hu rfl
          | true => exact .appliedStatus id rfl hm hu rfl
        | true =>
          cases status with
          | false => exact .applied _ rfl hm hu (spec_keeps_request _ _)
          | true => exact .appliedStatus _ rfl hm hu (spec_keeps_request _ _)
      · exact .same
  | _ => cases h

theorem answer_run {boots : Target → Nat → String} {conn : Conn} {command : Command} {c : Choice}
    {r : Except Exc Completed} (h : answer boots i (.run conn command) c w = some (r, w')) :
    Written i (.run conn command) w w' := by
  cases c with
  | ran accepted c =>
    simp only [answer] at h
    split at h
    · obtain ⟨e, he, hr⟩ := Option.map_eq_some_iff.mp h
      cases hr
      exact written_noteAll fun x hx => ranEvent_remote (hx ▸ he)
    · cases h
  | raised accepted e =>
    simp only [answer] at h
    split at h
    · cases h
      exact written_noteAll fun x hx => raisedEvent_remote hx
    · cases h
  | _ => cases h

theorem answer_written {boots : Target → Nat → String} {c : Choice} {r : Except Exc (Reply op)}
    (h : answer boots i op c w = some (r, w')) : Written i op w w' := by
  cases op with
  | patchMachine key pre p =>
    rcases answer_patchMachine h with rfl | ⟨m, hm, hu, rfl⟩
    · exact .same
    · exact .spec rfl hm hu
  | patchMachineStatus key pre p =>
    rcases answer_patchStatus h with ⟨rfl, -⟩ | ⟨m, hm, hu, rfl⟩
    · exact .same
    · exact .status rfl hm hu
  | patchHost key pre ref =>
    rcases answer_patchHost h with ⟨rfl, -⟩ | ⟨old, hl, hu, hv, -, rfl⟩
    · exact .same
    · exact .claim rfl hl (by rw [Host.precondition, hu, hv])
  | patchHostStatus key pre phase inUse reason =>
    cases c with
    | fail e => cases h; exact .same
    | commit lost =>
      simp only [answer] at h
      split at h
      · cases h
      · rename_i hp
        obtain ⟨r', -, he⟩ := Option.map_eq_some_iff.mp h
        cases he
        obtain ⟨hl, hu, hv, -, rfl⟩ := patchHost_cases hp
        exact .phase rfl hl (by rw [Host.precondition, hu, hv])
    | _ => cases h
  | stage f =>
    cases c with
    | time t => cases h; exact .staged f _ rfl
    | _ => cases h
  | applyStaged key => exact answer_applied h
  | run conn command => exact answer_run h
  | _ =>
    obtain rfl := answer_quiet (by rfl) h
    exact .same

structure Later (w w' : World) : Prop where
  rev : w.rev ≤ w'.rev
  log : w.log <:+ w'.log
  hosts : ∀ k h, w'.hosts.lookup k = some h → w.hosts.lookup k = some h ∨ w.rev < h.metadata.resourceVersion

theorem later_refl (w : World) : Later w w := ⟨Nat.le_refl _, List.suffix_refl _, fun _ _ h => .inl h⟩

theorem later_trans {w₁ w₂ w₃ : World} (h₁ : Later w₁ w₂) (h₂ : Later w₂ w₃) : Later w₁ w₃ := by
  refine ⟨h₁.rev.trans h₂.rev, h₁.log.trans h₂.log, ?_⟩
  intro k h hl
  rcases h₂.hosts k h hl with hl | hlt
  · exact h₁.hosts k h hl
  · exact .inr (Nat.lt_of_le_of_lt h₁.rev hlt)

/-- A write that takes the next resource version. -/
theorem later_next (hr : w'.rev = w.rev + 1) (hl : w.log <:+ w'.log)
    (hh : ∀ k h, w'.hosts.lookup k = some h → w.hosts.lookup k = some h ∨ w.rev < h.metadata.resourceVersion) :
    Later w w' :=
  ⟨by omega, hl, hh⟩

theorem written_later (h : Written i op w w') : Later w w' := by
  cases h with
  | same => exact later_refl w
  | staged => exact ⟨Nat.le_refl _, List.suffix_refl _, fun _ _ h => .inl h⟩
  | spec => exact later_next rfl (List.suffix_refl _) fun _ _ h => .inl h
  | status => exact later_next rfl (List.suffix_cons _ _) fun _ _ h => .inl h
  | claim => exact later_next rfl (List.suffix_cons _ _) storeHost_lookup
  | phase => exact later_next rfl (List.suffix_cons _ _) storeHost_lookup
  | applied => exact later_next rfl (List.suffix_refl _) fun _ _ h => .inl h
  | appliedStatus => exact later_next rfl (List.suffix_cons _ _) fun _ _ h => .inl h
  | noted => exact ⟨Nat.le_refl _, List.suffix_cons _ _, fun _ _ h => .inl h⟩

/-- Journals only grow. -/
theorem journal_suffix (h : w.log <:+ w'.log) (i : MachineRef) : journal i w <:+ journal i w' :=
  h.filterMap _

/-- The host that is written has the claim that the caller expects. -/
def ClaimSafe (i : MachineRef) (w : World) : Op → Prop
  | .patchHost key pre ref => ∀ h, w.hosts.lookup key = some h → h.precondition = pre →
      (ref = some i.consumer ∧ h.spec.consumerRef = none) ∨ (ref = none ∧ h.spec.consumerRef = some i.consumer)
  | .patchHostStatus key pre .. => ∀ h, w.hosts.lookup key = some h → h.precondition = pre →
      h.spec.consumerRef = some i.consumer
  | _ => True

theorem heldOf_none_of_free (hw : Accounted T w) (hT : T.claims = true) {k : ObjectKey} {h : Host}
    (hl : w.hosts.lookup k = some h) (hfree : h.spec.consumerRef = none) (i : MachineRef) :
    heldOf h.metadata.uid (journal i w) = none := by
  cases hh : heldOf h.metadata.uid (journal i w) with
  | none => rfl
  | some p =>
    have := (hw.claimed hT k h i p hl hh).1
    rw [hfree] at this
    cases this

theorem held_of_claimed (hw : Accounted T w) (hT : T.claims = true) {k : ObjectKey} {h : Host}
    (hl : w.hosts.lookup k = some h) (hc : h.spec.consumerRef = some i.consumer) :
    (heldOf h.metadata.uid (journal i w)).isSome := by
  obtain ⟨i', hi', hheld⟩ := hw.holder hT k h _ hl hc
  obtain rfl := consumer_injective hi'
  exact hheld

theorem accounted_claim {k : ObjectKey} {h : Host} {ref : ConsumerRef} (hw : Accounted T w) (hne : journal i w ≠ [])
    (hl : w.hosts.lookup k = some h) (hr : T.claims = true → ref = i.consumer ∧ h.spec.consumerRef = none) :
    Accounted T ((w.storeHost k (h.claim (some ref))).note i (.claim h.metadata.uid (some ref) h.status.phase)) := by
  obtain ⟨hk, hu, -⟩ := hw.host k h hl
  refine accounted_host (x := h.metadata.uid) (some _) hw ?_ (by rintro e ⟨⟩; rfl) ?_ hk rfl
    (Nat.le_succ_of_le hu) (fun k' h' hl' hu' => hw.distinct k' k h' h hl' hl hu') ?_ ?_
  · rintro e ⟨⟩
    exact journal_known hw hne
  · rintro e ⟨⟩ y j hy
    simp [heldOf, hy.symm]
  · intro hT i' p hp
    obtain ⟨rfl, hfree⟩ := hr hT
    by_cases hi : i' = i
    · subst hi
      simp only [World.noteAll, journal_note_same, heldOf, if_true, Option.some.injEq] at hp
      exact ⟨rfl, fun _ => hp⟩
    · simp only [World.noteAll, journal_note_other _ _ hi, journal_storeHost,
        heldOf_none_of_free hw hT hl hfree i'] at hp
      cases hp
  · intro hT r hr'
    refine ⟨i, (Option.some.inj hr').symm.trans (hr hT).1, ?_⟩
    simp [World.noteAll, heldOf]

/-- Nobody else holds a host that names the Machine. -/
theorem held_alone (hw : Accounted T w) (hT : T.claims = true) {k : ObjectKey} {h : Host}
    (hl : w.hosts.lookup k = some h) (hc : h.spec.consumerRef = some i.consumer) {i' : MachineRef} (hi : i' ≠ i) :
    heldOf h.metadata.uid (journal i' w) = none := by
  cases hh : heldOf h.metadata.uid (journal i' w) with
  | none => rfl
  | some q => exact absurd (hw.exclusive hT i' i _ (by simp [hh]) (held_of_claimed hw hT hl hc)) hi

theorem accounted_phase {k : ObjectKey} {h : Host} {new : HostPhase} {inUse : Bool} {reason : String}
    (hw : Accounted T w) (hne : journal i w ≠ []) (hl : w.hosts.lookup k = some h)
    (hc : T.claims = true → h.spec.consumerRef = some i.consumer) :
    Accounted T ((w.storeHost k (h.setPhase new inUse reason)).note i
      (.phase h.metadata.uid h.spec.consumerRef h.status.phase new)) := by
  obtain ⟨hk, hu, -⟩ := hw.host k h hl
  refine accounted_host (x := h.metadata.uid) (some _) hw ?_ (by rintro e ⟨⟩; rfl) ?_ hk rfl
    (Nat.le_succ_of_le hu) (fun k' h' hl' hu' => hw.distinct k' k h' h hl' hl hu') ?_ ?_
  · rintro e ⟨⟩
    exact journal_known hw hne
  · rintro e ⟨⟩ y j hy
    simp [heldOf, hy.symm]
  · intro hT i' p hp
    by_cases hi : i' = i
    · subst hi
      obtain ⟨q, hq⟩ := Option.isSome_iff_exists.mp (held_of_claimed hw hT hl (hc hT))
      simp only [World.noteAll, journal_note_same, journal_storeHost, heldOf_phase, hq, Option.map_some,
        Option.some.injEq] at hp
      exact ⟨hc hT, fun _ => hp⟩
    · simp only [World.noteAll, journal_note_other _ _ hi, journal_storeHost, held_alone hw hT hl (hc hT) hi] at hp
      cases hp
  · intro hT r hr
    obtain ⟨q, hq⟩ := Option.isSome_iff_exists.mp (held_of_claimed hw hT hl (hc hT))
    refine ⟨i, Option.some.inj (hr.symm.trans (hc hT)), ?_⟩
    simp [World.noteAll, heldOf_phase, hq]

theorem accounted_unclaim {k : ObjectKey} {h : Host} (hw : Accounted T w) (hne : journal i w ≠ [])
    (hl : w.hosts.lookup k = some h) (hc : T.claims = true → h.spec.consumerRef = some i.consumer) :
    Accounted T ((w.storeHost k (h.claim none)).note i (.unclaim h.metadata.uid h.spec.consumerRef)) := by
  obtain ⟨hk, hu, -⟩ := hw.host k h hl
  refine accounted_host (x := h.metadata.uid) (some _) hw ?_ (by rintro e ⟨⟩; rfl) ?_ hk rfl
    (Nat.le_succ_of_le hu) (fun k' h' hl' hu' => hw.distinct k' k h' h hl' hl hu') ?_ ?_
  · rintro e ⟨⟩
    exact journal_known hw hne
  · rintro e ⟨⟩ y j hy
    simp [heldOf, hy.symm]
  · intro hT i' p hp
    by_cases hi : i' = i
    · subst hi
      simp [World.noteAll, heldOf] at hp
    · simp only [World.noteAll, journal_note_other _ _ hi, journal_storeHost, held_alone hw hT hl (hc hT) hi] at hp
      cases hp
  · rintro - r ⟨⟩

/-- A write of the stored Machine by an attempt. -/
theorem accounted_stored {key : ObjectKey} {m : Machine} {f : MachineSpec → MachineSpec} (hw : Accounted T w)
    (hm : w.machines.lookup key = some m) (hf : (f m.spec).requestedAt = m.spec.requestedAt) :
    Accounted T (w.storeMachine key { m with spec := f m.spec }) := by
  obtain ⟨hk, hu, ht⟩ := hw.machine _ _ hm
  exact accounted_machine (m := { m with spec := f m.spec }) none hw (by simp) hk (Nat.le_succ_of_le hu)
    ⟨ht.status, hf.trans ht.request, ht.deletion⟩

theorem accounted_status {key : ObjectKey} {x : Uid} {m : Machine} {f : MachineSpec → MachineSpec} {p : StatusPatch}
    (hw : Accounted T w) (hm : w.machines.lookup key = some m) (hx : m.metadata.uid = x)
    (hf : (f m.spec).requestedAt = m.spec.requestedAt) :
    Accounted T ((w.storeMachine key { m with spec := f m.spec, status := p.apply m.status }).note ⟨key, x⟩
      (.status p)) := by
  obtain ⟨hk, hu, ht⟩ := hw.machine _ _ hm
  subst hx
  refine accounted_machine (m := { m with spec := f m.spec, status := p.apply m.status }) (some (.status p)) hw
    (by rintro e ⟨⟩; rfl) hk (Nat.le_succ_of_le hu) ⟨?_, hf.trans ht.request, ?_⟩
  · change p.apply m.status = p.apply (statusOf (journal ⟨key, m.metadata.uid⟩ w))
    rw [ht.status]
  · change m.metadata.deletionTimestamp.isSome = true ↔ Event.marked ∈ .status p :: journal ⟨key, m.metadata.uid⟩ w
    rw [List.mem_cons]
    simpa using ht.deletion

theorem accounted_written (hw : Accounted T w) (hne : journal i w ≠ []) (hc : T.claims = true → ClaimSafe i w op)
    (h : Written i op w w') : Accounted T w' := by
  cases h with
  | same => exact hw
  | staged => exact accounted_restage hw
  | spec _ hm _ => exact accounted_stored hw hm rfl
  | status _ hm hu => exact accounted_status (f := id) hw hm hu rfl
  | @claim key pre ref old ho hl hp =>
    subst ho
    cases ref with
    | some ref =>
      refine accounted_claim hw hne hl fun hT => ?_
      rcases hc hT old hl hp with ⟨hr, hf⟩ | ⟨hn, -⟩
      · exact ⟨Option.some.inj hr, hf⟩
      · cases hn
    | none =>
      refine accounted_unclaim hw hne hl fun hT => ?_
      rcases hc hT old hl hp with ⟨hn, -⟩ | ⟨-, hf⟩
      · cases hn
      · exact hf
  | phase ho hl hp =>
    subst ho
    exact accounted_phase hw hne hl fun hT => hc hT _ hl hp
  | applied f _ hm hu hf => exact accounted_stored hw hm hf
  | appliedStatus f _ hm hu hf => exact accounted_status hw hm hu hf
  | noted e _ h₁ h₂ h₃ => exact accounted_note hw (journal_known hw hne) h₁ h₂ h₃

end CapiSsh
