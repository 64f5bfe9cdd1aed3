import CapiSsh.HostLease

/-!
# At most one object holds a host's Lease

A write takes effect on the record that its caller has read. So an acquisition really takes
over a record that has run out at its clock reading, whatever happened between the calls.
-/
namespace CapiSsh.Leases

open Effect Interference VersionedCell

variable {ι : Type} [DecidableEq ι] {who : ι → LeaseHolder} {w w' : LeaseWorld ι} {i : ι}

theorem due_mono {clock clock' : Time} {e : LeaseWrite} (h : e.Due clock) (hc : clock ≤ clock') : e.Due clock' := by
  cases h with
  | acquired X t before ht hb => exact .acquired X t before (Nat.le_trans ht hc) hb
  | renewed X t s ht hs => exact .renewed X t s (Nat.le_trans ht hc) hs
  | released X s hs => exact .released X s hs

omit [DecidableEq ι] in
structure Coherent (who : ι → LeaseHolder) (w : LeaseWorld ι) : Prop where
  wellFormed : w.cell.WellFormed
  ours : ∀ v s i, w.cell.stored = some (v, s) → s.holder = some (who i) → s.duration = some leaseSeconds
  kept : ∀ X t, w.kept X = some t → w.clock < t + leaseSeconds → (∃ i, X = who i) ∧
    ∃ v s, w.cell.stored = some (v, s) ∧ s.holder = some X ∧ s.renewTime = some t
  due : ∀ e ∈ w.log, e.Due w.clock

omit [DecidableEq ι] in
theorem coherent_new {left : Option LeaseSpec} {clock : Time}
    (h : ∀ s i, left = some s → s.holder ≠ some (who i)) : Coherent who (LeaseWorld.new ι left clock) := by
  constructor
  · intro v s hs
    cases left with
    | none => cases hs
    | some l =>
      cases hs
      exact Nat.zero_lt_one
  · intro v s i hs hh
    cases left with
    | none => cases hs
    | some l =>
      cases hs
      exact absurd hh (h _ i rfl)
  · intro X t hk
    cases hk
  · simp [LeaseWorld.new]

omit [DecidableEq ι] in
theorem coherent_later (h : Coherent who w) (n : Nat) : Coherent who { w with clock := w.clock + n } := by
  refine ⟨h.wellFormed, h.ours, fun X t hk ht => h.kept X t hk ?_, fun e he => due_mono (h.due e he) (Nat.le_add_right _ n)⟩
  exact Nat.lt_of_le_of_lt (Nat.le_add_right _ n) ht

/-- A record of one of the objects that has run out at a reading of the clock. -/
theorem lapsed {s : LeaseSpec} {X : LeaseHolder} {t now : Time} (hX : s.holder = some X) (ht : s.renewTime = some t)
    (hd : s.duration = some leaseSeconds) (h : s.heldAt now = false) : t + leaseSeconds ≤ now := by
  simpa [LeaseSpec.heldAt, hX, ht, LeaseSpec.seconds, hd, leaseSeconds] using h

theorem coherent_write (h : Coherent who w) {spec : LeaseSpec}
    (hd : LeaseWrite.Due w.clock ⟨who i, w.cell.stored.map Prod.snd, spec⟩) :
    Coherent who (w.write i (who i) spec) := by
  have hother : ∀ X t, X ≠ who i → w.kept X = some t → w.clock < t + leaseSeconds → False := by
    -- whoever else holds the Lease is named by the record that the write has found
    intro X t hne hk ht
    obtain ⟨⟨j, rfl⟩, v, s, hs, hX, hr⟩ := h.kept X t hk ht
    generalize hbefore : w.cell.stored.map Prod.snd = before at hd
    rw [hs] at hbefore
    cases hbefore
    cases hd with
    | acquired _ now _ hnow hfound =>
      have hout := lapsed hX hr (h.ours v s j hs hX) (hfound s rfl)
      exact absurd ht (Nat.not_lt.mpr (Nat.le_trans hout hnow))
    | renewed _ now _ _ hown =>
      rw [hX] at hown
      exact hne (Option.some.inj hown)
    | released _ _ hown =>
      rw [hX] at hown
      exact hne (Option.some.inj hown)
  refine ⟨Cell.wellFormed_put _ _, ?_, ?_, ?_⟩
  · rintro v s j ⟨⟩ hj
    generalize hbefore : w.cell.stored.map Prod.snd = before at hd
    cases hd with
    | acquired _ now _ _ _ => rfl
    | renewed _ now s _ hown =>
      obtain ⟨⟨v, s'⟩, hs, rfl⟩ := Option.map_eq_some_iff.mp hbefore
      exact h.ours v s' i hs hown
    | released => cases hj
  · intro X t hk ht
    by_cases hX : X = who i
    · subst hX
      refine ⟨⟨i, rfl⟩, w.cell.next, spec, rfl, ?_⟩
      simp only [LeaseWorld.write, if_true] at hk
      split at hk
      · next hh => exact ⟨hh, hk⟩
      · cases hk
    · simp only [LeaseWorld.write, if_neg hX] at hk
      exact absurd ht (fun ht => hother X t hX hk ht)
  · intro e he
    obtain rfl | he := List.mem_cons.mp he
    · exact hd
    · exact h.due e he

/-- The others let time pass and write new versions. -/
def leaseDiscipline (who : ι → LeaseHolder) : Discipline ι (LeaseWorld ι) where
  inv := Coherent who
  rely i w w' := w.clock ≤ w'.clock ∧ w.cell.Later w'.cell ∧ w'.wrote i = w.wrote i
  refl _ _ _ := ⟨Nat.le_refl _, Cell.later_refl _, rfl⟩
  trans _ _ _ _ h h' := ⟨Nat.le_trans h.1 h'.1, h.2.1.trans h'.2.1, h'.2.2.trans h.2.2⟩

theorem allows_write (h : Coherent who w) {spec : LeaseSpec}
    (hd : LeaseWrite.Due w.clock ⟨who i, w.cell.stored.map Prod.snd, spec⟩) :
    (leaseDiscipline who).Allows i w (w.write i (who i) spec) := by
  refine ⟨coherent_write h hd, fun j hj => ⟨Nat.le_refl _, Cell.later_put _ _, ?_⟩⟩
  exact if_neg hj

/-- What a call has found out so far: a reading of the clock, and a record. -/
structure At (i : ι) (reading : Option Time) (found : Option (Nat × LeaseSpec)) (w : LeaseWorld ι) : Prop where
  unwritten : w.wrote i = none
  past : ∀ t, reading = some t → t ≤ w.clock
  known : ∀ v s, found = some (v, s) → w.cell.Known v s

omit [DecidableEq ι] in
theorem at_stable (i : ι) (reading : Option Time) (found : Option (Nat × LeaseSpec)) :
    (leaseDiscipline who).Stable i (At i reading found) :=
  fun _ _ h hr _ => ⟨hr.2.2.trans h.unwritten, fun t ht => Nat.le_trans (h.past t ht) hr.1,
    fun v s hs => (h.known v s hs).later hr.2.1⟩

abbrev LeaseProves {α : Type} (who : ι → LeaseHolder) (i : ι) (K : LeaseWorld ι → Prop) (p : LeaseProg α)
    (A : α → LeaseWorld ι → Prop) (E : LeaseExc → LeaseWorld ι → Prop) : Prop :=
  Triple (leaseRuntime who) (leaseDiscipline who) i K p (post A E)

theorem proves_now (found : Option (Nat × LeaseSpec)) :
    LeaseProves who i (At i none found) now (fun t => At i (some t) found) fun _ _ => True := by
  refine triple_perform (at_stable i none found) ?_
  rintro w r w' hw hk (⟨e, rfl, rfl⟩ | ⟨rfl, rfl⟩)
  · exact ⟨Discipline.allows_refl _ hw, trivial⟩
  · refine ⟨Discipline.allows_refl _ hw, hk.unwritten, ?_, hk.known⟩
    rintro _ ⟨⟩
    exact Nat.le_refl _

theorem proves_read (reading : Option Time) :
    LeaseProves who i (At i reading none) read (fun current => At i reading (some current)) fun _ => At i reading none := by
  refine triple_perform (at_stable i reading none) ?_
  rintro w r w' hw hk (⟨e, rfl, rfl⟩ | ⟨rfl, current, hs, rfl⟩)
  · exact ⟨Discipline.allows_refl _ hw, hk⟩
  · refine ⟨Discipline.allows_refl _ hw, hk.unwritten, hk.past, ?_⟩
    rintro v s ⟨⟩
    exact Cell.known_read hw.wellFormed hs

/-- A write on a record that was read, by a call that has a reason for it. -/
theorem proves_replace {reading : Option Time} {current : Nat × LeaseSpec} {spec : LeaseSpec}
    (hd : ∀ clock, (∀ t, reading = some t → t ≤ clock) → LeaseWrite.Due clock ⟨who i, some current.2, spec⟩) :
    LeaseProves who i (At i reading (some current)) (replace current.1 spec) (fun _ w => w.wrote i = some spec)
      fun _ _ => True := by
  refine triple_perform (at_stable i reading (some current)) ?_
  rintro w r w' hw hk (⟨e, rfl, rfl⟩ | ⟨⟨old, hs⟩, rfl⟩)
  · exact ⟨Discipline.allows_refl _ hw, trivial⟩
  · have hold : old = current.2 := (hk.known current.1 current.2 rfl).2 old hs
    refine ⟨allows_write hw ?_, ?_⟩
    · rw [hs, hold]
      exact hd w.clock hk.past
    · cases r with
      | error e => trivial
      | ok u => exact if_pos rfl

theorem proves_create {reading : Option Time} {spec : LeaseSpec}
    (hd : ∀ clock, (∀ t, reading = some t → t ≤ clock) → LeaseWrite.Due clock ⟨who i, none, spec⟩) :
    LeaseProves who i (At i reading none) (create spec) (fun _ w => w.wrote i = some spec) fun _ _ => True := by
  refine triple_perform (at_stable i reading none) ?_
  rintro w r w' hw hk (⟨e, rfl, rfl⟩ | ⟨hs, rfl⟩)
  · exact ⟨Discipline.allows_refl _ hw, trivial⟩
  · refine ⟨allows_write hw ?_, ?_⟩
    · rw [hs]
      exact hd w.clock hk.past
    · cases r with
      | error e => trivial
      | ok u => exact if_pos rfl

/-- A call that returns `true` has written a record that names its object. -/
def Granted (holder : LeaseHolder) (i : ι) (granted : Bool) (w : LeaseWorld ι) : Prop :=
  granted = true → ∃ s, w.wrote i = some s ∧ s.holder = some holder

theorem proves_readOrMissing (reading : Option Time) : LeaseProves who i (At i reading none) readOrMissing
    (fun found => At i reading found) fun _ _ => True := by
  refine triple_bind (triple_attempt (proves_read reading)) ?_
  rintro (e | current)
  · dsimp only
    split
    · exact triple_pure fun _ _ h => h
    · exact triple_throw fun _ _ _ => trivial
  · exact triple_pure fun _ _ h => h

theorem proves_acquire : LeaseProves who i (At i none none) (acquire (who i)) (Granted (who i) i) fun _ _ => True := by
  refine triple_bind (proves_now none) fun t => ?_
  refine triple_bind (proves_readOrMissing (some t)) fun found => ?_
  split
  · exact triple_pure fun _ _ _ h => by cases h
  · next hheld =>
    have hdue : ∀ clock, (∀ t', some t = some t' → t' ≤ clock) →
        LeaseWrite.Due clock ⟨who i, found.map Prod.snd, acquiredSpec (who i) t⟩ := by
      intro clock ht
      refine .acquired (who i) t _ (ht t rfl) ?_
      intro s hs
      obtain ⟨current, rfl, rfl⟩ := Option.map_eq_some_iff.mp hs
      simpa using hheld
    have hwrite : LeaseProves who i (At i (some t) found) (writeLease found (acquiredSpec (who i) t))
        (fun _ w => w.wrote i = some (acquiredSpec (who i) t)) fun _ _ => True := by
      cases found with
      | none => exact proves_create hdue
      | some current => exact proves_replace hdue
    refine triple_bind (triple_attempt hwrite) ?_
    rintro (e | u)
    · dsimp only
      split
      · exact triple_pure fun _ _ _ h => by cases h
      · exact triple_throw fun _ _ _ => trivial
    · exact triple_pure fun _ _ h _ => ⟨_, h, rfl⟩

theorem proves_renew : LeaseProves who i (At i none none) (renew (who i)) (Granted (who i) i) fun _ _ => True := by
  refine triple_bind (triple_conseq (proves_read none) (fun _ _ h => h) (fun _ _ _ h => h) fun _ _ _ _ => trivial)
    fun current => ?_
  split
  · next hown =>
    refine triple_bind (proves_now (some current)) fun t => ?_
    refine triple_bind (proves_replace fun clock ht => .renewed (who i) t _ (ht t rfl) hown) fun _ => ?_
    exact triple_pure fun _ _ h _ => ⟨_, h, hown⟩
  · exact triple_pure fun _ _ _ h => by cases h

theorem proves_release : LeaseProves who i (At i none none) (release (who i)) (fun _ _ => True) fun _ _ => True := by
  refine triple_bind (triple_conseq (proves_read none) (fun _ _ h => h) (fun _ _ _ h => h) fun _ _ _ _ => trivial)
    fun current => ?_
  split
  · next hown =>
    exact triple_conseq (proves_replace fun _ _ => .released (who i) _ hown) (fun _ _ h => h) (fun _ _ _ _ => trivial)
      fun _ _ _ h => h
  · exact triple_pure fun _ _ _ => trivial

theorem proves_call {p : LeaseProg Bool} (hp : LeaseCall (who i) p) :
    LeaseProves who i (At i none none) p (Granted (who i) i) fun _ _ => True := by
  cases hp with
  | acquire => exact proves_acquire
  | renew => exact proves_renew
  | release => exact triple_bind proves_release fun _ => triple_pure fun _ _ _ h => by cases h

theorem lease_respects (who : ι → LeaseHolder) :
    Respects (leaseRuntime who) (leaseDiscipline who) fun i => post (Granted (who i) i) fun _ _ => True where
  env := by
    rintro w _ hw ⟨n, rfl⟩
    exact ⟨coherent_later hw n, fun i => ⟨Nat.le_add_right _ _, Cell.later_refl _, rfl⟩⟩
  start := by
    rintro i p w _ hw ⟨hp, rfl⟩
    have hstarted : Coherent who { w with wrote := fun j => if j = i then none else w.wrote j } :=
      ⟨hw.wellFormed, hw.ours, hw.kept, hw.due⟩
    refine ⟨⟨hstarted, fun j hj => ⟨Nat.le_refl _, Cell.later_refl _, if_neg hj⟩⟩, ?_⟩
    exact proves_call hp _ hstarted ⟨if_pos rfl, (fun _ h => by cases h), fun _ _ h => by cases h⟩
  finish := by
    rintro i r w₀ w _ hw _ _ rfl
    exact Discipline.allows_refl _ hw
  crash := by
    rintro i w _ hw rfl
    exact Discipline.allows_refl _ hw

theorem lease_sound {left : Option LeaseSpec} {clock : Time} (h : ∀ s i, left = some s → s.holder ≠ some (who i))
    {c : Config ι LeaseOp LeaseOp.Reply LeaseExc Bool (LeaseWorld ι)}
    (hc : Reachable (leaseRuntime who) (idle (LeaseWorld.new ι left clock)) c) :
    Sound (leaseRuntime who) (leaseDiscipline who) (fun i => post (Granted (who i) i) fun _ _ => True) c :=
  Discipline.reachable (lease_respects who) (coherent_new h) hc

/-- In every state of every run of `HostLease` objects for one host, at most one of them has
renewed the Lease within its duration and not released it. -/
theorem host_lease_exclusive {left : Option LeaseSpec} {clock : Time}
    (h : ∀ s i, left = some s → s.holder ≠ some (who i))
    {c : Config ι LeaseOp LeaseOp.Reply LeaseExc Bool (LeaseWorld ι)}
    (hc : Reachable (leaseRuntime who) (idle (LeaseWorld.new ι left clock)) c) {X Y : LeaseHolder}
    (hX : c.world.Holds X) (hY : c.world.Holds Y) : X = Y := by
  have hw := (lease_sound h hc).1
  obtain ⟨t, hk, ht⟩ := hX
  obtain ⟨t', hk', ht'⟩ := hY
  obtain ⟨-, v, s, hs, hX, -⟩ := hw.kept X t hk ht
  obtain ⟨-, v', s', hs', hY, -⟩ := hw.kept Y t' hk' ht'
  rw [hs] at hs'
  cases hs'
  rw [hX] at hY
  exact Option.some.inj hY

/-- The object of `false` acquires the Lease at second 0, and that of `true` takes it over
at second 60, when it has run out. -/
def handover (i : Bool) : LeaseHolder := ⟨if i then 2 else 1, 0⟩

theorem handover_run : ∃ c : Config Bool LeaseOp LeaseOp.Reply LeaseExc Bool (LeaseWorld Bool),
    Reachable (leaseRuntime handover) (idle (LeaseWorld.new Bool none 0)) c ∧ c.world.Holds (handover true) ∧
      c.thread true = some (.pure true) := by
  -- no Lease is found, and one is created
  have h₁ := (Relation.ReflTransGen.refl (a := idle (LeaseWorld.new Bool none 0))).tail
    (Step.start (T := leaseRuntime handover) (i := false) rfl ⟨.acquire, rfl⟩)
  have h₂ := h₁.tail (Step.call (i := false) rfl (.inr ⟨rfl, rfl⟩))
  have h₃ := h₂.tail (Step.call (i := false) rfl (.inl ⟨.api 404, rfl, rfl⟩))
  have h₄ := h₃.tail (Step.call (i := false) (r := .ok ()) rfl (.inr ⟨rfl, rfl⟩))
  have h₅ := h₄.tail (Step.env ⟨60, rfl⟩)
  -- the record of second 0 is read at second 60, and replaced
  have h₆ := h₅.tail (Step.start (i := true) rfl ⟨.acquire, rfl⟩)
  have h₇ := h₆.tail (Step.call (i := true) rfl (.inr ⟨rfl, rfl⟩))
  have h₈ := h₇.tail (Step.call (i := true) rfl (.inr ⟨rfl, _, rfl, rfl⟩))
  have h₉ := h₈.tail (Step.call (i := true) (r := .ok ()) rfl (.inr ⟨⟨_, rfl⟩, rfl⟩))
  exact ⟨_, h₉, ⟨60, rfl, by decide⟩, rfl⟩

/-- One holder releases the Lease and another takes it. -/
theorem host_lease_exclusive_handover : ∃ c : Config Bool LeaseOp LeaseOp.Reply LeaseExc Bool (LeaseWorld Bool),
    c.world.Holds (handover true) ∧ ¬ c.world.Holds (handover false) := by
  obtain ⟨c, hc, hheld, -⟩ := handover_run
  refine ⟨c, hheld, fun hfirst => ?_⟩
  have hsame := host_lease_exclusive (fun _ _ hs => by cases hs) hc hheld hfirst
  exact absurd hsame (by decide)

/-- In every run, every write that takes effect is an acquisition of a Lease that is missing,
released, or run out at the clock reading of its call, or a renewal or release of the
writer's own Lease; and a call that returns `true` has written a Lease that names its object. -/
theorem host_lease_writes {left : Option LeaseSpec} {clock : Time}
    (h : ∀ s i, left = some s → s.holder ≠ some (who i))
    {c : Config ι LeaseOp LeaseOp.Reply LeaseExc Bool (LeaseWorld ι)}
    (hc : Reachable (leaseRuntime who) (idle (LeaseWorld.new ι left clock)) c) :
    (∀ e ∈ c.world.log, e.Due c.world.clock) ∧
      ∀ i, c.thread i = some (.pure true) → ∃ s, c.world.wrote i = some s ∧ s.holder = some (who i) := by
  have hsound := lease_sound h hc
  refine ⟨hsound.1.due, fun i hi => ?_⟩
  obtain ⟨w, hr, hq⟩ := hsound.2 i _ hi
  obtain ⟨s, hs, hh⟩ := hq rfl
  exact ⟨s, hr.2.2.trans hs, hh⟩

/-- Each of its writes was due, and the second holder is told so. -/
theorem host_lease_writes_handover : ∃ c : Config Bool LeaseOp LeaseOp.Reply LeaseExc Bool (LeaseWorld Bool),
    (∀ e ∈ c.world.log, e.Due c.world.clock) ∧ ∃ s, c.world.wrote true = some s ∧ s.holder = some (handover true) := by
  obtain ⟨c, hc, -, ht⟩ := handover_run
  have h := host_lease_writes (fun _ _ hs => by cases hs) hc
  exact ⟨c, h.1, h.2 true ht⟩

end CapiSsh.Leases
