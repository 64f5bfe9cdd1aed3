import CapiSsh.Runs

/-!
# What the provider guarantees about hosts

A host serves one Machine at a time, is given back only after it was cleaned, and a Machine
never moves to another target.
-/
namespace CapiSsh

open Effect Interference

variable {S : Setting} {i : MachineRef} {w w' : World} {c c' : Configuration}

/-- An allocation that no cleanup has settled. -/
def Live (m : Machine) (b : Binding) : Prop :=
  m.status.allocation = some b ∧ m.status.cleanup ≠ some .succeeded

structure ClaimsExclusive (w : World) : Prop where
  exclusive : ∀ k k' m m' b b' x, w.machines.lookup k = some m → w.machines.lookup k' = some m' → Live m b →
    Live m' b' → b.hostUID = some x → b'.hostUID = some x → m.metadata.uid = m'.metadata.uid
  claimed : ∀ k m b ref h, w.machines.lookup k = some m → Live m b → b.hostRef = some ref →
    w.hosts.lookup ref = some h → b.hostUID = some h.metadata.uid →
    h.spec.consumerRef = some (consumerRef m.metadata.key m.metadata.uid)

theorem live_held {T : Trust} {k : ObjectKey} {m : Machine} {b : Binding} {x : Uid} (hT : T.claims = true)
    (hw : Consistent T w) (hm : w.machines.lookup k = some m) (hb : Live m b) (hx : b.hostUID = some x) :
    (heldOf x (journal ⟨k, m.metadata.uid⟩ w)).isSome := by
  obtain ⟨-, -, ht⟩ := hw.accounted.machine k m hm
  refine held_of_live hT (hw.lawful _) ?_ b x ?_ hx
  · rw [← ht.status]; exact hb.2
  · rw [← ht.status]; exact hb.1

/-- Two Machines never hold live allocations of one host, and the host names the holder. -/
theorem live_claims_exclusive (hT : S.trust.claims = true) (h : Reachable (cluster S) (idle World.empty) c) :
    ClaimsExclusive c.world := by
  have hw : Consistent S.trust c.world := (reachable_sound h).1
  refine ⟨?_, ?_⟩
  · intro k k' m m' b b' x hm hm' hb hb' hx hx'
    have hi := hw.accounted.exclusive hT _ _ x (live_held hT hw hm hb hx) (live_held hT hw hm' hb' hx')
    exact congrArg MachineRef.uid hi
  · intro k m b ref host hm hb _ hh hx
    obtain ⟨hk, -, -⟩ := hw.accounted.machine k m hm
    obtain ⟨p, hp⟩ := Option.isSome_iff_exists.mp (live_held hT hw hm hb hx)
    rw [(hw.accounted.claimed hT ref host _ p hh hp).1, MachineRef.consumer, hk]

/-- Two Machines have read the same list; the one whose claim is refused takes the other host. -/
def raceForHost : List Move :=
  [.change (.createHost (smallHost "h" "a")), .change (.createHost (smallHost "g" "b")),
    .change (.createMachine (smallMachine "m" none)), .change (.createMachine (smallMachine "p" none)),
    .start (smallRef "m" 3) .bind, .start (smallRef "p" 4) .bind, .usual (smallRef "m" 3) 2,
    .usual (smallRef "p" 4) 2, .usual (smallRef "m" 3) 10, .call (smallRef "p" 4) (.fail (.api 409)),
    .usual (smallRef "p" 4) 10]

def allocatedHost (i : MachineRef) (c : Configuration) : Option Uid :=
  (statusOf (journal i c.world)).allocation.bind Binding.hostUID

/-- Two Machines race for two hosts and hold one each. -/
theorem live_claims_exclusive_race : ∃ c, Reachable (cluster smallSetting) (idle World.empty) c ∧
    (allocatedHost (smallRef "m" 3) c == some 2 && allocatedHost (smallRef "p" 4) c == some 1) = true ∧
      ClaimsExclusive c.world := by
  have h : (plays smallSetting smallUsual raceForHost (idle World.empty)).any (fun c =>
      allocatedHost (smallRef "m" 3) c == some 2 && allocatedHost (smallRef "p" 4) c == some 1) = true := by
    decide +kernel
  obtain ⟨c, hc, hb⟩ := plays_exists h
  exact ⟨c, hc, hb, live_claims_exclusive rfl hc⟩

/-- A write that gives the host of `u` back. -/
def Event.frees (u : MachineRef) : Event → Prop
  | .unclaim _ ref => ref = some u.consumer
  | .phase _ ref _ new => ref = some u.consumer ∧ new = .available
  | _ => False

/-- `released` looks back at each write of the run, `kept` is about the hosts as they are. -/
structure CleanBeforeRelease (u : MachineRef) (w : World) : Prop where
  released : ∀ post k e pre, w.log = post ++ (k, e) :: pre → e.frees u →
    owned (journal u { w with log := pre }) → cleaned (journal u { w with log := pre })
  kept : owned (journal u w) → started (journal u w) → ¬ cleaned (journal u w) →
    ∀ b k h, (statusOf (journal u w)).allocation = some b → w.hosts.lookup k = some h →
      b.hostUID = some h.metadata.uid → h.spec.consumerRef = some u.consumer ∧
        (h.status.phase = some .cleaning ∨ h.status.phase = some .quarantined)
  reopened : ∀ k x ref old, (k, Event.phase x ref old .claimed) ∈ w.log → unclean old = false

/-- Each event of a log was lawful when it was written. -/
theorem lawful_at {T : Trust} {post pre : List (MachineRef × Event)} {e : Event} (hw : ∀ i, Lawful T i (journal i w))
    (h : w.log = post ++ (i, e) :: pre) :
    Lawful T i (journal i { w with log := pre }) ∧ Law T i (journal i { w with log := pre }) e := by
  have hi := hw i
  rw [journal, h, List.filterMap_append, List.filterMap_cons] at hi
  simp only [if_true] at hi
  have hi := lawful_suffix hi
  exact ⟨lawful_tail hi, lawful_head hi⟩

theorem unclean_iff {p : Option HostPhase} : unclean p = true ↔ p = some .cleaning ∨ p = some .quarantined := by
  rcases p with - | (- | - | - | -) <;> simp [unclean]

/-- Looking back from any state of the cluster at every release so far. -/
theorem cleaned_before_release (hP : S.trust.phases = true) (h : Reachable (cluster S) (idle World.empty) c)
    (u : MachineRef) : CleanBeforeRelease u c.world := by
  have hT : S.trust.claims = true := S.trust.closed hP
  have hw : Consistent S.trust c.world := (reachable_sound h).1
  refine ⟨?_, ?_, ?_⟩
  · intro post k e pre hlog hf ho
    obtain ⟨hl, hlaw⟩ := lawful_at hw.lawful hlog
    cases e with
    | unclaim x ref =>
      obtain ⟨hs, hclaim⟩ := hlaw
      obtain rfl := consumer_injective (Option.some.inj ((hclaim hT).1.symm.trans hf))
      exact cleaned_of_succeeded hl ho hs
    | phase x ref old new =>
      obtain ⟨-, hs, hclaim⟩ := hlaw
      obtain rfl := consumer_injective (Option.some.inj ((hclaim hT).1.symm.trans hf.1))
      exact cleaned_of_succeeded hl ho (hs hf.2)
    | _ => cases hf
  · intro ho hst hn b k host hb hh hx
    have hs : (statusOf (journal u c.world)).cleanup ≠ some .succeeded :=
      fun hs => hn (cleaned_of_succeeded (hw.lawful u) ho hs)
    obtain ⟨p, hp, hun⟩ := confined_of_started hT hP (hw.lawful u) ho hst hs b _ hb hx
    obtain ⟨hc, hph⟩ := hw.accounted.claimed hT k host u p hh hp
    exact ⟨hc, by rw [hph hP]; exact unclean_iff.mp hun⟩
  · intro k x ref old hm
    obtain ⟨post, pre, hlog⟩ := List.append_of_mem hm
    obtain ⟨-, -, hclaim⟩ := (lawful_at hw.lawful hlog).2
    obtain ⟨-, p, -, hlaw⟩ := hclaim hT
    exact (hlaw hP).2 rfl

/-- One host, one Machine that selects it, and the whole life of that Machine. -/
def wholeLife : List Move :=
  [.change (.createHost (smallHost "h" "a")), .change (.createMachine (smallMachine "m" none)),
    .start (smallRef "m" 2) .reconcile, .usual (smallRef "m" 2) 48, .finish (smallRef "m" 2),
    .change (.deleteMachine ⟨"n", "m"⟩ 0), .start (smallRef "m" 2) .delete, .usual (smallRef "m" 2) 37]

/-- A Machine from its claim to the release of its host. -/
theorem cleaned_before_release_life : ∃ c, Reachable (cluster smallSetting) (idle World.empty) c ∧
    (c.world.log.any fun e => e.2 == .unclaim 1 (some (smallRef "m" 2).consumer)) = true ∧
      CleanBeforeRelease (smallRef "m" 2) c.world := by
  have h : (plays smallSetting smallUsual wholeLife (idle World.empty)).any (fun c =>
      c.world.log.any fun e => e.2 == .unclaim 1 (some (smallRef "m" 2).consumer)) = true := by
    decide +kernel
  obtain ⟨c, hc, hb⟩ := plays_exists h
  exact ⟨c, hc, hb, cleaned_before_release rfl hc _⟩

/-- What later configurations of a run keep of the target that is persisted for `i`. -/
structure TargetKept (i : MachineRef) (b : Binding) (c : Configuration) : Prop where
  allocation : ∀ m, c.world.machines.lookup i.key = some m → m.metadata.uid = i.uid →
    ∃ b', m.status.allocation = some b' ∧ b'.identity = b.identity
  returned : ∀ p b', c.thread i = some p → p.result = some (.ok (some b')) → b'.identity = b.identity
  staged : ∀ b', (c.world.staged i).status.allocation = some b' → b'.identity = b.identity

/-- Where ownership is stored, an allocation of the same target is stored with it. -/
def OwnershipMatches (w : World) : Prop := ∀ k m o, w.machines.lookup k = some m →
  m.status.bootstrapOwnership = some o → ∃ b, m.status.allocation = some b ∧ o.machineUID = b.machineUID ∧
    o.address = b.address ∧ o.port = b.port ∧ o.hostUID = b.hostUID

theorem ownership_matches (h : Reachable (cluster S) (idle World.empty) c) : OwnershipMatches c.world := by
  have hw : Consistent S.trust c.world := (reachable_sound h).1
  intro k m o hm ho
  obtain ⟨-, -, ht⟩ := hw.accounted.machine k m hm
  rw [ht.status] at ho ⊢
  obtain ⟨b, hb, hi⟩ := Option.map_eq_some_iff.mp (ownership_identity (hw.lawful _) o ho)
  simp only [Binding.identity, Identity.mk.injEq] at hi
  exact ⟨b, hb, hi.1.symm, hi.2.1.symm, hi.2.2.1.symm, hi.2.2.2.1.symm⟩

theorem identity_kept {d : Identity} (h : Reachable (cluster S) (idle World.empty) c) (h' : Reachable (cluster S) c c')
    (hd : identityOf (journal i c.world) = some d) : identityOf (journal i c'.world) = some d := by
  obtain ⟨post, hp⟩ := reachable_journal h' i
  have hl : Lawful S.trust i (journal i c'.world) := (reachable_sound (h.trans h')).1.lawful i
  rw [hp] at hl ⊢
  exact identityOf_suffix hl hd

/-- An attempt that has ended with a binding has ended with the persisted one. -/
theorem returned_identity {p : Act (Option Binding)} {b : Binding} (h : Reachable (cluster S) (idle World.empty) c)
    (hp : c.thread i = some p) (hr : p.result = some (.ok (some b))) :
    identityOf (journal i c.world) = some b.identity := by
  have hs := reachable_sound h
  obtain ⟨w, hrely, hq⟩ := hs.2 i p hp
  have hw : identityOf (journal i w) = some b.identity := by
    cases p with
    | pure a => cases hr; exact hq
    | throw e => cases hr
    | call op k => cases hr
  obtain ⟨us, hus, hu⟩ := hrely.journal
  have hl : Lawful S.trust i (journal i c.world) := hs.1.lawful i
  rw [hus] at hl ⊢
  exact identityOf_suffix hl hw

/-- A target that is persisted is the target for good, and the target of ownership. -/
theorem target_written_once {b : Binding} (h : Reachable (cluster S) (idle World.empty) c)
    (hb : (statusOf (journal i c.world)).allocation = some b) (h' : Reachable (cluster S) c c') :
    TargetKept i b c' ∧ OwnershipMatches c'.world := by
  have hs := reachable_sound (h.trans h')
  have hd : identityOf (journal i c'.world) = some b.identity := identity_kept h h' (by rw [identityOf, hb]; rfl)
  refine ⟨⟨?_, ?_, ?_⟩, ownership_matches (h.trans h')⟩
  · intro m hm hu
    obtain ⟨-, -, ht⟩ := hs.1.accounted.machine _ _ hm
    rw [hu] at ht
    rw [ht.status]
    exact Option.map_eq_some_iff.mp hd
  · intro p b' hp hr
    have := returned_identity (h.trans h') hp hr
    rw [hd] at this
    exact (Option.some.inj this).symm
  · intro b' hb'
    have := (hs.1.staged i).allocation b' hb'
    rw [hd] at this
    exact (Option.some.inj this).symm

/-- The target of a Machine with an address of its own. -/
def ownTarget : Binding := ⟨"a", 22, "root", smallSecret, smallSecret, 1, none, none⟩

/-- The user is edited after the first bind, and a second bind has ended. -/
theorem target_written_once_edited : ∃ c c', Reachable (cluster smallSetting) (idle World.empty) c ∧
    Reachable (cluster smallSetting) c c' ∧
      ((statusOf (journal (smallRef "m" 1) c'.world)).allocation == some { ownTarget with user := "u" }) = true ∧
        TargetKept (smallRef "m" 1) ownTarget c' ∧ OwnershipMatches c'.world := by
  have h : (plays smallSetting smallUsual [.change (.createMachine (smallMachine "m" (some "a"))),
      .start (smallRef "m" 1) .bind, .usual (smallRef "m" 1) 8, .finish (smallRef "m" 1)]
      (idle World.empty)).any (fun c =>
        decide ((statusOf (journal (smallRef "m" 1) c.world)).allocation = some ownTarget) &&
          (plays smallSetting smallUsual [.change (.editMachine ⟨"n", "m"⟩
            { smallSpec (some "a") with user := some "u" } (smallMeta "m")), .start (smallRef "m" 1) .bind,
            .usual (smallRef "m" 1) 8] c).any fun c' =>
              (statusOf (journal (smallRef "m" 1) c'.world)).allocation == some { ownTarget with user := "u" }) =
      true := by
    decide +kernel
  obtain ⟨c, hc, hb⟩ := plays_exists h
  rw [Bool.and_eq_true, decide_eq_true_eq] at hb
  obtain ⟨c', hc', he⟩ := plays_exists hb.2
  exact ⟨c, c', hc, hc', he, target_written_once hc hb.1 hc'⟩

end CapiSsh
