import CapiSsh.Permits
import CapiSsh.WriteAhead

/-!
# What the provider guarantees about reboots

A request is served once, and completion is never assumed: it is recorded of a boot that
was observed. Cleanup waits for the same observation, as long as no execution that ends
with a status other than zero leaves an accepted command behind.
-/
namespace CapiSsh

open Effect Interference

variable {S : Setting} {i : MachineRef} {j : Journal} {c : Configuration}

/-- The commands that were sent while the request kept its value: one under that value, and
before it at most one more, under another value. -/
def SentOnce (j : Journal) : Prop :=
  sentOf j = [] ∨ (∃ q, sentOf j = [q]) ∨ ∃ q, q ≠ requestOf j ∧ sentOf j = [requestOf j, q]

/-- The journal before the request got its value. -/
def beforePeriod : Journal → Journal
  | [] => []
  | .requested _ :: j => j
  | _ :: j => beforePeriod j

/-- A value that is not the current one was there before the period. -/
theorem suffix_beforePeriod {seg : Journal} (h : requestOf j ≠ requestOf (seg ++ j)) :
    j <:+ beforePeriod (seg ++ j) := by
  induction seg with
  | nil => exact absurd rfl h
  | cons e seg ih =>
    cases e with
    | requested v => exact List.suffix_append _ _
    | _ => exact ih h

/-- A call that was made in the past of this journal and has read what it told then. -/
structure Past (i : MachineRef) (j : Journal) (y : Exchange) : Prop where
  before : journal i y.before <:+ j
  told : ∀ m, y.machine = some m → m.metadata.uid = i.uid → Told (journal i y.before) m

/-- The attempt that made the call `x` to send a command after `pre` has read the request
that it serves; if that is not the current one any more, it has read it before the period. -/
structure Sends (i : MachineRef) (t : Target) (pre : Journal) (x : Made) : Prop where
  machine : x.machine = i
  command : x.exchange.op.reboots = some t
  before : journal i x.exchange.before = pre
  read : ∃ y ∈ x.earlier, ∃ m, y.machine = some m ∧ m.metadata.uid = i.uid ∧
    m.spec.requestedAt = (record pre).lastRequestedAt ∧ requestOf (journal i y.before) = m.spec.requestedAt ∧
    journal i y.before <:+ pre ∧
    ((record pre).lastRequestedAt ≠ requestOf pre → journal i y.before <:+ beforePeriod pre)

/-- At most one command for each request, each sent for the request that its attempt has read,
and a success only where the host was seen on another boot. -/
structure RebootedOnce (i : MachineRef) (s : Site MachineRef) : Prop where
  sent : ∀ post pre, journal i s.world = post ++ pre → SentOnce pre
  sender : ∀ post t a o pre, journal i s.world = post ++ .reboot t a o :: pre → ∃ x ∈ s.history, Sends i t pre x
  succeeded : ∀ post p r pre, journal i s.world = post ++ .status p :: pre → p.reboot = some r →
    r.phase = some .succeeded → r.lastRequestedAt = (record pre).lastRequestedAt ∧
      ∃ t b, owns pre t ∧ (t, b) ∈ observedOf pre ∧ (record pre).previousBootID ≠ some b

theorem ran_reboots {boot : String} {conn : Conn} {accepted : Bool} {r : Completed} {command : Command} {t : Target}
    {a : Option String} {o : RunOutcome}
    (h : ranEvent boot conn.target accepted r command = some (some (.reboot t a o))) :
    (Op.run conn command).reboots = some t := by
  cases command with
  | owned owned =>
    obtain ⟨uid, script, claim, cleanedRetry, blocking⟩ := owned
    simp only [ranEvent] at h
    cases script with
    | reboot =>
      dsimp only at h
      split at h <;> cases h
      rfl
    | bootID =>
      dsimp only at h
      split at h
      · split at h <;> cases h
      · cases h
    | _ => cases h
  | _ => cases h

theorem raised_reboots {boot : String} {conn : Conn} {accepted : Bool} {command : Command} {t : Target}
    {a : Option String} {o : RunOutcome} (h : raisedEvent boot conn.target accepted command = some (.reboot t a o)) :
    (Op.run conn command).reboots = some t := by
  cases command with
  | owned owned =>
    obtain ⟨uid, script, claim, cleanedRetry, blocking⟩ := owned
    simp only [raisedEvent] at h
    cases script <;> cases h
    rfl
  | _ => cases h

theorem run_reboots {boots : Target → Nat → String} {conn : Conn} {command : Command} {c : Choice}
    {r : Except Exc Completed} {w w' : World} {t : Target} {a : Option String} {o : RunOutcome}
    (h : answer boots i (.run conn command) c w = some (r, w'))
    (hj : journal i w' = .reboot t a o :: journal i w) : (Op.run conn command).reboots = some t := by
  have hnoted : ∀ e : Option Event, journal i (w.noteAll i e) = .reboot t a o :: journal i w →
      e = some (.reboot t a o) := by
    intro e he
    cases e with
    | none => exact absurd (congrArg List.length he) (by simp [World.noteAll])
    | some e =>
      rw [World.noteAll, journal_note_same] at he
      rw [(List.cons.inj he).1]
  cases c with
  | ran accepted c =>
    simp only [answer] at h
    split at h
    · obtain ⟨e, he, hr⟩ := Option.map_eq_some_iff.mp h
      cases hr
      exact ran_reboots (hnoted e hj ▸ he)
    · cases h
  | raised accepted e =>
    simp only [answer] at h
    split at h
    · cases h
      exact raised_reboots (hnoted _ hj)
    · cases h
  | _ => cases h

theorem journal_head {w w' : World} {k : MachineRef} {e e' : Event} (hl : w'.log = (k, e') :: w.log)
    (hj : journal i w' = e :: journal i w) : e' = e := by
  simp only [journal, hl, List.filterMap_cons] at hj
  split at hj
  · exact absurd (congrArg List.length hj) (by simp)
  · rename_i x hx
    split at hx
    · cases hx
      exact (List.cons.inj hj).1
    · cases hx

/-- Only the reboot command is logged as one. -/
theorem answer_reboots {boots : Target → Nat → String} {op : Op} {c : Choice} {r : Except Exc (Reply op)} {w w' : World}
    {t : Target} {a : Option String} {o : RunOutcome} (h : answer boots i op c w = some (r, w'))
    (hj : journal i w' = .reboot t a o :: journal i w) : op.reboots = some t := by
  have hsame : ∀ w'' : World, w''.log = w.log → journal i w'' ≠ .reboot t a o :: journal i w := by
    intro w'' hl he
    rw [journal, hl] at he
    exact absurd (congrArg List.length he) (by simp [journal])
  cases answer_written h with
  | same => exact absurd hj (hsame _ rfl)
  | staged f p _ => exact absurd hj (hsame _ rfl)
  | spec _ _ _ => exact absurd hj (hsame _ rfl)
  | status _ _ _ => cases journal_head rfl hj
  | @claim key pre ref old _ _ _ =>
    have he : old.claimEvent ref = .reboot t a o := journal_head rfl hj
    cases ref <;> cases he
  | phase _ _ _ => cases journal_head rfl hj
  | applied f _ _ _ _ => exact absurd hj (hsame _ rfl)
  | appliedStatus f _ _ _ _ => cases journal_head rfl hj
  | noted e ho _ _ _ =>
    subst ho
    exact run_reboots h hj

/-- Every command in this journal was sent by a call of the past. -/
def Commanded (i : MachineRef) (history : List Made) (j : Journal) : Prop :=
  ∀ post t a o pre, j = post ++ .reboot t a o :: pre →
    ∃ x ∈ history, x.machine = i ∧ x.exchange.op.reboots = some t ∧ journal i x.exchange.before = pre

theorem commanded_append {history history' : List Made} {es : Option Event} (h : Commanded i history j)
    (hsub : ∀ x ∈ history, x ∈ history')
    (he : ∀ t a o, es = some (.reboot t a o) →
      ∃ x ∈ history', x.machine = i ∧ x.exchange.op.reboots = some t ∧ journal i x.exchange.before = j) :
    Commanded i history' (es.toList ++ j) := by
  have hold : Commanded i history' j := fun post t a o pre hj =>
    (h post t a o pre hj).imp fun x hx => ⟨hsub x hx.1, hx.2⟩
  cases es with
  | none => exact hold
  | some e =>
    intro post t a o pre hj
    cases post with
    | nil =>
      obtain ⟨rfl, rfl⟩ := List.cons.inj hj
      exact he t a o rfl
    | cons e' post => exact hold post t a o pre (List.cons.inj hj).2

/-- What attempts have seen is in the past of what they do with it. -/
structure Chronicled (s : Site MachineRef) : Prop where
  calls : ∀ i, ∀ y ∈ (s.attempts i).calls, Past i (journal i s.world) y
  earlier : ∀ x ∈ s.history, ∀ y ∈ x.earlier, Past x.machine (journal x.machine x.exchange.before) y
  commands : ∀ i, Commanded i s.history (journal i s.world)

theorem past_suffix {j' : Journal} {y : Exchange} (h : Past i j y) (hj : j <:+ j') : Past i j' y :=
  ⟨h.before.trans hj, h.told⟩

theorem chronicled_call {s : Site MachineRef} {k : MachineRef} {e : Exchange} (h : Chronicled s)
    (hc : Called S id s k e) (hp : Permitted k (s.attempts k).kind e (s.attempts k).calls) :
    Chronicled (s.record k (id k) e) := by
  have hbefore : ∀ i, journal i e.before = journal i s.world := fun i => by rw [hc.before]; rfl
  have hlater : ∀ i, journal i s.world <:+ journal i e.after := fun i => by
    rw [← hbefore i]
    exact journal_suffix (written_later (called_written hc)).log i
  refine ⟨fun i y hy => ?_, fun x hx y hy => ?_, fun i => ?_⟩
  · by_cases hi : i = k
    · subst hi
      rw [recorded_same] at hy
      rcases List.mem_cons.mp hy with rfl | hy
      · refine ⟨?_, fun m hm hu => ?_⟩
        · rw [hbefore]
          exact hlater i
        · rw [hbefore]
          exact (called_told hc hp.within hm hu).2
      · exact past_suffix (h.calls i y hy) (hlater i)
    · rw [recorded_other _ _ _ hi] at hy
      exact past_suffix (h.calls i y hy) (hlater i)
  · rcases List.mem_cons.mp hx with rfl | hx
    · change Past k (journal k e.before) y
      rw [hbefore]
      exact h.calls k y hy
    · exact h.earlier x hx y hy
  · obtain ⟨es, hj, -⟩ := written_journal hp.within (called_written hc)
    rw [recorded_world, hj i, hbefore]
    by_cases hi : i = k
    · subst hi
      rw [if_pos rfl]
      refine commanded_append (h.commands i) (fun x hx => List.mem_cons_of_mem _ hx) fun t a o he => ?_
      have hreboot : journal i e.after = .reboot t a o :: journal i e.before := by
        rw [hj i, if_pos rfl, he]
        rfl
      obtain ⟨ch, ha⟩ := hc.answered
      exact ⟨_, List.mem_cons_self, rfl, answer_reboots ha hreboot, hbefore i⟩
    · rw [if_neg hi]
      change Commanded i _ ((none : Option Event).toList ++ _)
      refine commanded_append (h.commands i) (fun x hx => List.mem_cons_of_mem _ hx) ?_
      rintro t a o ⟨⟩

theorem handlers_chronicled {c : Crew MachineRef} (h : Reachable (handlers S id) (idle (Site.empty MachineRef)) c) :
    Chronicled c.world := by
  have hlimit : Reachable ((handlers S id).limit fun _ _ _ _ _ => True) (idle (Site.empty MachineRef)) c :=
    reachable_limit (fun _ _ _ _ _ => trivial) h
  refine runs_keep id (P := Chronicled) always_permitted ?_ ?_ ?_ ?_ hlimit
  · refine ⟨by rintro i y ⟨⟩, by rintro x ⟨⟩, fun i post t a o pre hj => ?_⟩
    cases post <;> cases hj
  · intro s ch w' hs _ ho
    refine ⟨fun i y hy => past_suffix (hs.calls i y hy) (journal_suffix ho.later.log i), hs.earlier, fun i => ?_⟩
    obtain ⟨k, es, hes, hj⟩ := ho.journal
    change Commanded i s.history (journal i w')
    rw [hj]
    split
    · refine commanded_append (hs.commands i) (fun _ hx => hx) fun t a o he => ?_
      cases hes _ he
    · exact hs.commands i
  · intro s k a hs _
    refine ⟨fun i y hy => ?_, hs.earlier, hs.commands⟩
    by_cases hi : i = k
    · subst hi
      rw [put_same] at hy
      cases hy
    · rw [put_other _ _ _ hi] at hy
      exact hs.calls i y hy
  · exact fun s k e hs hc hp _ => chronicled_call hs hc hp

theorem firstRead_mem {m : Machine} {calls : List Exchange} (h : firstRead calls = some m) :
    ∃ y ∈ calls, y.machine = some m := by
  induction calls with
  | nil => cases h
  | cons e earlier ih =>
    rw [firstRead] at h
    cases hf : firstRead earlier with
    | some m' =>
      rw [hf, Option.some_or] at h
      obtain ⟨y, hy, hm⟩ := ih (hf.trans h)
      exact ⟨y, List.mem_cons_of_mem _ hy, hm⟩
    | none =>
      rw [hf, Option.none_or] at h
      exact ⟨e, List.mem_cons_self, h⟩

/-- An attempt only sends the command for the request that it has read itself. -/
theorem command_sender {c : Crew MachineRef} {post pre : Journal} {t : Target} {a : Option String} {o : RunOutcome}
    (h : Reachable (handlers S id) (idle (Site.empty MachineRef)) c)
    (hj : journal i c.world.world = post ++ .reboot t a o :: pre) : ∃ x ∈ c.world.history, Sends i t pre x := by
  have hchron := handlers_chronicled h
  obtain ⟨x, hx, rfl, hop, rfl⟩ := hchron.commands i post t a o pre hj
  obtain ⟨m, r, b, hlive, hreq, -, hintends⟩ := ((handlers_remember h).ahead x hx).named t hop
  obtain ⟨hread, hu⟩ := live_some.mp hlive
  obtain ⟨y, hy, hm⟩ := firstRead_mem hread
  have hpast := hchron.earlier x hx y hy
  have htold : requestOf (journal x.machine y.before) = m.spec.requestedAt := (hpast.told m hm hu).request.symm
  obtain ⟨r', hr', -, hr, -⟩ := hintends
  have hrecord : (record (journal x.machine x.exchange.before)).lastRequestedAt = m.spec.requestedAt := by
    rw [record, hr', Option.getD_some, hr, hreq]
  refine ⟨x, hx, rfl, hop, rfl, y, hy, m, hm, hu, hrecord.symm, htold, hpast.before, fun hne => ?_⟩
  obtain ⟨seg, hseg⟩ := hpast.before
  rw [← hseg] at hne ⊢
  refine suffix_beforePeriod ?_
  rwa [htold, ← hrecord, ← hseg]

/-- Every period of every run, the attempt behind every command in it, and every success
that is recorded. -/
theorem rebooted_once {c : Crew MachineRef} (h : Reachable (handlers S id) (idle (Site.empty MachineRef)) c)
    (i : MachineRef) : RebootedOnce i c.world := by
  have hl : Lawful S.trust i (journal i c.world.world) := (serialized_consistent h).lawful i
  refine ⟨fun post pre hj => ?_, fun post t a o pre hj => command_sender h hj, fun post p r pre hj hp hs => ?_⟩
  · rw [hj] at hl
    exact sentOf_shape (lawful_suffix hl)
  · rw [hj] at hl
    have hl := lawful_suffix hl
    exact succeeded_observed (lawful_tail hl) (lawful_head hl) hp hs

def requestReboot (r : String) : Change :=
  .editMachine ⟨"n", "m"⟩ { smallSpec (some "a") with requestedAt := some r } (smallMeta "m")

/-- The request is edited between the record of an attempt and its command; the host comes
back, that is observed, and the new request is served. -/
def editedRequest : List (Turn MachineRef) :=
  bootstrapped ++ [.change (requestReboot "r1"), .start (smallRef "m" 1) .reboot, .usual (smallRef "m" 1) 17,
    .change (requestReboot "r2"), .usual (smallRef "m" 1) 9, .finish (smallRef "m" 1), .change (.rebootHost ⟨"a", 22⟩),
    .start (smallRef "m" 1) .reboot, .usual (smallRef "m" 1) 19, .finish (smallRef "m" 1),
    .start (smallRef "m" 1) .reboot, .usual (smallRef "m" 1) 18]

/-- The request is edited while an attempt is on its way, and both values are sent. -/
theorem rebooted_once_edited : ∃ c : Crew MachineRef,
    Reachable (handlers smallSetting id) (idle (Site.empty MachineRef)) c ∧
      (sentOf (journal (smallRef "m" 1) c.world.world) == [some "r2", some "r1"]) = true ∧
        RebootedOnce (smallRef "m" 1) c.world := by
  have h : (takes smallSetting id unchecked smallUsual editedRequest (idle (Site.empty MachineRef))).any (fun c =>
      sentOf (journal (smallRef "m" 1) c.world.world) == [some "r2", some "r1"]) = true := by
    decide +kernel
  obtain ⟨c, hc, hb⟩ := takes_exists h
  exact ⟨c, hc, hb, rebooted_once hc _⟩

/-- Two commands can fall into the period of one value. -/
theorem two_commands_in_a_period : ¬ ∀ c : Crew MachineRef,
    Reachable (handlers smallSetting id) (idle (Site.empty MachineRef)) c →
      (sentOf (journal (smallRef "m" 1) c.world.world)).length ≤ 1 := by
  intro hall
  have h : (takes smallSetting id unchecked smallUsual editedRequest (idle (Site.empty MachineRef))).any (fun c =>
      (sentOf (journal (smallRef "m" 1) c.world.world)).length == 2) = true := by
    decide +kernel
  obtain ⟨c, hc, hb⟩ := takes_exists h
  have := hall c hc
  rw [beq_iff_eq] at hb
  omega

/-- A failure is recorded only where the host did not take the command, and a reset comes only
when no command is left that may still reboot the host. -/
structure ResetWaits (j : Journal) : Prop where
  failed : ∀ post p s pre, j = post ++ .status p :: pre → p.reboot = some s → s.phase = some .failed →
    ∃ o, lastRunOf pre = some (none, o)
  reset : ∀ post t o pre, j = post ++ .reset t o :: pre → unresolvedOf pre = []

/-- A run in which no error result hides an accepted command never resets a host that may
still reboot. -/
theorem reset_waits (h : Reachable (cluster S) (idle World.empty) c) (hc : conclusive (journal i c.world) = true) :
    ResetWaits (journal i c.world) := by
  have hl : Lawful S.trust i (journal i c.world) := (reachable_sound h).1.lawful i
  refine ⟨fun post p s pre hj hp hs => ?_, fun post t o pre hj => ?_⟩
  · rw [hj] at hl hc
    have hl := lawful_suffix hl
    exact failed_refused (conclusive_tail (conclusive_suffix hc)) (lawful_head hl) hp hs
  · rw [hj] at hl hc
    have hl := lawful_suffix hl
    exact reset_resolved (lawful_tail hl) (conclusive_tail (conclusive_suffix hc)) (lawful_head hl)

/-- A provisioned Machine with an address of its own. -/
def provisionedMachine : List Move :=
  [.change (.createMachine (smallMachine "m" (some "a"))), .start (smallRef "m" 1) .reconcile,
    .usual (smallRef "m" 1) 44, .finish (smallRef "m" 1)]

def deleteSmall : List Move := [.change (.deleteMachine ⟨"n", "m"⟩ 0), .start (smallRef "m" 1) .delete]

/-- A reboot is served, observed and followed by the deletion of the Machine. -/
def rebootThenDelete : List Move :=
  provisionedMachine ++ [.change (requestReboot "r1"), .start (smallRef "m" 1) .reboot, .usual (smallRef "m" 1) 26,
    .finish (smallRef "m" 1), .change (.rebootHost ⟨"a", 22⟩), .start (smallRef "m" 1) .reboot,
    .usual (smallRef "m" 1) 19, .finish (smallRef "m" 1)] ++ deleteSmall ++ [.usual (smallRef "m" 1) 21]

/-- The last event is a reset, with the boots that it still has to wait for. -/
def resetWith (j : Journal) : Option (List String) :=
  match j with
  | .reset _ _ :: pre => some (unresolvedOf pre)
  | _ => none

/-- The reset comes when the host has booted again. -/
theorem reset_waits_served : ∃ c, Reachable (cluster smallSetting) (idle World.empty) c ∧
    (resetWith (journal (smallRef "m" 1) c.world) == some []) = true ∧
      ResetWaits (journal (smallRef "m" 1) c.world) := by
  have h : (plays smallSetting smallUsual rebootThenDelete (idle World.empty)).any (fun c =>
      resetWith (journal (smallRef "m" 1) c.world) == some [] && conclusive (journal (smallRef "m" 1) c.world)) =
      true := by
    decide +kernel
  obtain ⟨c, hc, hb⟩ := plays_exists h
  rw [Bool.and_eq_true] at hb
  exact ⟨c, hc, hb.1, reset_waits hc hb.2⟩

/-- The channel of an accepted reboot command closes without an exit status. -/
def closedChannel : List Move :=
  provisionedMachine ++ [.change (requestReboot "r1"), .start (smallRef "m" 1) .reboot, .usual (smallRef "m" 1) 17,
    .call (smallRef "m" 1) (.ran true ⟨none, ⟨.text "", ""⟩, ""⟩), .usual (smallRef "m" 1) 8,
    .finish (smallRef "m" 1)] ++ deleteSmall ++ [.usual (smallRef "m" 1) 21]

/-- The exit status -1 of a closed channel is taken for a failure, and the host is reset at once. -/
theorem closed_channel_resets : ¬ ∀ c, Reachable (cluster smallSetting) (idle World.empty) c →
    ResetWaits (journal (smallRef "m" 1) c.world) := by
  intro hall
  have h : (plays smallSetting smallUsual closedChannel (idle World.empty)).any (fun c =>
      resetWith (journal (smallRef "m" 1) c.world) == some ["00000000-0000-0000-0000-000000000000"]) = true := by
    decide +kernel
  obtain ⟨c, hc, hb⟩ := plays_exists h
  rw [beq_iff_eq] at hb
  unfold resetWith at hb
  split at hb
  · rename_i t o pre hj
    rw [(hall c hc).reset [] t o pre hj] at hb
    cases hb
  · cases hb

end CapiSsh
