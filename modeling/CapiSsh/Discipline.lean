import CapiSsh.Accounts
import CapiSsh.Lawful

/-!
# The discipline of an attempt

The journals account for the store and every journal is lawful. An attempt owns its
Machine's journal and staged patch: other attempts leave both alone, and users only add
their own two events to the journal. What the staged patch would write is lawful whenever
Kopf applies it.
-/
namespace CapiSsh

open Effect Interference

variable {T : Trust} {i : MachineRef} {j : Journal} {w w' : World} {s : StatusPatch}

/-- Kopf may apply this patch at any time: it repeats what was persisted. -/
structure Compatible (j : Journal) (s : StatusPatch) : Prop where
  allocation : ∀ b, s.allocation = some b → identityOf j = some b.identity
  ownership : ∀ o, s.bootstrapOwnership = some o → owned j ∧ identityOf j = some o.identity
  cleanup : s.cleanup = none
  reboot : ∀ r, s.reboot = some r →
    Updates j r ∧ (r.phase = some .succeeded → (record j).phase = some .succeeded)

theorem compatible_empty : Compatible j .empty := by
  constructor <;> simp [StatusPatch.empty]

theorem compatible_law (h : Lawful T i j) (hc : Compatible j s) : StatusLaw T i j s := by
  have hid : ∀ d, identityOf j = some d → ∃ b, (statusOf j).allocation = some b ∧ d = b.identity := by
    intro d hd
    obtain ⟨b, hb, rfl⟩ := Option.map_eq_some_iff.mp hd
    exact ⟨b, hb, rfl⟩
  refine ⟨?_, ?_, ?_, ?_⟩
  · intro b hb
    obtain ⟨old, ho, hi⟩ := hid _ (hc.allocation b hb)
    obtain ⟨hu, hr⟩ := allocation_formed h old ho
    simp only [Binding.identity, Identity.mk.injEq] at hi
    obtain ⟨h₁, h₂, h₃, h₄, h₅⟩ := hi
    refine ⟨h₁.trans hu, fun hn => h₄.trans (hr (h₅.symm.trans hn)), ?_⟩
    rw [ho]
    simp [Binding.identity, h₁, h₂, h₃, h₄, h₅]
  · intro o ho
    obtain ⟨hown, hd⟩ := hc.ownership o ho
    exact ⟨hid _ hd, .inl hown⟩
  · intro c hcl
    rw [hc.cleanup] at hcl
    cases hcl
  · intro r hr
    exact .inl (hc.reboot r hr).1

/-- The events that a staged record of a reboot has to be compared with. -/
def Event.touchesReboot : Event → Bool
  | .reboot .. => true
  | .status p => p.reboot.isSome
  | _ => false

theorem preparesReboot_none {p : StatusPatch} (h : p.reboot = none) : preparesReboot p = false := by
  simp [preparesReboot, h]

theorem record_untouched {e : Event} (h : e.touchesReboot = false) : record (e :: j) = record j := by
  cases e with
  | status p =>
    have hp : p.reboot = none := by simpa [Event.touchesReboot] using h
    rw [record_status, hp]
  | _ => rfl

theorem lastRunOf_untouched {e : Event} (h : e.touchesReboot = false) : lastRunOf (e :: j) = lastRunOf j := by
  cases e with
  | status p =>
    have hp : p.reboot = none := by simpa [Event.touchesReboot] using h
    simp [lastRunOf, preparesReboot_none hp]
  | reboot t a o => cases h
  | _ => rfl

theorem observedOf_untouched {e : Event} (h : e.touchesReboot = false) {t : Target} {b : String}
    (hb : (t, b) ∈ observedOf j) : (t, b) ∈ observedOf (e :: j) := by
  cases e with
  | status p =>
    have hp : p.reboot = none := by simpa [Event.touchesReboot] using h
    simpa [observedOf, preparesReboot_none hp] using hb
  | observed t' b' => exact List.mem_cons_of_mem _ hb
  | _ => exact hb

theorem compatible_core {e : Event} (he : Law T i j e) (hc : Compatible j s)
    (hr : ∀ r, s.reboot = some r →
      Updates (e :: j) r ∧ (r.phase = some .succeeded → (record (e :: j)).phase = some .succeeded)) :
    Compatible (e :: j) s where
  allocation b hb := identityOf_step he (hc.allocation b hb)
  ownership o ho := ⟨owned_step (hc.ownership o ho).1, identityOf_step he (hc.ownership o ho).2⟩
  cleanup := hc.cleanup
  reboot := hr

theorem compatible_step {e : Event} (he : Law T i j e) (hc : Compatible j s)
    (h : e.touchesReboot = false ∨ s.reboot = none) : Compatible (e :: j) s := by
  refine compatible_core he hc fun r hr => ?_
  rcases h with h | h
  · obtain ⟨hu, hs⟩ := hc.reboot r hr
    have hrec := record_untouched (j := j) h
    refine ⟨?_, by rw [hrec]; exact hs⟩
    constructor
    · rw [hrec]
      exact hu.request
    · rw [hrec]
      exact hu.previous
    · rw [hrec, lastRunOf_untouched h]
      rcases hu.outcome with hp | ⟨hp, -, t, b, hb, hne⟩ | hf
      · exact .inl hp
      · exact .inr (.inl ⟨hp, .inl (hs hp), t, b, observedOf_untouched h hb, hne⟩)
      · exact .inr (.inr hf)
    · rw [hrec]
      exact hu.unsettled
    · rw [hrec]
      exact hu.waiting
    · exact hu.completed
  · rw [h] at hr; cases hr

/-- Merging a dictionary again changes nothing. -/
@[simp] theorem merge_again (r : Reboot) (new : RebootState) : (r.merge new).merge new = r.merge new := by
  have hfield : new.lastCompletedAt.apply (new.lastCompletedAt.apply r.lastCompletedAt) =
      new.lastCompletedAt.apply r.lastCompletedAt := by
    cases new.lastCompletedAt <;> rfl
  simp only [Reboot.merge, ← Option.or_assoc, Option.or_self, hfield]

/-- After a record was updated, the update can be staged. -/
theorem updates_again {p : StatusPatch} {r : RebootState} (hp : p.reboot = some r) (hu : Updates j r) :
    Updates (.status p :: j) r ∧ (r.phase = some .succeeded → (record (.status p :: j)).phase = some .succeeded) := by
  have hrec : record (.status p :: j) = (record j).merge r := by rw [record_status, hp]
  have hph : ∀ q, r.phase = some q → ((record j).merge r).phase = some q := fun q hq => by simp [Reboot.merge, hq]
  refine ⟨⟨?_, ?_, ?_, ?_, ?_, hu.completed⟩, fun hs => by rw [hrec]; exact hph _ hs⟩
  · rw [hrec, updates_request hu, hu.request]
  · rw [hrec, updates_previous hu, hu.previous]
  · rw [hrec]
    rcases hu.outcome with ⟨-, hq⟩ | ⟨hs, -, t, b, hb, hne⟩ | ⟨hf, a, o, hl, ho⟩
    · refine .inl ⟨?_, hq⟩
      obtain ⟨q, hq, hqp⟩ := Option.map_eq_some_iff.mp hq
      simp [Reboot.pending, Reboot.merge, hq, hqp]
    · have hno : preparesReboot p = false := by simp [preparesReboot, hp, hs]
      refine .inr (.inl ⟨hs, .inl (hph _ hs), t, b, ?_, ?_⟩)
      · simpa [observedOf, hno] using hb
      · rw [updates_previous hu]; exact hne
    · have hno : preparesReboot p = false := by simp [preparesReboot, hp, hf]
      exact .inr (.inr ⟨hf, a, o, by simpa [lastRunOf, hno] using hl, ho⟩)
  · intro hf
    rw [hrec, hph _ hf]
    simp
  · intro hs
    rw [hrec, merge_again]
    exact ⟨(hu.waiting hs).1, rfl, .inr rfl⟩

/-- Kopf's write leaves its own patch compatible, and so does a handler that persists what
it has staged. -/
theorem compatible_update {p : StatusPatch} {r : RebootState} (he : Law T i j (.status p))
    (hc : Compatible j s) (hp : p.reboot = some r) (hu : Updates j r) (hs : s.reboot = none ∨ s.reboot = some r) :
    Compatible (.status p :: j) s := by
  refine compatible_core he hc fun r' hr' => ?_
  rcases hs with hs | hs
  · rw [hs] at hr'; cases hr'
  · obtain rfl := Option.some.inj (hr'.symm.trans hs)
    exact updates_again hp hu

/-- A reboot command goes out under a record that is staged as pending. -/
theorem compatible_reboot {t : Target} {a : Option String} {o : RunOutcome} (he : Law T i j (.reboot t a o))
    (hc : Compatible j s) (hs : ∀ r, s.reboot = some r → r.phase = some .prepared) :
    Compatible (.reboot t a o :: j) s := by
  refine compatible_core he hc fun r hr => ?_
  have hu := (hc.reboot r hr).1
  have hph := hs r hr
  have hpend : (record j).pending = true := by rw [Reboot.pending, he.2.1]; rfl
  refine ⟨{ request := hu.request, previous := hu.previous, outcome := .inl ⟨hpend, by rw [hph]; rfl⟩,
            unsettled := hu.unsettled, waiting := hu.waiting, completed := hu.completed }, ?_⟩
  intro h
  rw [hph] at h
  cases h

structure Relies (i : MachineRef) (w w' : World) : Prop where
  rev : w.rev ≤ w'.rev
  staged : w'.staged i = w.staged i
  journal : ∃ us, journal i w' = us ++ journal i w ∧ ∀ e ∈ us, Event.isUser e = true
  hosts : ∀ k h, w'.hosts.lookup k = some h →
    w.hosts.lookup k = some h ∨ w.rev < h.metadata.resourceVersion

structure Consistent (T : Trust) (w : World) : Prop where
  accounted : Accounted T w
  lawful : ∀ i, Lawful T i (journal i w)
  staged : ∀ i, Compatible (journal i w) (w.staged i).status

theorem relies_refl (i : MachineRef) (w : World) : Relies i w w :=
  ⟨Nat.le_refl _, rfl, ⟨[], rfl, by simp⟩, fun _ _ h => .inl h⟩

theorem relies_trans {w₁ w₂ w₃ : World} (h₁ : Relies i w₁ w₂) (h₂ : Relies i w₂ w₃) : Relies i w₁ w₃ := by
  refine ⟨h₁.rev.trans h₂.rev, h₂.staged.trans h₁.staged, ?_, ?_⟩
  · obtain ⟨us₁, e₁, hu₁⟩ := h₁.journal
    obtain ⟨us₂, e₂, hu₂⟩ := h₂.journal
    refine ⟨us₂ ++ us₁, by rw [e₂, e₁, List.append_assoc], ?_⟩
    intro e he
    rcases List.mem_append.mp he with he | he
    · exact hu₂ e he
    · exact hu₁ e he
  · intro k h hh
    rcases h₂.hosts k h hh with hh | hh
    · exact h₁.hosts k h hh
    · exact .inr (Nat.lt_of_le_of_lt h₁.rev hh)

def discipline (T : Trust) : Discipline MachineRef World where
  inv := Consistent T
  rely := Relies
  refl i w _ := relies_refl i w
  trans _ _ _ _ := relies_trans

/-- A step that touches no journal but its own, and there adds one lawful event. -/
theorem allows_event {e : Event} (hw : Consistent T w) (hacc : Accounted T w')
    (hsame : journal i w' = e :: journal i w) (hother : ∀ k, k ≠ i → journal k w' = journal k w)
    (hst : w'.staged = w.staged) (hrev : w.rev ≤ w'.rev)
    (hhosts : ∀ k h, w'.hosts.lookup k = some h → w.hosts.lookup k = some h ∨ w.rev < h.metadata.resourceVersion)
    (hlaw : Law T i (journal i w) e) (hcomp : Compatible (e :: journal i w) (w.staged i).status) :
    (discipline T).Allows i w w' := by
  refine ⟨⟨hacc, ?_, ?_⟩, ?_⟩
  · intro k
    by_cases hk : k = i
    · subst hk; rw [hsame]; exact .cons (hw.lawful k) hlaw
    · rw [hother k hk]; exact hw.lawful k
  · intro k
    rw [hst]
    by_cases hk : k = i
    · subst hk; rw [hsame]; exact hcomp
    · rw [hother k hk]; exact hw.staged k
  · intro k hk
    exact ⟨hrev, by rw [hst], ⟨[], hother k hk, by simp⟩, hhosts⟩

/-- A step that touches no journal. -/
theorem allows_silent (hw : Consistent T w) (hacc : Accounted T w') (hsame : ∀ k, journal k w' = journal k w)
    (hst : ∀ k, k ≠ i → w'.staged k = w.staged k) (hcomp : Compatible (journal i w) (w'.staged i).status)
    (hrev : w.rev ≤ w'.rev)
    (hhosts : ∀ k h, w'.hosts.lookup k = some h → w.hosts.lookup k = some h ∨ w.rev < h.metadata.resourceVersion) :
    (discipline T).Allows i w w' := by
  refine ⟨⟨hacc, ?_, ?_⟩, ?_⟩
  · intro k; rw [hsame]; exact hw.lawful k
  · intro k
    rw [hsame]
    by_cases hk : k = i
    · subst hk; exact hcomp
    · rw [hst k hk]; exact hw.staged k
  · intro k hk
    exact ⟨hrev, hst k hk, ⟨[], hsame k, by simp⟩, hhosts⟩

/-- About a journal and the reboot record that is staged. -/
abbrev Fact := Journal → Option RebootState → Prop

/-- What an attempt knows of its own journal and staged patch. -/
def At (i : MachineRef) (P : Fact) (w : World) : Prop :=
  journal i w ≠ [] ∧ P (journal i w) (w.staged i).status.reboot

/-- A fact that no user can disturb. -/
structure Calm (P : Fact) : Prop where
  requested : ∀ j s v, P j s → P (.requested v :: j) s
  marked : ∀ j s, P j s → P (.marked :: j) s

theorem calm_append {P : Fact} (hP : Calm P) {us : Journal} {p : Option RebootState}
    (hu : ∀ e ∈ us, Event.isUser e = true) (h : P j p) : P (us ++ j) p := by
  induction us with
  | nil => exact h
  | cons e us ih =>
    have h := ih fun e' he' => hu e' (List.mem_cons_of_mem _ he')
    have he := hu e List.mem_cons_self
    cases e with
    | requested v => exact hP.requested _ _ _ h
    | marked => exact hP.marked _ _ h
    | _ => cases he

theorem stable_at {P : Fact} (hP : Calm P) : (discipline T).Stable i (At i P) := by
  rintro w w' ⟨hne, hp⟩ hr -
  obtain ⟨us, hus, hu⟩ := hr.journal
  refine ⟨?_, ?_⟩
  · rw [hus]
    intro h
    exact hne (List.append_eq_nil_iff.mp h).2
  · rw [hus, hr.staged]
    exact calm_append hP hu hp

/-- An attempt of `i` that knows `P` runs `p`, keeps to the discipline, and then knows `A`
of what was returned or `E` of any error. -/
def Proves (S : Setting) (i : MachineRef) (P : Fact) (p : Act α)
    (A : α → Fact) (E : Fact) : Prop :=
  Triple (cluster S) (discipline S.trust) i (At i P) p (post (fun a => At i (A a)) fun _ => At i E)

section rules

variable {S : Setting} {P P' E E' : Fact} {A A' : α → Fact}
  {B : β → Fact}

theorem proves_pure {a : α} (h : ∀ j s, Lawful S.trust i j → P j s → A a j s) :
    Proves S i P (pure a) A E :=
  triple_pure fun _ hw hp => ⟨hp.1, h _ _ (hw.lawful i) hp.2⟩

theorem proves_throw {e : Exc} (h : ∀ j s, Lawful S.trust i j → P j s → E j s) :
    Proves S i P (throw e : Act α) A E :=
  triple_throw fun _ hw hp => ⟨hp.1, h _ _ (hw.lawful i) hp.2⟩

theorem proves_bind {p : Act α} {f : α → Act β} (hp : Proves S i P p A E)
    (hf : ∀ a, Proves S i (A a) (f a) B E) : Proves S i P (p >>= f) B E :=
  triple_bind hp hf

theorem proves_handle {p : Act α} {h : Exc → Act α} (hp : Proves S i P p A E)
    (hh : ∀ e, Proves S i E (h e) A E') : Proves S i P (tryCatch p h) A E' :=
  triple_handle hp hh

theorem proves_finally {p : Act α} {f : Act Unit} (hp : Proves S i P p A E)
    (hA : ∀ a, Proves S i (A a) f (fun _ => A a) E') (hE : Proves S i E f (fun _ => E') E') :
    Proves S i P (p.andFinally f) A E' :=
  triple_andFinally hp hA fun _ => hE

/-- A rule applies where more is known, and what it gives can be forgotten. -/
theorem proves_conseq {p : Act α} (h : Proves S i P p A E)
    (hP : ∀ j s, Lawful S.trust i j → P' j s → P j s)
    (hA : ∀ a j s, Lawful S.trust i j → A a j s → A' a j s)
    (hE : ∀ j s, Lawful S.trust i j → E j s → E' j s) : Proves S i P' p A' E' :=
  triple_conseq h (fun _ hw hp => ⟨hp.1, hP _ _ (hw.lawful i) hp.2⟩)
    (fun _ _ hw ha => ⟨ha.1, hA _ _ _ (hw.lawful i) ha.2⟩)
    (fun _ _ hw he => ⟨he.1, hE _ _ (hw.lawful i) he.2⟩)

theorem proves_weaken {p : Act α} (h : Proves S i P p A E)
    (hP : ∀ j s, Lawful S.trust i j → P' j s → P j s) : Proves S i P' p A E :=
  proves_conseq h hP (fun _ _ _ _ h => h) fun _ _ _ h => h

theorem proves_intro {φ : Prop} {p : Act α} (h : φ → Proves S i P p A E) :
    Proves S i (fun j s => φ ∧ P j s) p A E := by
  rintro w hw ⟨hne, hφ, hp⟩
  exact h hφ w hw ⟨hne, hp⟩

theorem proves_exists {γ : Type} {P : γ → Fact} {p : Act α}
    (h : ∀ c, Proves S i (P c) p A E) : Proves S i (fun j s => ∃ c, P c j s) p A E := by
  rintro w hw ⟨hne, c, hp⟩
  exact h c w hw ⟨hne, hp⟩

theorem proves_guard {c : Prop} [Decidable c] {e : Exc} {f : Unit → Act β} (hE : ∀ j s, P j s → E j s)
    (hf : ¬ c → Proves S i P (f ()) B E) : Proves S i P (raiseIf c e >>= f) B E := by
  unfold raiseIf
  split
  · exact proves_throw fun _ _ _ h => hE _ _ h
  · rename_i hc
    exact hf hc

theorem proves_onlyIf {c : Prop} [Decidable c] {p : Act Unit} {A : Fact}
    (hp : c → Proves S i P p (fun _ => A) E) (hn : ¬ c → ∀ j s, P j s → A j s) :
    Proves S i P (onlyIf c p) (fun _ => A) E := by
  unfold onlyIf
  split
  · rename_i hc
    exact hp hc
  · rename_i hc
    exact proves_pure fun _ _ _ h => hn hc _ _ h

/-- Facts that follow from what is known can be used as facts. -/
theorem proves_have {p : Act α} (φ : Prop) (hφ : ∀ j s, Lawful S.trust i j → P j s → φ)
    (h : φ → Proves S i P p A E) : Proves S i P p A E :=
  fun w hw hp => h (hφ _ _ (hw.lawful i) hp.2) w hw hp

end rules

end CapiSsh
