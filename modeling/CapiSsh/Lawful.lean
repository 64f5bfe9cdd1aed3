import CapiSsh.Journal

/-!
# Guarantees of a lawful journal

Each guarantee is an induction on the journal: what one lawful event preserves, and from
it what holds of every journal that lawful events have built.
-/
namespace CapiSsh

variable {T : Trust} {i : MachineRef} {j : Journal} {e : Event}

theorem lawful_tail (h : Lawful T i (e :: j)) : Lawful T i j := by
  cases h with
  | cons h _ => exact h

theorem lawful_head (h : Lawful T i (e :: j)) : Law T i j e := by
  cases h with
  | cons _ h => exact h

theorem lawful_suffix {j₁ j₂ : Journal} (h : Lawful T i (j₁ ++ j₂)) : Lawful T i j₂ := by
  induction j₁ with
  | nil => exact h
  | cons e j₁ ih => exact ih (lawful_tail h)

def identityOf (j : Journal) : Option Identity := (statusOf j).allocation.map Binding.identity

theorem identityOf_step {d : Identity} (h : Law T i j e) (hd : identityOf j = some d) :
    identityOf (e :: j) = some d := by
  cases e with
  | status p =>
    simp only [identityOf, statusOf, StatusPatch.apply, Option.map_eq_some_iff] at hd ⊢
    obtain ⟨old, ho, rfl⟩ := hd
    cases hp : p.allocation with
    | none => exact ⟨old, by simp [mergeKey, ho], rfl⟩
    | some b =>
      have hb := (h.allocation b hp).2.2
      rw [ho] at hb
      exact ⟨old.merge b, by simp [mergeKey, ho], binding_merge_same old b hb⟩
  | _ => exact hd

theorem identityOf_suffix {j₁ j₂ : Journal} {d : Identity} (h : Lawful T i (j₁ ++ j₂))
    (hd : identityOf j₂ = some d) : identityOf (j₁ ++ j₂) = some d := by
  induction j₁ with
  | nil => exact hd
  | cons e j₁ ih => exact identityOf_step (lawful_head h) (ih (lawful_tail h))

/-- An allocation is the Machine's own, and only one with a host has a host's UID. -/
theorem allocation_formed (h : Lawful T i j) : ∀ b, (statusOf j).allocation = some b →
    b.machineUID = i.uid ∧ (b.hostRef = none → b.hostUID = none) := by
  induction h with
  | nil => intro b hb; cases hb
  | @cons j e _ he ih =>
    cases e with
    | status p =>
      intro b hb
      simp only [statusOf, StatusPatch.apply] at hb
      cases hp : p.allocation with
      | none => rw [hp] at hb; exact ih b hb
      | some b' =>
        obtain ⟨hu, hr, hsame⟩ := he.allocation b' hp
        rw [hp] at hb
        cases ho : (statusOf j).allocation with
        | none => rw [ho] at hb; cases hb; exact ⟨hu, hr⟩
        | some old =>
          rw [ho] at hb hsame
          cases hb
          have hid := (binding_merge_same old b' hsame).trans hsame.symm
          simp only [Binding.identity, Identity.mk.injEq] at hid
          obtain ⟨h₁, -, -, h₄, h₅⟩ := hid
          exact ⟨hu, fun h => by rw [id, h₄]; exact hr (h₅.symm.trans h)⟩
    | _ => exact ih

/-- Ownership is taken from the allocation. -/
theorem ownership_identity (h : Lawful T i j) :
    ∀ o, (statusOf j).bootstrapOwnership = some o → identityOf j = some o.identity := by
  induction h with
  | nil => intro o ho; cases ho
  | @cons j e _ he ih =>
    cases e with
    | status p =>
      intro o ho
      have hkeep : ∀ d, identityOf j = some d → identityOf (.status p :: j) = some d :=
        fun d => identityOf_step he
      simp only [statusOf, StatusPatch.apply] at ho
      cases hp : p.bootstrapOwnership with
      | none =>
        rw [hp] at ho
        exact hkeep _ (ih o ho)
      | some o' =>
        obtain ⟨⟨b, hb, hi⟩, -⟩ := he.ownership o' hp
        have hd : identityOf j = some o'.identity := by rw [identityOf, hb, hi]; rfl
        rw [hp] at ho
        cases hold : (statusOf j).bootstrapOwnership with
        | none => rw [hold] at ho; cases ho; exact hkeep _ hd
        | some old =>
          rw [hold] at ho
          cases ho
          have hsame : o'.identity = old.identity := by
            have := ih old hold
            rw [hd] at this
            exact Option.some.inj this
          change _ = some (old.toBinding.merge o'.toBinding).identity
          rw [binding_merge_same _ _ hsame, ← hsame]
          exact hkeep _ hd
    | _ => exact ih

theorem started_cons : started (e :: j) ↔ e.startsCleanup = true ∨ started j := by
  cases e <;> simp [started, Event.startsCleanup]

theorem started_of_cleanup (h : (statusOf j).cleanup ≠ none) : started j := by
  induction j with
  | nil => exact absurd rfl h
  | cons e j ih =>
    cases e with
    | status p =>
      cases hp : p.cleanup with
      | none => exact started_cons.mpr (.inr (ih (by simpa [statusOf, StatusPatch.apply, hp] using h)))
      | some c => exact started_cons.mpr (.inl (by simp [Event.startsCleanup, hp]))
    | _ => exact started_cons.mpr (.inr (ih h))

theorem owned_step (h : owned j) : owned (e :: j) := by
  cases e with
  | status p =>
    unfold owned at h ⊢
    simp only [statusOf, StatusPatch.apply]
    cases p.bootstrapOwnership <;> simp [mergeKey, h]
  | _ => exact h

/-- A receipt of success is never replaced. -/
theorem succeeded_step (h : Law T i j e) (hs : (statusOf j).cleanup = some .succeeded) :
    (statusOf (e :: j)).cleanup = some .succeeded := by
  cases e with
  | status p =>
    simp only [statusOf, StatusPatch.apply]
    cases hp : p.cleanup with
    | none => simpa using hs
    | some c =>
      obtain ⟨-, hc⟩ := h.cleanup c hp
      by_cases hcs : c = .succeeded
      · simp [hcs]
      · rw [if_neg hcs] at hc
        exact absurd hs hc.1
  | _ => exact hs

theorem cleaned_step (h : cleaned j) : cleaned (e :: j) := by
  obtain ⟨j₁, p, j₂, rfl, hp, hr⟩ := h
  exact ⟨e :: j₁, p, j₂, rfl, hp, hr⟩

/-- An owned Machine with a receipt has been reset. -/
theorem cleaned_of_succeeded (h : Lawful T i j) :
    owned j → (statusOf j).cleanup = some .succeeded → cleaned j := by
  induction h with
  | nil => intro ho; cases ho
  | @cons j e hj he ih =>
    cases e with
    | status p =>
      intro ho hs
      by_cases hoj : owned j
      · cases hp : p.cleanup with
        | none => exact cleaned_step (ih hoj (by simpa [statusOf, StatusPatch.apply, hp] using hs))
        | some c =>
          have hc : c = .succeeded := by simpa [statusOf, StatusPatch.apply, hp] using hs
          subst hc
          obtain ⟨-, hc⟩ := he.cleanup _ hp
          rcases hc hoj with h | h
          · exact cleaned_step (ih hoj h)
          · exact ⟨[], p, j, rfl, hp, h⟩
      · -- ownership is new, so no cleanup has begun
        cases hp : p.bootstrapOwnership with
        | none => exact absurd (by simpa [owned, statusOf, StatusPatch.apply, hp, mergeKey] using ho) hoj
        | some o =>
          obtain ⟨-, h | ⟨hns, hnc⟩⟩ := he.ownership o hp
          · exact absurd h hoj
          · have hc : (statusOf j).cleanup = some .succeeded := by
              simpa [statusOf, StatusPatch.apply, hnc] using hs
            exact absurd (started_of_cleanup (by simp [hc])) hns
    | _ => exact fun ho hs => cleaned_step (ih ho hs)

/-- Every cleanup that has begun is one of a Machine marked for deletion. -/
theorem marked_of_started (h : Lawful T i j) : started j → Event.marked ∈ j := by
  induction h with
  | nil => intro hs; cases hs
  | @cons j e _ he ih =>
    intro hs
    refine List.mem_cons_of_mem _ ?_
    rcases started_cons.mp hs with hs | hs
    · cases e with
      | status p =>
        obtain ⟨c, hc⟩ := Option.isSome_iff_exists.mp hs
        exact (he.cleanup c hc).1
      | phase x ref old new => exact (he.1 (by simpa [Event.startsCleanup] using hs)).1
      | reset t o => exact he.2.1
      | _ => cases hs
    · exact ih hs

/-- What the journal of a Machine says about its hosts while their cleanup is due. -/
theorem held_of_live (hT : T.claims = true) (h : Lawful T i j) :
    (statusOf j).cleanup ≠ some .succeeded → ∀ b x, (statusOf j).allocation = some b → b.hostUID = some x →
      (heldOf x j).isSome := by
  induction h with
  | nil => intro _ b x hb; cases hb
  | @cons j e hj he ih =>
    intro hs b x hb hx
    have hs' : (statusOf j).cleanup ≠ some .succeeded := fun h => hs (succeeded_step he h)
    cases e with
    | status p =>
      change (heldOf x j).isSome
      cases hold : (statusOf j).allocation with
      | some old =>
        have hd : identityOf (.status p :: j) = some old.identity :=
          identityOf_step he (by simp [identityOf, hold])
        rw [identityOf, hb, Option.map_some, Option.some.injEq] at hd
        have hu : b.hostUID = old.hostUID := congrArg Identity.hostUID hd
        exact ih hs' old x hold (by rw [← hu, hx])
      | none =>
        have hp : p.allocation = some b := by
          simp only [statusOf, StatusPatch.apply, hold] at hb
          cases hp : p.allocation with
          | none => simp [hp, mergeKey] at hb
          | some b' => simpa [hp, mergeKey] using hb
        have hlaw := (he.allocation b hp).2.2
        rw [hold] at hlaw
        exact hlaw hT x hx
    | claim y ref p =>
      change (if y = x then some p else heldOf x j).isSome
      split
      · rfl
      · exact ih hs' b x hb hx
    | phase y ref old new =>
      change (if y = x then (heldOf x j).map fun _ => some new else heldOf x j).isSome
      have hh := ih hs' b x hb hx
      split
      · simpa using hh
      · exact hh
    | unclaim y ref => exact absurd he.1 hs'
    | _ => exact ih hs' b x hb hx

/-- A write to the phase of the host that the allocation names leaves it closed. -/
theorem confined_phase {y : Uid} {ref : Option ConsumerRef} {old : Option HostPhase} {new : HostPhase}
    (hT : T.claims = true) (hP : T.phases = true) (he : Law T i j (.phase y ref old new))
    (hs : (statusOf j).cleanup ≠ some .succeeded) (hst : started (.phase y ref old new :: j))
    (ih : started j → confined j) : confined (.phase y ref old new :: j) := by
  intro b x hb hx
  obtain ⟨hclean, havail, hclaim⟩ := he
  obtain ⟨-, p, hp, hlaw⟩ := hclaim hT
  obtain ⟨rfl, hcl⟩ := hlaw hP
  change ∃ q, (if y = x then (heldOf x j).map fun _ => some new else heldOf x j) = some q ∧ unclean q = true
  by_cases hj : started j
  · obtain ⟨q, hq, hun⟩ := ih hj b x hb hx
    by_cases hyx : y = x
    · subst hyx
      rw [if_pos rfl, hp]
      obtain rfl : p = q := Option.some.inj (hp.symm.trans hq)
      cases new with
      | available => exact absurd (havail rfl) hs
      | claimed => rw [hcl rfl] at hun; cases hun
      | cleaning => exact ⟨_, rfl, rfl⟩
      | quarantined => exact ⟨_, rfl, rfl⟩
    · rw [if_neg hyx]
      exact ⟨q, hq, hun⟩
  · obtain hnew | h := started_cons.mp hst
    · obtain rfl : new = .cleaning := by simpa [Event.startsCleanup] using hnew
      obtain ⟨-, b', hb', hy⟩ := hclean rfl
      have hb : (statusOf j).allocation = some b := hb
      obtain rfl : b' = b := Option.some.inj (hb'.symm.trans hb)
      obtain rfl : y = x := Option.some.inj (hy.symm.trans hx)
      rw [if_pos rfl, hp]
      exact ⟨_, rfl, rfl⟩
    · exact absurd h hj

theorem confined_status {p : StatusPatch} (he : Law T i j (.status p)) (hd : owned j → (identityOf j).isSome)
    (hP : T.phases = true) (ho : owned (.status p :: j)) (hst : started (.status p :: j))
    (hs : (statusOf (.status p :: j)).cleanup ≠ some .succeeded)
    (ih : owned j → started j → confined j) : confined (.status p :: j) := by
  have hoj : owned j := by
    refine Classical.byContradiction fun hno => ?_
    cases hp : p.bootstrapOwnership with
    | none => exact hno (by simpa [owned, statusOf, StatusPatch.apply, hp, mergeKey] using ho)
    | some o =>
      obtain ⟨-, h | ⟨hns, hnc⟩⟩ := he.ownership o hp
      · exact hno h
      · rcases started_cons.mp hst with h | h
        · simp [Event.startsCleanup, hnc] at h
        · exact hns h
  have hconf : confined j := by
    rcases started_cons.mp hst with h | h
    · obtain ⟨c, hc⟩ := Option.isSome_iff_exists.mp h
      have hcs : c ≠ .succeeded := by
        rintro rfl
        exact hs (by simp [statusOf, StatusPatch.apply, hc])
      have hlaw := (he.cleanup c hc).2
      rw [if_neg hcs] at hlaw
      exact hlaw.2 hP
    · exact ih hoj h
  intro b x hb hx
  obtain ⟨d, hj⟩ := Option.isSome_iff_exists.mp (hd hoj)
  have hd' := identityOf_step he hj
  simp only [identityOf, hb, Option.map_some, Option.some.injEq] at hd'
  simp only [identityOf, Option.map_eq_some_iff] at hj
  obtain ⟨old, hold, hi⟩ := hj
  have hu : b.hostUID = old.hostUID := congrArg Identity.hostUID (hd'.trans hi.symm)
  exact hconf old x hold (by rw [← hu, hx])

/-- From the first effect of a cleanup to its receipt, the host stays closed. -/
theorem confined_of_started (hT : T.claims = true) (hP : T.phases = true) (h : Lawful T i j) :
    owned j → started j → (statusOf j).cleanup ≠ some .succeeded → confined j := by
  induction h with
  | nil => intro ho; cases ho
  | @cons j e hj he ih =>
    intro ho hst hs
    have hs' : (statusOf j).cleanup ≠ some .succeeded := fun h => hs (succeeded_step he h)
    have later : e.startsCleanup = false → started j := fun hn => by
      rcases started_cons.mp hst with h | h
      · rw [hn] at h; cases h
      · exact h
    cases e with
    | status p =>
      have hd : owned j → (identityOf j).isSome := fun h => by
        obtain ⟨o, ho⟩ := Option.isSome_iff_exists.mp h
        rw [ownership_identity hj o ho]; rfl
      exact confined_status he hd hP ho hst hs fun ho hst => ih ho hst hs'
    | claim y ref p =>
      intro b x hb hx
      obtain ⟨q, hq, hun⟩ := ih ho (later rfl) hs' b x hb hx
      have hyx : y ≠ x := by
        rintro rfl
        rw [(he hT).2] at hq; cases hq
      exact ⟨q, by simpa [heldOf, hyx] using hq, hun⟩
    | phase y ref old new => exact confined_phase hT hP he hs' hst fun h => ih ho h hs'
    | unclaim y ref => exact absurd he.1 hs'
    | reset t o => exact he.2.2.2 hP
    | _ => exact ih ho (later rfl) hs'

theorem record_status (p : StatusPatch) : record (.status p :: j) = match p.reboot with
    | none => record j
    | some s => (record j).merge s := by
  simp only [record, statusOf, StatusPatch.apply]
  cases p.reboot with
  | none => rfl
  | some s => cases (statusOf j).reboot <;> rfl

theorem updates_request {s : RebootState} (h : Updates j s) :
    ((record j).merge s).lastRequestedAt = (record j).lastRequestedAt := by
  simp [Reboot.merge, h.request]

theorem updates_previous {s : RebootState} (h : Updates j s) :
    ((record j).merge s).previousBootID = (record j).previousBootID := by
  simp [Reboot.merge, h.previous]

/-- A record without a phase is of no request. -/
theorem record_idle (h : Lawful T i j) (hn : (record j).phase = none) : (record j).lastRequestedAt = none := by
  induction h with
  | nil => rfl
  | @cons j e _ he ih =>
    cases e with
    | status p =>
      rw [record_status] at hn ⊢
      cases hp : p.reboot with
      | none => rw [hp] at hn; exact ih hn
      | some s =>
        rw [hp] at hn
        have hs : s.phase = none := (Option.or_eq_none_iff.mp hn).1
        rcases he.reboot s hp with hu | hp
        · rcases hu.outcome with ⟨-, h⟩ | ⟨h, -⟩ | ⟨h, -⟩ <;> rw [hs] at h <;> cases h
        · rw [hp.phase] at hs; cases hs
    | _ => exact ih hn

/-- A request that was served since it was written is the one on record. -/
theorem record_of_sent (h : Lawful T i j) : ∀ q ∈ sentOf j, q = requestOf j → (record j).lastRequestedAt = q := by
  induction h with
  | nil => intro q hq; cases hq
  | @cons j e _ he ih =>
    intro q hq hr
    cases e with
    | requested v => cases hq
    | status p =>
      rw [record_status]
      cases hp : p.reboot with
      | none => exact ih q hq hr
      | some s =>
        rcases he.reboot s hp with hu | hn
        · exact (updates_request hu).trans (ih q hq hr)
        · obtain ⟨r, -, hf⟩ := hn.request
          obtain ⟨hcur, hne⟩ := hf q hq
          exact absurd (hr.trans hcur.symm) hne
    | reboot t a o =>
      rcases List.mem_cons.mp hq with rfl | hq
      · rfl
      · exact ih q hq hr
    | _ => exact ih q hq hr

/-- While the request keeps its value, one command is sent for it, and before that at most
one more, by an attempt that had read another value. -/
theorem sentOf_shape (h : Lawful T i j) : sentOf j = [] ∨ (∃ q, sentOf j = [q]) ∨
    ∃ q, q ≠ requestOf j ∧ sentOf j = [requestOf j, q] := by
  induction h with
  | nil => exact .inl rfl
  | @cons j e _ he ih =>
    cases e with
    | requested v => exact .inl rfl
    | reboot t a o =>
      obtain ⟨-, -, ⟨r, hr, hf⟩, -⟩ := he
      change (record j).lastRequestedAt :: sentOf j = [] ∨
        (∃ q, (record j).lastRequestedAt :: sentOf j = [q]) ∨
        ∃ q, q ≠ requestOf j ∧ (record j).lastRequestedAt :: sentOf j = [requestOf j, q]
      rw [hr]
      rcases ih with h | ⟨q, h⟩ | ⟨q, -, h⟩
      · exact .inr (.inl ⟨some r, by rw [h]⟩)
      · obtain ⟨hcur, hne⟩ := hf q (by simp [h])
        exact .inr (.inr ⟨q, by rw [← hcur]; exact hne, by rw [h, hcur]⟩)
      · obtain ⟨hcur, hne⟩ := hf (requestOf j) (by simp [h])
        exact absurd hcur.symm hne
    | _ => exact ih

/-- What was observed since the preparation was observed on the owned host. -/
theorem observed_owned (h : Lawful T i j) {t : Target} {b : String} : (t, b) ∈ observedOf j → owns j t := by
  induction h with
  | nil => intro hb; cases hb
  | @cons j e hj he ih =>
    intro hb
    have later : owns j t → owns (e :: j) t := by
      rintro ⟨o, ho, rfl⟩
      obtain ⟨o', ho'⟩ := Option.isSome_iff_exists.mp (owned_step (e := e) (j := j) (by simp [owned, ho]))
      refine ⟨o', ho', ?_⟩
      have hd := identityOf_step he (ownership_identity hj o ho)
      rw [ownership_identity (.cons hj he) o' ho', Option.some.injEq] at hd
      simp only [Binding.identity, Identity.mk.injEq] at hd
      simp only [Binding.target, hd.2.1, hd.2.2.1]
    refine later ?_
    cases e with
    | observed t' b' =>
      rcases List.mem_cons.mp hb with h | h
      · cases h; exact he
      · exact ih h
    | status p =>
      simp only [observedOf] at hb
      split at hb
      · cases hb
      · exact ih hb
    | _ => exact ih hb

/-- Success is recorded for the request on record, and of a boot that is not the one
persisted with it. -/
theorem succeeded_observed {p : StatusPatch} {s : RebootState} (h : Lawful T i j) (he : Law T i j (.status p))
    (hp : p.reboot = some s) (hs : s.phase = some .succeeded) :
    s.lastRequestedAt = (record j).lastRequestedAt ∧
      ∃ t b, owns j t ∧ (t, b) ∈ observedOf j ∧ (record j).previousBootID ≠ some b := by
  rcases he.reboot s hp with hu | hn
  · rcases hu.outcome with ⟨-, hpend⟩ | ⟨-, -, t, b, hb, hne⟩ | ⟨hf, -⟩
    · rw [hs] at hpend; cases hpend
    · exact ⟨hu.request, t, b, observed_owned h hb, hb, hne⟩
    · rw [hs] at hf; cases hf
  · rw [hn.phase] at hs; cases hs

/-- An execution that ends with any status but zero leaves no accepted reboot behind. -/
def conclusive : Journal → Bool
  | [] => true
  | .reboot t a o :: j => (!o.isError || (unresolvedOf (.reboot t a o :: j)).isEmpty) && conclusive j
  | _ :: j => conclusive j

theorem conclusive_tail (h : conclusive (e :: j) = true) : conclusive j = true := by
  cases e with
  | reboot t a o => exact (Bool.and_eq_true_iff.mp h).2
  | _ => exact h

theorem conclusive_suffix {j₁ j₂ : Journal} (h : conclusive (j₁ ++ j₂) = true) : conclusive j₂ = true := by
  induction j₁ with
  | nil => exact h
  | cons e j₁ ih => exact ih (conclusive_tail h)

/-- After an observation, only that boot can still have an accepted command. -/
theorem unresolved_seen : ∀ {j : Journal} {b : String}, seenOf j = some b → ∀ a ∈ unresolvedOf j, a = b
  | [], _, h, _, _ => by cases h
  | e :: j, b, h, a, ha => by
    cases e with
    | observed t b' =>
      obtain rfl : b' = b := Option.some.inj h
      simpa using (List.mem_filter.mp ha).2
    | reboot t a' o => cases h
    | _ => exact unresolved_seen (j := j) h a ha

/-- A refused command leaves nothing to resolve, itself included. -/
theorem refused : ∀ {j : Journal} {a : Option String} {o : RunOutcome}, conclusive j = true →
    lastRunOf j = some (a, o) → o.isError = true → unresolvedOf j = [] ∧ a = none
  | [], _, _, _, h, _ => by cases h
  | e :: j, a, o, hj, h, ho => by
    have ih := refused (j := j) (a := a) (o := o) (conclusive_tail hj)
    cases e with
    | reboot t a' o' =>
      cases h
      have hnil : unresolvedOf (.reboot t a o :: j) = [] := by
        have := (Bool.and_eq_true_iff.mp hj).1
        simpa [ho] using this
      cases a with
      | none => exact ⟨hnil, rfl⟩
      | some b => cases hnil
    | observed t b =>
      obtain ⟨hnil, ha⟩ := ih h ho
      exact ⟨by simp [unresolvedOf, hnil], ha⟩
    | status p =>
      simp only [lastRunOf] at h
      split at h
      · cases h
      · exact ih h ho
    | _ => exact ih h ho

/-- The record waits for every boot that an accepted command can still end. -/
theorem unresolved_pending (h : Lawful T i j) : conclusive j = true → ∀ b ∈ unresolvedOf j,
    (record j).pending = true ∧ (record j).previousBootID = some b := by
  induction h with
  | nil => intro _ b hb; cases hb
  | @cons j e _ he ih =>
    intro hc b hb
    have ih := ih (conclusive_tail hc)
    cases e with
    | status p =>
      have hb : b ∈ unresolvedOf j := hb
      rw [record_status]
      cases hp : p.reboot with
      | none => exact ih b hb
      | some s =>
        obtain ⟨hpend, hprev⟩ := ih b hb
        rcases he.reboot s hp with hu | hn
        · rcases hu.outcome with ⟨-, hs⟩ | ⟨-, hseen, -⟩ | ⟨-, a, o, hl, ho⟩
          · refine ⟨?_, (updates_previous hu).trans hprev⟩
            obtain ⟨q, hq, hqp⟩ := Option.map_eq_some_iff.mp hs
            simp [Reboot.pending, Reboot.merge, hq, hqp]
          · rcases hseen with hdone | ⟨b', hseen, hne⟩
            · rw [Reboot.pending, hdone] at hpend; cases hpend
            · obtain rfl := unresolved_seen hseen b hb
              exact absurd hprev hne
          · rw [(refused (conclusive_tail hc) hl ho).1] at hb; cases hb
        · obtain ⟨b', hb', hseen⟩ := hn.previous
          obtain rfl := unresolved_seen hseen b hb
          exact ⟨by simp [Reboot.pending, Reboot.merge, hn.phase, RebootPhase.pending],
            by simp [Reboot.merge, hb']⟩
    | reboot t a o =>
      obtain ⟨-, hph, -, hacc⟩ := he
      have hpend : (record j).pending = true := by rw [Reboot.pending, hph]; rfl
      cases a with
      | none => exact ih b hb
      | some b' =>
        rcases List.mem_cons.mp hb with rfl | hb
        · exact ⟨hpend, hacc b rfl⟩
        · exact ih b hb
    | observed t b' => exact ih b (List.mem_filter.mp hb).1
    | _ => exact ih b hb

/-- A failure is recorded of a command that the host did not start. -/
theorem failed_refused {p : StatusPatch} {s : RebootState} (hc : conclusive j = true) (he : Law T i j (.status p))
    (hp : p.reboot = some s) (hs : s.phase = some .failed) : ∃ o, lastRunOf j = some (none, o) := by
  rcases he.reboot s hp with hu | hn
  · rcases hu.outcome with ⟨-, hpend⟩ | ⟨hf, -⟩ | ⟨-, a, o, hl, ho⟩
    · rw [hs] at hpend; cases hpend
    · rw [hs] at hf; cases hf
    · obtain ⟨-, rfl⟩ := refused hc hl ho
      exact ⟨o, hl⟩
  · rw [hn.phase] at hs; cases hs

theorem reset_resolved {t : Target} {o : RunOutcome} (h : Lawful T i j) (hc : conclusive j = true)
    (he : Law T i j (.reset t o)) : unresolvedOf j = [] := by
  refine List.eq_nil_iff_forall_not_mem.mpr fun b hb => ?_
  have hpend := (unresolved_pending h hc b hb).1
  rw [he.2.2.1] at hpend
  cases hpend

end CapiSsh
