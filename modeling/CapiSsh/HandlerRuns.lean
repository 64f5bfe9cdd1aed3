import CapiSsh.Handlers

/-!
# Runs of handlers

What holds in every run, however its attempts overlap: the journals account for the store,
time moves forward between the calls of an attempt, and what an attempt does on its own is
what it does in the run. Where attempts of one Machine are serialized, a run of handlers is
a run of the cluster, so its journals are lawful.
-/
namespace CapiSsh

open Effect Interference

abbrev Crew (ι : Type) := Config ι Op Reply Exc (Except Exc (Option Binding)) (Site ι)

/-- Conditions on the calls of a run. -/
abbrev RunCondition (ι : Type) := ι → (op : Op) → Site ι → Except Exc (Reply op) → Site ι → Prop

variable {ι : Type} [DecidableEq ι] {S : Setting} {who : ι → MachineRef} {C : RunCondition ι} {T : Trust}

/-- The world that the next call of an attempt meets. -/
def Site.meets (s : Site ι) (who : ι → MachineRef) (k : ι) : World :=
  s.world.restage (who k) (s.attempts k).staged

theorem later_restage {w w' : World} {i : MachineRef} {p : Patch} (h : Later w w') : Later w (w'.restage i p) :=
  ⟨h.rev, h.log, h.hosts⟩

/-- Less trust allows more changes. -/
theorem change_trust {T T' : Trust} {w w' : World} {c : Change} (hc : T'.claims = true → T.claims = true)
    (hp : T'.phases = true → T.phases = true) (h : w.change T c = some w') : w.change T' c = some w' := by
  cases c with
  | createHost h' =>
    simp only [World.change] at h ⊢
    split at h
    · rename_i hf
      rw [if_pos ⟨hf.1, fun hT => hf.2 (hc hT)⟩]
      exact h
    · cases h
  | editHost key h' =>
    obtain ⟨old, hl, he⟩ := Option.bind_eq_some_iff.mp h
    refine Option.bind_eq_some_iff.mpr ⟨old, hl, ?_⟩
    split at he
    · rename_i hf
      rw [if_pos ⟨fun hT => hf.1 (hc hT), fun hT => hf.2 (hp hT)⟩]
      exact he
    · cases he
  | _ => exact h

structure Steady (T : Trust) (who : ι → MachineRef) (c : Crew ι) : Prop where
  accounted : Accounted T c.world.world
  known : ∀ k p, c.thread k = some p → journal (who k) c.world.world ≠ []
  later : ∀ k, Later (c.world.attempts k).seen c.world.world

theorem journal_ne_nil {i : MachineRef} {w w' : World} (hl : Later w w') (h : journal i w ≠ []) :
    journal i w' ≠ [] := by
  intro hn
  have := journal_suffix hl.log i
  rw [hn] at this
  exact h (List.suffix_nil.mp this)

theorem admitted_journal {i : MachineRef} {w : World} {a : Attempt} (h : a.admitted i w) : journal i w ≠ [] := by
  cases a with
  | delete => exact List.ne_nil_of_mem h
  | _ => exact h

theorem steady_step {c c' : Crew ι} (hc : T.claims = true → S.trust.claims = true)
    (hp : T.phases = true → S.trust.phases = true)
    (hsafe : T.claims = true → ∀ k op kont, c.thread k = some (.call op kont) →
      ClaimSafe (who k) (c.world.meets who k) op)
    (h : Steady T who c) (hs : Step (handlers S who) c c') : Steady T who c' := by
  have keep : ∀ {w' : World}, Later c.world.world w' →
      ∀ k p, c.thread k = some p → journal (who k) w' ≠ [] := fun hl k p hk => journal_ne_nil hl (h.known k p hk)
  cases hs with
  | env he =>
    obtain ⟨ch, w', hw, rfl⟩ := he
    have ho := change_outside h.accounted (change_trust hc hp hw)
    exact ⟨ho.accounted, keep ho.later, fun k => later_trans (h.later k) ho.later⟩
  | @start k p s' hn he =>
    obtain ⟨a, ha, rfl, rfl⟩ := he
    refine ⟨accounted_restage h.accounted, fun j p hj => ?_, fun j => ?_⟩
    · by_cases hjk : j = k
      · subst hjk
        exact admitted_journal ha
      · rw [set_other _ _ _ _ _ hjk] at hj
        exact h.known j p hj
    · rw [set_world, put_world]
      by_cases hjk : j = k
      · subst hjk
        rw [put_same]
        exact later_restage (later_refl _)
      · rw [put_other _ _ _ hjk]
        exact later_restage (h.later j)
  | @call k op kont r s' hk he =>
    obtain ⟨ch, w', ha, rfl⟩ := he
    have hw := answer_written ha
    have hl : Later c.world.world w' := later_trans (later_restage (later_refl _)) (written_later hw)
    refine ⟨?_, fun j p hj => ?_, fun j => ?_⟩
    · exact accounted_written (accounted_restage h.accounted) (h.known k _ hk) (fun hT => hsafe hT k op kont hk) hw
    · by_cases hjk : j = k
      · subst hjk
        exact keep hl j _ hk
      · rw [set_other _ _ _ _ _ hjk] at hj
        exact keep hl j p hj
    · rw [set_world, recorded_world]
      by_cases hjk : j = k
      · subst hjk
        rw [recorded_same]
        exact later_refl _
      · rw [recorded_other _ _ _ hjk]
        exact later_trans (h.later j) hl
  | @finish k p r s' hk hr he =>
    obtain rfl := he
    refine ⟨h.accounted, fun j p hj => ?_, h.later⟩
    by_cases hjk : j = k
    · subst hjk; rw [set_same] at hj; cases hj
    · rw [set_other _ _ _ _ _ hjk] at hj
      exact h.known j p hj
  | @crash k p s' hk he =>
    obtain rfl := he
    refine ⟨h.accounted, fun j p hj => ?_, h.later⟩
    by_cases hjk : j = k
    · subst hjk; rw [set_same] at hj; cases hj
    · rw [set_other _ _ _ _ _ hjk] at hj
      exact h.known j p hj

/-- Trust in nothing. -/
def noTrust : Trust := ⟨false, false, by simp⟩

omit [DecidableEq ι] in
theorem steady_empty (T : Trust) (who : ι → MachineRef) :
    Steady T who (idle (Site.empty ι) : Crew ι) :=
  ⟨accounted_empty, by rintro k p ⟨⟩, fun _ => later_refl _⟩

theorem reachable_steady {c : Crew ι} (h : Reachable (handlers S who) (idle (Site.empty ι)) c) :
    Steady noTrust who c := by
  induction h with
  | refl => exact steady_empty _ _
  | tail _ hs ih => exact steady_step (by rintro ⟨⟩) (by rintro ⟨⟩) (by rintro ⟨⟩) ih hs

/-- What every call of an attempt can rely on. -/
structure Basic (i : MachineRef) (l : Local) (e : Exchange) : Prop where
  later : Later l.seen e.before
  accounted : Accounted noTrust e.before
  known : journal i e.before ≠ []

theorem handlers_views {I : Crew ι → Prop} {Known : MachineRef → Local → Exchange → Prop}
    (hK : ∀ c k op kont r ch w', I c → c.thread k = some (.call op kont) →
      answer S.boots (who k) op ch (c.world.meets who k) = some (r, w') →
      C k op c.world r (c.world.record k (who k) ⟨op, r, c.world.meets who k, w'⟩) →
      Known (who k) (c.world.attempts k) ⟨op, r, c.world.meets who k, w'⟩) :
    Views ((handlers S who).limit C) (fun k => solo S Known (who k)) (fun k s => s.attempts k) I where
  env c s' _ h k := by
    obtain ⟨ch, w', -, rfl⟩ := h
    rfl
  start c k p s' _ h := by
    obtain ⟨a, ha, rfl, rfl⟩ := h
    exact ⟨⟨a, c.world.world, ha, rfl, put_same _ _ _ _⟩, fun j hj => put_other _ _ _ hj⟩
  exec c k op kont r s' hI hk h := by
    obtain ⟨⟨ch, w', ha, rfl⟩, hC⟩ := h
    refine ⟨⟨ch, _, w', restage_same _ _ _, ha, hK c k op kont r ch w' hI hk ha hC, recorded_same _ _ _ _⟩,
      fun j hj => recorded_other _ _ _ hj⟩
  leave c k r s' _ h j := by
    obtain rfl := h
    rfl

omit [DecidableEq ι] in
theorem basic_known {c : Crew ι} {k : ι} {op : Op} {kont : Except Exc (Reply op) → Act (Except Exc (Option Binding))}
    {r : Except Exc (Reply op)} {w' : World} (h : Steady noTrust who c) (hk : c.thread k = some (.call op kont)) :
    Basic (who k) (c.world.attempts k) ⟨op, r, c.world.meets who k, w'⟩ :=
  ⟨later_restage (h.later k), accounted_restage h.accounted, h.known k _ hk⟩

/-- What handlers keep to on their own they keep to in every run. -/
theorem handlers_followed {Known : MachineRef → Local → Exchange → Prop}
    {G : MachineRef → Attempt → Exchange → List Exchange → Prop}
    {Q : MachineRef → Except Exc (Except Exc (Option Binding)) → Local → Prop} {I : Crew ι → Prop}
    (hI : ∀ c, Reachable ((handlers S who).limit C) (idle (Site.empty ι)) c → I c)
    (hK : ∀ c k op kont r ch w', I c → c.thread k = some (.call op kont) →
      answer S.boots (who k) op ch (c.world.meets who k) = some (r, w') →
      C k op c.world r (c.world.record k (who k) ⟨op, r, c.world.meets who k, w'⟩) →
      Known (who k) (c.world.attempts k) ⟨op, r, c.world.meets who k, w'⟩)
    (hw : ∀ i (a : Attempt) w, a.admitted i w →
      wp (solo S Known i) (alone (Guarded (G i))) () (a.handled S.tools S.timeout i) (Q i) (.fresh a w))
    {c : Crew ι} (hc : Reachable ((handlers S who).limit C) (idle (Site.empty ι)) c) :
    Followed (fun k => solo S Known (who k)) (fun k (s : Site ι) => s.attempts k)
      (fun k => Guarded (G (who k))) (fun k => Q (who k)) c := by
  refine Views.reachable (handlers_views hK) ?_ hI (fun k => guarded_fresh) hc
  rintro k p l l' ⟨a, w, ha, rfl, rfl⟩
  exact ⟨guarded_fresh, hw (who k) a w ha⟩

/-- The same calls as an attempt of the cluster, and the same patch. -/
structure Mirrors (c : Crew MachineRef) (c' : Configuration) : Prop where
  world : c'.world = c.world.world
  staged : ∀ i, (c.world.attempts i).staged = c.world.world.staged i
  idle : ∀ i, c.thread i = none → c'.thread i = none
  busy : ∀ i p, c.thread i = some p → ∃ p', c'.thread i = some p' ∧ p.Same p'

theorem handled_same (tools : PayloadTools) (timeout : Time) (i : MachineRef) (a : Attempt) :
    (a.handled tools timeout i).Same (a.program tools timeout i) := by
  refine Prog.same_bind _ fun outcome => .call fun r => ?_
  cases outcome <;> cases r <;> exact .leaf (by rintro ⟨⟩) (by rintro ⟨⟩)

theorem written_staged {i j : MachineRef} {op : Op} {w w' : World} (h : Written i op w w') (hj : j ≠ i) :
    w'.staged j = w.staged j := by
  cases h with
  | staged f p => exact restage_other w p hj
  | _ => rfl

theorem restage_self (w : World) (i : MachineRef) : w.restage i (w.staged i) = w := by
  have : (fun j => if j = i then w.staged i else w.staged j) = w.staged := by
    funext j
    split
    · rename_i h; rw [h]
    · rfl
  rw [World.restage, this]

theorem mirrors_set {c : Crew MachineRef} {c' : Configuration} {i : MachineRef} {s : Site MachineRef}
    {p : Option (Act (Except Exc (Option Binding)))} {p' : Option (Act (Option Binding))} (h : Mirrors c c')
    (hs : ∀ i, (s.attempts i).staged = s.world.staged i) (hn : p = none → p' = none)
    (hp : ∀ q, p = some q → ∃ q', p' = some q' ∧ q.Same q') : Mirrors (c.set i p s) (c'.set i p' s.world) := by
  refine ⟨rfl, hs, fun j hj => ?_, fun j q hj => ?_⟩
  · by_cases hji : j = i
    · subst hji
      rw [set_same] at hj ⊢
      exact hn hj
    · rw [set_other _ _ _ _ _ hji] at hj ⊢
      exact h.idle j hj
  · by_cases hji : j = i
    · subst hji
      rw [set_same] at hj ⊢
      exact hp q hj
    · rw [set_other _ _ _ _ _ hji] at hj ⊢
      exact h.busy j q hj

/-- A serialized step is a step of the cluster. -/
theorem mirrors_step {c d : Crew MachineRef} {c' : Configuration} (hc : Steady noTrust id c) (h : Mirrors c c')
    (hs : Step (handlers S id) c d) : ∃ d', Step (cluster S) c' d' ∧ Mirrors d d' := by
  cases hs with
  | env he =>
    obtain ⟨ch, w', hw, rfl⟩ := he
    have ho := change_outside hc.accounted (change_trust (by rintro ⟨⟩) (by rintro ⟨⟩) hw)
    refine ⟨⟨w', c'.thread⟩, .env ⟨ch, by rw [h.world]; exact hw⟩, rfl, fun i => ?_, h.idle, h.busy⟩
    rw [h.staged i, ho.staged]
  | @start i p s' hn he =>
    obtain ⟨a, ha, rfl, rfl⟩ := he
    refine ⟨_, .start (h.idle i hn) ⟨a, by rw [h.world]; exact ha, rfl, rfl⟩, ?_⟩
    rw [h.world]
    refine mirrors_set h (fun j => ?_) (by rintro ⟨⟩) (by rintro q ⟨⟩; exact ⟨_, rfl, handled_same _ _ _ _⟩)
    rw [put_world]
    by_cases hj : j = i
    · subst hj
      rw [put_same, id, restage_same]
      rfl
    · rw [put_other _ _ _ hj, id, restage_other _ _ hj, h.staged j]
  | @call i op kont r s' hk he =>
    obtain ⟨ch, w', ha, rfl⟩ := he
    obtain ⟨p', hp', hsame⟩ := h.busy i _ hk
    cases hsame with
    | leaf hn _ => exact absurd rfl hn
    | @call _ _ kont' hr =>
      rw [id, h.staged i, restage_self] at ha
      refine ⟨_, .call hp' ⟨ch, by rw [h.world]; exact ha⟩, ?_⟩
      refine mirrors_set h (fun j => ?_) (by rintro ⟨⟩) (by rintro q ⟨⟩; exact ⟨_, rfl, hr r⟩)
      rw [recorded_world]
      by_cases hj : j = i
      · subst hj
        rw [recorded_same]
        rfl
      · rw [recorded_other _ _ _ hj, h.staged j, written_staged (answer_written ha) hj]
  | @finish i p r s' hk hr he =>
    obtain rfl := he
    obtain ⟨p', hp', hsame⟩ := h.busy i _ hk
    have hres : ∃ r', p'.result = some r' := by
      cases hsame with
      | leaf _ hn => exact Option.ne_none_iff_exists'.mp hn
      | call => cases hr
    obtain ⟨r', hr'⟩ := hres
    refine ⟨_, .finish hp' hr' rfl, ?_⟩
    rw [h.world]
    exact mirrors_set h h.staged (fun _ => rfl) (by rintro q ⟨⟩)
  | @crash i p s' hk he =>
    obtain rfl := he
    obtain ⟨p', hp', -⟩ := h.busy i _ hk
    refine ⟨_, .crash hp' rfl, ?_⟩
    rw [h.world]
    exact mirrors_set h h.staged (fun _ => rfl) (by rintro q ⟨⟩)

theorem serialized_reachable {c : Crew MachineRef}
    (h : Reachable (handlers S id) (idle (Site.empty MachineRef)) c) :
    ∃ c', Reachable (cluster S) (idle World.empty) c' ∧ Mirrors c c' := by
  induction h with
  | refl => exact ⟨_, .refl, rfl, fun _ => rfl, fun _ _ => rfl, by rintro i p ⟨⟩⟩
  | tail hr hs ih =>
    obtain ⟨c', hc', hm⟩ := ih
    obtain ⟨d', hd, hm'⟩ := mirrors_step (reachable_steady hr) hm hs
    exact ⟨d', hc'.tail hd, hm'⟩

/-- So its journals are lawful. -/
theorem serialized_consistent {c : Crew MachineRef}
    (h : Reachable (handlers S id) (idle (Site.empty MachineRef)) c) : Consistent S.trust c.world.world := by
  obtain ⟨c', hc', hm⟩ := serialized_reachable h
  rw [← hm.world]
  exact (reachable_sound hc').1

end CapiSsh
