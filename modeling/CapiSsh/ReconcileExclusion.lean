import CapiSsh.DistributedLock
import CapiSsh.JobReceipts

/-!
# One handler at a time works on an SSHMachine

Tasks of one process exclude each other by its lock, and so at most one of them writes the
annotation. Tasks of two processes exclude each other by the annotation: while a grant has
not run out, its object names its process.
-/
namespace CapiSsh.ReconcileLocks

open Effect Interference VersionedCell

variable {ι : Type} [DecidableEq ι] {S : LockSettings} {who : ι → Replica} {w w' : Fleet ι} {i : ι} {key : ObjectKey}

/-- A grant that has not run out. -/
def Grant.Live (g : Grant) (clock : Nat) : Prop := (clock : Int) < g.expires

def Grant.Same (g g' : Grant) : Prop := g'.key = g.key ∧ g'.born = g.born

/-- An acquire finds no annotation that it can read, its own, or one that has run out at its
reading of the clock; a release finds its own. -/
inductive LockWrite.Due (S : LockSettings) (clock : Nat) : LockWrite → Prop where
  | acquired (X : Replica) (nowEpoch : Nat) (before : Option (List Char)) (text : List Char) : nowEpoch ≤ clock →
      heldByOther S.numerals X before nowEpoch = false →
      distributedReconcileLockValue X.holder (nowEpoch + S.seconds) = some text → Due S clock ⟨X, before, some text⟩
  | released (X : Replica) (before : Option (List Char)) (expires : Int) :
      parseDistributedReconcileLockValue S.numerals before = some (X.holder, expires) → Due S clock ⟨X, before, none⟩

/-- The task has a grant for the object it works on, and nobody else has one as long as that
has not run out. -/
def SectionStep.Exclusive (s : SectionStep ι) : Prop :=
  ∃ g, s.granted s.task = some g ∧ g.key = s.key ∧
    ∀ j g', j ≠ s.task → s.granted j = some g' → g.Same g' → g.Live s.clock → ¬ g'.Live s.clock

omit [DecidableEq ι] in
structure Coherent (S : LockSettings) (who : ι → Replica) (w : Fleet ι) : Prop where
  wellFormed : ∀ key, (w.cells key).WellFormed
  born : ∀ key v o, (w.cells key).stored = some (v, o) → o.born < (w.cells key).next
  sane : ∀ X, (w.process X).Sane
  inside : ∀ i g, w.granted i = some g → ∃ id, (w.process (who i)).stage i = .inside (lockKeyOf g.key) id
  known : ∀ i g, w.granted i = some g → g.born < (w.cells g.key).next
  named : ∀ i g v o, w.granted i = some g → g.Live w.clock → (w.cells g.key).stored = some (v, o) → o.born = g.born →
    parseDistributedReconcileLockValue S.numerals o.lock = some ((who i).holder, g.expires)
  sole : ∀ i j g g', w.granted i = some g → w.granted j = some g' → g.Same g' → g.Live w.clock → g'.Live w.clock → i = j
  steps : S.enabled = true → ∀ s ∈ w.steps, s.Exclusive
  due : ∀ e ∈ w.log, e.Due S w.clock

omit [DecidableEq ι] in
theorem coherent_new (S : LockSettings) (who : ι → Replica) (objects : ObjectKey → Option (Option (List Char)))
    (clock : Nat) : Coherent S who (Fleet.new ι objects clock) := by
  have hstored : ∀ key v o, ((Fleet.new ι objects clock).cells key).stored = some (v, o) → v = 0 ∧ o.born = 0 := by
    intro key v o h
    obtain ⟨lock, -, hl⟩ := Option.map_eq_some_iff.mp h
    cases hl
    exact ⟨rfl, rfl⟩
  constructor
  · intro key v o h
    rw [(hstored key v o h).1]
    exact Nat.zero_lt_one
  · intro key v o h
    rw [(hstored key v o h).2]
    exact Nat.zero_lt_one
  · exact fun _ => Process.sane_new
  · simp [Fleet.new]
  · simp [Fleet.new]
  · simp [Fleet.new]
  · simp [Fleet.new]
  · simp [Fleet.new]
  · simp [Fleet.new]

theorem due_mono {clock clock' : Nat} {e : LockWrite} (h : e.Due S clock) (hc : clock ≤ clock') : e.Due S clock' := by
  cases h with
  | acquired X t before text ht hb hv => exact .acquired X t before text (Nat.le_trans ht hc) hb hv
  | released X before expires hp => exact .released X before expires hp

theorem Grant.Live.earlier {g : Grant} {clock n : Nat} (h : g.Live (clock + n)) : g.Live clock := by
  rw [Grant.Live] at h ⊢
  omega

omit [DecidableEq ι] in
theorem coherent_time (h : Coherent S who w) (n : Nat) : Coherent S who { w with clock := w.clock + n } :=
  ⟨h.wellFormed, h.born, h.sane, h.inside, h.known, fun i g v o hg hl => h.named i g v o hg hl.earlier,
    fun i j g g' hg hg' hs hl hl' => h.sole i j g g' hg hg' hs hl.earlier hl'.earlier, h.steps,
    fun e he => due_mono (h.due e he) (Nat.le_add_right _ n)⟩

omit [DecidableEq ι] in
/-- A process whose tasks with a grant stay where they are. -/
theorem coherent_process (h : Coherent S who w) {X : Replica} {p : Process ι} (hp : p.Sane)
    (hs : ∀ i g, who i = X → w.granted i = some g → p.stage i = (w.process X).stage i) :
    Coherent S who (w.setProcess X p) := by
  refine ⟨h.wellFormed, h.born, ?_, ?_, h.known, h.named, h.sole, h.steps, h.due⟩
  · intro Y
    simp only [Fleet.setProcess]
    split
    · exact hp
    · exact h.sane Y
  · intro i g hg
    obtain ⟨id, hi⟩ := h.inside i g hg
    refine ⟨id, ?_⟩
    simp only [Fleet.setProcess]
    split
    · next hX => rw [hs i g hX hg, ← hX, hi]
    · exact hi

omit [DecidableEq ι] in
/-- A write of somebody else leaves the annotation of the object as it was, or makes another
object. -/
theorem coherent_cell (h : Coherent S who w) {c : Cell MachineObject} (hc : c.WellFormed)
    (hb : ∀ v o, c.stored = some (v, o) → o.born < c.next) (hn : (w.cells key).next ≤ c.next)
    (hsame : ∀ v o, c.stored = some (v, o) → (∃ v', (w.cells key).stored = some (v', o)) ∨ (w.cells key).next ≤ o.born) :
    Coherent S who (w.setCell key c) := by
  have hcells : ∀ k, (w.setCell key c).cells k = if k = key then c else w.cells k := fun _ => rfl
  refine ⟨?_, ?_, h.sane, h.inside, ?_, ?_, h.sole, h.steps, h.due⟩
  · intro k
    rw [hcells]
    split
    · exact hc
    · exact h.wellFormed k
  · intro k v o hs
    rw [hcells] at hs ⊢
    split at hs
    · next hk =>
      rw [if_pos hk]
      exact hb v o hs
    · next hk =>
      rw [if_neg hk]
      exact h.born k v o hs
  · intro i g hg
    have hlt := h.known i g hg
    rw [hcells]
    split
    · next hk => exact Nat.lt_of_lt_of_le (hk ▸ hlt) hn
    · exact hlt
  · intro i g v o hg hl hs hborn
    rw [hcells] at hs
    split at hs
    · next hk =>
      obtain ⟨v', hold⟩ | hnew := hsame v o hs
      · exact h.named i g v' o hg hl (hk ▸ hold) hborn
      · have hlt := h.known i g hg
        rw [hk] at hlt
        omega
    · exact h.named i g v o hg hl hs hborn

/-- The others let time pass and write new versions. -/
def lockDiscipline (S : LockSettings) (who : ι → Replica) : Discipline ι (Fleet ι) where
  inv := Coherent S who
  rely i w w' := (w'.process (who i)).stage i = (w.process (who i)).stage i ∧ w'.granted i = w.granted i ∧
    w.clock ≤ w'.clock ∧ ∀ key, (w.cells key).Later (w'.cells key)
  refl _ _ _ := ⟨rfl, rfl, Nat.le_refl _, fun _ => Cell.later_refl _⟩
  trans _ _ _ _ h h' := ⟨h'.1.trans h.1, h'.2.1.trans h.2.1, Nat.le_trans h.2.2.1 h'.2.2.1,
    fun key => (h.2.2.2 key).trans (h'.2.2.2 key)⟩

omit [DecidableEq ι] in
theorem later_setCell {c : Cell MachineObject} (h : (w.cells key).Later c) (k : ObjectKey) :
    (w.cells k).Later ((w.setCell key c).cells k) := by
  simp only [Fleet.setCell]
  split
  · next hk =>
    rw [hk]
    exact h
  · exact Cell.later_refl _

theorem coherent_changed (h : Coherent S who w) (hc : w.Changed w') :
    Coherent S who w' ∧ ∀ i, (lockDiscipline S who).rely i w w' := by
  cases hc with
  | time n => exact ⟨coherent_time h n, fun i => ⟨rfl, rfl, Nat.le_add_right _ _, fun _ => Cell.later_refl _⟩⟩
  | cancel X t =>
    refine ⟨coherent_process h (Process.sane_cancel (h.sane X) t) fun i g hX _ => ?_, fun i => ?_⟩
    · rw [Process.stage_cancel]
    · refine ⟨?_, rfl, Nat.le_refl _, fun _ => Cell.later_refl _⟩
      simp only [Fleet.setProcess]
      split
      · next hX => rw [Process.stage_cancel, hX]
      · rfl
  | edited key v o hs =>
    refine ⟨coherent_cell h (Cell.wellFormed_put _ _) ?_ (Nat.le_succ _) ?_, fun i => ?_⟩
    · rintro v' o' ⟨⟩
      exact Nat.lt_succ_of_lt (h.born key v o hs)
    · rintro v' o' ⟨⟩
      exact .inl ⟨v, hs⟩
    · exact ⟨rfl, rfl, Nat.le_refl _, later_setCell (Cell.later_put _ _)⟩
  | deleted key =>
    refine ⟨coherent_cell h ?_ ?_ (Nat.le_refl _) ?_, fun i => ?_⟩
    · rintro v o ⟨⟩
    · rintro v o ⟨⟩
    · rintro v o ⟨⟩
    · exact ⟨rfl, rfl, Nat.le_refl _, later_setCell ⟨Nat.le_refl _, .inr (by rintro v o ⟨⟩)⟩⟩
  | created key lock hs =>
    refine ⟨coherent_cell h (Cell.wellFormed_put _ _) ?_ (Nat.le_succ _) ?_, fun i => ?_⟩
    · rintro v o ⟨⟩
      exact Nat.lt_succ_self _
    · rintro v o ⟨⟩
      exact .inr (Nat.le_refl _)
    · exact ⟨rfl, rfl, Nat.le_refl _, later_setCell (Cell.later_put _ _)⟩

/-- The task has the lock of its process. -/
def Inside (who : ι → Replica) (i : ι) (key : ObjectKey) (w : Fleet ι) : Prop :=
  ∃ id, (w.process (who i)).stage i = .inside (lockKeyOf key) id

omit [DecidableEq ι] in
theorem inside_alone (h : Coherent S who w) {j : ι} (hi : Inside who i key w) (hj : Inside who j key w)
    (hw : who j = who i) : j = i := by
  obtain ⟨id, hi⟩ := hi
  obtain ⟨id', hj⟩ := hj
  rw [hw] at hj
  have hreg := ((h.sane (who i)).inside i _ id hi).1
  have hreg' := ((h.sane (who i)).inside j _ id' hj).1
  have hid : id' = id := Option.some.inj (hreg'.symm.trans hreg)
  subst hid
  exact (h.sane (who i)).sole j i _ _ id' hj hi

theorem replica_ext {X Y : Replica} (h : X.holder = Y.holder) : X = Y := by
  cases X
  cases Y
  simpa using h

omit [DecidableEq ι] in
/-- Whoever else has a grant for the object that a write has found, it has run out. -/
theorem others_out (h : Coherent S who w) (hin : Inside who i key w) {v : Nat} {old : MachineObject}
    {lock : Option (List Char)} (hs : (w.cells key).stored = some (v, old))
    (hd : LockWrite.Due S w.clock ⟨who i, old.lock, lock⟩) {j : ι} {g : Grant} (hj : j ≠ i)
    (hg : w.granted j = some g) (hk : g.key = key) (hb : old.born = g.born) : ¬ g.Live w.clock := by
  intro hl
  have hnamed := h.named j g v old hg hl (hk ▸ hs) hb
  have hsame : (who j).holder = (who i).holder → False := by
    intro hh
    have hjin : Inside who j key w := hk ▸ h.inside j g hg
    exact hj (inside_alone h hin hjin (replica_ext hh))
  generalize hbefore : old.lock = before at hd hnamed
  cases hd with
  | acquired _ t _ text ht hfree _ =>
    rw [heldByOther, hnamed] at hfree
    simp only [Bool.and_eq_false_iff, bne_eq_false_iff_eq, decide_eq_false_iff_not] at hfree
    obtain hh | hout := hfree
    · exact hsame hh
    · rw [Grant.Live] at hl
      omega
  | released _ _ expires hp =>
    rw [hnamed] at hp
    exact hsame (congrArg Prod.fst (Option.some.inj hp))

omit [DecidableEq ι] in
/-- What the caller gets is what it has written. -/
theorem grantOf_written {N : Numerals} {old : MachineObject} {lock : Option (List Char)} {told : Bool}
    {before : Option Grant} {g : Grant} (hn : before = none ∨ lock = none) (h : Fleet.grantOf N key old lock told before = some g) :
    g.key = key ∧ g.born = old.born ∧ ∃ holder, parseDistributedReconcileLockValue N lock = some (holder, g.expires) := by
  cases lock with
  | none => cases h
  | some text =>
    cases told with
    | false =>
      obtain rfl | hlock := hn
      · cases h
      · cases hlock
    | true =>
      obtain ⟨⟨holder, expires⟩, hp, rfl⟩ := Option.map_eq_some_iff.mp h
      exact ⟨rfl, rfl, holder, hp⟩

theorem due_written {clock : Nat} {X : Replica} {before lock : Option (List Char)} (hd : LockWrite.Due S clock ⟨X, before, lock⟩)
    {p : List Char × Int} (hp : parseDistributedReconcileLockValue S.numerals lock = some p) : p.1 = X.holder := by
  cases hd with
  | acquired _ t _ text _ _ hv =>
    rw [parse_value X.named hv] at hp
    cases hp
    rfl
  | released => cases hp

theorem coherent_patched (h : Coherent S who w) (hin : Inside who i key w) {v : Nat} {old : MachineObject}
    {lock : Option (List Char)} (hs : (w.cells key).stored = some (v, old)) (told : Bool)
    (hn : w.granted i = none ∨ lock = none) (hd : LockWrite.Due S w.clock ⟨who i, old.lock, lock⟩) :
    Coherent S who (w.patched S.numerals i (who i) key old lock told) := by
  have hcells : ∀ k, (w.patched S.numerals i (who i) key old lock told).cells k =
      if k = key then (w.cells key).put ⟨old.born, lock⟩ else w.cells k := fun _ => rfl
  have hgrant : ∀ j, (w.patched S.numerals i (who i) key old lock told).granted j =
      if j = i then Fleet.grantOf S.numerals key old lock told (w.granted i) else w.granted j := fun _ => rfl
  have hborn := h.born key v old hs
  refine ⟨?_, ?_, h.sane, ?_, ?_, ?_, ?_, h.steps, ?_⟩
  · intro k
    rw [hcells]
    split
    · exact Cell.wellFormed_put _ _
    · exact h.wellFormed k
  · intro k v' o ho
    rw [hcells] at ho ⊢
    split at ho
    · next hk =>
      rw [if_pos hk]
      cases ho
      exact Nat.lt_succ_of_lt hborn
    · next hk =>
      rw [if_neg hk]
      exact h.born k v' o ho
  · intro j g hg
    rw [hgrant] at hg
    split at hg
    · next hj =>
      subst hj
      rw [(grantOf_written hn hg).1]
      exact hin
    · exact h.inside j g hg
  · intro j g hg
    rw [hgrant] at hg
    rw [hcells]
    split at hg
    · obtain ⟨hk, hb, -⟩ := grantOf_written hn hg
      rw [if_pos hk, hb]
      exact Nat.lt_succ_of_lt hborn
    · have hlt := h.known j g hg
      split
      · next hk => exact Nat.lt_succ_of_lt (hk ▸ hlt)
      · exact hlt
  · intro j g v' o hg hl ho hb
    rw [hgrant] at hg
    rw [hcells] at ho
    split at hg
    · next hj =>
      subst hj
      obtain ⟨hk, -, holder, hp⟩ := grantOf_written hn hg
      rw [if_pos hk] at ho
      cases ho
      rw [hp, ← due_written hd hp]
    · next hj =>
      split at ho
      · next hk =>
        cases ho
        exact absurd hl (others_out h hin hs hd hj hg hk hb)
      · exact h.named j g v' o hg hl ho hb
  · intro j k g g' hg hg' hsame hl hl'
    rw [hgrant] at hg hg'
    split at hg <;> split at hg'
    · next hj hk => exact hj.trans hk.symm
    · next hj hk =>
      obtain ⟨hkey, hb, -⟩ := grantOf_written hn hg
      exact absurd hl' (others_out h hin hs hd hk hg' (hsame.1.trans hkey) (hb.symm.trans hsame.2.symm))
    · next hj hk =>
      obtain ⟨hkey, hb, -⟩ := grantOf_written hn hg'
      exact absurd hl (others_out h hin hs hd hj hg (hsame.1.symm.trans hkey) (hb.symm.trans hsame.2))
    · exact h.sole j k g g' hg hg' hsame hl hl'
  · intro e he
    obtain rfl | he := List.mem_cons.mp he
    · exact hd
    · exact h.due e he

abbrev LockProves {α : Type} (S : LockSettings) (who : ι → Replica) (i : ι) (K : Fleet ι → Prop) (p : LockProg α)
    (A : α → Fleet ι → Prop) (E : LockExc → Fleet ι → Prop) : Prop :=
  Triple (lockRuntime S who) (lockDiscipline S who) i K p (post A E)

/-- What an attempt has found out so far: a reading of the clock, and a version of the object. -/
structure Seen (who : ι → Replica) (i : ι) (key : ObjectKey) (reading : Option Nat)
    (found : Option (Nat × Option (List Char))) (w : Fleet ι) : Prop where
  inside : Inside who i key w
  past : ∀ t, reading = some t → t ≤ w.clock
  known : ∀ v lock, found = some (v, lock) → ∃ o, (w.cells key).Known v o ∧ o.lock = lock

def Ungranted (i : ι) (w : Fleet ι) : Prop := w.granted i = none

omit [DecidableEq ι] in
theorem Inside.kept {w w' : Fleet ι} (h : Inside who i key w) (hr : (lockDiscipline S who).rely i w w') :
    Inside who i key w' := by
  obtain ⟨id, hi⟩ := h
  exact ⟨id, hr.1.trans hi⟩

omit [DecidableEq ι] in
theorem stable_inside : (lockDiscipline S who).Stable i (Inside who i key) := fun _ _ h hr _ => h.kept hr

omit [DecidableEq ι] in
theorem stable_seen {reading : Option Nat} {found : Option (Nat × Option (List Char))} :
    (lockDiscipline S who).Stable i (Seen who i key reading found) := by
  intro w w' h hr _
  refine ⟨h.inside.kept hr, fun t ht => Nat.le_trans (h.past t ht) hr.2.2.1, fun v lock hv => ?_⟩
  obtain ⟨o, ho, hl⟩ := h.known v lock hv
  exact ⟨o, ho.later (hr.2.2.2 key), hl⟩

omit [DecidableEq ι] in
theorem stable_ungranted : (lockDiscipline S who).Stable i (Ungranted i) := fun _ _ h hr _ => hr.2.1.trans h

omit [DecidableEq ι] in
theorem stable_and {K K' : Fleet ι → Prop} (h : (lockDiscipline S who).Stable i K)
    (h' : (lockDiscipline S who).Stable i K') : (lockDiscipline S who).Stable i fun w => K w ∧ K' w :=
  fun w w' hk hr hw => ⟨h w w' hk.1 hr hw, h' w w' hk.2 hr hw⟩

theorem proves_now {found : Option (Nat × Option (List Char))} :
    LockProves S who i (fun w => Seen who i key none found w ∧ Ungranted i w) now
      (fun t w => Seen who i key (some t) found w ∧ Ungranted i w) fun _ _ => True := by
  refine triple_perform (stable_and stable_seen stable_ungranted) ?_
  rintro w r w' hw hk ⟨rfl, rfl⟩
  refine ⟨Discipline.allows_refl _ hw, ⟨hk.1.inside, ?_, hk.1.known⟩, hk.2⟩
  rintro _ ⟨⟩
  exact Nat.le_refl _

/-- The version that a reply names, with the annotation it shows. -/
def LockView.found (obj : LockView) : Option (Nat × Option (List Char)) := obj.resourceVersion.map fun v => (v, obj.lock)

omit [DecidableEq ι] in
theorem seen_read {w : Fleet ι} (hw : Coherent S who w) (hk : Inside who i key w) {v : Nat} {o : MachineObject}
    (hs : (w.cells key).stored = some (v, o)) (version : Option Nat) (hv : version = some v ∨ version = none) :
    Seen who i key none (LockView.found ⟨version, o.lock⟩) w := by
  refine ⟨hk, by simp, fun v' lock hl => ?_⟩
  obtain rfl | rfl := hv
  · cases hl
    exact ⟨o, Cell.known_read (hw.wellFormed key) hs, rfl⟩
  · cases hl

theorem proves_read {K : Fleet ι → Prop} (hK : (lockDiscipline S who).Stable i K) :
    LockProves S who i (fun w => Inside who i key w ∧ K w) (read key)
      (fun obj w => Seen who i key none obj.found w ∧ K w) fun _ w => Inside who i key w ∧ K w := by
  refine triple_perform (stable_and stable_inside hK) ?_
  rintro w r w' hw hk ⟨rfl, ⟨e, rfl⟩ | ⟨v, o, hs, rfl | rfl⟩⟩
  · exact ⟨Discipline.allows_refl _ hw, hk⟩
  · exact ⟨Discipline.allows_refl _ hw, seen_read hw hk.1 hs (some v) (.inl rfl), hk.2⟩
  · exact ⟨Discipline.allows_refl _ hw, seen_read hw hk.1 hs none (.inr rfl), hk.2⟩

theorem allows_patched {w : Fleet ι} (hw : Coherent S who w) (hin : Inside who i key w) {v : Nat} {old : MachineObject}
    {lock : Option (List Char)} (hs : (w.cells key).stored = some (v, old)) (told : Bool)
    (hn : w.granted i = none ∨ lock = none) (hd : LockWrite.Due S w.clock ⟨who i, old.lock, lock⟩) :
    (lockDiscipline S who).Allows i w (w.patched S.numerals i (who i) key old lock told) := by
  refine ⟨coherent_patched hw hin hs told hn hd, fun j hj => ⟨rfl, if_neg hj, Nat.le_refl _, ?_⟩⟩
  exact later_setCell (Cell.later_put _ _)

/-- The task has a grant for its object, when locks are used at all. -/
def Granted (S : LockSettings) (i : ι) (key : ObjectKey) (w : Fleet ι) : Prop :=
  S.enabled = true → ∃ g, w.granted i = some g ∧ g.key = key

/-- The write of an acquire: a grant where it succeeds, and none otherwise. -/
theorem proves_patch {t version : Nat} {lock : Option (List Char)} {text : List Char}
    (hfree : heldByOther S.numerals (who i) lock t = false)
    (hv : distributedReconcileLockValue (who i).holder (t + S.seconds) = some text) :
    LockProves S who i (fun w => Seen who i key (some t) (some (version, lock)) w ∧ Ungranted i w)
      (patch key version (some text)) (fun _ w => Inside who i key w ∧ Granted S i key w)
      fun _ w => Inside who i key w ∧ Ungranted i w := by
  refine triple_perform (stable_and stable_seen stable_ungranted) ?_
  rintro w r w' hw hk (⟨rfl, e, rfl⟩ | ⟨old, hs, rfl⟩)
  · exact ⟨Discipline.allows_refl _ hw, hk.1.inside, hk.2⟩
  · obtain ⟨o, ho, rfl⟩ := hk.1.known version lock rfl
    have hold : old = o := ho.2 old hs
    subst hold
    refine ⟨allows_patched hw hk.1.inside hs _ (.inl hk.2)
      (.acquired (who i) t old.lock text (hk.1.past t rfl) hfree hv), ?_⟩
    cases r with
    | error e =>
      refine ⟨hk.1.inside, ?_⟩
      have hnone : w.granted i = none := hk.2
      simp [Ungranted, Fleet.patched, Fleet.setGranted, Fleet.grantOf, hnone]
    | ok u =>
      refine ⟨hk.1.inside, fun _ => ⟨⟨key, old.born, ((t + S.seconds : Nat) : Int)⟩, ?_, rfl⟩⟩
      simp [Fleet.patched, Fleet.setGranted, Fleet.grantOf, parse_value (who i).named hv]

/-- An acquire is repeated after a conflict only, and then it has no grant. -/
theorem proves_acquireAttempts (n : Nat) :
    LockProves S who i (fun w => Inside who i key w ∧ Ungranted i w) (acquireAttempts S (who i) key n)
      (fun acquired w => acquired = true → Inside who i key w ∧ Granted S i key w) fun _ _ => True := by
  induction n with
  | zero => exact triple_pure fun _ _ _ h => by cases h
  | succ n ih =>
    refine triple_bind (triple_conseq (proves_read stable_ungranted) (fun _ _ h => h) (fun _ _ _ h => h)
      fun _ _ _ _ => trivial) fun obj => ?_
    cases hv : obj.resourceVersion with
    | none => exact triple_pure fun _ _ _ h => by cases h
    | some version =>
      have hfound : obj.found = some (version, obj.lock) := by simp [LockView.found, hv]
      rw [hfound]
      refine triple_bind proves_now fun t => ?_
      split
      · exact triple_pure fun _ _ _ h => by cases h
      · next hfree =>
        rw [Bool.not_eq_true] at hfree
        split
        · exact triple_throw fun _ _ _ => trivial
        · next text htext =>
          refine triple_bind (triple_attempt (proves_patch hfree htext)) ?_
          rintro (e | u)
          · dsimp only
            split
            · exact ih
            · split
              · exact triple_pure fun _ _ _ h => by cases h
              · exact triple_throw fun _ _ _ => trivial
          · exact triple_pure fun _ _ h _ => h

theorem proves_acquire : LockProves S who i (fun w => Inside who i key w ∧ Ungranted i w)
    (acquireDistributedReconcileLock S (who i) key)
    (fun acquired w => acquired = true → Inside who i key w ∧ Granted S i key w) fun _ _ => True := by
  rw [acquireDistributedReconcileLock]
  split
  · exact proves_acquireAttempts 5
  · next hoff => exact triple_pure fun _ _ h _ => ⟨h.1, fun hon => absurd hon hoff⟩

theorem proves_remove {version : Nat} {lock : Option (List Char)} {expires : Int}
    (hp : parseDistributedReconcileLockValue S.numerals lock = some ((who i).holder, expires)) :
    LockProves S who i (Seen who i key none (some (version, lock))) (patch key version none)
      (fun _ => Inside who i key) fun _ => Inside who i key := by
  refine triple_perform stable_seen ?_
  rintro w r w' hw hk (⟨rfl, e, rfl⟩ | ⟨old, hs, rfl⟩)
  · exact ⟨Discipline.allows_refl _ hw, hk.inside⟩
  · obtain ⟨o, ho, rfl⟩ := hk.known version lock rfl
    have hold : old = o := ho.2 old hs
    subst hold
    refine ⟨allows_patched hw hk.inside hs _ (.inr rfl) (.released (who i) old.lock expires hp), ?_⟩
    cases r <;> exact hk.inside

theorem proves_readOrGone : LockProves S who i (Inside who i key) (readOrGone key)
    (fun found w => Inside who i key w ∧ ∀ obj, found = some obj → Seen who i key none obj.found w)
    fun _ => Inside who i key := by
  refine triple_bind (triple_attempt (triple_conseq (proves_read (K := fun _ => True) fun _ _ _ _ _ => trivial)
    (fun _ _ h => ⟨h, trivial⟩) (fun _ _ _ h => h.1) fun _ _ _ h => h.1)) ?_
  rintro (e | obj)
  · dsimp only
    split
    · exact triple_pure fun _ _ h => ⟨h, fun _ ho => by cases ho⟩
    · exact triple_throw fun _ _ h => h
  · refine triple_pure fun _ _ h => ⟨h.inside, ?_⟩
    rintro _ ⟨⟩
    exact h

/-- A release only ever removes the annotation of its own process. -/
theorem proves_releaseAttempts (n : Nat) : LockProves S who i (Inside who i key) (releaseAttempts S (who i) key n)
    (fun _ => Inside who i key) fun _ => Inside who i key := by
  induction n with
  | zero => exact triple_pure fun _ _ h => h
  | succ n ih =>
    refine triple_bind proves_readOrGone fun found => ?_
    cases found with
    | none =>
      dsimp only
      exact triple_pure fun _ _ h => h.1
    | some obj =>
      dsimp only
      cases hv : obj.resourceVersion with
      | none => exact triple_pure fun _ _ h => h.1
      | some version =>
        have hfound : obj.found = some (version, obj.lock) := by simp [LockView.found, hv]
        dsimp only
        cases hp : parseDistributedReconcileLockValue S.numerals obj.lock with
        | none => exact triple_pure fun _ _ h => h.1
        | some p =>
          obtain ⟨holder, expires⟩ := p
          dsimp only
          split
          · exact triple_pure fun _ _ h => h.1
          · next hown =>
            rw [ne_eq, not_not] at hown
            refine triple_bind (triple_attempt (triple_weaken (proves_remove (hown ▸ hp)) fun w _ h => ?_)) ?_
            · exact hfound ▸ h.2 obj rfl
            · rintro (e | u)
              · dsimp only
                split
                · exact ih
                · split
                  · exact triple_pure fun _ _ h => h
                  · exact triple_throw fun _ _ h => h
              · exact triple_pure fun _ _ h => h

theorem proves_release : LockProves S who i (Inside who i key) (releaseDistributedLockWithLogging S (who i) key)
    (fun _ => Inside who i key) fun _ _ => True := by
  have hrelease : LockProves S who i (Inside who i key) (releaseDistributedReconcileLock S (who i) key)
      (fun _ => Inside who i key) fun _ => Inside who i key := by
    rw [releaseDistributedReconcileLock]
    split
    · exact proves_releaseAttempts 5
    · exact triple_pure fun _ _ h => h
  refine triple_bind (triple_attempt hrelease) ?_
  rintro (e | released)
  · exact triple_pure fun _ _ h => h
  · exact triple_pure fun _ _ h => h

theorem proves_requeue : LockProves S who i (fun w => Inside who i key w ∧ Ungranted i w)
    (acquireDistributedLockOrRequeue S (who i) key) (fun _ w => Inside who i key w ∧ Granted S i key w)
    fun _ _ => True := by
  refine triple_bind (triple_attempt proves_acquire) ?_
  rintro (e | (acquired | acquired))
  · exact triple_throw fun _ _ _ => trivial
  · exact triple_throw fun _ _ _ => trivial
  · exact triple_pure fun _ _ h => h rfl

theorem proves_checkpoint {K : Fleet ι → Prop} (hK : (lockDiscipline S who).Stable i K) :
    LockProves S who i K checkpoint (fun _ => K) fun _ => K := by
  refine triple_perform hK ?_
  rintro w r w' hw hk ⟨rfl, rfl | rfl⟩
  · exact ⟨Discipline.allows_refl _ hw, hk⟩
  · exact ⟨Discipline.allows_refl _ hw, hk⟩

theorem proves_runApi {K A : Fleet ι → Prop} {function : LockProg Unit} (hK : (lockDiscipline S who).Stable i K)
    (hA : (lockDiscipline S who).Stable i A) (h : LockProves S who i K function (fun _ => A) fun _ _ => True) :
    LockProves S who i K (runApi function) (fun _ => A) fun _ _ => True := by
  have hweak : ∀ {K : Fleet ι → Prop}, (lockDiscipline S who).Stable i K →
      LockProves S who i K checkpoint (fun _ => K) fun _ _ => True := fun hK =>
    triple_conseq (proves_checkpoint hK) (fun _ _ h => h) (fun _ _ _ h => h) fun _ _ _ _ => trivial
  refine triple_bind (hweak hK) fun _ => triple_bind (triple_attempt h) ?_
  rintro (e | u)
  · exact triple_bind (hweak (K := fun _ => True) fun _ _ _ _ _ => trivial) fun _ => triple_throw fun _ _ _ => trivial
  · exact triple_bind (hweak hA) fun _ => triple_pure fun _ _ h => h

def Outside (who : ι → Replica) (i : ι) (w : Fleet ι) : Prop := (w.process (who i)).stage i = .outside

def Waiting (who : ι → Replica) (i : ι) (key : ObjectKey) (w : Fleet ι) : Prop :=
  ∃ id, (w.process (who i)).stage i = .waiting (lockKeyOf key) id

omit [DecidableEq ι] in
theorem ungranted_of_stage (h : Coherent S who w) (hi : ∀ k id, (w.process (who i)).stage i ≠ .inside k id) :
    Ungranted i w := by
  cases hg : w.granted i with
  | none => exact hg
  | some g =>
    obtain ⟨id, hs⟩ := h.inside i g hg
    exact absurd hs (hi _ id)

omit [DecidableEq ι] in
/-- A step of the lock of the process by a task without a grant. -/
theorem allows_process {w : Fleet ι} (hw : Coherent S who w) {p : Process ι} (hp : p.Sane) (hn : Ungranted i w)
    (hs : ∀ j, j ≠ i → p.stage j = (w.process (who i)).stage j) :
    (lockDiscipline S who).Allows i w (w.setProcess (who i) p) := by
  refine ⟨coherent_process hw hp fun j g _ hg => hs j ?_, fun j hj => ⟨?_, rfl, Nat.le_refl _, fun _ => Cell.later_refl _⟩⟩
  · rintro rfl
    rw [hn] at hg
    cases hg
  · simp only [Fleet.setProcess]
    split
    · next hX => rw [hs j hj, hX]
    · rfl

theorem proves_enterLock : LockProves S who i (Outside who i) (enterLock (lockKeyOf key))
    (fun got w => (if got then Inside who i key w else Waiting who i key w) ∧ Ungranted i w) fun _ _ => True := by
  refine triple_perform (fun _ _ h hr _ => hr.1.trans h) ?_
  rintro w r w' hw hk ⟨rfl, rfl⟩
  have hout : (w.process (who i)).stage i = .outside := hk
  have hn : Ungranted i w := ungranted_of_stage hw (by simp [hout])
  refine ⟨allows_process hw (Process.sane_enter (hw.sane (who i)) hout _) hn
    fun j hj => Process.stage_enter_other hj _, ?_, hn⟩
  obtain ⟨id, hin | hwait⟩ := Process.stage_enter (w.process (who i)) i (lockKeyOf key)
  · rw [hin]
    exact ⟨id, by simp [Fleet.setProcess, hin]⟩
  · rw [hwait]
    exact ⟨id, by simp [Fleet.setProcess, hwait]⟩

theorem proves_resumeLock : LockProves S who i (fun w => Waiting who i key w ∧ Ungranted i w) resumeLock
    (fun _ w => Inside who i key w ∧ Ungranted i w) fun _ _ => True := by
  refine triple_perform (stable_and (fun w w' h hr _ => ?_) stable_ungranted) ?_
  · obtain ⟨id, hi⟩ := h
    exact ⟨id, hr.1.trans hi⟩
  · rintro w r w' hw ⟨⟨id, hwait⟩, hn⟩ ⟨p, got, hp, rfl, rfl⟩
    have htidy : p.Sane := Process.sane_resume (hw.sane (who i)) hp
    refine ⟨allows_process hw htidy hn fun j hj => Process.stage_resume_other hp hj, ?_⟩
    cases got with
    | true => exact ⟨⟨id, by simp [Fleet.setProcess, Process.stage_resume_got hp hwait]⟩, hn⟩
    | false => trivial

theorem proves_awaitLock : LockProves S who i (Outside who i) (awaitLock (lockKeyOf key))
    (fun _ w => Inside who i key w ∧ Ungranted i w) fun _ _ => True := by
  refine triple_bind proves_enterLock fun got => ?_
  cases got with
  | true => exact triple_pure fun _ _ h => h
  | false => exact proves_resumeLock

omit [DecidableEq ι] in
theorem coherent_ungranted (h : Coherent S who w) {granted : ι → Option Grant}
    (hg : ∀ j g, granted j = some g → w.granted j = some g) : Coherent S who { w with granted := granted } :=
  ⟨h.wellFormed, h.born, h.sane, fun j g hj => h.inside j g (hg j g hj), fun j g hj => h.known j g (hg j g hj),
    fun j g v o hj => h.named j g v o (hg j g hj), fun j k g g' hj hk => h.sole j k g g' (hg j g hj) (hg k g' hk),
    h.steps, h.due⟩

theorem proves_exitLock : LockProves S who i (fun _ => True) exitLock (fun _ _ => True) fun _ _ => True := by
  refine triple_perform (fun _ _ _ _ _ => trivial) ?_
  rintro w r w' hw - ⟨rfl, rfl⟩
  have hdropped : Coherent S who (w.setGranted i none) := by
    refine coherent_ungranted hw fun j g hj => ?_
    split at hj
    · cases hj
    · exact hj
  have hn : Ungranted i (w.setGranted i none) := if_pos rfl
  have hstep : (lockDiscipline S who).Allows i (w.setGranted i none)
      ((w.setGranted i none).setProcess (who i) ((w.process (who i)).exit i)) :=
    allows_process hdropped (Process.sane_exit (hw.sane (who i)) i) hn fun j hj => Process.stage_exit_other hj
  refine ⟨⟨hstep.1, fun j hj => ?_⟩, trivial⟩
  obtain ⟨hstage, hgranted, hclock, hlater⟩ := hstep.2 j hj
  exact ⟨hstage, hgranted.trans (if_neg hj), hclock, hlater⟩

omit [DecidableEq ι] in
theorem stable_working : (lockDiscipline S who).Stable i fun w => Inside who i key w ∧ Granted S i key w := by
  refine stable_and stable_inside fun w w' h hr _ hon => ?_
  obtain ⟨g, hg, hk⟩ := h hon
  exact ⟨g, hr.2.1.trans hg, hk⟩

omit [DecidableEq ι] in
/-- A step of a body under a grant is one that has the object for itself. -/
theorem coherent_worked {w : Fleet ι} (h : Coherent S who w) (hg : Granted S i key w) : Coherent S who (w.worked i key) := by
  refine ⟨h.wellFormed, h.born, h.sane, h.inside, h.known, h.named, h.sole, fun hon s hs => ?_, h.due⟩
  obtain rfl | hs := List.mem_cons.mp hs
  · obtain ⟨g, hi, hk⟩ := hg hon
    exact ⟨g, hi, hk, fun j g' hj hg' hsame hl hl' => hj (h.sole i j g g' hi hg' hsame hl hl').symm⟩
  · exact h.steps hon s hs

theorem proves_body {body : LockProg Unit} (hb : body.Only (BodyOp key)) :
    LockProves S who i (fun w => Inside who i key w ∧ Granted S i key w) body (fun _ => Inside who i key)
      fun _ => Inside who i key := by
  refine triple_conseq (triple_only hb stable_working ?_) (fun _ _ h => h) (fun _ _ _ h => h.1) fun _ _ _ h => h.1
  rintro op (- | n) w r w' hw hk he
  · obtain ⟨rfl, -⟩ := he
    exact ⟨Discipline.allows_refl _ hw, hk⟩
  · cases he
    exact ⟨⟨coherent_worked hw hk.2, fun j hj => ⟨rfl, rfl, Nat.le_refl _, fun _ => Cell.later_refl _⟩⟩, hk⟩

theorem proves_reconcile {body : LockProg Unit} (hb : body.Only (BodyOp key)) :
    LockProves S who i (Outside who i) (sshmachineReconcile S (who i) key body) (fun _ _ => True) fun _ _ => True := by
  refine triple_bind proves_awaitLock fun _ => ?_
  have hrelease : LockProves S who i (Inside who i key) (runApi (releaseDistributedLockWithLogging S (who i) key))
      (fun _ => Inside who i key) fun _ _ => True := proves_runApi stable_inside stable_inside proves_release
  have hsection : LockProves S who i (fun w => Inside who i key w ∧ Granted S i key w)
      (body.andFinally (runApi (releaseDistributedLockWithLogging S (who i) key))) (fun _ => Inside who i key) fun _ _ => True :=
    triple_andFinally (proves_body hb) (fun _ => hrelease) fun _ =>
      triple_conseq hrelease (fun _ _ h => h) (fun _ _ _ _ => trivial) fun _ _ _ h => h
  refine triple_andFinally (E := fun _ _ => True) ?_ (fun _ => proves_exitLock) fun _ => proves_exitLock
  refine triple_bind (proves_runApi (stable_and stable_inside stable_ungranted) stable_working proves_requeue) fun _ => ?_
  exact triple_conseq hsection (fun _ _ h => h) (fun _ _ _ _ => trivial) fun _ _ _ h => h

theorem lock_respects (S : LockSettings) (who : ι → Replica) :
    Respects (lockRuntime S who) (lockDiscipline S who) fun _ => post (fun _ _ => True) fun _ _ => True where
  env _ _ hw hc := coherent_changed hw hc
  start := by
    rintro i p w _ hw ⟨rfl, hout, key, body, hb, rfl⟩
    exact ⟨Discipline.allows_refl _ hw, proves_reconcile hb _ hw hout⟩
  finish := by
    rintro i r w₀ w _ hw _ _ rfl
    exact Discipline.allows_refl _ hw
  crash := by
    rintro i w _ hw rfl
    exact Discipline.allows_refl _ hw

abbrev FleetConfig (ι : Type) := Config ι LockOp LockOp.Reply LockExc Unit (Fleet ι)

theorem lock_coherent {objects : ObjectKey → Option (Option (List Char))} {clock : Nat} {c : FleetConfig ι}
    (hc : Reachable (lockRuntime S who) (idle (Fleet.new ι objects clock)) c) : Coherent S who c.world :=
  (Discipline.reachable (lock_respects S who) (coherent_new S who objects clock) hc).1

/-- In every run of handlers in any number of replicas, two tasks with a grant for the same
object are one, unless a grant of them has run out; and a body works under a grant for its
object, while no other task has one that has not run out. -/
theorem reconcile_exclusive {objects : ObjectKey → Option (Option (List Char))} {clock : Nat} {c : FleetConfig ι}
    (hc : Reachable (lockRuntime S who) (idle (Fleet.new ι objects clock)) c) :
    (∀ i j g g', c.world.granted i = some g → c.world.granted j = some g' → g.Same g' →
      g.Live c.world.clock → g'.Live c.world.clock → i = j) ∧
      (S.enabled = true → ∀ s ∈ c.world.steps, s.Exclusive) :=
  ⟨(lock_coherent hc).sole, (lock_coherent hc).steps⟩

/-- The task of `false` still works when its 30 seconds are over and that of `true` has taken
over. -/
def shortSettings : LockSettings := ⟨asciiNumerals, true, 5⟩

def twoReplicas (i : Bool) : Replica := Replica.started (some [if i then 'b' else 'a']) none [] ['0']

def overrunKey : ObjectKey := ⟨"n", "m"⟩

def overrunBody : LockProg Unit :=
  (Prog.perform (LockOp.work overrunKey 0)).bind fun _ => (Prog.perform (LockOp.work overrunKey 1)).bind fun _ => .pure ()

theorem overrunBody_only : overrunBody.Only (BodyOp overrunKey) :=
  Prog.only_bind (Prog.only_perform (.work 0)) fun _ => Prog.only_bind (Prog.only_perform (.work 1)) fun _ => trivial

theorem overrun_run : ∃ c : FleetConfig Bool,
    Reachable (lockRuntime shortSettings twoReplicas) (idle (Fleet.new Bool (fun _ => some none) 0)) c ∧
      c.world.steps.length = 3 ∧ c.world.log.length = 2 := by
  -- the first task acquires at second 0
  have h₁ := (Relation.ReflTransGen.refl (a := idle (Fleet.new Bool (fun _ => some none) 0))).tail
    (Step.start (T := lockRuntime shortSettings twoReplicas) (i := false) rfl ⟨rfl, rfl, overrunKey, overrunBody, overrunBody_only,
      rfl⟩)
  have h₂ := h₁.tail (Step.call (i := false) rfl ⟨rfl, rfl⟩)
  have h₃ := h₂.tail (Step.call (i := false) rfl ⟨rfl, .inl rfl⟩)
  have h₄ := h₃.tail (Step.call (i := false) rfl ⟨rfl, .inr ⟨_, _, rfl, .inl rfl⟩⟩)
  have h₅ := h₄.tail (Step.call (i := false) rfl ⟨rfl, rfl⟩)
  have h₆ := h₅.tail (Step.call (i := false) (r := .ok ()) rfl (.inr ⟨_, rfl, rfl⟩))
  have h₇ := h₆.tail (Step.call (i := false) rfl ⟨rfl, .inl rfl⟩)
  have h₈ := h₇.tail (Step.call (i := false) (r := .ok 0) rfl rfl)
  have h₉ := h₈.tail (Step.env (.time 30))
  -- the second one reads the annotation at second 30
  have g₁ := h₉.tail (Step.start (i := true) rfl ⟨rfl, rfl, overrunKey, overrunBody, overrunBody_only,
      rfl⟩)
  have g₂ := g₁.tail (Step.call (i := true) rfl ⟨rfl, rfl⟩)
  have g₃ := g₂.tail (Step.call (i := true) rfl ⟨rfl, .inl rfl⟩)
  have g₄ := g₃.tail (Step.call (i := true) rfl ⟨rfl, .inr ⟨_, _, rfl, .inl rfl⟩⟩)
  have g₅ := g₄.tail (Step.call (i := true) rfl ⟨rfl, rfl⟩)
  have g₆ := g₅.tail (Step.call (i := true) (r := .ok ()) rfl (.inr ⟨_, rfl, rfl⟩))
  have g₇ := g₆.tail (Step.call (i := true) rfl ⟨rfl, .inl rfl⟩)
  have g₈ := g₇.tail (Step.call (i := true) (r := .ok 0) rfl rfl)
  -- the first one goes on
  have h := g₈.tail (Step.call (i := false) (r := .ok 1) rfl rfl)
  exact ⟨_, h, rfl, rfl⟩

/-- The first body works on after its grant has run out and the other replica has taken over. -/
theorem reconcile_exclusive_overrun :
    ∃ c : FleetConfig Bool, c.world.steps.length = 3 ∧ ∀ s ∈ c.world.steps, s.Exclusive := by
  obtain ⟨c, hc, hsteps, -⟩ := overrun_run
  exact ⟨c, hsteps, (reconcile_exclusive hc).2 rfl⟩

/-- In every run, an acquire only replaces an annotation that it cannot read, that is its
own, or that has run out at its reading of the clock, and a release only removes its own. -/
theorem lock_writes {objects : ObjectKey → Option (Option (List Char))} {clock : Nat} {c : FleetConfig ι}
    (hc : Reachable (lockRuntime S who) (idle (Fleet.new ι objects clock)) c) :
    ∀ e ∈ c.world.log, e.Due S c.world.clock :=
  (lock_coherent hc).due

/-- The take-over and the acquisition before it were due. -/
theorem lock_writes_overrun : ∃ c : FleetConfig Bool, c.world.log.length = 2 ∧
    ∀ e ∈ c.world.log, e.Due shortSettings c.world.clock := by
  obtain ⟨c, hc, -, hlog⟩ := overrun_run
  exact ⟨c, hlog, lock_writes hc⟩

end CapiSsh.ReconcileLocks
