import CapiSsh.Lib.FairLock

/-!
# The reconcile locks of one process

`_RECONCILE_LOCKS` and its users: a handler looks up the lock of its object, or makes one,
enters it, and drops it from the registry at the end when nobody has or wants it any more.
Any number of tasks do this in any order, and each can be cancelled at every suspension.
-/
namespace CapiSsh.ReconcileLocks

open FairLock (Orderly)

abbrev LockKey := List Char

/-- `_reconcile_lock_key` -/
def reconcileLockKey (ns name : List Char) : LockKey := ns ++ '/' :: name

/-- Where a task is in `async with lock`, and with which lock of which key. -/
inductive LockStage where
  | outside
  | waiting (key : LockKey) (id : Nat)
  | inside (key : LockKey) (id : Nat)
  deriving DecidableEq, Repr

/-- The registry, the lock objects, and the tasks. -/
structure Process (τ : Type) where
  registry : LockKey → Option Nat
  lock : Nat → FairLock τ
  next : Nat
  stage : τ → LockStage

namespace Process

variable {τ : Type} [DecidableEq τ]

def new (τ : Type) : Process τ := ⟨fun _ => none, fun _ => FairLock.new, 0, fun _ => .outside⟩

def setLock (p : Process τ) (id : Nat) (l : FairLock τ) : Process τ :=
  { p with lock := fun i => if i = id then l else p.lock i }

def setStage (p : Process τ) (t : τ) (s : LockStage) : Process τ :=
  { p with stage := fun u => if u = t then s else p.stage u }

def setRegistry (p : Process τ) (key : LockKey) (id : Option Nat) : Process τ :=
  { p with registry := fun k => if k = key then id else p.registry k }

def getReconcileLock (p : Process τ) (key : LockKey) : Process τ × Nat :=
  match p.registry key with
  | some id => (p, id)
  | none => ({ (p.setRegistry key (some p.next)).setLock p.next FairLock.new with next := p.next + 1 }, p.next)

/-- The mapping is dropped only when no holder and no waiter remains. -/
def cleanupReconcileLock (p : Process τ) (key : LockKey) (id : Nat) : Process τ :=
  match p.registry key with
  | none => p
  | some current =>
    if current ≠ id then p
    else if (p.lock current).locked then p
    else if (p.lock current).waiters ≠ [] then p
    else p.setRegistry key none

/-- The task enters `async with lock` without a suspension, or waits there. -/
def enterLock (p : Process τ) (t : τ) (key : LockKey) (id : Nat) : Process τ :=
  let r := (p.lock id).enter t
  (p.setLock id r.1).setStage t (if r.2 then .inside key id else .waiting key id)

def enter (p : Process τ) (t : τ) (key : LockKey) : Process τ :=
  let r := p.getReconcileLock key
  r.1.enterLock t key r.2

def cancel (p : Process τ) (t : τ) : Process τ :=
  match p.stage t with
  | .waiting _ id => p.setLock id ((p.lock id).cancel t)
  | _ => p

/-- A waiter whose future is done: it is inside, or the cancellation ends it. -/
def resume (p : Process τ) (t : τ) : Option (Process τ × Bool) :=
  match p.stage t with
  | .waiting key id =>
    ((p.lock id).resume t).map fun r =>
      if r.2 then ((p.setLock id r.1).setStage t (.inside key id), true)
      else (((p.setLock id r.1).setStage t .outside).cleanupReconcileLock key id, false)
  | _ => none

/-- The end of the handler, by whatever outcome. -/
def exit (p : Process τ) (t : τ) : Process τ :=
  match p.stage t with
  | .inside key id => ((p.setLock id (p.lock id).release).setStage t .outside).cleanupReconcileLock key id
  | _ => p

end Process

/-- A handler can only be started where none is running, and only a waiter whose future is
done runs again. -/
inductive LockEvent (τ : Type) where
  | enter (t : τ) (key : LockKey)
  | cancel (t : τ)
  | resume (t : τ)
  | exit (t : τ)
  deriving DecidableEq, Repr

namespace Process

variable {τ : Type} [DecidableEq τ]

def step (p : Process τ) : LockEvent τ → Process τ
  | .enter t key => if p.stage t = .outside then p.enter t key else p
  | .cancel t => p.cancel t
  | .resume t => ((p.resume t).map Prod.fst).getD p
  | .exit t => p.exit t

def after (p : Process τ) (events : List (LockEvent τ)) : Process τ := events.foldl step p

/-- The registry, the queues and the stages agree, and a lock is taken by the one task that
is inside. -/
structure Sane (p : Process τ) : Prop where
  fresh : ∀ key id, p.registry key = some id → id < p.next
  own : ∀ key key' id, p.registry key = some id → p.registry key' = some id → key = key'
  orderly : ∀ id, (p.lock id).Orderly
  waiting : ∀ t key id, p.stage t = .waiting key id → p.registry key = some id ∧ t ∈ (p.lock id).queue
  queued : ∀ t id, t ∈ (p.lock id).queue → id < p.next → ∃ key, p.stage t = .waiting key id
  inside : ∀ t key id, p.stage t = .inside key id → p.registry key = some id ∧ (p.lock id).locked = true
  held : ∀ id, (p.lock id).locked = true → id < p.next → ∃ t key, p.stage t = .inside key id
  sole : ∀ t t' key key' id, p.stage t = .inside key id → p.stage t' = .inside key' id → t = t'

/-- The lock of a key has a holder or a waiter. -/
def Used (p : Process τ) (key : LockKey) : Prop :=
  ∀ id, p.registry key = some id → (p.lock id).locked = true ∨ (p.lock id).waiters ≠ []

variable {p : Process τ} {t : τ} {key : LockKey} {id : Nat}

omit [DecidableEq τ] in
theorem sane_new : (new τ).Sane := by
  constructor
  · simp [new]
  · simp [new]
  · exact fun _ => FairLock.orderly_new
  · simp [new]
  · simp [new]
  · simp [new]
  · simp [new]
  · simp [new]

omit [DecidableEq τ] in
theorem getReconcileLock_registry (p : Process τ) (key : LockKey) :
    (p.getReconcileLock key).1.registry key = some (p.getReconcileLock key).2 := by
  rw [getReconcileLock]
  split
  · next h => exact h
  · simp [setRegistry, setLock]

omit [DecidableEq τ] in
theorem getReconcileLock_stage (p : Process τ) (key : LockKey) : (p.getReconcileLock key).1.stage = p.stage := by
  rw [getReconcileLock]
  split
  · rfl
  · rfl

omit [DecidableEq τ] in
/-- A lock that is looked up, or made, is registered under its key. -/
theorem sane_getReconcileLock (h : p.Sane) (key : LockKey) : (p.getReconcileLock key).1.Sane := by
  rw [getReconcileLock]
  split
  · exact h
  · next hnone =>
    have hid : ∀ key' id, p.registry key' = some id → id ≠ p.next := fun key' id hk => Nat.ne_of_lt (h.fresh key' id hk)
    have hreg : ∀ key' id, p.registry key' = some id → key' ≠ key := by
      rintro _ id hk rfl
      rw [hnone] at hk
      cases hk
    constructor
    · intro key' id hk
      simp only [setRegistry, setLock] at hk
      split at hk
      · cases hk
        exact Nat.lt_succ_self _
      · exact Nat.lt_succ_of_lt (h.fresh key' id hk)
    · intro key' key'' id hk hk'
      simp only [setRegistry, setLock] at hk hk'
      split at hk <;> split at hk'
      · simp_all
      · cases hk
        exact absurd rfl (hid _ _ hk')
      · cases hk'
        exact absurd rfl (hid _ _ hk)
      · exact h.own key' key'' id hk hk'
    · intro id
      simp only [setRegistry, setLock]
      split
      · exact FairLock.orderly_new
      · exact h.orderly id
    · intro t key' id ht
      obtain ⟨hk, hq⟩ := h.waiting t key' id ht
      simp [setRegistry, setLock, hreg key' id hk, hid key' id hk, hk, hq]
    · intro t id hq hlt
      simp only [setRegistry, setLock] at hq
      split at hq
      · cases hq
      · next hne => exact h.queued t id hq (Nat.lt_of_le_of_ne (Nat.lt_succ_iff.mp hlt) hne)
    · intro t key' id ht
      obtain ⟨hk, hl⟩ := h.inside t key' id ht
      simp [setRegistry, setLock, hreg key' id hk, hid key' id hk, hk, hl]
    · intro id hl hlt
      simp only [setRegistry, setLock] at hl
      split at hl
      · cases hl
      · next hne => exact h.held id hl (Nat.lt_of_le_of_ne (Nat.lt_succ_iff.mp hlt) hne)
    · exact h.sole

/-- A step on the lock `id` by the task `t`, which is concerned with no other lock. -/
theorem sane_update {l : FairLock τ} {s : LockStage} (h : p.Sane) (hlt : id < p.next) (ho : l.Orderly)
    (ht : ∀ key' id', p.stage t = .waiting key' id' ∨ p.stage t = .inside key' id' → id' = id)
    (hs : ∀ key' id', s = .waiting key' id' ∨ s = .inside key' id' → id' = id ∧ p.registry key' = some id)
    (hq : ∀ u, u ∈ l.queue ↔ if u = t then ∃ key', s = .waiting key' id else u ∈ (p.lock id).queue)
    (hl : l.locked = true ↔ (∃ key', s = .inside key' id) ∨ ∃ u key', u ≠ t ∧ p.stage u = .inside key' id)
    (hsole : (∃ key', s = .inside key' id) → ∀ u key', u ≠ t → p.stage u ≠ .inside key' id) :
    ((p.setLock id l).setStage t s).Sane := by
  constructor
  · exact h.fresh
  · exact h.own
  · intro i
    simp only [setStage, setLock]
    split
    · exact ho
    · exact h.orderly i
  · intro u key' i hu
    simp only [setStage, setLock] at hu ⊢
    split at hu
    · next hut =>
      obtain ⟨rfl, hr⟩ := hs key' i (.inl hu)
      refine ⟨hr, ?_⟩
      rw [if_pos rfl, hq, if_pos hut]
      exact ⟨key', hu⟩
    · next hut =>
      obtain ⟨hr, hmem⟩ := h.waiting u key' i hu
      refine ⟨hr, ?_⟩
      split
      · next hi =>
        subst hi
        rw [hq, if_neg hut]
        exact hmem
      · exact hmem
  · intro u i hu hi
    simp only [setStage, setLock] at hu ⊢
    split at hu
    · next hid =>
      subst hid
      have hmem := (hq u).mp hu
      split
      · next hut =>
        rw [if_pos hut] at hmem
        exact hmem
      · next hut =>
        rw [if_neg hut] at hmem
        exact h.queued u i hmem hi
    · next hid =>
      obtain ⟨key', hk⟩ := h.queued u i hu hi
      split
      · next hut =>
        subst hut
        exact absurd (ht key' i (.inl hk)) hid
      · exact ⟨key', hk⟩
  · intro u key' i hu
    simp only [setStage, setLock] at hu ⊢
    split at hu
    · obtain ⟨rfl, hr⟩ := hs key' i (.inr hu)
      refine ⟨hr, ?_⟩
      rw [if_pos rfl]
      exact hl.mpr (.inl ⟨key', hu⟩)
    · next hut =>
      obtain ⟨hr, hlocked⟩ := h.inside u key' i hu
      refine ⟨hr, ?_⟩
      split
      · next hi =>
        subst hi
        exact hl.mpr (.inr ⟨u, key', hut, hu⟩)
      · exact hlocked
  · intro i hi hlt'
    simp only [setStage, setLock] at hi ⊢
    split at hi
    · next hid =>
      subst hid
      obtain ⟨key', hk⟩ | ⟨u, key', hut, hu⟩ := hl.mp hi
      · exact ⟨t, key', by simp [hk]⟩
      · exact ⟨u, key', by simp [hut, hu]⟩
    · next hid =>
      obtain ⟨u, key', hu⟩ := h.held i hi hlt'
      have hut : u ≠ t := by
        rintro rfl
        exact hid (ht key' i (.inr hu))
      exact ⟨u, key', by simp [hut, hu]⟩
  · intro u u' key' key'' i hu hu'
    simp only [setStage, setLock] at hu hu'
    split at hu <;> split at hu'
    · next hut hut' => exact hut.trans hut'.symm
    · next hut hut' =>
      obtain ⟨rfl, -⟩ := hs key' i (.inr hu)
      exact absurd hu' (hsole ⟨key', hu⟩ u' key'' hut')
    · next hut hut' =>
      obtain ⟨rfl, -⟩ := hs key'' i (.inr hu')
      exact absurd hu (hsole ⟨key'', hu'⟩ u key' hut)
    · exact h.sole u u' key' key'' i hu hu'

omit [DecidableEq τ] in
/-- Nobody is inside a free lock. -/
theorem Sane.none_inside (h : p.Sane) (hl : (p.lock id).locked = false) (u : τ) (key' : LockKey) :
    p.stage u ≠ .inside key' id := by
  intro hu
  rw [(h.inside u key' id hu).2] at hl
  cases hl

theorem sane_enterLock (h : p.Sane) (ht : p.stage t = .outside) (hr : p.registry key = some id) :
    (p.enterLock t key id).Sane := by
  have hlt := h.fresh key id hr
  have hout : t ∉ (p.lock id).queue := by
    intro hq
    obtain ⟨key', hw⟩ := h.queued t id hq hlt
    rw [ht] at hw
    cases hw
  have hnot : ∀ key' id', p.stage t = .waiting key' id' ∨ p.stage t = .inside key' id' → id' = id := by
    simp [ht]
  have ho := FairLock.orderly_enter (h.orderly id) hout
  rw [enterLock]
  cases hgot : ((p.lock id).enter t).2 with
  | true =>
    obtain ⟨hfree, hlocked⟩ := FairLock.enter_got hgot
    have hnone := h.none_inside hfree
    refine sane_update h hlt ho hnot ?_ ?_ ?_ ?_
    · simp [hr]
    · intro u
      rw [FairLock.queue_enter_got hgot]
      split
      · next hut => simp [hut, hout]
      · rfl
    · simp [hlocked]
    · exact fun _ u key' _ => hnone u key'
  | false =>
    refine sane_update h hlt ho hnot ?_ ?_ ?_ ?_
    · simp [hr]
    · intro u
      rw [FairLock.queue_enter_waits hgot]
      split
      · next hut => simp [hut]
      · next hut => simp [hut]
    · rw [FairLock.enter_waits hgot]
      constructor
      · intro hl
        obtain ⟨u, key', hu⟩ := h.held id hl hlt
        refine .inr ⟨u, key', ?_, hu⟩
        rintro rfl
        rw [ht] at hu
        cases hu
      · rintro (⟨key', hk⟩ | ⟨u, key', -, hu⟩)
        · cases hk
        · exact (h.inside u key' id hu).2
    · rintro ⟨key', hk⟩
      cases hk

theorem sane_enter (h : p.Sane) (ht : p.stage t = .outside) (key : LockKey) : (p.enter t key).Sane := by
  refine sane_enterLock (sane_getReconcileLock h key) ?_ (getReconcileLock_registry p key)
  rw [getReconcileLock_stage]
  exact ht

theorem setStage_self (p : Process τ) (t : τ) : p.setStage t (p.stage t) = p := by
  have hstage : (fun u => if u = t then p.stage t else p.stage u) = p.stage := by
    funext u
    split
    · next hut => rw [hut]
    · rfl
  rw [setStage, hstage]

theorem sane_cancel (h : p.Sane) (t : τ) : (p.cancel t).Sane := by
  rw [cancel]
  split
  · next key id ht =>
    obtain ⟨hr, hmem⟩ := h.waiting t key id ht
    rw [← setStage_self (p.setLock id _) t]
    refine sane_update h (h.fresh key id hr) (FairLock.orderly_cancel (h.orderly id)) ?_ ?_ ?_ ?_ ?_
    · simp [ht]
    · simp only [setLock, ht]
      rintro key' id' (hk | hk) <;> cases hk
      exact ⟨rfl, hr⟩
    · intro u
      rw [FairLock.queue_cancel]
      split
      · next hut => simp [hut, hmem, setLock, ht]
      · rfl
    · constructor
      · intro hl
        obtain ⟨u, key', hu⟩ := h.held id hl (h.fresh key id hr)
        refine .inr ⟨u, key', ?_, hu⟩
        rintro rfl
        rw [ht] at hu
        cases hu
      · rintro (⟨key', hk⟩ | ⟨u, key', -, hu⟩)
        · simp [setLock, ht] at hk
        · exact (h.inside u key' id hu).2
    · rintro ⟨key', hk⟩
      simp [setLock, ht] at hk
  · exact h

/-- The state between the end of a wait or of a section and the cleanup of the registry. -/
theorem sane_left {l : FairLock τ} (h : p.Sane) (ht : p.stage t = .waiting key id) (hr : (p.lock id).resume t = some (l, false)) :
    ((p.setLock id l).setStage t .outside).Sane := by
  have hreg := (h.waiting t key id ht).1
  refine sane_update h (h.fresh key id hreg) (FairLock.orderly_resume (h.orderly id) hr) (by simp [ht]) (by simp) ?_ ?_ (by simp)
  · intro u
    have hqueue : l.queue = (p.lock id).queue.erase t := FairLock.queue_resume hr
    rw [hqueue, (h.orderly id).distinct.mem_erase_iff]
    split
    · next hut => simp [hut]
    · next hut => simp [hut]
  · rw [FairLock.resume_left hr]
    constructor
    · intro hl
      obtain ⟨u, key', hu⟩ := h.held id hl (h.fresh key id hreg)
      refine .inr ⟨u, key', ?_, hu⟩
      rintro rfl
      rw [ht] at hu
      cases hu
    · rintro (⟨key', hk⟩ | ⟨u, key', -, hu⟩)
      · cases hk
      · exact (h.inside u key' id hu).2

theorem sane_got {l : FairLock τ} (h : p.Sane) (ht : p.stage t = .waiting key id) (hr : (p.lock id).resume t = some (l, true)) :
    ((p.setLock id l).setStage t (.inside key id)).Sane := by
  have hreg := (h.waiting t key id ht).1
  obtain ⟨hfree, hlocked⟩ := FairLock.resume_got (h.orderly id) hr
  refine sane_update h (h.fresh key id hreg) (FairLock.orderly_resume (h.orderly id) hr) (by simp [ht]) (by simp [hreg]) ?_ ?_
    fun _ u key' _ => h.none_inside hfree u key'
  · intro u
    have hqueue : l.queue = (p.lock id).queue.erase t := FairLock.queue_resume hr
    rw [hqueue, (h.orderly id).distinct.mem_erase_iff]
    split
    · next hut => simp [hut]
    · next hut => simp [hut]
  · simp [hlocked]

theorem sane_released (h : p.Sane) (ht : p.stage t = .inside key id) :
    ((p.setLock id (p.lock id).release).setStage t .outside).Sane := by
  obtain ⟨hreg, hlocked⟩ := h.inside t key id ht
  refine sane_update h (h.fresh key id hreg) (FairLock.orderly_release (h.orderly id) hlocked) (by simp [ht]) (by simp) ?_ ?_ (by simp)
  · intro u
    rw [FairLock.queue_release]
    split
    · next hut =>
      have hout : t ∉ (p.lock id).queue := by
        intro hq
        obtain ⟨key', hw⟩ := h.queued t id hq (h.fresh key id hreg)
        rw [ht] at hw
        cases hw
      simp [hut, hout]
    · rfl
  · constructor
    · intro hl
      cases hl
    · rintro (⟨key', hk⟩ | ⟨u, key', hne, hu⟩)
      · cases hk
      · exact absurd (h.sole u t key' key id hu ht) hne

omit [DecidableEq τ] in
/-- The registry forgets locks that nobody uses. -/
theorem sane_cleanup (h : p.Sane) (key : LockKey) (id : Nat) : (p.cleanupReconcileLock key id).Sane := by
  rw [cleanupReconcileLock]
  split
  · exact h
  · next current hcur =>
    split
    · exact h
    · split
      · exact h
      · next hfree =>
        split
        · exact h
        · next hnone =>
          simp only [ne_eq, not_not] at hnone
          have hkept : ∀ key' id', p.registry key' = some id' → id' ≠ current →
              (p.setRegistry key none).registry key' = some id' := by
            intro key' id' hk hne
            simp only [setRegistry]
            split
            · next hkey =>
              rw [hkey, hcur] at hk
              exact absurd (Option.some.inj hk).symm hne
            · exact hk
          have hold : ∀ key' id', (p.setRegistry key none).registry key' = some id' → p.registry key' = some id' := by
            intro key' id' hk
            simp only [setRegistry] at hk
            split at hk
            · cases hk
            · exact hk
          constructor
          · exact fun key' id' hk => h.fresh key' id' (hold key' id' hk)
          · exact fun key' key'' id' hk hk' => h.own key' key'' id' (hold key' id' hk) (hold key'' id' hk')
          · exact h.orderly
          · intro u key' id' hu
            obtain ⟨hr, hmem⟩ := h.waiting u key' id' hu
            refine ⟨hkept key' id' hr ?_, hmem⟩
            rintro rfl
            simp [FairLock.queue, hnone] at hmem
          · exact h.queued
          · intro u key' id' hu
            obtain ⟨hr, hl⟩ := h.inside u key' id' hu
            refine ⟨hkept key' id' hr ?_, hl⟩
            rintro rfl
            exact hfree hl
          · exact h.held
          · exact h.sole

theorem used_other {l : FairLock τ} {s : LockStage} (h : p.Sane) (hr : p.registry key = some id)
    {key' : LockKey} (hk : key' ≠ key) (hu : p.Used key') : ((p.setLock id l).setStage t s).Used key' := by
  intro id' hid'
  have hne : id' ≠ id := fun he => hk (h.own key' key id (he ▸ hid') hr)
  simp only [setStage, setLock, if_neg hne]
  exact hu id' hid'

omit [DecidableEq τ] in
theorem used_cleanup (hr : p.registry key = some id) (hu : ∀ key', key' ≠ key → p.Used key') (key' : LockKey) :
    (p.cleanupReconcileLock key id).Used key' := by
  have hkey : (p.lock id).locked = true ∨ (p.lock id).waiters ≠ [] → p.Used key' := by
    intro hbusy
    by_cases hk : key' = key
    · subst hk
      intro id' hid'
      rw [hr] at hid'
      cases hid'
      exact hbusy
    · exact hu key' hk
  rw [cleanupReconcileLock, hr]
  dsimp only
  rw [if_neg (by simp)]
  split
  · next hl => exact hkey (.inl hl)
  · split
    · next hw => exact hkey (.inr hw)
    · intro id' hid'
      simp only [setRegistry] at hid'
      split at hid'
      · cases hid'
      · next hk => exact hu key' hk id' hid'

theorem sane_resume {r : Process τ × Bool} (h : p.Sane) (hr : p.resume t = some r) : r.1.Sane := by
  rw [resume] at hr
  split at hr
  · next key id ht =>
    obtain ⟨⟨l, got⟩, hl, rfl⟩ := Option.map_eq_some_iff.mp hr
    cases got with
    | true => exact sane_got h ht hl
    | false => exact sane_cleanup (sane_left h ht hl) key id
  · cases hr

/-- Leaving releases the lock and cleans up behind it. -/
theorem sane_exit (h : p.Sane) (t : τ) : (p.exit t).Sane := by
  rw [exit]
  split
  · next key id ht => exact sane_cleanup (sane_released h ht) key id
  · exact h

structure Tidy (p : Process τ) : Prop where
  sane : p.Sane
  used : ∀ key, p.Used key

theorem tidy_enter (h : p.Tidy) (ht : p.stage t = .outside) (key : LockKey) : (p.enter t key).Tidy := by
  refine ⟨sane_enter h.sane ht key, fun key' => ?_⟩
  have hr := getReconcileLock_registry p key
  by_cases hk : key' = key
  · subst hk
    intro id hid
    have hid' : (p.getReconcileLock key').2 = id := Option.some.inj (hr.symm.trans hid)
    simp only [enter, enterLock, setStage, setLock, hid', if_true]
    exact FairLock.enter_used
  · refine used_other (sane_getReconcileLock h.sane key) hr hk fun id hid => ?_
    have hsame : (p.getReconcileLock key).1.registry key' = p.registry key' := by
      rw [getReconcileLock]
      split
      · rfl
      · simp [setRegistry, setLock, hk]
    rw [hsame] at hid
    have hlock : (p.getReconcileLock key).1.lock id = p.lock id := by
      rw [getReconcileLock]
      split
      · rfl
      · have hne := Nat.ne_of_lt (h.sane.fresh key' id hid)
        simp [setRegistry, setLock, hne]
    rw [hlock]
    exact h.used key' id hid

theorem tidy_cancel (h : p.Tidy) (t : τ) : (p.cancel t).Tidy := by
  refine ⟨sane_cancel h.sane t, fun key id hid => ?_⟩
  have hused : p.registry key = some id → (p.lock id).locked = true ∨ (p.lock id).waiters ≠ [] := h.used key id
  rw [cancel] at hid ⊢
  split
  · next key' id' ht =>
    rw [ht] at hid
    simp only [setLock] at hid ⊢
    split
    · next he =>
      subst he
      simpa [FairLock.cancel] using hused hid
    · exact hused hid
  · next hno =>
    split at hid
    · next key' id' ht => exact absurd ht (hno key' id')
    · exact hused hid

/-- After a wait or a section that has ended, the registry is cleaned up. -/
theorem tidy_cleanup {l : FairLock τ} (h : p.Tidy) (hr : p.registry key = some id)
    (hs : ((p.setLock id l).setStage t .outside).Sane) :
    (((p.setLock id l).setStage t .outside).cleanupReconcileLock key id).Tidy :=
  ⟨sane_cleanup hs key id, used_cleanup hr fun _ hk => used_other h.sane hr hk (h.used _)⟩

theorem tidy_resume {r : Process τ × Bool} (h : p.Tidy) (hr : p.resume t = some r) : r.1.Tidy := by
  rw [resume] at hr
  split at hr
  · next key id ht =>
    obtain ⟨⟨l, got⟩, hl, rfl⟩ := Option.map_eq_some_iff.mp hr
    have hreg := (h.sane.waiting t key id ht).1
    cases got with
    | true =>
      refine ⟨sane_got h.sane ht hl, fun key' => ?_⟩
      by_cases hk : key' = key
      · subst hk
        intro id' hid'
        have hid : id' = id := Option.some.inj (hid'.symm.trans hreg)
        subst hid
        have hlocked : l.locked = true := (FairLock.resume_got (h.sane.orderly id') hl).2
        simp [setStage, setLock, hlocked]
      · exact used_other h.sane hreg hk (h.used key')
    | false => exact tidy_cleanup h hreg (sane_left h.sane ht hl)
  · cases hr

theorem tidy_exit (h : p.Tidy) (t : τ) : (p.exit t).Tidy := by
  rw [exit]
  split
  · next key id ht => exact tidy_cleanup h (h.sane.inside t key id ht).1 (sane_released h.sane ht)
  · exact h

/-- The step: no event leaves an unused lock in the registry. -/
theorem tidy_step (h : p.Tidy) (e : LockEvent τ) : (p.step e).Tidy := by
  cases e with
  | enter t key =>
    rw [step]
    split
    · next ht => exact tidy_enter h ht key
    · exact h
  | cancel t => exact tidy_cancel h t
  | resume t =>
    rw [step]
    cases hr : p.resume t with
    | none => exact h
    | some r => exact tidy_resume h hr
  | exit t => exact tidy_exit h t

/-- The run: so it is after any events. -/
theorem tidy_after (events : List (LockEvent τ)) : ((new τ).after events).Tidy := by
  have hrun : ∀ p : Process τ, p.Tidy → (p.after events).Tidy := by
    induction events with
    | nil => exact fun _ h => h
    | cons e events ih => exact fun p h => ih (p.step e) (tidy_step h e)
  refine hrun _ ⟨sane_new, fun key id hid => ?_⟩
  cases hid

/-- The lock that a task has or waits for. -/
def uses (p : Process τ) (t : τ) (key : LockKey) (id : Nat) : Prop :=
  p.stage t = .waiting key id ∨ p.stage t = .inside key id

/-- What the handlers rely on: tasks of one key that overlap share their lock, and one of
them at most is inside; a lock is registered as long as somebody uses it and no longer, and
while it is, its holder or a waiter that can run makes the next step. -/
structure Guarded (p : Process τ) : Prop where
  shared : ∀ t t' key id id', p.uses t key id → p.uses t' key id' → id = id'
  exclusive : ∀ t t' key id id', p.stage t = .inside key id → p.stage t' = .inside key id' → t = t'
  registered : ∀ key id, p.registry key = some id ↔ ∃ t, p.uses t key id
  awake : ∀ key id, p.registry key = some id → ∃ t, p.stage t = .inside key id ∨
    p.stage t = .waiting key id ∧ (p.resume t).isSome = true

omit [DecidableEq τ] in
theorem Sane.registered (h : p.Sane) (hu : p.uses t key id) : p.registry key = some id := by
  obtain hw | hi := hu
  · exact (h.waiting t key id hw).1
  · exact (h.inside t key id hi).1

/-- Somebody is inside a registered lock, or has been woken for it. -/
theorem Tidy.awake (h : p.Tidy) (hr : p.registry key = some id) : ∃ t, p.stage t = .inside key id ∨
    p.stage t = .waiting key id ∧ (p.resume t).isSome = true := by
  have hlt := h.sane.fresh key id hr
  cases hl : (p.lock id).locked with
  | true =>
    obtain ⟨t, key', ht⟩ := h.sane.held id hl hlt
    have hkey : key' = key := h.sane.own key' key id (h.sane.inside t key' id ht).1 hr
    exact ⟨t, .inl (hkey ▸ ht)⟩
  | false =>
    cases hw : (p.lock id).waiters with
    | nil =>
      obtain hl' | hw' := h.used key id hr
      · rw [hl] at hl'
        cases hl'
      · exact absurd hw hw'
    | cons w ws =>
      have hmem : w.1 ∈ (p.lock id).queue := by simp [FairLock.queue, hw]
      obtain ⟨key', ht⟩ := h.sane.queued w.1 id hmem hlt
      have hkey : key' = key := h.sane.own key' key id (h.sane.waiting w.1 key' id ht).1 hr
      subst hkey
      refine ⟨w.1, .inr ⟨ht, ?_⟩⟩
      rw [resume, ht]
      simpa using FairLock.first_runs (h.sane.orderly id) hl hw

/-- In every run of handlers that start, wait, are cancelled and end in any order. -/
theorem reconcile_locks_guarded (events : List (LockEvent τ)) : ((new τ).after events).Guarded := by
  have h := tidy_after events
  generalize (new τ).after events = p at h
  constructor
  · intro t t' key id id' hu hu'
    exact Option.some.inj ((h.sane.registered hu).symm.trans (h.sane.registered hu'))
  · intro t t' key id id' ht ht'
    have hid : id = id' := Option.some.inj
      ((h.sane.inside t key id ht).1.symm.trans (h.sane.inside t' key id' ht').1)
    subst hid
    exact h.sane.sole t t' key key id ht ht'
  · intro key id
    constructor
    · intro hr
      obtain ⟨t, hi | ⟨hw, -⟩⟩ := h.awake hr
      · exact ⟨t, .inr hi⟩
      · exact ⟨t, .inl hw⟩
    · rintro ⟨t, hu⟩
      exact h.sane.registered hu
  · exact fun key id hr => h.awake hr

omit [DecidableEq τ] in
theorem stage_cleanup (p : Process τ) (key : LockKey) (id : Nat) : (p.cleanupReconcileLock key id).stage = p.stage := by
  rw [cleanupReconcileLock]
  split
  · rfl
  · split
    · rfl
    · split
      · rfl
      · split <;> rfl

theorem stage_cancel (p : Process τ) (t : τ) : (p.cancel t).stage = p.stage := by
  rw [cancel]
  split <;> rfl

theorem stage_enter (p : Process τ) (t : τ) (key : LockKey) : ∃ id, (p.enter t key).stage t = .inside key id ∨
    (p.enter t key).stage t = .waiting key id := by
  refine ⟨(p.getReconcileLock key).2, ?_⟩
  simp only [enter, enterLock, setStage, if_true]
  split
  · exact .inl rfl
  · exact .inr rfl

theorem stage_enter_other {u : τ} (hu : u ≠ t) (key : LockKey) : (p.enter t key).stage u = p.stage u := by
  simp [enter, enterLock, setStage, setLock, hu, getReconcileLock_stage]

theorem stage_exit_other {u : τ} (hu : u ≠ t) : (p.exit t).stage u = p.stage u := by
  rw [exit]
  split
  · simp [stage_cleanup, setStage, setLock, hu]
  · rfl

theorem stage_resume_other {r : Process τ × Bool} {u : τ} (hr : p.resume t = some r) (hu : u ≠ t) :
    r.1.stage u = p.stage u := by
  rw [resume] at hr
  split at hr
  · obtain ⟨⟨l, got⟩, -, rfl⟩ := Option.map_eq_some_iff.mp hr
    cases got with
    | true => simp [setStage, setLock, hu]
    | false => simp [stage_cleanup, setStage, setLock, hu]
  · cases hr

theorem stage_resume_got {q : Process τ} (hr : p.resume t = some (q, true)) (ht : p.stage t = .waiting key id) :
    q.stage t = .inside key id := by
  rw [resume, ht] at hr
  obtain ⟨⟨l, got⟩, -, hq⟩ := Option.map_eq_some_iff.mp hr
  cases got with
  | true =>
    cases hq
    simp [setStage]
  | false => cases hq

/-- The second waiter is cancelled after it was woken, and the third one gets the lock. -/
example : ((new Nat).after [.enter 1 [], .enter 2 [], .enter 3 [], .exit 1, .cancel 2, .resume 2, .resume 3]).stage 3 =
    .inside [] 0 := rfl

end Process

end CapiSsh.ReconcileLocks
