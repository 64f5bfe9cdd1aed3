import Mathlib.Data.List.Basic
import Mathlib.Data.List.Nodup

/-!
# The lock of an event loop

A task that finds the lock taken, or somebody waiting, queues a future and sleeps on it.
A release wakes the first waiter, which takes the lock when it runs again. A waiter can be
cancelled before it is woken, and also after that, while it is still to run.
-/
namespace FairLock

/-- The future of a waiter. `interrupted` is one that was woken and then cancelled. -/
inductive Wait where
  | pending
  | woken
  | cancelled
  | interrupted
  deriving DecidableEq, Repr

def Wait.isWoken : Wait → Bool
  | .woken | .interrupted => true
  | .pending | .cancelled => false

def Wait.cancel : Wait → Wait
  | .pending | .cancelled => .cancelled
  | .woken | .interrupted => .interrupted

/-- The first waiter is woken, unless its future is done already. -/
def wakeFirst {κ : Type} : List (κ × Wait) → List (κ × Wait)
  | (k, .pending) :: l => (k, .woken) :: l
  | l => l

end FairLock

structure FairLock (κ : Type) where
  locked : Bool
  waiters : List (κ × FairLock.Wait)
  deriving DecidableEq, Repr

namespace FairLock

variable {κ : Type} [DecidableEq κ]

def new : FairLock κ := ⟨false, []⟩

def queue (l : FairLock κ) : List κ := l.waiters.map Prod.fst

/-- Nobody has the lock, and all who wait for it are cancelled. -/
def admits (l : FairLock κ) : Bool := !l.locked && l.waiters.all fun w => w.2 == .cancelled

/-- The lock is taken at once, or a future is queued. -/
def enter (l : FairLock κ) (k : κ) : FairLock κ × Bool :=
  if l.admits then ({ l with locked := true }, true)
  else ({ l with waiters := l.waiters ++ [(k, .pending)] }, false)

def release (l : FairLock κ) : FairLock κ := ⟨false, wakeFirst l.waiters⟩

def cancelWaiter (k : κ) (w : κ × Wait) : κ × Wait := if w.1 = k then (w.1, w.2.cancel) else w

def cancel (l : FairLock κ) (k : κ) : FairLock κ := { l with waiters := l.waiters.map (cancelWaiter k) }

def without (k : κ) (ws : List (κ × Wait)) : List (κ × Wait) := ws.eraseP fun w => w.1 == k

def future (l : FairLock κ) (k : κ) : Option Wait := (l.waiters.find? fun w => w.1 == k).map Prod.snd

/-- A waiter whose future is done runs again: it gets the lock, or leaves and passes the
turn on. -/
def resume (l : FairLock κ) (k : κ) : Option (FairLock κ × Bool) :=
  match l.future k with
  | none | some .pending => none
  | some .woken => some (⟨true, without k l.waiters⟩, true)
  | some .cancelled | some .interrupted =>
    some (⟨l.locked, if l.locked then without k l.waiters else wakeFirst (without k l.waiters)⟩, false)

/-- Only the first waiter can be woken, and is only while the lock is free. -/
inductive Queued (locked : Bool) : List (κ × Wait) → Prop where
  | nil : Queued locked []
  | cons {w : κ × Wait} {l : List (κ × Wait)} : (w.2.isWoken = true → locked = false) →
      (w.2 = .pending → locked = true) → (∀ u ∈ l, u.2.isWoken = false) → Queued locked (w :: l)

structure Orderly (l : FairLock κ) : Prop where
  queued : Queued l.locked l.waiters
  distinct : l.queue.Nodup

variable {l : FairLock κ} {k k' : κ} {ws : List (κ × Wait)} {locked : Bool}

omit [DecidableEq κ] in
theorem orderly_new : (new : FairLock κ).Orderly := ⟨.nil, List.nodup_nil⟩

omit [DecidableEq κ] in
theorem wakeFirst_keys (ws : List (κ × Wait)) : (wakeFirst ws).map Prod.fst = ws.map Prod.fst := by
  cases ws with
  | nil => rfl
  | cons w ws =>
    obtain ⟨k, f⟩ := w
    cases f <;> rfl

theorem without_keys (k : κ) (ws : List (κ × Wait)) : (without k ws).map Prod.fst = (ws.map Prod.fst).erase k := by
  induction ws with
  | nil => rfl
  | cons w ws ih =>
    by_cases hw : w.1 = k
    · simp [without, hw]
    · simpa [without, hw, List.erase_cons] using ih

omit [DecidableEq κ] in
theorem queue_enter_got (h : (l.enter k).2 = true) : (l.enter k).1.queue = l.queue := by
  rw [enter] at h ⊢
  split at h
  · next ha =>
    rw [if_pos ha]
    rfl
  · cases h

omit [DecidableEq κ] in
/-- Whoever has to wait waits behind the others. -/
theorem queue_enter_waits (h : (l.enter k).2 = false) : (l.enter k).1.queue = l.queue ++ [k] := by
  rw [enter] at h ⊢
  split at h
  · cases h
  · next ha => simp [ha, queue]

omit [DecidableEq κ] in
/-- A release wakes without removing anybody. -/
theorem queue_release : l.release.queue = l.queue := wakeFirst_keys l.waiters

theorem queue_cancel : (l.cancel k).queue = l.queue := by
  simp only [queue, cancel, List.map_map]
  apply List.map_congr_left
  intro w _
  simp only [Function.comp_apply, cancelWaiter]
  split <;> rfl

theorem queue_resume {r : FairLock κ × Bool} (h : l.resume k = some r) : r.1.queue = l.queue.erase k := by
  rw [resume] at h
  split at h
  · cases h
  · cases h
  · cases h
    exact without_keys k l.waiters
  all_goals
    cases h
    simp only [queue]
    split
    · exact without_keys k l.waiters
    · rw [wakeFirst_keys, without_keys]

theorem mem_of_resume {r : FairLock κ × Bool} (h : l.resume k = some r) : k ∈ l.queue := by
  rw [resume, future] at h
  cases hf : l.waiters.find? fun w => w.1 == k with
  | none => simp [hf] at h
  | some w =>
    have hw : w.1 = k := by simpa using List.find?_some hf
    exact List.mem_map.mpr ⟨w, List.mem_of_find?_eq_some hf, hw⟩

omit [DecidableEq κ] in
theorem queued_head {w : κ × Wait} (h : Queued locked (w :: ws)) : ∀ u ∈ ws, u.2.isWoken = false := by
  cases h with
  | cons _ _ hr => exact hr

omit [DecidableEq κ] in
/-- A queue without a woken waiter is in order behind a taken lock, and when its first
waiter is woken. -/
theorem queued_locked (h : ∀ u ∈ ws, u.2.isWoken = false) : Queued true ws := by
  cases ws with
  | nil => exact .nil
  | cons w ws =>
    refine .cons (fun hw => ?_) (fun _ => rfl) fun u hu => h u (List.mem_cons_of_mem _ hu)
    rw [h w List.mem_cons_self] at hw
    cases hw

omit [DecidableEq κ] in
/-- At most the first is woken. -/
theorem queued_wakeFirst (h : ∀ u ∈ ws, u.2.isWoken = false) : Queued false (wakeFirst ws) := by
  cases ws with
  | nil => exact .nil
  | cons w ws =>
    obtain ⟨k, f⟩ := w
    have hrest : ∀ u ∈ ws, u.2.isWoken = false := fun u hu => h u (List.mem_cons_of_mem _ hu)
    cases f with
    | pending => exact .cons (fun _ => rfl) (by simp) hrest
    | woken => exact .cons (fun _ => rfl) (by simp) hrest
    | cancelled => exact .cons (fun _ => rfl) (by simp) hrest
    | interrupted => exact .cons (fun _ => rfl) (by simp) hrest

omit [DecidableEq κ] in
theorem unwoken_of_locked (h : Queued true ws) : ∀ u ∈ ws, u.2.isWoken = false := by
  intro u hu
  cases h with
  | nil => cases hu
  | @cons w _ hw _ hr =>
    obtain rfl | hu := List.mem_cons.mp hu
    · cases hf : u.2.isWoken with
      | false => rfl
      | true => cases hw hf
    · exact hr u hu

omit [DecidableEq κ] in
/-- Entering, releasing, cancelling and resuming keep the order. -/
theorem orderly_enter (h : l.Orderly) (hk : k ∉ l.queue) : (l.enter k).1.Orderly := by
  rw [enter]
  split
  · next ha =>
    simp only [admits, Bool.and_eq_true, Bool.not_eq_true', List.all_eq_true, beq_iff_eq] at ha
    refine ⟨queued_locked fun u hu => ?_, h.distinct⟩
    rw [ha.2 u hu]
    rfl
  · next ha =>
    refine ⟨?_, ?_⟩
    · have hq := h.queued
      cases hw : l.waiters with
      | nil =>
        have hlocked : l.locked = true := by simpa [admits, hw] using ha
        exact .cons (by simp [Wait.isWoken]) (fun _ => hlocked) (by simp)
      | cons w ws =>
        rw [hw] at hq
        cases hq with
        | cons hwoken hpending hrest =>
          refine .cons hwoken hpending fun u hu => ?_
          obtain hu | hu := List.mem_append.mp hu
          · exact hrest u hu
          · rw [List.mem_singleton.mp hu]
            rfl
    · simp only [queue, List.map_append, List.map_cons, List.map_nil]
      refine List.nodup_append.mpr ⟨h.distinct, List.nodup_singleton k, ?_⟩
      intro a ha b hb
      rw [List.mem_singleton.mp hb]
      exact ne_of_mem_of_not_mem ha hk

omit [DecidableEq κ] in
theorem orderly_release (h : l.Orderly) (hl : l.locked = true) : l.release.Orderly := by
  refine ⟨queued_wakeFirst (unwoken_of_locked (hl ▸ h.queued)), ?_⟩
  rw [queue_release]
  exact h.distinct

theorem isWoken_cancel (f : Wait) : f.cancel.isWoken = f.isWoken := by cases f <;> rfl

theorem cancelWaiter_isWoken (k : κ) (w : κ × Wait) : (cancelWaiter k w).2.isWoken = w.2.isWoken := by
  rw [cancelWaiter]
  split
  · exact isWoken_cancel w.2
  · rfl

theorem orderly_cancel (h : l.Orderly) : (l.cancel k).Orderly := by
  refine ⟨?_, ?_⟩
  · rw [cancel]
    have hq := h.queued
    cases hw : l.waiters with
    | nil => exact .nil
    | cons w ws =>
      rw [hw] at hq
      cases hq with
      | cons hwoken hpending hrest =>
        refine .cons ?_ ?_ ?_
        · rwa [cancelWaiter_isWoken]
        · intro hp
          apply hpending
          rw [cancelWaiter] at hp
          split at hp
          · cases hf : w.2 <;> simp [hf, Wait.cancel] at hp
          · exact hp
        · intro u hu
          obtain ⟨v, hv, rfl⟩ := List.mem_map.mp hu
          rw [cancelWaiter_isWoken]
          exact hrest v hv
  · rw [queue_cancel]
    exact h.distinct

/-- A woken waiter is the first one, and the lock is free. -/
theorem woken_first {f : Wait} (h : Queued locked ws) (hf : (ws.find? fun w => w.1 == k) = some (k, f))
    (hw : f.isWoken = true) : locked = false ∧ ∃ rest, ws = (k, f) :: rest := by
  cases h with
  | nil => cases hf
  | @cons w rest hwoken hpending hrest =>
    by_cases hk : w.1 = k
    · have hsame : w = (k, f) := by simpa [hk] using hf
      subst hsame
      exact ⟨hwoken hw, rest, rfl⟩
    · have hmem : (k, f) ∈ rest := by
        rw [List.find?_cons_of_neg (by simpa using hk)] at hf
        exact List.mem_of_find?_eq_some hf
      rw [hrest _ hmem] at hw
      cases hw

theorem future_eq {f : Wait} (h : l.future k = some f) : (l.waiters.find? fun w => w.1 == k) = some (k, f) := by
  obtain ⟨w, hw, rfl⟩ := Option.map_eq_some_iff.mp h
  have hk : w.1 = k := by simpa using List.find?_some hw
  rw [hw, ← hk]

theorem unwoken_without (h : Queued locked ws) (hl : locked = true ∨ ∃ w rest, ws = w :: rest ∧ w.1 = k) :
    ∀ u ∈ without k ws, u.2.isWoken = false := by
  intro u hu
  obtain rfl | ⟨w, rest, rfl, rfl⟩ := hl
  · exact unwoken_of_locked h u (List.mem_of_mem_eraseP hu)
  · have hrest : u ∈ rest := by simpa [without] using hu
    exact queued_head h u hrest

/-- Who leaves a free lock from behind the first waiter finds that one awake. -/
theorem wakeFirst_behind {w : κ × Wait} (h : Queued false (w :: ws)) (hk : w.1 ≠ k) :
    Queued false (wakeFirst (without k (w :: ws))) := by
  cases h with
  | cons hwoken hpending hrest =>
    have hw : without k (w :: ws) = w :: without k ws := by simp [without, hk]
    have hdone : wakeFirst (w :: without k ws) = w :: without k ws := by
      obtain ⟨j, f⟩ := w
      cases f with
      | pending => cases hpending rfl
      | woken => rfl
      | cancelled => rfl
      | interrupted => rfl
    rw [hw, hdone]
    exact .cons hwoken hpending fun u hu => hrest u (List.mem_of_mem_eraseP hu)

theorem queued_passed (h : Queued locked ws) (hk : k ∈ ws.map Prod.fst) :
    Queued locked (if locked then without k ws else wakeFirst (without k ws)) := by
  cases locked with
  | true => exact queued_locked (unwoken_without h (.inl rfl))
  | false =>
    cases ws with
    | nil => cases hk
    | cons w ws =>
      by_cases hw : w.1 = k
      · exact queued_wakeFirst (unwoken_without h (.inr ⟨w, ws, rfl, hw⟩))
      · exact wakeFirst_behind h hw

theorem orderly_resume {r : FairLock κ × Bool} (h : l.Orderly) (hr : l.resume k = some r) : r.1.Orderly := by
  have hk := mem_of_resume hr
  refine ⟨?_, ?_⟩
  · rw [resume] at hr
    split at hr
    · cases hr
    · cases hr
    · next hf =>
      cases hr
      obtain ⟨-, rest, hrest⟩ := woken_first h.queued (future_eq hf) rfl
      exact queued_locked (unwoken_without h.queued (.inr ⟨_, rest, hrest, rfl⟩))
    all_goals
      cases hr
      exact queued_passed h.queued hk
  · rw [queue_resume hr]
    exact h.distinct.erase k

/-- Whoever gets the lock when it runs again finds it free, -/
theorem resume_got {l' : FairLock κ} (h : l.Orderly) (hr : l.resume k = some (l', true)) :
    l.locked = false ∧ l'.locked = true := by
  rw [resume] at hr
  split at hr
  · cases hr
  · cases hr
  · next hf =>
    cases hr
    exact ⟨(woken_first h.queued (future_eq hf) rfl).1, rfl⟩
  · cases hr
  · cases hr

/-- and who does not leaves it as it was. -/
theorem resume_left {l' : FairLock κ} (hr : l.resume k = some (l', false)) : l'.locked = l.locked := by
  rw [resume] at hr
  split at hr <;> cases hr <;> rfl

omit [DecidableEq κ] in
theorem enter_got (h : (l.enter k).2 = true) : l.locked = false ∧ (l.enter k).1.locked = true := by
  rw [enter] at h ⊢
  split at h
  · next ha =>
    rw [if_pos ha]
    simp only [admits, Bool.and_eq_true, Bool.not_eq_true'] at ha
    exact ⟨ha.1, rfl⟩
  · cases h

omit [DecidableEq κ] in
theorem enter_waits (h : (l.enter k).2 = false) : (l.enter k).1.locked = l.locked := by
  rw [enter] at h ⊢
  split at h
  · cases h
  · next ha => rw [if_neg ha]

omit [DecidableEq κ] in
/-- A lock that was entered is in use. -/
theorem enter_used : (l.enter k).1.locked = true ∨ (l.enter k).1.waiters ≠ [] := by
  rw [enter]
  split
  · exact .inl rfl
  · exact .inr (by simp)

/-- No wake-up is lost: the first waiter for a free lock can run. -/
theorem first_runs (h : l.Orderly) (hl : l.locked = false) {w : κ × Wait} {ws : List (κ × Wait)}
    (hw : l.waiters = w :: ws) : (l.resume w.1).isSome = true := by
  have hf : l.future w.1 = some w.2 := by simp [future, hw]
  have hq := h.queued
  rw [hw] at hq
  cases hq with
  | cons _ hpending _ =>
    cases hw2 : w.2 with
    | pending =>
      rw [hpending hw2] at hl
      cases hl
    | woken => simp [resume, hf, hw2]
    | cancelled => simp [resume, hf, hw2]
    | interrupted => simp [resume, hf, hw2]

end FairLock
