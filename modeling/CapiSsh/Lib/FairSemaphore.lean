import Mathlib.Data.List.Basic

/-!
# The fair counting semaphore of an event loop

Free slots are counted in `value`. Who finds none waits in a queue of futures, one for
each waiter, and a released slot is handed to the first waiter whose future is not done
yet: it stays in the queue with its slot until it runs again.
-/
namespace FairSemaphore

/-- The future a waiter sleeps on. -/
inductive Waiter where
  | pending
  | granted
  | cancelled
  deriving DecidableEq, Repr

end FairSemaphore

structure FairSemaphore (κ : Type) where
  value : Nat
  waiters : List (κ × FairSemaphore.Waiter)
  deriving DecidableEq, Repr

namespace FairSemaphore

variable {κ : Type} [DecidableEq κ]

/-- A newcomer waits when there is no slot, or when a waiter is still to be served. -/
def locked (s : FairSemaphore κ) : Bool :=
  s.value == 0 || s.waiters.any fun w => w.2 != .cancelled

def take (s : FairSemaphore κ) : FairSemaphore κ := { s with value := s.value - 1 }

def enqueue (s : FairSemaphore κ) (k : κ) : FairSemaphore κ :=
  { s with waiters := s.waiters ++ [(k, .pending)] }

/-- The queue with its first pending waiter granted, when it has one. -/
def grant : List (κ × Waiter) → Option (List (κ × Waiter))
  | [] => none
  | (k, .pending) :: l => some ((k, .granted) :: l)
  | (k, .granted) :: l => (grant l).map ((k, .granted) :: ·)
  | (k, .cancelled) :: l => (grant l).map ((k, .cancelled) :: ·)

/-- Hand one slot to the first waiter that is not done. -/
def wake (s : FairSemaphore κ) : FairSemaphore κ :=
  match grant s.waiters with
  | some l => { value := s.value - 1, waiters := l }
  | none => s

/-- At most `n` slots are handed out. -/
def wakeUpTo : Nat → FairSemaphore κ → FairSemaphore κ
  | 0, s => s
  | n + 1, s => wakeUpTo n s.wake

/-- Hand out slots while there are any; once nobody can be woken, waking changes nothing. -/
def wakeAll (s : FairSemaphore κ) : FairSemaphore κ := wakeUpTo s.value s

def giveBack (s : FairSemaphore κ) : FairSemaphore κ := { s with value := s.value + 1 }

def release (s : FairSemaphore κ) : FairSemaphore κ := s.giveBack.wake

def waiter (s : FairSemaphore κ) (k : κ) : Option Waiter :=
  (s.waiters.find? fun w => w.1 == k).map (·.2)

/-- Cancelling a future that is done already does nothing. -/
def cancelled (k : κ) (w : κ × Waiter) : κ × Waiter :=
  if w.1 = k ∧ w.2 = .pending then (k, .cancelled) else w

def cancel (s : FairSemaphore κ) (k : κ) : FairSemaphore κ :=
  { s with waiters := s.waiters.map (cancelled k) }

def withdraw (s : FairSemaphore κ) (k : κ) : FairSemaphore κ :=
  { s with waiters := s.waiters.eraseP fun w => w.1 == k }

/-- The slots that are free or already belong to a waiter. -/
def slots (s : FairSemaphore κ) : Nat :=
  s.value + s.waiters.countP fun w => w.2 == .granted

variable {s : FairSemaphore κ} {k k' : κ} {v : Waiter} {l l' : List (κ × Waiter)}

omit [DecidableEq κ] in
/-- A wake-up grants one waiter. -/
theorem grant_count (h : grant l = some l') :
    l'.countP (fun w => w.2 == .granted) = l.countP (fun w => w.2 == .granted) + 1 := by
  induction l generalizing l' with
  | nil => simp [grant] at h
  | cons w l ih =>
    obtain ⟨k, v⟩ := w
    cases v with
    | pending =>
      simp only [grant, Option.some.injEq] at h
      subst h
      simp
    | granted =>
      simp only [grant, Option.map_eq_some_iff] at h
      obtain ⟨m, hm, rfl⟩ := h
      simp [ih hm]
    | cancelled =>
      simp only [grant, Option.map_eq_some_iff] at h
      obtain ⟨m, hm, rfl⟩ := h
      simp [ih hm]

omit [DecidableEq κ] in
theorem locked_value (h : s.locked = false) : 0 < s.value := by
  simp only [locked, Bool.or_eq_false_iff, beq_eq_false_iff_ne] at h
  omega

omit [DecidableEq κ] in
/-- Slots are counted over the value and the waiters that were granted: only taking and giving
back changes them. -/
theorem slots_take (h : 0 < s.value) : s.take.slots + 1 = s.slots := by
  simp only [slots, take]
  omega

omit [DecidableEq κ] in
theorem slots_enqueue : (s.enqueue k).slots = s.slots := by
  simp [slots, enqueue]

omit [DecidableEq κ] in
theorem slots_wake (h : 0 < s.value) : s.wake.slots = s.slots := by
  simp only [wake]
  cases hg : grant s.waiters with
  | none => rfl
  | some l =>
    simp only [slots, grant_count hg]
    omega

omit [DecidableEq κ] in
/-- Each round hands out one slot, so no round finds the semaphore without one. -/
theorem slots_wakeUpTo (n : Nat) (h : n ≤ s.value) : (wakeUpTo n s).slots = s.slots := by
  induction n generalizing s with
  | zero => rfl
  | succ n ih =>
    have hv : n ≤ s.wake.value := by
      simp only [wake]
      cases grant s.waiters with
      | none => exact Nat.le_of_succ_le h
      | some l => simp only; omega
    rw [wakeUpTo, ih hv, slots_wake (by omega)]

omit [DecidableEq κ] in
theorem slots_wakeAll : s.wakeAll.slots = s.slots := slots_wakeUpTo _ (Nat.le_refl _)

omit [DecidableEq κ] in
theorem slots_giveBack : s.giveBack.slots = s.slots + 1 := by
  simp only [slots, giveBack]
  omega

omit [DecidableEq κ] in
theorem slots_release : s.release.slots = s.slots + 1 := by
  rw [release, slots_wake (by simp [giveBack]), slots_giveBack]

theorem slots_cancel : (s.cancel k).slots = s.slots := by
  have hl : ∀ l : List (κ × Waiter), (l.map (cancelled k)).countP (fun w => w.2 == .granted) =
      l.countP fun w => w.2 == .granted := by
    intro l
    induction l with
    | nil => rfl
    | cons w l ih =>
      by_cases hw : w.1 = k ∧ w.2 = .pending
      · simp [cancelled, hw, ih]
      · simp [cancelled, hw, List.countP_cons, ih]
  simp [slots, cancel, hl]

/-- A waiter that leaves with a slot takes it out of the count, any other takes nothing. -/
theorem slots_withdraw (h : s.waiter k = some v) :
    (s.withdraw k).slots + (if v = .granted then 1 else 0) = s.slots := by
  have hl : ∀ l : List (κ × Waiter), (l.find? fun w => w.1 == k).map (·.2) = some v →
      (l.eraseP fun w => w.1 == k).countP (fun w => w.2 == .granted) +
        (if v = .granted then 1 else 0) = l.countP fun w => w.2 == .granted := by
    intro l hf
    induction l with
    | nil => simp at hf
    | cons w l ih =>
      by_cases hw : w.1 = k
      · have hv : w.2 = v := by simpa [hw] using hf
        simp [hw, List.countP_cons, ← hv]
      · have := ih (by simpa [hw] using hf)
        simp only [List.eraseP_cons, beq_iff_eq, hw, cond_eq_ite, if_false, List.countP_cons]
        omega
  have := hl s.waiters h
  simp only [slots, withdraw]
  omega

/-- A grant changes no future but the one it completes. -/
theorem waiter_grant (h : grant l = some l')
    (hk : (l.find? fun w => w.1 == k).map (·.2) ≠ some .pending) :
    (l'.find? fun w => w.1 == k).map (·.2) = (l.find? fun w => w.1 == k).map (·.2) := by
  induction l generalizing l' with
  | nil => simp [grant] at h
  | cons w l ih =>
    obtain ⟨j, v⟩ := w
    cases v with
    | pending =>
      simp only [grant, Option.some.injEq] at h
      subst h
      by_cases hj : j = k
      · simp [hj] at hk
      · simp [hj]
    | granted =>
      simp only [grant, Option.map_eq_some_iff] at h
      obtain ⟨m, hm, rfl⟩ := h
      by_cases hj : j = k
      · simp [hj]
      · simpa [hj] using ih hm (by simpa [hj] using hk)
    | cancelled =>
      simp only [grant, Option.map_eq_some_iff] at h
      obtain ⟨m, hm, rfl⟩ := h
      by_cases hj : j = k
      · simp [hj]
      · simpa [hj] using ih hm (by simpa [hj] using hk)

/-- A waiter that has its answer keeps it. -/
theorem waiter_wake (h : s.waiter k ≠ some .pending) : s.wake.waiter k = s.waiter k := by
  simp only [wake]
  cases hg : grant s.waiters with
  | none => rfl
  | some l => exact waiter_grant hg h

theorem waiter_wakeUpTo (n : Nat) (h : s.waiter k ≠ some .pending) :
    (wakeUpTo n s).waiter k = s.waiter k := by
  induction n generalizing s with
  | zero => rfl
  | succ n ih => rw [wakeUpTo, ih (by rwa [waiter_wake h]), waiter_wake h]

theorem waiter_wakeAll (h : s.waiter k ≠ some .pending) : s.wakeAll.waiter k = s.waiter k :=
  waiter_wakeUpTo _ h

theorem waiter_release (h : s.waiter k ≠ some .pending) : s.release.waiter k = s.waiter k :=
  waiter_wake h

theorem waiter_enqueue (hk : k' ≠ k) : (s.enqueue k').waiter k = s.waiter k := by
  simp [waiter, enqueue, List.find?_append, hk]

theorem waiter_enqueue_self (h : s.waiter k = none) :
    (s.enqueue k).waiter k = some .pending := by
  simp only [waiter, Option.map_eq_none_iff] at h
  simp [waiter, enqueue, h]

theorem waiter_withdraw (hk : k' ≠ k) : (s.withdraw k').waiter k = s.waiter k := by
  have hl : ∀ l : List (κ × Waiter),
      (l.eraseP fun w => w.1 == k').find? (fun w => w.1 == k) = l.find? fun w => w.1 == k := by
    intro l
    induction l with
    | nil => rfl
    | cons w l ih =>
      by_cases hw : w.1 = k'
      · simp [hw, hk]
      · by_cases hw' : w.1 = k
        · subst hw'
          simp [hw]
        · simp [hw, hw', ih]
  simp only [waiter, withdraw, hl]

/-- After a cancellation the future is cancelled, unless it was done before. -/
theorem waiter_cancel : (s.cancel k).waiter k =
    (s.waiter k).map fun v => if v = .pending then .cancelled else v := by
  have hl : ∀ l : List (κ × Waiter), ((l.map (cancelled k)).find? fun w => w.1 == k).map (·.2) =
      ((l.find? fun w => w.1 == k).map (·.2)).map fun v => if v = .pending then .cancelled else v := by
    intro l
    induction l with
    | nil => rfl
    | cons w l ih =>
      by_cases hw : w.1 = k
      · by_cases hv : w.2 = .pending <;> simp [cancelled, hw, hv]
      · simpa [cancelled, hw] using ih
  exact hl s.waiters

/-- Cancellation concerns one waiter. -/
theorem waiter_cancel_ne (hk : k' ≠ k) : (s.cancel k').waiter k = s.waiter k := by
  have hl : ∀ l : List (κ × Waiter), ((l.map (cancelled k')).find? fun w => w.1 == k).map (·.2) =
      (l.find? fun w => w.1 == k).map (·.2) := by
    intro l
    induction l with
    | nil => rfl
    | cons w l ih =>
      by_cases hw : w.1 = k'
      · by_cases hv : w.2 = .pending <;> simpa [cancelled, hw, hv, hk] using ih
      · by_cases hw' : w.1 = k
        · subst hw'
          simp [cancelled, hw]
        · simpa [cancelled, hw, hw'] using ih
  exact hl s.waiters

end FairSemaphore
