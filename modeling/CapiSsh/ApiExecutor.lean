import CapiSsh.Lib.FairSemaphore

/-!
# `api_io.APIExecutor.run`

Synchronous SDK calls run in threads while their callers wait on one event loop. The loop
is modelled turn by turn: a caller moves only when the future it waits on is done, a
thread finishes at any moment, its outcome reaches the loop in a later turn, and
`Task.cancel` may be called on any caller between two turns.
-/
namespace CapiSsh

/-- The outer future of `asyncio.shield(future)`: it takes the inner outcome over, or a
cancellation of the caller settles it first. -/
inductive Shield (ε α : Type) where
  | pending
  | settled (outcome : Except ε α)
  | cancelled
  deriving DecidableEq, Repr

/-- The submitted function, in its thread. -/
inductive Job (ε α : Type) where
  | unsubmitted
  | running
  | finished (outcome : Except ε α)
  deriving DecidableEq, Repr

/-- How `run` ends for its caller: `asyncio.CancelledError`, or what the function did. -/
inductive Ending (ε α : Type) where
  | cancelled
  | outcome (o : Except ε α)
  deriving DecidableEq, Repr

/-- Where `run` stands: in `async with slots`, at `await asyncio.shield(future)` with or
without a `cancelled` it caught before, or at its end. -/
inductive Stage (ε α : Type) where
  | queued
  | awaiting (shield : Shield ε α) (caught : Bool)
  | ended (ending : Ending ε α)
  deriving DecidableEq, Repr

/-- One call of `run`, by the task that makes it. `future` is the inner future of
`run_in_executor`. `early` and `late` record that a cancellation was delivered to the
call before its submission, or after it. -/
structure Call (ε α : Type) where
  stage : Stage ε α
  mustCancel : Bool
  job : Job ε α
  future : Option (Except ε α)
  early : Bool
  late : Bool
  deriving DecidableEq, Repr

inductive CallTurn (ε α : Type) where
  | finish (outcome : Except ε α)
  | tell
  | settle
  | cancel
  | resume
  deriving DecidableEq, Repr

/-- A call begins, possibly in a task whose cancellation is already requested and takes
effect at its next await; or one of the calls so far takes a turn. -/
inductive LoopEvent (ε α : Type) where
  | start (cancelling : Bool)
  | turn (call : Nat) (t : CallTurn ε α)
  deriving DecidableEq, Repr

/-- The calls on one loop, keyed by their order, and the loop's entry in `self.slots`. -/
structure APIExecutor (ε α : Type) where
  slots : FairSemaphore Nat
  calls : List (Call ε α)
  deriving DecidableEq, Repr

variable {ε α : Type}

namespace Call

def queued : Call ε α := ⟨.queued, false, .unsubmitted, none, false, false⟩

/-- `loop.run_in_executor` and the first `await asyncio.shield(future)`; a cancellation
that is still owed is thrown into that await. -/
def submit (c : Call ε α) : Call ε α :=
  { c with
    stage := .awaiting (if c.mustCancel then .cancelled else .pending) false
    mustCancel := false
    job := .running
    late := c.mustCancel }

/-- The thread's work is over; its future has not heard of it. -/
def finish (c : Call ε α) (o : Except ε α) : Call ε α :=
  match c.job with
  | .running => { c with job := .finished o }
  | _ => c

/-- `call_soon_threadsafe`: the loop completes `future`. -/
def tell (c : Call ε α) : Call ε α :=
  match c.job with
  | .finished o => { c with future := some o }
  | _ => c

/-- The callback of `shield` on the inner future; an outer future that is done stays. -/
def settle (c : Call ε α) : Call ε α :=
  match c.stage, c.future with
  | .awaiting .pending caught, some o => { c with stage := .awaiting (.settled o) caught }
  | _, _ => c

def endWith (c : Call ε α) (e : Ending ε α) : Call ε α :=
  { c with stage := .ended e, mustCancel := false }

/-- `Task.cancel` on a caller: it cancels the future the task waits on, and where that
future is done already the task owes the cancellation to its next step. -/
def cancel (s : FairSemaphore Nat) (i : Nat) (c : Call ε α) : FairSemaphore Nat × Call ε α :=
  match c.stage with
  | .queued =>
    if s.waiter i = some .pending then (s.cancel i, { c with early := true })
    else (s, { c with mustCancel := true, early := true })
  | .awaiting .pending caught => (s, { c with stage := .awaiting .cancelled caught, late := true })
  | .awaiting _ _ => (s, { c with mustCancel := true, late := true })
  | .ended _ => (s, c)

/-- The `except asyncio.CancelledError` branch: a future that is done ends the call and
leaves `async with slots`, any other is awaited again. -/
def interrupted (s : FairSemaphore Nat) (c : Call ε α) : FairSemaphore Nat × Call ε α :=
  if c.future.isSome then (s.release, c.endWith .cancelled)
  else (s, { c with stage := .awaiting .pending true, mustCancel := false })

/-- The caller runs again. In `Semaphore.acquire` a cancelled caller gives back a slot it
was granted, and whoever leaves the queue wakes others while there are free slots. -/
def resume (s : FairSemaphore Nat) (i : Nat) (c : Call ε α) : FairSemaphore Nat × Call ε α :=
  match c.stage with
  | .queued =>
    match s.waiter i with
    | some .cancelled => ((s.withdraw i).wakeAll, c.endWith .cancelled)
    | some .granted =>
      if c.mustCancel then ((s.withdraw i).giveBack.wakeAll, c.endWith .cancelled)
      else ((s.withdraw i).wakeAll, c.submit)
    | _ => (s, c)
  | .awaiting .pending _ => (s, c)
  | .awaiting .cancelled _ => c.interrupted s
  | .awaiting (.settled o) caught =>
    if c.mustCancel then c.interrupted s
    else (s.release, c.endWith (if caught then .cancelled else .outcome o))
  | .ended _ => (s, c)

def turn (s : FairSemaphore Nat) (i : Nat) (c : Call ε α) :
    CallTurn ε α → FairSemaphore Nat × Call ε α
  | .finish o => (s, c.finish o)
  | .tell => (s, c.tell)
  | .settle => (s, c.settle)
  | .cancel => c.cancel s i
  | .resume => c.resume s i

end Call

namespace APIExecutor

def new (workers : Nat) : APIExecutor ε α := ⟨⟨workers, []⟩, []⟩

/-- `slots.acquire()` by a newcomer: it goes on at once, or waits in the queue. -/
def start (p : APIExecutor ε α) (cancelling : Bool) : APIExecutor ε α :=
  let i := p.calls.length
  if p.slots.locked then
    if cancelling then
      ⟨(p.slots.enqueue i).cancel i, p.calls ++ [{ Call.queued with early := true }]⟩
    else ⟨p.slots.enqueue i, p.calls ++ [Call.queued]⟩
  else ⟨p.slots.take, p.calls ++ [{ Call.queued with mustCancel := cancelling }.submit]⟩

def step (p : APIExecutor ε α) : LoopEvent ε α → APIExecutor ε α
  | .start cancelling => p.start cancelling
  | .turn i t =>
    match p.calls[i]? with
    | none => p
    | some c => ⟨(c.turn p.slots i t).1, p.calls.set i (c.turn p.slots i t).2⟩

def after (p : APIExecutor ε α) (events : List (LoopEvent ε α)) : APIExecutor ε α :=
  events.foldl step p

end APIExecutor

/-- A function that is submitted and has not finished. -/
def Call.unfinished (c : Call ε α) : Bool :=
  match c.job with
  | .running => true
  | _ => false

/-- The call holds one of the slots. -/
def Call.occupies (c : Call ε α) : Bool :=
  match c.stage with
  | .awaiting _ _ => true
  | _ => false

def APIExecutor.unfinished (p : APIExecutor ε α) : Nat := p.calls.countP Call.unfinished

/-- How a call whose function did `o` has to end. -/
def Call.due (c : Call ε α) (o : Except ε α) : Ending ε α :=
  if c.late then .cancelled else .outcome o

/-- What holds of a call at every moment, by where it stands. -/
def Call.Drained (s : FairSemaphore Nat) (i : Nat) (c : Call ε α) : Prop :=
  match c.stage with
  | .queued => c.job = .unsubmitted ∧ c.future = none ∧ c.late = false ∧
      (c.early = true → c.mustCancel = true ∨ s.waiter i = some .cancelled)
  | .awaiting shield caught => c.early = false ∧ c.job ≠ .unsubmitted ∧
      (∀ o, c.future = some o → c.job = .finished o) ∧
      (∀ o, shield = .settled o → c.future = some o) ∧
      (c.late = true ↔ caught = true ∨ shield = .cancelled ∨ c.mustCancel = true)
  | .ended e => (c.job = .unsubmitted ∧ e = .cancelled) ∨
      (c.early = false ∧ ∃ o, c.job = .finished o ∧ e = c.due o)

namespace Call

variable {s s' : FairSemaphore Nat} {i : Nat} {c : Call ε α}

theorem Drained.mono (h : c.Drained s i)
    (hs : s.waiter i = some .cancelled → s'.waiter i = some .cancelled) : c.Drained s' i := by
  obtain ⟨stage, must, job, future, early, late⟩ := c
  cases stage with
  | queued =>
    obtain ⟨hj, hf, hl, he⟩ := h
    exact ⟨hj, hf, hl, fun h => (he h).imp id hs⟩
  | awaiting shield caught => exact h
  | ended e => exact h

theorem drained_submit (hj : c.future = none) (he : c.early = false) : c.submit.Drained s i := by
  obtain ⟨stage, must, job, future, early, late⟩ := c
  simp only at hj he
  subst hj he
  cases must <;> simp [submit, Drained]

theorem drained_finish (o : Except ε α) (h : c.Drained s i) : (c.finish o).Drained s i := by
  obtain ⟨stage, must, job, future, early, late⟩ := c
  cases job with
  | unsubmitted => exact h
  | finished o' => exact h
  | running =>
    cases stage with
    | queued => simp [Drained] at h
    | ended e => simp [Drained] at h
    | awaiting shield caught =>
      obtain ⟨he, -, hf, hs, hl⟩ := h
      have hn : future = none := by
        cases future with
        | none => rfl
        | some o' => cases hf o' rfl
      subst hn
      exact ⟨he, by simp [finish], by simp [finish], hs, hl⟩

theorem drained_tell (h : c.Drained s i) : c.tell.Drained s i := by
  obtain ⟨stage, must, job, future, early, late⟩ := c
  cases job with
  | unsubmitted => exact h
  | running => exact h
  | finished o =>
    cases stage with
    | queued => simp [Drained] at h
    | ended e => exact h
    | awaiting shield caught =>
      obtain ⟨he, hj, hf, hs, hl⟩ := h
      refine ⟨he, hj, by simp [tell], fun o' ho => ?_, hl⟩
      cases hf o' (hs o' ho)
      rfl

theorem drained_settle (h : c.Drained s i) : c.settle.Drained s i := by
  obtain ⟨stage, must, job, future, early, late⟩ := c
  cases stage with
  | queued => exact h
  | ended e => exact h
  | awaiting shield caught =>
    cases shield with
    | settled o => exact h
    | cancelled => exact h
    | pending =>
      cases future with
      | none => exact h
      | some o =>
        obtain ⟨he, hj, hf, -, hl⟩ := h
        refine ⟨he, hj, hf, by simp [settle], ?_⟩
        simpa [settle] using hl

theorem drained_cancel (h : c.Drained s i) : (c.cancel s i).2.Drained (c.cancel s i).1 i := by
  obtain ⟨stage, must, job, future, early, late⟩ := c
  cases stage with
  | ended e => exact h
  | queued =>
    obtain ⟨hj, hf, hl, he⟩ := h
    by_cases hw : s.waiter i = some .pending
    · simp only [cancel, hw, if_pos]
      exact ⟨hj, hf, hl, fun _ => .inr (by rw [FairSemaphore.waiter_cancel, hw]; rfl)⟩
    · simp only [cancel, hw, if_false]
      exact ⟨hj, hf, hl, fun _ => .inl rfl⟩
  | awaiting shield caught =>
    obtain ⟨he, hj, hf, hs, hl⟩ := h
    cases shield <;> exact ⟨he, hj, hf, by simp_all [cancel], by simp [cancel]⟩

/-- A cancellation that is thrown into the await ends the call only with its function. -/
theorem drained_interrupted (he : c.early = false) (hj : c.job ≠ .unsubmitted)
    (hf : ∀ o, c.future = some o → c.job = .finished o) (hl : c.late = true) :
    (c.interrupted s).2.Drained (c.interrupted s).1 i := by
  obtain ⟨stage, must, job, future, early, late⟩ := c
  simp only at he hj hf hl
  subst he hl
  cases future with
  | none => exact ⟨rfl, hj, by simp [interrupted], by simp, by simp [interrupted]⟩
  | some o => exact .inr ⟨rfl, o, hf o rfl, by simp [due, interrupted, endWith]⟩

theorem drained_resume (h : c.Drained s i) : (c.resume s i).2.Drained (c.resume s i).1 i := by
  obtain ⟨stage, must, job, future, early, late⟩ := c
  cases stage with
  | ended e => exact h
  | queued =>
    obtain ⟨hj, hf, hl, he⟩ := h
    simp only at hj hf hl he
    subst hj hf hl
    cases hw : s.waiter i with
    | none => simpa [resume, hw, Drained] using he
    | some w =>
      cases w with
      | pending => simpa [resume, hw, Drained] using he
      | cancelled =>
        simp only [resume, hw]
        exact .inl ⟨rfl, rfl⟩
      | granted =>
        cases must with
        | true =>
          simp only [resume, hw, if_true]
          exact .inl ⟨rfl, rfl⟩
        | false =>
          -- a granted future was not cancelled, so nothing asked the call to stop
          have he' : early = false := by simpa [hw] using he
          simp only [resume, hw, Bool.false_eq_true, if_false]
          exact drained_submit rfl he'
  | awaiting shield caught =>
    have h' := h
    obtain ⟨he, hj, hf, hs, hl⟩ := h
    simp only at he hj hf hs hl
    cases shield with
    | pending => exact h'
    | cancelled => exact drained_interrupted he hj hf (hl.mpr (.inr (.inl rfl)))
    | settled o =>
      cases must with
      | true => exact drained_interrupted he hj hf (hl.mpr (.inr (.inr rfl)))
      | false =>
        refine .inr ⟨he, o, hf o (hs o rfl), ?_⟩
        have hl' : late = caught := by
          rw [Bool.eq_iff_iff, hl]
          simp
        simp [due, resume, endWith, hl']

/-- A turn of a call keeps it drained. -/
theorem drained_turn (t : CallTurn ε α) (h : c.Drained s i) :
    (c.turn s i t).2.Drained (c.turn s i t).1 i := by
  cases t with
  | finish o => exact drained_finish o h
  | tell => exact drained_tell h
  | settle => exact drained_settle h
  | cancel => exact drained_cancel h
  | resume => exact drained_resume h

@[simp] theorem occupies_finish (o : Except ε α) : (c.finish o).occupies = c.occupies := by
  obtain ⟨stage, must, job, future, early, late⟩ := c
  cases job <;> rfl

@[simp] theorem occupies_tell : c.tell.occupies = c.occupies := by
  obtain ⟨stage, must, job, future, early, late⟩ := c
  cases job <;> rfl

@[simp] theorem occupies_settle : c.settle.occupies = c.occupies := by
  obtain ⟨stage, must, job, future, early, late⟩ := c
  cases stage with
  | queued => rfl
  | ended e => rfl
  | awaiting shield caught => cases shield <;> cases future <;> rfl

theorem cancel_slots : (c.cancel s i).1.slots = s.slots := by
  obtain ⟨stage, must, job, future, early, late⟩ := c
  cases stage with
  | ended e => rfl
  | queued => by_cases hw : s.waiter i = some .pending <;> simp [cancel, hw, FairSemaphore.slots_cancel]
  | awaiting shield caught => cases shield <;> rfl

theorem occupies_cancel : (c.cancel s i).2.occupies = c.occupies := by
  obtain ⟨stage, must, job, future, early, late⟩ := c
  cases stage with
  | ended e => rfl
  | queued => by_cases hw : s.waiter i = some .pending <;> simp [cancel, hw, occupies]
  | awaiting shield caught => cases shield <;> rfl

/-- The slots that are free, granted or occupied by the call. -/
def share (s : FairSemaphore Nat) (c : Call ε α) : Nat := s.slots + if c.occupies then 1 else 0

theorem share_interrupted (h : c.occupies = true) :
    share (c.interrupted s).1 (c.interrupted s).2 = share s c := by
  obtain ⟨stage, must, job, future, early, late⟩ := c
  cases stage with
  | queued => cases h
  | ended e => cases h
  | awaiting shield caught =>
    cases future with
    | none => rfl
    | some o => simp [interrupted, share, occupies, endWith, FairSemaphore.slots_release]

theorem share_resume : share (c.resume s i).1 (c.resume s i).2 = share s c := by
  obtain ⟨stage, must, job, future, early, late⟩ := c
  cases stage with
  | ended e => rfl
  | queued =>
    cases hw : s.waiter i with
    | none => simp [resume, hw]
    | some w =>
      have hs := FairSemaphore.slots_withdraw hw
      cases w with
      | pending => simp [resume, hw]
      | cancelled =>
        simp only [reduceCtorEq, if_false] at hs
        simp [resume, hw, share, occupies, endWith, FairSemaphore.slots_wakeAll, ← hs]
      | granted =>
        simp only [if_true] at hs
        cases must with
        | true =>
          simp [resume, hw, share, occupies, endWith, FairSemaphore.slots_wakeAll,
            FairSemaphore.slots_giveBack, ← hs]
        | false =>
          simp [resume, hw, share, occupies, submit, FairSemaphore.slots_wakeAll, ← hs]
  | awaiting shield caught =>
    cases shield with
    | pending => rfl
    | cancelled => exact share_interrupted rfl
    | settled o =>
      cases must with
      | true => exact share_interrupted rfl
      | false => simp [resume, share, occupies, endWith, FairSemaphore.slots_release]

/-- A turn moves a slot between the executor and the call, and loses none. -/
theorem share_turn (t : CallTurn ε α) : share (c.turn s i t).1 (c.turn s i t).2 = share s c := by
  cases t with
  | finish o => simp [turn, share]
  | tell => simp [turn, share]
  | settle => simp [turn, share]
  | cancel => simp [turn, share, cancel_slots, occupies_cancel]
  | resume => exact share_resume

section Others

variable {k : Nat} (hk : i ≠ k) (hw : s.waiter k ≠ some .pending)
include hk hw

theorem waiter_leave : (s.withdraw i).wakeAll.waiter k = s.waiter k := by
  have h := FairSemaphore.waiter_withdraw (s := s) hk
  rw [FairSemaphore.waiter_wakeAll (by rwa [h]), h]

omit hk in
theorem waiter_interrupted : (c.interrupted s).1.waiter k = s.waiter k := by
  obtain ⟨stage, must, job, future, early, late⟩ := c
  cases future with
  | none => rfl
  | some o => exact FairSemaphore.waiter_release hw

theorem waiter_resume : (c.resume s i).1.waiter k = s.waiter k := by
  obtain ⟨stage, must, job, future, early, late⟩ := c
  cases stage with
  | ended e => rfl
  | queued =>
    cases hi : s.waiter i with
    | none => simp [resume, hi]
    | some w =>
      cases w with
      | pending => simp [resume, hi]
      | cancelled => simpa [resume, hi] using waiter_leave hk hw
      | granted =>
        cases must with
        | true =>
          have h : (s.withdraw i).giveBack.waiter k = s.waiter k :=
            FairSemaphore.waiter_withdraw (s := s) hk
          have h' := FairSemaphore.waiter_wakeAll (s := (s.withdraw i).giveBack) (by rwa [h])
          simpa [resume, hi, h] using h'
        | false => simpa [resume, hi] using waiter_leave hk hw
  | awaiting shield caught =>
    cases shield with
    | pending => rfl
    | cancelled => exact waiter_interrupted hw
    | settled o =>
      cases must with
      | true => exact waiter_interrupted hw
      | false => exact FairSemaphore.waiter_release hw

/-- A turn of one call leaves the future of any other waiter alone, unless it hands that
waiter a slot. -/
theorem waiter_turn (t : CallTurn ε α) : (c.turn s i t).1.waiter k = s.waiter k := by
  cases t with
  | finish o => rfl
  | tell => rfl
  | settle => rfl
  | resume => exact waiter_resume hk hw
  | cancel =>
    obtain ⟨stage, must, job, future, early, late⟩ := c
    cases stage with
    | ended e => rfl
    | queued =>
      by_cases hi : s.waiter i = some .pending
      · simpa [turn, cancel, hi] using FairSemaphore.waiter_cancel_ne hk
      · simp [turn, cancel, hi]
    | awaiting shield caught => cases shield <;> rfl

end Others

/-- A job that has not finished holds its slot. -/
theorem unfinished_occupies (h : c.Drained s i) (hu : c.unfinished = true) :
    c.occupies = true := by
  obtain ⟨stage, must, job, future, early, late⟩ := c
  cases job with
  | unsubmitted => simp [unfinished] at hu
  | finished o => simp [unfinished] at hu
  | running =>
    cases stage with
    | queued => simp [Drained] at h
    | ended e => simp [Drained] at h
    | awaiting shield caught => rfl

end Call

namespace APIExecutor

/-- Every slot is free, granted or occupied, every call is as it should be, and nobody
waits under the number of a call that is still to come. -/
structure Sound (workers : Nat) (p : APIExecutor ε α) : Prop where
  slots : p.slots.slots + p.calls.countP Call.occupies = workers
  calls : ∀ i (c : Call ε α), p.calls[i]? = some c → c.Drained p.slots i
  fresh : ∀ k, p.calls.length ≤ k → p.slots.waiter k = none

variable {workers : Nat} {p : APIExecutor ε α}

theorem sound_new (workers : Nat) : Sound workers (new workers : APIExecutor ε α) where
  slots := by simp [new, FairSemaphore.slots]
  calls := by simp [new]
  fresh := by simp [new, FairSemaphore.waiter]

/-- A call that is added goes on with its own semaphore, the others keep their futures. -/
theorem sound_add {s : FairSemaphore Nat} {c : Call ε α} (h : Sound workers p)
    (hs : Call.share s c = p.slots.slots) (hc : c.Drained s p.calls.length)
    (hw : ∀ k, k ≠ p.calls.length → s.waiter k = p.slots.waiter k) :
    Sound workers ⟨s, p.calls ++ [c]⟩ where
  slots := by
    have := h.slots
    simp only [Call.share] at hs
    simp only [List.countP_append, List.countP_singleton]
    omega
  calls := by
    intro i c' hi
    rcases Nat.lt_trichotomy i p.calls.length with hlt | heq | hgt
    · rw [List.getElem?_append_left hlt] at hi
      exact (h.calls i c' hi).mono fun hx => by rw [hw i (by omega), hx]
    · subst heq
      simp only [List.getElem?_concat_length, Option.some.injEq] at hi
      exact hi ▸ hc
    · rw [List.getElem?_eq_none (by simp; omega)] at hi
      cases hi
  fresh := by
    intro k hk
    simp only [List.length_append, List.length_singleton] at hk
    rw [hw k (by omega), h.fresh k (by omega)]

theorem sound_start (cancelling : Bool) (h : Sound workers p) :
    Sound workers (p.start cancelling) := by
  have hn : p.slots.waiter p.calls.length = none := h.fresh _ (Nat.le_refl _)
  have hp := FairSemaphore.waiter_enqueue_self hn
  cases hl : p.slots.locked with
  | false =>
    have hv := FairSemaphore.slots_take (FairSemaphore.locked_value hl)
    simp only [start, hl, Bool.false_eq_true, if_false]
    exact sound_add h (by simpa [Call.share, Call.occupies, Call.submit] using hv)
      (Call.drained_submit rfl rfl) fun k _ => rfl
  | true =>
    cases cancelling with
    | true =>
      simp only [start, hl, if_true]
      refine sound_add h ?_ ⟨rfl, rfl, rfl, fun _ => .inr ?_⟩ fun k hk => ?_
      · simp [Call.share, Call.occupies, Call.queued, FairSemaphore.slots_cancel,
          FairSemaphore.slots_enqueue]
      · rw [FairSemaphore.waiter_cancel, hp]
        rfl
      · rw [FairSemaphore.waiter_cancel_ne (Ne.symm hk), FairSemaphore.waiter_enqueue (Ne.symm hk)]
    | false =>
      simp only [start, hl, if_true, Bool.false_eq_true, if_false]
      refine sound_add h ?_ ⟨rfl, rfl, rfl, fun he => by cases he⟩ fun k hk => ?_
      · simp [Call.share, Call.occupies, Call.queued, FairSemaphore.slots_enqueue]
      · exact FairSemaphore.waiter_enqueue (Ne.symm hk)

theorem countP_set {p : Call ε α → Bool} {l : List (Call ε α)} {i : Nat} {c : Call ε α}
    (h : l[i]? = some c) (c' : Call ε α) :
    (l.set i c').countP p + (if p c then 1 else 0) = l.countP p + if p c' then 1 else 0 := by
  induction l generalizing i with
  | nil => simp at h
  | cons a l ih =>
    cases i with
    | zero =>
      cases Option.some.inj h
      simp only [List.set_cons_zero, List.countP_cons]
      omega
    | succ i =>
      have := ih (by simpa using h)
      simp only [List.set_cons_succ, List.countP_cons]
      omega

/-- The step: every event keeps the account of the slots. -/
theorem sound_step (e : LoopEvent ε α) (h : Sound workers p) : Sound workers (p.step e) := by
  cases e with
  | start cancelling => exact sound_start cancelling h
  | turn i t =>
    simp only [step]
    cases hi : p.calls[i]? with
    | none => exact h
    | some c =>
      have hlt : i < p.calls.length := (List.getElem?_eq_some_iff.mp hi).1
      refine ⟨?_, fun j c' hj => ?_, fun k hk => ?_⟩
      · have hs := Call.share_turn (s := p.slots) (i := i) (c := c) t
        have hc := countP_set (p := Call.occupies) hi (c.turn p.slots i t).2
        have := h.slots
        simp only [Call.share] at hs
        simp only
        omega
      · by_cases hji : i = j
        · subst hji
          simp only [List.getElem?_set_self hlt, Option.some.injEq] at hj
          exact hj ▸ Call.drained_turn t (h.calls i c hi)
        · simp only [List.getElem?_set_ne hji] at hj
          refine (h.calls j c' hj).mono fun hx => ?_
          rw [Call.waiter_turn hji (by simp [hx]), hx]
      · simp only [List.length_set] at hk
        have hx := h.fresh k hk
        rw [Call.waiter_turn (by omega) (by simp [hx]), hx]

/-- The run: so it is after any events. -/
theorem sound_after (events : List (LoopEvent ε α)) (h : Sound workers p) :
    Sound workers (p.after events) := by
  induction events generalizing p with
  | nil => exact h
  | cons e events ih => exact ih (sound_step e h)

/-- Hence no more jobs run than there are workers. -/
theorem Sound.unfinished_le (h : Sound workers p) : p.unfinished ≤ workers := by
  have hle : p.unfinished ≤ p.calls.countP Call.occupies := by
    refine List.countP_mono_left fun c hc hu => ?_
    obtain ⟨i, hi⟩ := List.getElem?_of_mem hc
    exact Call.unfinished_occupies (h.calls i c hi) hu
  have := h.slots
  omega

/-- The loop's three steps from a thread's outcome to its caller. -/
def delivery (i : Nat) : List (LoopEvent ε α) :=
  [.turn i .tell, .turn i .settle, .turn i .resume]

theorem step_turn {i : Nat} {c : Call ε α} (hi : p.calls[i]? = some c) (t : CallTurn ε α) :
    (p.step (.turn i t)).slots = (c.turn p.slots i t).1 ∧
      (p.step (.turn i t)).calls[i]? = some (c.turn p.slots i t).2 := by
  have hlt : i < p.calls.length := (List.getElem?_eq_some_iff.mp hi).1
  simp only [step, hi]
  exact ⟨trivial, List.getElem?_set_self hlt⟩

end APIExecutor

theorem Call.ends {s : FairSemaphore Nat} {i : Nat} {c : Call ε α} {o : Except ε α}
    (h : c.Drained s i) (hj : c.job = .finished o) :
    ∃ e, ((c.tell.settle).resume s i).2.stage = .ended e := by
  obtain ⟨stage, must, job, future, early, late⟩ := c
  simp only at hj
  subst hj
  cases stage with
  | queued => simp [Call.Drained] at h
  | ended e => exact ⟨e, rfl⟩
  | awaiting shield caught =>
    cases shield <;> cases must <;>
      simp [Call.tell, Call.settle, Call.resume, Call.interrupted, Call.endWith]

namespace APIExecutor

/-- A finished job ends its call in a bounded number of turns. -/
theorem delivery_ends {i : Nat} {c : Call ε α} {o : Except ε α} (h : Sound workers p)
    (hi : p.calls[i]? = some c) (hj : c.job = .finished o) :
    ∃ c' e, (p.after (delivery i)).calls[i]? = some c' ∧ c'.stage = .ended e := by
  obtain ⟨hs₁, hc₁⟩ := step_turn hi .tell
  obtain ⟨hs₂, hc₂⟩ := step_turn hc₁ .settle
  obtain ⟨-, hc₃⟩ := step_turn hc₂ .resume
  obtain ⟨e, he⟩ := Call.ends (h.calls i c hi) hj
  refine ⟨_, e, hc₃, ?_⟩
  rw [hs₂, hs₁]
  exact he

/-- `APIExecutor.run` under every order of completions and cancellations: at most `workers`
functions are unfinished; a call that was cancelled before submission never submits; a
call ends only after the function it submitted, with `CancelledError` if a cancellation
came after submission and with the function's outcome otherwise; and once the function has
finished, its delivery ends the call. -/
theorem run_drains (workers : Nat) (events : List (LoopEvent ε α)) :
    ((new workers : APIExecutor ε α).after events).unfinished ≤ workers ∧
      ∀ i c, ((new workers).after events).calls[i]? = some c →
        (c.early = true → c.job = .unsubmitted) ∧
        (∀ e, c.stage = .ended e → c.job ≠ .unsubmitted →
          ∃ o, c.job = .finished o ∧ e = if c.late then .cancelled else .outcome o) ∧
        (∀ o, c.job = .finished o → ∃ c' e,
          ((new workers).after (events ++ delivery i)).calls[i]? = some c' ∧
            c'.stage = .ended e) := by
  have hs := sound_after events (sound_new (ε := ε) (α := α) workers)
  refine ⟨hs.unfinished_le, fun i c hi => ⟨fun he => ?_, fun e hst hj => ?_, fun o hj => ?_⟩⟩
  · have hc := hs.calls i c hi
    obtain ⟨stage, must, job, future, early, late⟩ := c
    simp only at he
    subst he
    cases stage with
    | queued => exact hc.1
    | awaiting shield caught => simp [Call.Drained] at hc
    | ended e => simpa [Call.Drained] using And.left <| hc.resolve_right (by simp)
  · have hc := hs.calls i c hi
    obtain ⟨stage, must, job, future, early, late⟩ := c
    simp only at hst hj
    subst hst
    rcases hc with ⟨hu, -⟩ | ⟨-, o, ho, he⟩
    · exact absurd hu hj
    · exact ⟨o, ho, he⟩
  · obtain ⟨c', e, hc', he⟩ := delivery_ends hs hi hj
    refine ⟨c', e, ?_, he⟩
    rw [after, List.foldl_append]
    exact hc'

end APIExecutor

/-- Two slots; the third call is cancelled in the queue, the first one twice at its await,
and its function fails in between: the second cancellation arrives in the same tick. -/
example : (((APIExecutor.new 2 : APIExecutor Nat Nat).after
      [.start false, .start false, .start false, .turn 2 .cancel, .turn 0 .cancel, .turn 0 .resume,
        .turn 0 (.finish (.error 5)), .turn 0 .tell, .turn 0 .settle, .turn 0 .cancel,
        .turn 1 (.finish (.ok 7)), .turn 1 .tell, .turn 1 .settle, .turn 2 .resume, .turn 0 .resume,
        .turn 1 .resume]).calls.map (·.stage)) =
    [.ended .cancelled, .ended (.outcome (.ok 7)), .ended .cancelled] := by
  decide

end CapiSsh
