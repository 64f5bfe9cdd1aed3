import Mathlib.Data.List.Basic

/-!
# How `operations.host_operation` ends

The task that runs `async with host_operation(...)` and the heartbeat task it creates, as
they alternate on the event loop. Between two turns only futures and threads complete.
Nobody outside cancels either task.
-/
namespace CapiSsh

variable {ε α : Type}

/-- What `lease.acquire` or `lease.renew` did in its thread. -/
inductive LeaseReply where
  | granted
  | denied
  | raised
  deriving DecidableEq, Repr

/-- The body, from one of its awaits to the next or to its end. -/
inductive BodyStep (ε α : Type) where
  | waits
  | returns (a : α)
  | raises (e : ε)
  deriving DecidableEq, Repr

/-- How a body or `host_operation` ends: `temporary` is the `kopf.TemporaryError` that
`host_operation` itself raises, `cancelled` is `asyncio.CancelledError`. -/
inductive OperationEnd (ε α : Type) where
  | returned (a : α)
  | raised (e : ε)
  | temporary
  | cancelled
  deriving DecidableEq, Repr

/-- The future that the body's current await sleeps on. -/
inductive Awaited where
  | pending
  | done
  | cancelled
  deriving DecidableEq, Repr

/-- Where the parent task stands. In the body, `interrupted` says that `CancelledError`
was thrown in and the body is unwinding; in `finally` the end that is under way is kept. -/
inductive Parent (ε α : Type) where
  | acquiring
  | inBody (awaited : Awaited) (interrupted : Bool)
  | joining (ending : OperationEnd ε α)
  | releasing (ending : OperationEnd ε α)
  | ended (ending : OperationEnd ε α)
  deriving DecidableEq, Repr

/-- The heartbeat task: `waiting` in `asyncio.wait_for(stopped.wait(), ...)`, `renewing` in
`run_coordination(lease.renew)`; at its end the task is cancelled or not. -/
inductive Heartbeat where
  | absent
  | created
  | waiting
  | renewing
  | ended (cancelled : Bool)
  deriving DecidableEq, Repr

/-- One `host_operation`. `body` and `failures` record how the body ended by itself and
how many renewals failed. -/
structure HostOperation (ε α : Type) where
  parent : Parent ε α
  mustCancel : Bool
  heartbeat : Heartbeat
  renewalMustCancel : Bool
  stopped : Bool
  lost : Bool
  body : Option (OperationEnd ε α)
  failures : Nat
  deriving DecidableEq, Repr

inductive OperationTurn (ε α : Type) where
  | acquired (r : LeaseReply) (b : BodyStep ε α)
  | awaitedDone
  | goesOn (b : BodyStep ε α)
  | heartbeatStarts
  | stopSeen
  | timeout
  | renewed (r : LeaseReply)
  | joined
  | released
  deriving DecidableEq, Repr

namespace HostOperation

def new : HostOperation ε α := ⟨.acquiring, false, .absent, false, false, false, none, 0⟩

/-- `finally`, up to its first await that has to wait: `await renewal` goes on at once when
the task has ended, with `CancelledError` when it ended cancelled. -/
def finish (s : HostOperation ε α) (e : OperationEnd ε α) : HostOperation ε α :=
  { s with
    stopped := true
    parent :=
      match s.heartbeat with
      | .ended true => .ended .cancelled
      | .ended false => .releasing e
      | _ => .joining e }

/-- The body ends with `CancelledError`: the `except` branch looks at `lost`. -/
def interruptedEnd (s : HostOperation ε α) : HostOperation ε α :=
  { s with body := some .cancelled }.finish (if s.lost then .temporary else .cancelled)

def bodyGoes (s : HostOperation ε α) : BodyStep ε α → HostOperation ε α
  | .waits => { s with parent := .inBody .pending false }
  | .returns a => { s with body := some (.returned a) }.finish (.returned a)
  | .raises e => { s with body := some (.raised e) }.finish (.raised e)

/-- A body that was cancelled lets `CancelledError` propagate, after as many further awaits
as its own `finally` blocks and the API calls it drains need. -/
def unwinds (s : HostOperation ε α) : BodyStep ε α → HostOperation ε α
  | .waits => { s with parent := .inBody .pending true, mustCancel := false }
  | _ => { s with mustCancel := false }.interruptedEnd

/-- `run_coordination(lease.acquire)` comes back; a lease that is granted creates the
heartbeat task and enters the body. -/
def acquired (s : HostOperation ε α) (r : LeaseReply) (b : BodyStep ε α) : HostOperation ε α :=
  match s.parent, r with
  | .acquiring, .granted => { s with heartbeat := .created }.bodyGoes b
  | .acquiring, _ => { s with parent := .ended .temporary }
  | _, _ => s

def awaitedDone (s : HostOperation ε α) : HostOperation ε α :=
  match s.parent with
  | .inBody .pending i => { s with parent := .inBody .done i }
  | _ => s

def goesOn (s : HostOperation ε α) (b : BodyStep ε α) : HostOperation ε α :=
  match s.parent with
  | .inBody .pending _ => s
  | .inBody .cancelled _ => s.unwinds b
  | .inBody .done interrupted =>
    if s.mustCancel || interrupted then s.unwinds b else s.bodyGoes b
  | _ => s

/-- `while not stopped.is_set()`. -/
def heartbeatLoop (s : HostOperation ε α) : HostOperation ε α :=
  { s with heartbeat := if s.stopped then .ended s.renewalMustCancel else .waiting }

/-- `parent.cancel()`: it cancels what the parent waits on. In `finally` that is the
heartbeat task, which is running just now and so owes the cancellation to its end. -/
def cancelParent (s : HostOperation ε α) : HostOperation ε α :=
  match s.parent with
  | .inBody .pending i => { s with parent := .inBody .cancelled i }
  | .joining _ => { s with renewalMustCancel := true }
  | _ => { s with mustCancel := true }

/-- `lost = True; parent.cancel(); return`. -/
def lose (s : HostOperation ε α) : HostOperation ε α :=
  let s' := { s with lost := true, failures := s.failures + 1 }.cancelParent
  { s' with heartbeat := .ended s'.renewalMustCancel }

def renewed (s : HostOperation ε α) (r : LeaseReply) : HostOperation ε α :=
  match s.heartbeat, r with
  | .renewing, .granted => s.heartbeatLoop
  | .renewing, _ => s.lose
  | _, _ => s

/-- `stopped.wait()` returns and the loop ends. -/
def stopSeen (s : HostOperation ε α) : HostOperation ε α :=
  match s.heartbeat with
  | .waiting => if s.stopped then s.heartbeatLoop else s
  | _ => s

/-- The timer of `wait_for` fires, possibly in the tick in which `stopped` was set. -/
def timeout (s : HostOperation ε α) : HostOperation ε α :=
  match s.heartbeat with
  | .waiting => { s with heartbeat := .renewing }
  | _ => s

def heartbeatStarts (s : HostOperation ε α) : HostOperation ε α :=
  match s.heartbeat with
  | .created => s.heartbeatLoop
  | _ => s

/-- The parent wakes up because the heartbeat task has ended. -/
def joined (s : HostOperation ε α) : HostOperation ε α :=
  match s.parent, s.heartbeat with
  | .joining _, .ended true => { s with parent := .ended .cancelled }
  | .joining e, .ended false => { s with parent := .releasing e }
  | _, _ => s

/-- `run_coordination(lease.release)` comes back; its errors are suppressed. -/
def released (s : HostOperation ε α) : HostOperation ε α :=
  match s.parent with
  | .releasing e => { s with parent := .ended e }
  | _ => s

def step (s : HostOperation ε α) : OperationTurn ε α → HostOperation ε α
  | .acquired r b => s.acquired r b
  | .awaitedDone => s.awaitedDone
  | .goesOn b => s.goesOn b
  | .heartbeatStarts => s.heartbeatStarts
  | .stopSeen => s.stopSeen
  | .timeout => s.timeout
  | .renewed r => s.renewed r
  | .joined => s.joined
  | .released => s.released

def after (s : HostOperation ε α) (turns : List (OperationTurn ε α)) : HostOperation ε α :=
  turns.foldl step s

end HostOperation

def Heartbeat.running : Heartbeat → Bool
  | .created => true
  | .waiting => true
  | .renewing => true
  | _ => false

namespace HostOperation

/-- What the end `e` has to be: the body's own one if no renewal failed, else a
`TemporaryError`, which is also the end when the lease was not granted. -/
def ExitLaw (s : HostOperation ε α) (e : OperationEnd ε α) : Prop :=
  e ≠ .cancelled ∧ s.heartbeat.running = false ∧
    match s.body with
    | none => e = .temporary
    | some own => e = if s.failures = 0 then own else .temporary

/-- A renewal fails although the body has already ended. -/
def FailsLate (s : HostOperation ε α) : OperationTurn ε α → Prop
  | .renewed .granted => False
  | .renewed _ => s.heartbeat = .renewing ∧ s.body.isSome = true
  | _ => False

/-- No renewal of the run fails after the end of the body. -/
def OnTime (s : HostOperation ε α) : List (OperationTurn ε α) → Prop
  | [] => True
  | t :: turns => ¬ s.FailsLate t ∧ (s.step t).OnTime turns

/-- Where the body is, a renewal has failed if and only if `CancelledError` is on its way
or has arrived. -/
def Interrupting (s : HostOperation ε α) (awaited : Awaited) (interrupted : Bool) : Prop :=
  (s.heartbeat.running = true ∧ s.lost = false ∧ s.failures = 0 ∧
    awaited ≠ .cancelled ∧ s.mustCancel = false ∧ interrupted = false) ∨
  (s.heartbeat = .ended false ∧ s.lost = true ∧ s.failures = 1 ∧
    (awaited = .cancelled ∨ s.mustCancel = true ∨ interrupted = true))

/-- The end that is under way is the one that the law asks for. -/
def Lawful (s : HostOperation ε α) (e : OperationEnd ε α) : Prop :=
  s.heartbeat = .ended false ∧ e ≠ .cancelled ∧
    ∃ own, s.body = some own ∧ e = if s.failures = 0 then own else .temporary

/-- The states that a run goes through. The heartbeat task ends cancelled only under a
parent that waits for it. -/
def Good (s : HostOperation ε α) : Prop :=
  match s.parent with
  | .acquiring => s = new
  | .inBody awaited interrupted => s.body = none ∧ s.stopped = false ∧
      s.renewalMustCancel = false ∧ s.Interrupting awaited interrupted
  | .joining e => s.stopped = true ∧ s.body = some e ∧ e ≠ .cancelled ∧
      ((s.failures = 0 ∧ s.renewalMustCancel = false ∧
        (s.heartbeat.running = true ∨ s.heartbeat = .ended false)) ∨ s.heartbeat = .ended true)
  | .releasing e => s.Lawful e
  | .ended e => (s.heartbeat = .absent ∧ s.body = none ∧ e = .temporary) ∨
      (s.heartbeat = .ended true ∧ e = .cancelled ∧ s.body.isSome = true) ∨ s.Lawful e

variable {s : HostOperation ε α}

/-- The body ends by itself while the heartbeat is still there. -/
theorem good_finish {e : OperationEnd ε α} (hh : s.heartbeat.running = true)
    (hf : s.failures = 0) (hr : s.renewalMustCancel = false) (he : e ≠ .cancelled) :
    ({ s with body := some e }.finish e).Good := by
  obtain ⟨parent, must, heartbeat, rmust, stopped, lost, body, failures⟩ := s
  cases heartbeat with
  | absent => cases hh
  | ended c => cases hh
  | created => exact ⟨rfl, rfl, he, .inl ⟨hf, hr, .inl rfl⟩⟩
  | waiting => exact ⟨rfl, rfl, he, .inl ⟨hf, hr, .inl rfl⟩⟩
  | renewing => exact ⟨rfl, rfl, he, .inl ⟨hf, hr, .inl rfl⟩⟩

theorem good_bodyGoes (b : BodyStep ε α) (hh : s.heartbeat.running = true)
    (hl : s.lost = false) (hf : s.failures = 0) (hr : s.renewalMustCancel = false)
    (hm : s.mustCancel = false) (hs : s.stopped = false) (hb : s.body = none) :
    (s.bodyGoes b).Good := by
  cases b with
  | waits => exact ⟨hb, hs, hr, .inl ⟨hh, hl, hf, by simp, hm, rfl⟩⟩
  | returns a => exact good_finish hh hf hr (by simp)
  | raises e => exact good_finish hh hf hr (by simp)

/-- A body that is interrupted ends in the `except` branch, which finds the lease lost. -/
theorem good_unwinds (b : BodyStep ε α) (hh : s.heartbeat = .ended false) (hl : s.lost = true)
    (hf : s.failures = 1) (hr : s.renewalMustCancel = false) (hs : s.stopped = false)
    (hb : s.body = none) : (s.unwinds b).Good := by
  have hend : ({ s with mustCancel := false }.interruptedEnd).Good := by
    simp only [interruptedEnd, hl, if_true, finish, hh, Good]
    exact ⟨rfl, by simp, .cancelled, rfl, by simp [hf]⟩
  cases b with
  | waits => exact ⟨hb, hs, hr, .inr ⟨hh, hl, hf, .inr (.inr rfl)⟩⟩
  | returns a => exact hend
  | raises e => exact hend

theorem good_acquired (r : LeaseReply) (b : BodyStep ε α) (h : s.Good) :
    (s.acquired r b).Good := by
  cases hp : s.parent with
  | acquiring =>
    simp only [Good, hp] at h
    subst h
    cases r with
    | granted => exact good_bodyGoes b rfl rfl rfl rfl rfl rfl rfl
    | denied => exact .inl ⟨rfl, rfl, rfl⟩
    | raised => exact .inl ⟨rfl, rfl, rfl⟩
  | inBody a i => simpa only [acquired, hp] using h
  | joining e => simpa only [acquired, hp] using h
  | releasing e => simpa only [acquired, hp] using h
  | ended e => simpa only [acquired, hp] using h

theorem good_awaitedDone (h : s.Good) : s.awaitedDone.Good := by
  cases hp : s.parent with
  | inBody a i =>
    cases a with
    | done => simpa only [awaitedDone, hp] using h
    | cancelled => simpa only [awaitedDone, hp] using h
    | pending =>
      simp only [Good, hp] at h
      obtain ⟨hb, hs, hr, hi⟩ := h
      simp only [awaitedDone, hp, Good]
      refine ⟨hb, hs, hr, ?_⟩
      simpa [Interrupting] using hi
  | acquiring => simpa only [awaitedDone, hp] using h
  | joining e => simpa only [awaitedDone, hp] using h
  | releasing e => simpa only [awaitedDone, hp] using h
  | ended e => simpa only [awaitedDone, hp] using h

theorem good_goesOn (b : BodyStep ε α) (h : s.Good) : (s.goesOn b).Good := by
  cases hp : s.parent with
  | acquiring => simpa only [goesOn, hp] using h
  | joining e => simpa only [goesOn, hp] using h
  | releasing e => simpa only [goesOn, hp] using h
  | ended e => simpa only [goesOn, hp] using h
  | inBody a i =>
    have hg := h
    simp only [Good, hp] at h
    obtain ⟨hb, hs, hr, hi⟩ := h
    cases a with
    | pending => simpa only [goesOn, hp] using hg
    | cancelled =>
      simp only [goesOn, hp]
      rcases hi with ⟨-, -, -, ha, -⟩ | ⟨hh, hl, hf, -⟩
      · exact absurd rfl ha
      · exact good_unwinds b hh hl hf hr hs hb
    | done =>
      simp only [goesOn, hp]
      rcases hi with ⟨hh, hl, hf, -, hm, hi⟩ | ⟨hh, hl, hf, hi⟩
      · simp only [hm, hi, Bool.or_self, Bool.false_eq_true, if_false]
        exact good_bodyGoes b hh hl hf hr hm hs hb
      · have hc : (s.mustCancel || i) = true := by simpa using hi
        simp only [hc, if_true]
        exact good_unwinds b hh hl hf hr hs hb

/-- A turn of the heartbeat task that does not end it. -/
theorem good_beats {hb : Heartbeat} (hh : s.heartbeat.running = true) (hr : hb.running = true)
    (h : s.Good) : ({ s with heartbeat := hb } : HostOperation ε α).Good := by
  have hend : ∀ c, s.heartbeat ≠ .ended c := by
    intro c hc
    rw [hc] at hh
    cases hh
  cases hp : s.parent with
  | acquiring =>
    simp only [Good, hp] at h
    subst h
    cases hh
  | inBody a i =>
    simp only [Good, hp, Interrupting, hh, hend, false_and, or_false, true_and] at h ⊢
    exact ⟨h.1, h.2.1, h.2.2.1, .inl ⟨hr, h.2.2.2⟩⟩
  | joining e =>
    simp only [Good, hp, hh, hend, or_false, and_true] at h ⊢
    exact ⟨h.1, h.2.1, h.2.2.1, .inl ⟨h.2.2.2.1, h.2.2.2.2, .inl hr⟩⟩
  | releasing e =>
    simp only [Good, hp, Lawful] at h
    exact absurd h.1 (hend _)
  | ended e =>
    simp only [Good, hp, Lawful, hend, false_and, or_false] at h
    simp [h.1, Heartbeat.running] at hh

theorem good_heartbeatLoop (hh : s.heartbeat.running = true) (h : s.Good) :
    s.heartbeatLoop.Good := by
  cases hs : s.stopped with
  | false =>
    have hw : Heartbeat.waiting.running = true := rfl
    simpa only [heartbeatLoop, hs, Bool.false_eq_true, if_false] using good_beats hh hw h
  | true =>
    -- the loop ends only under a parent that waits for it
    have hend : ∀ c, s.heartbeat ≠ .ended c := by
      intro c hc
      rw [hc] at hh
      cases hh
    cases hp : s.parent with
    | acquiring =>
      simp only [Good, hp] at h
      subst h
      cases hh
    | inBody a i =>
      simp only [Good, hp] at h
      rw [h.2.1] at hs
      cases hs
    | joining e =>
      simp only [Good, hp, hend, or_false] at h
      obtain ⟨-, hb, he, hf, hr, -⟩ := h
      simp only [heartbeatLoop, hs, if_true, Good, hp]
      exact ⟨trivial, hb, he, .inl ⟨hf, hr, .inr (by rw [hr])⟩⟩
    | releasing e =>
      simp only [Good, hp, Lawful] at h
      exact absurd h.1 (hend _)
    | ended e =>
      simp only [Good, hp, Lawful, hend, false_and, or_false] at h
      simp [h.1, Heartbeat.running] at hh

/-- A renewal that fails in the body sends `CancelledError` there; one that fails while the
parent waits for the heartbeat task ends that task cancelled. -/
theorem good_lose (hh : s.heartbeat = .renewing) (h : s.Good) : s.lose.Good := by
  cases hp : s.parent with
  | acquiring =>
    simp only [Good, hp] at h
    subst h
    cases hh
  | inBody a i =>
    simp only [Good, hp, Interrupting, hh, reduceCtorEq, false_and, or_false] at h
    obtain ⟨hb, hs, hr, -, -, hf, ha, hm, hi⟩ := h
    cases a with
    | cancelled => exact absurd rfl ha
    | pending =>
      simp only [lose, cancelParent, hp, Good]
      exact ⟨hb, hs, hr, .inr ⟨by rw [hr], rfl, by simp [hf], .inl rfl⟩⟩
    | done =>
      simp only [lose, cancelParent, hp, Good]
      exact ⟨hb, hs, hr, .inr ⟨by rw [hr], rfl, by simp [hf], .inr (.inl rfl)⟩⟩
  | joining e =>
    simp only [Good, hp] at h
    simp only [lose, cancelParent, hp, Good]
    exact ⟨h.1, h.2.1, h.2.2.1, .inr trivial⟩
  | releasing e =>
    simp only [Good, hp, Lawful, hh] at h
    cases h.1
  | ended e => simp [Good, hp, Lawful, hh] at h

theorem good_renewed (r : LeaseReply) (h : s.Good) : (s.renewed r).Good := by
  cases hh : s.heartbeat with
  | renewing =>
    cases r with
    | granted => simpa only [renewed, hh] using good_heartbeatLoop (by rw [hh]; rfl) h
    | denied => simpa only [renewed, hh] using good_lose hh h
    | raised => simpa only [renewed, hh] using good_lose hh h
  | absent => simpa only [renewed, hh] using h
  | created => simpa only [renewed, hh] using h
  | waiting => simpa only [renewed, hh] using h
  | ended c => simpa only [renewed, hh] using h

theorem good_heartbeatStarts (h : s.Good) : s.heartbeatStarts.Good := by
  cases hh : s.heartbeat with
  | created => simpa only [heartbeatStarts, hh] using good_heartbeatLoop (by rw [hh]; rfl) h
  | absent => simpa only [heartbeatStarts, hh] using h
  | waiting => simpa only [heartbeatStarts, hh] using h
  | renewing => simpa only [heartbeatStarts, hh] using h
  | ended c => simpa only [heartbeatStarts, hh] using h

theorem good_stopSeen (h : s.Good) : s.stopSeen.Good := by
  cases hh : s.heartbeat with
  | waiting =>
    cases hs : s.stopped with
    | true => simpa only [stopSeen, hh, hs, if_true] using good_heartbeatLoop (by rw [hh]; rfl) h
    | false => simpa only [stopSeen, hh, hs, Bool.false_eq_true, if_false] using h
  | absent => simpa only [stopSeen, hh] using h
  | created => simpa only [stopSeen, hh] using h
  | renewing => simpa only [stopSeen, hh] using h
  | ended c => simpa only [stopSeen, hh] using h

theorem good_timeout (h : s.Good) : s.timeout.Good := by
  cases hh : s.heartbeat with
  | waiting =>
    have hr : Heartbeat.renewing.running = true := rfl
    simpa only [timeout, hh] using good_beats (by rw [hh]; rfl) hr h
  | absent => simpa only [timeout, hh] using h
  | created => simpa only [timeout, hh] using h
  | renewing => simpa only [timeout, hh] using h
  | ended c => simpa only [timeout, hh] using h

theorem good_joined (h : s.Good) : s.joined.Good := by
  cases hp : s.parent with
  | acquiring => simpa only [joined, hp] using h
  | inBody a i => simpa only [joined, hp] using h
  | releasing e => simpa only [joined, hp] using h
  | ended e => simpa only [joined, hp] using h
  | joining e =>
    have hg := h
    simp only [Good, hp] at h
    obtain ⟨-, hb, he, h⟩ := h
    cases hh : s.heartbeat with
    | absent => simpa only [joined, hp, hh] using hg
    | created => simpa only [joined, hp, hh] using hg
    | waiting => simpa only [joined, hp, hh] using hg
    | renewing => simpa only [joined, hp, hh] using hg
    | ended c =>
      cases c with
      | true =>
        simp only [joined, hp, hh, Good]
        exact .inr (.inl ⟨trivial, trivial, by simp [hb]⟩)
      | false =>
        simp only [hh, Heartbeat.ended.injEq, Bool.false_eq_true, or_false] at h
        simp only [joined, hp, hh, Good]
        exact ⟨rfl, he, e, hb, by simp [h.1]⟩

theorem good_released (h : s.Good) : s.released.Good := by
  cases hp : s.parent with
  | acquiring => simpa only [released, hp] using h
  | inBody a i => simpa only [released, hp] using h
  | joining e => simpa only [released, hp] using h
  | ended e => simpa only [released, hp] using h
  | releasing e =>
    simp only [Good, hp] at h
    simp only [released, hp, Good]
    exact .inr (.inr h)

theorem good_step (t : OperationTurn ε α) (h : s.Good) : (s.step t).Good := by
  cases t with
  | acquired r b => exact good_acquired r b h
  | awaitedDone => exact good_awaitedDone h
  | goesOn b => exact good_goesOn b h
  | heartbeatStarts => exact good_heartbeatStarts h
  | stopSeen => exact good_stopSeen h
  | timeout => exact good_timeout h
  | renewed r => exact good_renewed r h
  | joined => exact good_joined h
  | released => exact good_released h

theorem good_after (turns : List (OperationTurn ε α)) (h : s.Good) : (s.after turns).Good := by
  induction turns generalizing s with
  | nil => exact h
  | cons t turns ih => exact ih (good_step t h)

theorem good_new : (new : HostOperation ε α).Good := rfl

/-- The heartbeat runs beside the body or under a parent that waits for it. -/
theorem Good.beating (h : s.Good) (hh : s.heartbeat.running = true) :
    s.renewalMustCancel = false ∧
      ((∃ a i, s.parent = .inBody a i ∧ s.body = none) ∨
        ∃ e, s.parent = .joining e ∧ s.body = some e) := by
  have hend : ∀ c, s.heartbeat ≠ .ended c := by
    intro c hc
    rw [hc] at hh
    cases hh
  cases hp : s.parent with
  | acquiring =>
    simp only [Good, hp] at h
    subst h
    cases hh
  | inBody a i =>
    simp only [Good, hp] at h
    exact ⟨h.2.2.1, .inl ⟨a, i, rfl, h.1⟩⟩
  | joining e =>
    simp only [Good, hp, hend, or_false] at h
    exact ⟨h.2.2.2.2.1, .inr ⟨e, rfl, h.2.1⟩⟩
  | releasing e =>
    simp only [Good, hp, Lawful] at h
    exact absurd h.1 (hend _)
  | ended e =>
    simp only [Good, hp, Lawful, hend, false_and, or_false] at h
    simp [h.1, Heartbeat.running] at hh

theorem finish_heartbeat (e : OperationEnd ε α) : (s.finish e).heartbeat = s.heartbeat := rfl

theorem goesOn_heartbeat (b : BodyStep ε α) : (s.goesOn b).heartbeat = s.heartbeat := by
  cases hp : s.parent with
  | acquiring => simp [goesOn, hp]
  | joining e => simp [goesOn, hp]
  | releasing e => simp [goesOn, hp]
  | ended e => simp [goesOn, hp]
  | inBody a i =>
    cases a with
    | pending => simp [goesOn, hp]
    | cancelled => cases b <;> simp [goesOn, hp, unwinds, interruptedEnd, finish_heartbeat]
    | done =>
      by_cases hc : (s.mustCancel || i) = true
      · cases b <;> simp [goesOn, hp, hc, unwinds, interruptedEnd, finish_heartbeat]
      · cases b <;> simp [goesOn, hp, hc, bodyGoes, finish_heartbeat]

theorem acquired_heartbeat (r : LeaseReply) (b : BodyStep ε α) :
    (s.acquired r b).heartbeat = s.heartbeat ∨ (s.acquired r b).heartbeat = .created := by
  cases hp : s.parent with
  | acquiring =>
    cases r with
    | granted => right; cases b <;> simp [acquired, hp, bodyGoes, finish_heartbeat]
    | denied => left; simp [acquired, hp]
    | raised => left; simp [acquired, hp]
  | inBody a i => left; simp [acquired, hp]
  | joining e => left; simp [acquired, hp]
  | releasing e => left; simp [acquired, hp]
  | ended e => left; simp [acquired, hp]

theorem loop_heartbeat (h : s.Good) (hh : s.heartbeat.running = true) :
    s.heartbeatLoop.heartbeat ≠ .ended true := by
  simp only [heartbeatLoop, (h.beating hh).1]
  by_cases hs : s.stopped = true <;> simp [hs]

theorem lose_heartbeat (h : s.Good) (hh : s.heartbeat = .renewing) :
    s.lose.heartbeat = .ended true ↔ s.body.isSome = true := by
  obtain ⟨hr, ⟨a, i, hp, hb⟩ | ⟨e, hp, hb⟩⟩ := h.beating (by rw [hh]; rfl)
  · cases a <;> simp [lose, cancelParent, hp, hb, hr]
  · simp [lose, cancelParent, hp, hb]

/-- One turn ends the heartbeat task cancelled exactly when a renewal fails late in it. -/
theorem late_step (t : OperationTurn ε α) (h : s.Good) :
    (s.step t).heartbeat = .ended true ↔ s.heartbeat = .ended true ∨ s.FailsLate t := by
  cases t with
  | acquired r b =>
    simp only [step, FailsLate, or_false]
    cases hp : s.parent with
    | acquiring =>
      simp only [Good, hp] at h
      subst h
      rcases acquired_heartbeat (s := new) r b with hh | hh
      · rw [hh]
      · rw [hh]
        simp [new]
    | inBody a i => simp [acquired, hp]
    | joining e => simp [acquired, hp]
    | releasing e => simp [acquired, hp]
    | ended e => simp [acquired, hp]
  | awaitedDone =>
    cases hp : s.parent with
    | inBody a i => cases a <;> simp [step, awaitedDone, hp, FailsLate]
    | acquiring => simp [step, awaitedDone, hp, FailsLate]
    | joining e => simp [step, awaitedDone, hp, FailsLate]
    | releasing e => simp [step, awaitedDone, hp, FailsLate]
    | ended e => simp [step, awaitedDone, hp, FailsLate]
  | goesOn b => simp [step, goesOn_heartbeat, FailsLate]
  | heartbeatStarts =>
    cases hh : s.heartbeat with
    | created => simpa [step, heartbeatStarts, hh, FailsLate] using loop_heartbeat h (by rw [hh]; rfl)
    | absent => simp [step, heartbeatStarts, hh, FailsLate]
    | waiting => simp [step, heartbeatStarts, hh, FailsLate]
    | renewing => simp [step, heartbeatStarts, hh, FailsLate]
    | ended c => simp [step, heartbeatStarts, hh, FailsLate]
  | stopSeen =>
    cases hh : s.heartbeat with
    | waiting =>
      by_cases hs : s.stopped = true
      · simpa [step, stopSeen, hh, hs, FailsLate] using loop_heartbeat h (by rw [hh]; rfl)
      · simp [step, stopSeen, hh, hs, FailsLate]
    | absent => simp [step, stopSeen, hh, FailsLate]
    | created => simp [step, stopSeen, hh, FailsLate]
    | renewing => simp [step, stopSeen, hh, FailsLate]
    | ended c => simp [step, stopSeen, hh, FailsLate]
  | timeout => cases hh : s.heartbeat <;> simp [step, timeout, hh, FailsLate]
  | renewed r =>
    cases hh : s.heartbeat with
    | renewing =>
      cases r with
      | granted => simpa [step, renewed, hh, FailsLate] using loop_heartbeat h (by rw [hh]; rfl)
      | denied => simpa [step, renewed, hh, FailsLate] using lose_heartbeat h hh
      | raised => simpa [step, renewed, hh, FailsLate] using lose_heartbeat h hh
    | absent => cases r <;> simp [step, renewed, hh, FailsLate]
    | created => cases r <;> simp [step, renewed, hh, FailsLate]
    | waiting => cases r <;> simp [step, renewed, hh, FailsLate]
    | ended c => cases r <;> simp [step, renewed, hh, FailsLate]
  | joined =>
    cases hp : s.parent with
    | joining e =>
      cases hh : s.heartbeat with
      | ended c => cases c <;> simp [step, joined, hp, hh, FailsLate]
      | absent => simp [step, joined, hp, hh, FailsLate]
      | created => simp [step, joined, hp, hh, FailsLate]
      | waiting => simp [step, joined, hp, hh, FailsLate]
      | renewing => simp [step, joined, hp, hh, FailsLate]
    | acquiring => simp [step, joined, hp, FailsLate]
    | inBody a i => simp [step, joined, hp, FailsLate]
    | releasing e => simp [step, joined, hp, FailsLate]
    | ended e => simp [step, joined, hp, FailsLate]
  | released => cases hp : s.parent <;> simp [step, released, hp, FailsLate]

/-- A heartbeat task that has ended cancelled stays as it is. -/
theorem late_after (turns : List (OperationTurn ε α)) (h : s.Good)
    (hh : s.heartbeat = .ended true) : (s.after turns).heartbeat = .ended true := by
  induction turns generalizing s with
  | nil => exact hh
  | cons t turns ih => exact ih (good_step t h) ((late_step t h).mpr (.inl hh))

theorem onTime_iff (turns : List (OperationTurn ε α)) (h : s.Good)
    (hh : s.heartbeat ≠ .ended true) :
    s.OnTime turns ↔ (s.after turns).heartbeat ≠ .ended true := by
  induction turns generalizing s with
  | nil => simp [OnTime, after, hh]
  | cons t turns ih =>
    have hl := late_step t h
    have hg := good_step t h
    by_cases ht : s.FailsLate t
    · have hend := late_after turns hg (hl.mpr (.inr ht))
      simpa [OnTime, ht, after] using hend
    · have hn : (s.step t).heartbeat ≠ .ended true := by
        rw [ne_eq, hl]
        simp [hh, ht]
      simp only [OnTime, ht, not_false_eq_true, true_and]
      exact ih hg hn

/-- Where the operation has ended, so has the heartbeat task, and the law holds unless the
task ended cancelled. -/
theorem Good.ended {e : OperationEnd ε α} (h : s.Good) (hp : s.parent = .ended e) :
    (s.ExitLaw e ↔ s.heartbeat ≠ .ended true) ∧ s.heartbeat.running = false := by
  simp only [Good, hp] at h
  rcases h with ⟨hh, hb, he⟩ | ⟨hh, he, -⟩ | ⟨hh, he, own, hb, ho⟩
  · simp [ExitLaw, hh, hb, he, Heartbeat.running]
  · simp [ExitLaw, hh, he, Heartbeat.running]
  · simp only [ExitLaw, hh, hb, Heartbeat.running, true_and]
    simp [he, ← ho]

/-- Once the body has ended, the loop can take the operation to its end. -/
theorem Good.finishes (h : s.Good) (hb : s.body.isSome = true) :
    ∃ turns e, (s.after turns).parent = .ended e := by
  cases hp : s.parent with
  | acquiring =>
    simp only [Good, hp] at h
    subst h
    cases hb
  | inBody a i =>
    simp only [Good, hp] at h
    simp [h.1] at hb
  | ended e => exact ⟨[], e, hp⟩
  | releasing e => exact ⟨[.released], e, by simp [after, step, released, hp]⟩
  | joining e =>
    have hr := fun hh => (h.beating hh).1
    simp only [Good, hp] at h
    obtain ⟨hs, -, -, h⟩ := h
    cases hh : s.heartbeat with
    | absent => simp [hh, Heartbeat.running] at h
    | ended c =>
      cases c with
      | true => exact ⟨[.joined], .cancelled, by simp [after, step, joined, hp, hh]⟩
      | false => exact ⟨[.joined, .released], e, by simp [after, step, joined, released, hp, hh]⟩
    | created =>
      have hr := hr (by rw [hh]; rfl)
      exact ⟨[.heartbeatStarts, .joined, .released], e, by
        simp [after, step, heartbeatStarts, heartbeatLoop, joined, released, hp, hh, hs, hr]⟩
    | waiting =>
      have hr := hr (by rw [hh]; rfl)
      exact ⟨[.stopSeen, .joined, .released], e, by
        simp [after, step, stopSeen, heartbeatLoop, joined, released, hp, hh, hs, hr]⟩
    | renewing =>
      have hr := hr (by rw [hh]; rfl)
      exact ⟨[.renewed .granted, .joined, .released], e, by
        simp [after, step, renewed, heartbeatLoop, joined, released, hp, hh, hs, hr]⟩

/-- In every run of `host_operation`: where it has ended, its end is the one of the law if
and only if no renewal failed after the end of the body, and no heartbeat task is running;
and once the body has ended, it can come to its end. -/
theorem host_operation_ends (turns : List (OperationTurn ε α)) :
    (∀ e, ((new : HostOperation ε α).after turns).parent = .ended e →
      ((new.after turns).ExitLaw e ↔ new.OnTime turns) ∧
        (new.after turns).heartbeat.running = false) ∧
    (((new : HostOperation ε α).after turns).body.isSome = true →
      ∃ more e, (new.after (turns ++ more)).parent = .ended e) := by
  have hg := good_after turns (good_new (ε := ε) (α := α))
  refine ⟨fun e he => ?_, fun hb => ?_⟩
  · have hn : (new : HostOperation ε α).heartbeat ≠ .ended true := by simp [new]
    rw [onTime_iff turns good_new hn]
    exact hg.ended he
  · obtain ⟨more, e, he⟩ := hg.finishes hb
    exact ⟨more, e, by rw [after, List.foldl_append]; exact he⟩

/-- A renewal is refused while the body awaits, and the local work is interrupted. -/
def lostInBody : List (OperationTurn Nat Nat) :=
  [.acquired .granted .waits, .heartbeatStarts, .timeout, .renewed .denied, .goesOn (.returns 0),
    .released]

/-- The operation ends with a retry, as it should. -/
theorem host_operation_lostInBody :
    (new.after lostInBody).parent = .ended .temporary ∧
      ((new.after lostInBody).ExitLaw .temporary ↔ new.OnTime lostInBody) ∧
      ∃ more e, ((new : HostOperation Nat Nat).after (lostInBody ++ more)).parent = .ended e :=
  ⟨by decide, ((host_operation_ends lostInBody).1 .temporary (by decide)).1,
    (host_operation_ends lostInBody).2 (by decide)⟩

/-- The renewal is in flight when the body returns, and is refused then. -/
def lostAtExit : List (OperationTurn Nat Nat) :=
  [.acquired .granted .waits, .heartbeatStarts, .timeout, .awaitedDone, .goesOn (.returns 0),
    .renewed .denied, .joined]

/-- The operation ends as cancelled although nobody has cancelled it. -/
theorem host_operation_lostAtExit :
    (new.after lostAtExit).parent = .ended .cancelled ∧
      ¬ (new.after lostAtExit).ExitLaw .cancelled :=
  ⟨by decide, fun h => h.1 rfl⟩

end HostOperation

end CapiSsh
