import CapiSsh.HandlerRuns

/-!
# One attempt, call by call

Every attempt takes the lock, reads its Machine, does its own part on what it has read,
and ends with Kopf's application of what it staged. Rules for parts of a program, and one
theorem that puts a rule for the middle part of each kind of attempt into this frame.
-/
namespace CapiSsh

open Effect Interference

section rules

variable {S : Setting} {Known : MachineRef → Local → Exchange → Prop} {i : MachineRef}
  {G : Attempt → Exchange → List Exchange → Prop} {K K' : Local → Prop} {A A' : α → Local → Prop}
  {B : β → Local → Prop} {E E' : Exc → Local → Prop}

theorem walks_pure {a : α} (h : ∀ l, K l → A a l) : Walks S Known i G K (pure a) A E :=
  triple_pure fun l _ hk => h l hk

theorem walks_throw {e : Exc} (h : ∀ l, K l → E e l) : Walks S Known i G K (throw e : Act α) A E :=
  triple_throw fun l _ hk => h l hk

/-- The rules of sequences, handlers, consequence and branches, as the logic has them. -/
theorem walks_bind {p : Act α} {f : α → Act β} (hp : Walks S Known i G K p A E)
    (hf : ∀ a, Walks S Known i G (A a) (f a) B E) : Walks S Known i G K (p >>= f) B E :=
  triple_bind hp hf

theorem walks_handle {p : Act α} {h : Exc → Act α} (hp : Walks S Known i G K p A E)
    (hh : ∀ e, Walks S Known i G (E e) (h e) A E') : Walks S Known i G K (tryCatch p h) A E' :=
  triple_handle hp hh

theorem walks_conseq {p : Act α} (h : Walks S Known i G K p A E) (hK : ∀ l, K' l → K l)
    (hA : ∀ a l, A a l → A' a l) (hE : ∀ e l, E e l → E' e l) : Walks S Known i G K' p A' E' :=
  triple_conseq h (fun l _ => hK l) (fun a l _ => hA a l) fun e l _ => hE e l

theorem walks_weaken {p : Act α} (h : Walks S Known i G K p A E) (hK : ∀ l, K' l → K l) :
    Walks S Known i G K' p A E :=
  walks_conseq h hK (fun _ _ h => h) fun _ _ h => h

theorem walks_attempt {p : Act α} {F : Exc → Local → Prop} (h : Walks S Known i G K p A E) :
    Walks S Known i G K p.attempt (fun r l => post A E r l) F :=
  triple_attempt h

theorem walks_intro {φ : Prop} {p : Act α} (h : φ → Walks S Known i G K p A E) :
    Walks S Known i G (fun l => φ ∧ K l) p A E :=
  triple_intro h

theorem walks_exists {γ : Type} {P : γ → Local → Prop} {p : Act α} (h : ∀ c, Walks S Known i G (P c) p A E) :
    Walks S Known i G (fun l => ∃ c, P c l) p A E :=
  triple_exists h

theorem walks_have {p : Act α} (φ : Prop) (hφ : ∀ l, K l → φ) (h : φ → Walks S Known i G K p A E) :
    Walks S Known i G K p A E :=
  fun l hl hk => h (hφ l hk) l hl hk

theorem walks_ite {c : Prop} [Decidable c] {p q : Act α} (hp : c → Walks S Known i G K p A E)
    (hq : ¬ c → Walks S Known i G K q A E) : Walks S Known i G K (if c then p else q) A E := by
  split
  · rename_i h; exact hp h
  · rename_i h; exact hq h

theorem walks_raiseIf {c : Prop} [Decidable c] {e : Exc} {A : Unit → Local → Prop} (hE : c → ∀ l, K l → E e l)
    (hA : ¬ c → ∀ l, K l → A () l) : Walks S Known i G K (raiseIf c e) A E :=
  walks_ite (fun h => walks_throw (hE h)) fun h => walks_pure (hA h)

/-- What follows a check may rely on it. -/
theorem walks_guard {c : Prop} [Decidable c] {e : Exc} {f : Unit → Act β} (hE : ∀ l, K l → E e l)
    (hf : ¬ c → Walks S Known i G K (f ()) B E) : Walks S Known i G K (raiseIf c e >>= f) B E := by
  unfold raiseIf
  split
  · exact walks_throw hE
  · rename_i hc
    exact hf hc

theorem walks_onlyIf {c : Prop} [Decidable c] {p : Act Unit} {A : Unit → Local → Prop}
    (hp : c → Walks S Known i G K p A E) (hn : ¬ c → ∀ l, K l → A () l) : Walks S Known i G K (onlyIf c p) A E :=
  walks_ite hp fun h => walks_pure (hn h)

/-- The closing part of a block keeps what is known of both outcomes. -/
theorem walks_finally {p : Act α} {fin : Act Unit} (hp : Walks S Known i G K p A E)
    (hA : ∀ a, Walks S Known i G (A a) fin (fun _ => A a) E')
    (hE : ∀ e, Walks S Known i G (E e) fin (fun _ => E' e) E') :
    Walks S Known i G K (p.andFinally fin) A E' :=
  triple_andFinally hp hA hE

end rules

/-- The Machine that a call has read. -/
def Exchange.machine (e : Exchange) : Option Machine :=
  match e with
  | ⟨.readMachine _, .ok m, _, _⟩ => some m
  | _ => none

def firstRead : List Exchange → Option Machine
  | [] => none
  | e :: earlier => (firstRead earlier).or e.machine

/-- The Machine that an attempt works on is the first one that it has read, if it is its own. -/
def live (i : MachineRef) (calls : List Exchange) : Option Machine :=
  (firstRead calls).filter fun m => m.metadata.uid = i.uid

theorem machine_other {e : Exchange} (h : ∀ key, e.op ≠ .readMachine key) : e.machine = none := by
  obtain ⟨op, r, w, w'⟩ := e
  cases op with
  | readMachine key => exact absurd rfl (h key)
  | _ => rfl

/-- The Machine of an attempt is the first that it has read, if that is the right one. -/
theorem live_some {i : MachineRef} {m : Machine} {calls : List Exchange} :
    live i calls = some m ↔ firstRead calls = some m ∧ m.metadata.uid = i.uid := by
  simp [live, Option.filter_eq_some_iff]

/-- It stays the same whatever is called afterwards. -/
theorem live_cons {i : MachineRef} {m : Machine} {calls : List Exchange} (e : Exchange) (h : live i calls = some m) :
    live i (e :: calls) = some m := by
  rw [live_some] at h ⊢
  exact ⟨by simp [firstRead, h.1], h.2⟩

/-- The call that reads the Machine of the attempt. -/
theorem live_read {i : MachineRef} {m : Machine} {calls : List Exchange} {e : Exchange} (hn : live i calls = none)
    (h : live i (e :: calls) = some m) : e.machine = some m ∧ m.metadata.uid = i.uid := by
  obtain ⟨hf, hu⟩ := live_some.mp h
  rw [firstRead] at hf
  cases hc : firstRead calls with
  | none => rw [hc, Option.none_or] at hf; exact ⟨hf, hu⟩
  | some m' =>
    rw [hc, Option.some_or] at hf
    obtain rfl := Option.some.inj hf
    rw [live_some.mpr ⟨hc, hu⟩] at hn
    cases hn

theorem live_append {i : MachineRef} {m : Machine} {calls : List Exchange} (later : List Exchange)
    (h : live i calls = some m) : live i (later ++ calls) = some m := by
  induction later with
  | nil => exact h
  | cons e later ih => exact live_cons e ih

def Op.locks : Op → Prop
  | .acquireLock _ => True
  | _ => False

theorem machine_some {e : Exchange} {m : Machine} (h : e.machine = some m) :
    ∃ key, e = ⟨.readMachine key, .ok m, e.before, e.after⟩ := by
  unfold Exchange.machine at h
  split at h
  · cases h; exact ⟨_, rfl⟩
  · cases h

/-- The locks read no Machine. -/
theorem firstRead_locks {calls : List Exchange} (h : ∀ e ∈ calls, e.op.locks) : firstRead calls = none := by
  induction calls with
  | nil => rfl
  | cons e earlier ih =>
    rw [firstRead, ih fun x hx => h x (List.mem_cons_of_mem _ hx), Option.none_or]
    refine machine_other fun key hk => ?_
    have := h e List.mem_cons_self
    rw [hk] at this
    exact this

/-- Nothing but the lock has been asked for. -/
structure Locking (a : Attempt) (l : Local) : Prop where
  kind : l.kind = a
  calls : ∀ e ∈ l.calls, e.op.locks
  staged : l.staged = Patch.empty

/-- The call that reads the Machine of `i` and does not find it. -/
structure Misses (Known : MachineRef → Local → Exchange → Prop) (i : MachineRef) (l : Local) (e : Exchange) : Prop where
  op : e.op = .readMachine i.key
  after : e.after = e.before
  known : Known i l e
  other : ∀ m, e.machine = some m → m.metadata.uid ≠ i.uid
  locks : ∀ x ∈ l.calls, x.op.locks

/-- The Machine of the attempt is not there, or not to be read. -/
structure Missed (Known : MachineRef → Local → Exchange → Prop) (i : MachineRef) (a : Attempt) (l : Local) : Prop where
  kind : l.kind = a
  calls : ∃ l₀ e, l = l₀.push i e ∧ Misses Known i l₀ e
  staged : l.staged = Patch.empty

/-- The Machine of that name is gone, or another one. -/
def Exchange.gone (i : MachineRef) (e : Exchange) : Bool :=
  match e with
  | ⟨.readMachine _, .error (.api 404), _, _⟩ => true
  | ⟨.readMachine _, .ok m, _, _⟩ => m.metadata.uid != i.uid
  | _ => false

/-- What was missed is gone. -/
def Vacant (i : MachineRef) (l : Local) : Prop := ∃ e ∈ l.calls.head?, e.gone i = true

/-- The attempt works on `m`, which it has just read. -/
structure Began (Known : MachineRef → Local → Exchange → Prop) (i : MachineRef) (a : Attempt) (m : Machine)
    (l : Local) : Prop where
  kind : l.kind = a
  key : m.metadata.key = i.key
  read : ∃ l₀ w, l = l₀.push i ⟨.readMachine i.key, .ok m, w, w⟩ ∧ w.machines.lookup i.key = some m ∧
    Known i l₀ ⟨.readMachine i.key, .ok m, w, w⟩ ∧ ∀ x ∈ l₀.calls, x.op.locks
  staged : l.staged = Patch.empty

/-- Another Machine of that name is left alone. -/
def Opened (Known : MachineRef → Local → Exchange → Prop) (i : MachineRef) (a : Attempt) (m : Machine)
    (l : Local) : Prop :=
  (m.metadata.uid ≠ i.uid ∧ Missed Known i a l ∧ Vacant i l) ∨ (m.metadata.uid = i.uid ∧ Began Known i a m l)

section began

variable {Known : MachineRef → Local → Exchange → Prop} {i : MachineRef} {a : Attempt} {m : Machine} {l : Local}

/-- An attempt begins on the Machine that it has read. -/
theorem began_live (h : Began Known i a m l) (hu : m.metadata.uid = i.uid) : live i l.calls = some m := by
  obtain ⟨l₀, w, rfl, -, -, hr⟩ := h.read
  rw [live_some, Local.push, firstRead, firstRead_locks hr, Option.none_or]
  exact ⟨rfl, hu⟩

/-- Locks and one read are all that an attempt has asked for when it begins. -/
theorem began_calls {Q : Exchange → Prop} (h : Began Known i a m l) (hl : ∀ x, x.op.locks → Q x)
    (hr : ∀ w, Q ⟨.readMachine i.key, .ok m, w, w⟩) : ∀ x ∈ l.calls, Q x := by
  obtain ⟨l₀, w, rfl, -, -, hc⟩ := h.read
  intro x hx
  rcases List.mem_cons.mp hx with rfl | hx
  · exact hr w
  · exact hl x (hc x hx)

end began

/-- The attempt works on `m`. -/
structure AtWork (i : MachineRef) (a : Attempt) (m : Machine) (l : Local) : Prop where
  kind : l.kind = a
  live : live i l.calls = some m

theorem atWork_push {i : MachineRef} {a : Attempt} {m : Machine} {l : Local} (e : Exchange) (h : AtWork i a m l) :
    AtWork i a m (l.push i e) :=
  ⟨h.kind, live_cons e h.live⟩

theorem began_atWork {Known : MachineRef → Local → Exchange → Prop} {i : MachineRef} {a : Attempt} {m : Machine}
    {l : Local} (h : Began Known i a m l) (hu : m.metadata.uid = i.uid) : AtWork i a m l :=
  ⟨h.kind, began_live h hu⟩

/-- What an attempt does with the Machine that it has read. -/
def Attempt.part (tools : PayloadTools) (timeout : Time) (i : MachineRef) (m : Machine) :
    Attempt → Act (Option Binding)
  | .bind => do
    let binding ← bindMachine m.spec m.status i.key i.uid
    return some binding
  | .reboot => do
    reconcileReboot m.spec m.status m.metadata false
    return none
  | .reconcile => do
    reconcileLatest tools m .reconcile timeout
    return none
  | .delete => do
    reconcileLatest tools m .delete timeout
    return none

/-- Calls before the part of an attempt. -/
def Op.opens (key : ObjectKey) : Op → Prop
  | .acquireLock _ => True
  | .readMachine k => k = key
  | _ => False

theorem answer_staged {boots : Target → Nat → String} {i : MachineRef} {op : Op} {c : Choice} {w w' : World}
    {r : Except Exc (Reply op)} (h : answer boots i op c w = some (r, w')) (hf : ∀ f, op ≠ .stage f) :
    w'.staged = w.staged := by
  cases answer_written h with
  | staged f p ho => exact absurd ho (hf f)
  | _ => rfl

section frame

variable {S : Setting} {Known : MachineRef → Local → Exchange → Prop} {i : MachineRef}
  {G : Attempt → Exchange → List Exchange → Prop} {a : Attempt}

/-- The lock is taken before anything is read. -/
theorem walks_locks {key : ObjectKey}
    (hG : ∀ a e earlier, e.op.opens i.key → (∀ x ∈ earlier, x.op.locks) → G a e earlier) :
    Walks S Known i G (Locking a) (acquireDistributedLockOrRequeue key) (fun _ => Locking a)
      fun _ => Locking a := by
  refine walks_only (s := Op.locks) ?_ ?_
  · refine Prog.only_bind (Prog.only_handle (Prog.only_perform trivial) fun e => ?_) fun _ => ?_
    · split <;> trivial
    · unfold raiseIf
      split <;> trivial
  · rintro op hop l c w r w' hl hs ha -
    cases op with
    | acquireLock key =>
      refine ⟨hG _ _ _ trivial hl.calls, hl.kind, ?_, ?_⟩
      · intro x hx
        rcases List.mem_cons.mp hx with rfl | hx
        · trivial
        · exact hl.calls x hx
      · change w'.staged i = _
        rw [answer_staged ha (by rintro f ⟨⟩), hs, hl.staged]
    | _ => cases hop

/-- The read of the Machine under the lock. -/
theorem walks_live (hG : ∀ a e earlier, e.op.opens i.key → (∀ x ∈ earlier, x.op.locks) → G a e earlier)
    (hK : ∀ l e, Known i l e → Basic i l e) :
    Walks S Known i G (Locking a) (call (.readMachine i.key))
      (fun m => Opened Known i a m) fun e l => Missed Known i a l ∧ (e = .api 404 → Vacant i l) := by
  refine walks_call fun l c w r w' hl hs ha hk => ⟨hG _ _ _ rfl hl.calls, ?_⟩
  obtain ⟨rfl, hm⟩ := answer_read ha
  have hstaged : (l.push i ⟨.readMachine i.key, r, w', w'⟩).staged = Patch.empty := hs.trans hl.staged
  cases r with
  | error e =>
    refine ⟨⟨hl.kind, ⟨l, _, rfl, rfl, rfl, hk, by rintro m ⟨⟩, hl.calls⟩, hstaged⟩, ?_⟩
    rintro rfl
    exact ⟨_, rfl, rfl⟩
  | ok m =>
    by_cases hu : m.metadata.uid = i.uid
    · exact .inr ⟨hu, hl.kind, ((hK _ _ hk).accounted.machine _ m (hm m rfl)).1,
        ⟨l, w', rfl, hm m rfl, hk, hl.calls⟩, hstaged⟩
    · refine .inl ⟨hu, ⟨hl.kind, ⟨l, _, rfl, rfl, rfl, hk, by rintro m' ⟨⟩; exact hu, hl.calls⟩, hstaged⟩, _, rfl, ?_⟩
      exact bne_iff_ne.mpr hu

variable {Z : Except Exc (Option Binding) → Local → Prop}

/-- What the part of an attempt has to establish for the frame to keep it. -/
structure Framed (S : Setting) (Known : MachineRef → Local → Exchange → Prop) (i : MachineRef)
    (G : Attempt → Exchange → List Exchange → Prop) (a : Attempt)
    (Z : Except Exc (Option Binding) → Local → Prop) : Prop where
  basic : ∀ l e, Known i l e → Basic i l e
  guard : ∀ a e earlier, e.op.opens i.key → (∀ x ∈ earlier, x.op.locks) → G a e earlier
  locking : ∀ l e, Locking a l → Z (.error e) l
  missed : ∀ l r, Missed Known i a l → (∀ b, r = .ok b → Vacant i l) → Z r l
  part : ∀ m, m.metadata.uid = i.uid → Walks S Known i G (Began Known i a m) (a.part S.tools S.timeout i m)
    (fun r => Z (.ok r)) fun e => Z (.error e)
  release : ∀ l r c w b w', Z r l → w.staged i = l.staged →
    answer S.boots i (.releaseLock i.key) c w = some (b, w') →
    Known i l ⟨.releaseLock i.key, b, w, w'⟩ → G l.kind ⟨.releaseLock i.key, b, w, w'⟩ l.calls ∧
      Z r (l.push i ⟨.releaseLock i.key, b, w, w'⟩)
  raised : ∀ l r e, Z r l → Z (.error e) l
  apply : ∀ l r c w u w', Z r l → w.staged i = l.staged →
    answer S.boots i (.applyStaged i.key) c w = some (u, w') →
    Known i l ⟨.applyStaged i.key, u, w, w'⟩ → G l.kind ⟨.applyStaged i.key, u, w, w'⟩ l.calls

theorem walks_release (h : Framed S Known i G a Z) (r : Except Exc (Option Binding)) :
    Walks S Known i G (Z r) (releaseDistributedLockWithLogging i.key) (fun _ => Z r)
      fun e => Z (.error e) := by
  have hcall : Walks S Known i G (Z r) (call (.releaseLock i.key)) (fun _ => Z r) fun _ => Z r := by
    refine walks_call fun l c w b w' hl hs ha hk => ?_
    obtain ⟨hg, hz⟩ := h.release l r c w b w' hl hs ha hk
    refine ⟨hg, ?_⟩
    cases b <;> exact hz
  refine walks_bind (A := fun _ => Z r) (walks_handle hcall fun e => ?_) fun _ => walks_pure fun _ hl => hl
  exact walks_ite (fun _ => walks_throw fun l hl => h.raised l r _ hl) fun _ => walks_pure fun _ hl => hl

/-- The part runs on the Machine itself, and nothing on another one. -/
theorem walks_opened (h : Framed S Known i G a Z) {m : Machine} {p : Act (Option Binding)}
    (hp : a.part S.tools S.timeout i m = p) :
    Walks S Known i G (Opened Known i a m) (if m.metadata.uid = i.uid then p else return none)
      (fun r => Z (.ok r)) fun e => Z (.error e) := by
  subst hp
  refine walks_ite (fun hu => walks_weaken (h.part m hu) ?_) fun hu => walks_pure ?_
  · rintro l (⟨hn, -⟩ | ⟨-, hb⟩)
    · exact absurd hu hn
    · exact hb
  · rintro l (⟨-, hm, hv⟩ | ⟨hu', -⟩)
    · exact h.missed l _ hm fun _ _ => hv
    · exact absurd hu' hu

/-- A part runs on the Machine that was read, if there is one. -/
theorem walks_withLive (h : Framed S Known i G a Z) {f : Machine → Act (Option Binding)}
    (hf : ∀ m, a.part S.tools S.timeout i m = f m) :
    Walks S Known i G (Locking a) (withLive i f) (fun r => Z (.ok r)) fun e => Z (.error e) :=
  walks_bind (walks_conseq (walks_live h.guard h.basic) (fun _ hl => hl) (fun _ _ hl => hl)
    fun e l hl => h.missed l (.error e) hl.1 (by rintro b ⟨⟩)) fun m => walks_opened h (hf m)

/-- The read of the entry point: a Machine that is gone is as good as another one. -/
theorem walks_readCurrent (h : Framed S Known i G a Z) :
    Walks S Known i G (Locking a)
      (tryCatch (readCurrentSshmachine i.key) fun e => if e = .cancelled then throw e
        else throw (.temporary "failed to refresh live SSHMachine state under reconcile lock" 15))
      (fun r l => match r with
        | none => Missed Known i a l ∧ Vacant i l
        | some m => Opened Known i a m l) fun e => Z (.error e) := by
  refine walks_handle (E := fun _ => Missed Known i a) ?_ fun e => ?_
  · refine walks_handle (walks_bind (walks_live h.guard h.basic) fun m => walks_pure fun l hl => hl) fun e => ?_
    split
    · exact walks_pure fun l hl => ⟨hl.1, hl.2 rfl⟩
    · exact walks_throw fun l hl => hl.1
  · exact walks_ite (fun _ => walks_throw fun l hl => h.missed l _ hl (by rintro b ⟨⟩)) fun _ =>
      walks_throw fun l hl => h.missed l _ hl (by rintro b ⟨⟩)

theorem walks_serialized (h : Framed S Known i G a Z) {action : Action}
    (hf : ∀ m, a.part S.tools S.timeout i m = (do
      reconcileLatest S.tools m action S.timeout
      return none)) :
    Walks S Known i G (Locking a) (do
      sshmachineReconcile S.tools i.key i.uid action S.timeout
      return none) (fun r => Z (.ok r)) fun e => Z (.error e) := by
  refine walks_bind (A := fun _ => Z (.ok none)) ?_ fun _ => walks_pure fun l hl => hl
  refine walks_bind (walks_conseq (walks_locks h.guard) (fun _ hl => hl) (fun _ _ hl => hl)
    fun e l hl => h.locking l e hl) fun _ => ?_
  refine walks_finally (A := fun _ => Z (.ok none)) (E := fun e => Z (.error e)) ?_
    (fun _ => walks_release h _) fun e => walks_conseq (walks_release h (.error e)) (fun _ hl => hl)
      (fun _ _ hl => hl) fun _ _ hl => hl
  refine walks_bind (walks_readCurrent h) fun r => ?_
  cases r with
  | none => exact walks_pure fun l hl => h.missed l _ hl.1 fun _ _ => hl.2
  | some m =>
    refine walks_ite (fun hu => walks_pure ?_) fun hu => ?_
    · rintro l (⟨-, hm, hv⟩ | ⟨hu', -⟩)
      · exact h.missed l _ hm fun _ _ => hv
      · exact absurd hu' hu
    · rintro l hl (⟨hn, -⟩ | ⟨hu, hb⟩)
      · exact absurd hn hu
      · have hp := h.part m hu l hl hb
        rw [hf] at hp
        refine wp_mono hl (wp_of_bind_pure hp) ?_
        rintro (e | r) l' - hz <;> exact hz

/-- The whole attempt, from the rule for its middle part. -/
theorem walks_body (h : Framed S Known i G a Z) :
    Walks S Known i G (Locking a) (a.body S.tools S.timeout i) (fun r => Z (.ok r)) fun e => Z (.error e) := by
  cases a with
  | bind => exact walks_withLive h fun _ => rfl
  | reboot => exact walks_withLive h fun _ => rfl
  | reconcile => exact walks_serialized h fun _ => rfl
  | delete => exact walks_serialized h fun _ => rfl

/-- Kopf's write at the end of an attempt. -/
structure Applies (S : Setting) (Known : MachineRef → Local → Exchange → Prop) (i : MachineRef) (l : Local)
    (e : Exchange) : Prop where
  op : e.op = .applyStaged i.key
  known : Known i l e
  answered : ∃ c, answer S.boots i e.op c e.before = some (e.reply, e.after)

/-- What an attempt knew before Kopf's write, once it has ended. -/
def Ended (S : Setting) (Known : MachineRef → Local → Exchange → Prop) (i : MachineRef)
    (Z : Attempt → Except Exc (Option Binding) → Local → Prop) (r : Except Exc (Except Exc (Option Binding)))
    (l : Local) : Prop :=
  ∀ outcome, r = .ok outcome → ∃ a l₀ e, Z a outcome l₀ ∧ Applies S Known i l₀ e ∧ l = l₀.push i e

/-- The whole attempt; what it knew before Kopf's write is known of the calls before that. -/
theorem handled_framed (h : Framed S Known i G a Z) (w : World) :
    wp (solo S Known i) (alone (Guarded G)) () (a.handled S.tools S.timeout i)
      (fun r l => ∀ outcome, r = .ok outcome → ∃ l₀ e, Z outcome l₀ ∧ Applies S Known i l₀ e ∧ l = l₀.push i e)
      (.fresh a w) := by
  have hbody : Walks S Known i G (Locking a) (a.handled S.tools S.timeout i)
      (fun outcome l => ∃ l₀ e, Z outcome l₀ ∧ Applies S Known i l₀ e ∧ l = l₀.push i e) fun _ _ => False := by
    refine walks_bind (walks_attempt (walks_body h)) fun outcome => ?_
    have happly : Walks S Known i G (Z outcome) (call (.applyStaged i.key))
        (fun _ l => ∃ l₀ e, Z outcome l₀ ∧ Applies S Known i l₀ e ∧ l = l₀.push i e)
        (fun _ l => ∃ l₀ e, Z outcome l₀ ∧ Applies S Known i l₀ e ∧ l = l₀.push i e) := by
      refine walks_call fun l c w u w' hl hs ha hk => ⟨h.apply l outcome c w u w' hl hs ha hk, ?_⟩
      cases u <;> exact ⟨l, _, hl, ⟨rfl, hk, c, ha⟩, rfl⟩
    have hlast := walks_bind (walks_attempt (F := fun _ _ => False) happly)
      (B := fun outcome l => ∃ l₀ e, Z outcome l₀ ∧ Applies S Known i l₀ e ∧ l = l₀.push i e)
      (f := fun _ => (pure outcome : Act _)) fun r => walks_pure fun l hl => by cases r <;> exact hl
    refine walks_weaken hlast fun l hl => ?_
    cases outcome <;> exact hl
  refine wp_mono guarded_fresh (hbody _ guarded_fresh ⟨rfl, by rintro e ⟨⟩, rfl⟩) ?_
  rintro (e | outcome) l - hl
  · exact hl.elim
  · rintro _ ⟨⟩
    exact hl

end frame

section only

variable {S : Setting} {Known : MachineRef → Local → Exchange → Prop} {i u : MachineRef}
  {G : Attempt → Exchange → List Exchange → Prop} {a : Attempt}

/-- A demand on the attempts of `u` alone. -/
def OnlyFor (u : MachineRef) (G : Attempt → Exchange → List Exchange → Prop) (i : MachineRef) (a : Attempt)
    (e : Exchange) (earlier : List Exchange) : Prop := i = u → G a e earlier

theorem only_true {Op : Type} {Res : Op → Type} {ε α : Type} (p : Prog Op Res ε α) : p.Only fun _ => True := by
  induction p with
  | pure a => trivial
  | throw e => trivial
  | call op k ih => exact ⟨trivial, ih⟩

theorem framed_free (hK : ∀ l e, Known i l e → Basic i l e) (hG : ∀ a e earlier, G a e earlier) :
    Framed S Known i G a fun _ _ => True where
  basic := hK
  guard _ _ _ _ _ := hG _ _ _
  locking _ _ _ := trivial
  missed _ _ _ _ := trivial
  part _ _ := walks_conseq (walks_only (K := fun _ => True) (only_true _) fun _ _ _ _ _ _ _ _ _ _ _ =>
    ⟨hG _ _ _, trivial⟩) (fun _ _ => trivial) (fun _ _ _ => trivial) fun _ _ _ => trivial
  release _ _ _ _ _ _ _ _ _ _ := ⟨hG _ _ _, trivial⟩
  raised _ _ _ _ := trivial
  apply _ _ _ _ _ _ _ _ _ _ := hG _ _ _

/-- A frame for one Machine frames the attempts of all. -/
theorem framed_only {Z : Except Exc (Option Binding) → Local → Prop} (hK : ∀ i l e, Known i l e → Basic i l e)
    (h : Framed S Known u G a Z) : Framed S Known i (OnlyFor u G i) a fun r l => i = u → Z r l := by
  by_cases hi : i = u
  · subst hi
    have hG : OnlyFor i G i = G := by
      funext a e earlier
      simp [OnlyFor]
    rw [hG]
    simpa using h
  · have hZ : (fun (r : Except Exc (Option Binding)) (l : Local) => i = u → Z r l) = fun _ _ => True := by
      funext r l
      simp [hi]
    rw [hZ]
    exact framed_free (hK i) fun _ _ _ hu => absurd hu hi

end only

section runs

variable {S : Setting} {ι : Type} [DecidableEq ι] {who : ι → MachineRef} {C : RunCondition ι} {c : Crew ι}
  {K : MachineRef → Local → Exchange → Prop} {G : MachineRef → Attempt → Exchange → List Exchange → Prop}
  {Z : MachineRef → Attempt → Except Exc (Option Binding) → Local → Prop} {I : Crew ι → Prop}

variable (who) in
/-- What fits into the frame holds in every run. -/
theorem framed_runs (hI : ∀ c, Reachable ((handlers S who).limit C) (idle (Site.empty ι)) c → I c)
    (hK : ∀ c k op kont r ch w', I c → c.thread k = some (.call op kont) →
      answer S.boots (who k) op ch (c.world.meets who k) = some (r, w') →
      C k op c.world r (c.world.record k (who k) ⟨op, r, c.world.meets who k, w'⟩) →
      K (who k) (c.world.attempts k) ⟨op, r, c.world.meets who k, w'⟩)
    (hF : ∀ i a, Framed S K i (G i) a (Z i a))
    (hc : Reachable ((handlers S who).limit C) (idle (Site.empty ι)) c) :
    Followed (fun k => solo S K (who k)) (fun k (s : Site ι) => s.attempts k)
      (fun k => Guarded (G (who k))) (fun k => Ended S K (who k) (Z (who k))) c := by
  refine handlers_followed (Q := fun i => Ended S K i (Z i)) hI hK (fun i a w _ => ?_) hc
  refine wp_mono guarded_fresh (handled_framed (hF i a) w) fun r l _ hq outcome ho => ?_
  obtain ⟨l₀, e, hz, he, hl⟩ := hq outcome ho
  exact ⟨a, l₀, e, hz, he, hl⟩

/-- Nothing needs to be known of the run. -/
theorem framed_always (hF : ∀ i a, Framed S Basic i (G i) a (Z i a))
    (hc : Reachable (handlers S who) (idle (Site.empty ι)) c) (k : ι) : Guarded (G (who k)) (c.world.attempts k) :=
  (framed_runs who (C := fun _ _ _ _ _ => True) (I := Steady noTrust who)
    (fun _ hc => reachable_steady (limit_reachable hc)) (fun _ _ _ _ _ _ _ hs hk _ _ => basic_known hs hk) hF
    (reachable_limit (fun _ _ _ _ _ => trivial) hc) k).1

/-- A call of the attempt `k`. -/
structure Called (S : Setting) (who : ι → MachineRef) (s : Site ι) (k : ι) (e : Exchange) : Prop where
  before : e.before = s.meets who k
  answered : ∃ ch, answer S.boots (who k) e.op ch e.before = some (e.reply, e.after)
  basic : Basic (who k) (s.attempts k) e

omit [DecidableEq ι] in
/-- A call writes what its operation writes. -/
theorem called_written {s : Site ι} {k : ι} {e : Exchange} (h : Called S who s k e) :
    Written (who k) e.op e.before e.after := by
  obtain ⟨ch, ha⟩ := h.answered
  exact answer_written ha

theorem answer_stage {boots : Target → Nat → String} {i : MachineRef} {f : Time → Patch → Patch} {c : Choice}
    {w w' : World} {r : Except Exc Unit} (h : answer boots i (.stage f) c w = some (r, w')) :
    ∃ t, w' = w.restage i (f t (w.staged i)) := by
  cases c with
  | time t => cases h; exact ⟨t, rfl⟩
  | _ => cases h

/-- Every attempt of a run makes its calls as `G` demands. -/
def AlwaysGuarded (S : Setting) (who : ι → MachineRef) (C : RunCondition ι)
    (G : MachineRef → Attempt → Exchange → List Exchange → Prop) : Prop :=
  ∀ c : Crew ι, Reachable ((handlers S who).limit C) (idle (Site.empty ι)) c →
    ∀ k, Guarded (G (who k)) (c.world.attempts k)

variable (who) in
/-- What the changes from outside, the starts and the guarded calls keep holds in every run. -/
theorem runs_keep {P : Site ι → Prop} (hG : AlwaysGuarded S who C G) (hinit : P (Site.empty ι))
    (henv : ∀ s ch w', P s → s.world.change S.trust ch = some w' → Outside noTrust s.world w' →
      P { s with world := w' })
    (hstart : ∀ s k a, P s → a.admitted (who k) s.world →
      P (s.put k (.fresh a s.world) (s.world.restage (who k) Patch.empty)))
    (hcall : ∀ s k e, P s → Called S who s k e → G (who k) (s.attempts k).kind e (s.attempts k).calls →
      C k e.op s e.reply (s.record k (who k) e) → P (s.record k (who k) e))
    (hc : Reachable ((handlers S who).limit C) (idle (Site.empty ι)) c) : P c.world := by
  induction hc with
  | refl => exact hinit
  | tail hr hs ih =>
    have hsteady := reachable_steady (limit_reachable hr)
    have hnext := hG _ (hr.tail hs)
    cases hs with
    | env he =>
      obtain ⟨ch, w', hw, rfl⟩ := he
      exact henv _ ch w' ih hw (change_outside hsteady.accounted (change_trust (by rintro ⟨⟩) (by rintro ⟨⟩) hw))
    | start hn he =>
      obtain ⟨a, ha, rfl, rfl⟩ := he
      exact hstart _ _ a ih ha
    | @call k op kont r s' hk he =>
      obtain ⟨⟨ch, w', ha, rfl⟩, hC⟩ := he
      refine hcall _ k ⟨op, r, _, w'⟩ ih ⟨rfl, ⟨ch, ha⟩, basic_known hsteady hk⟩ ?_ hC
      have hg := hnext k [] ⟨op, r, _, w'⟩ _ (by rw [set_world, recorded_same]; rfl)
      rw [set_world, recorded_same] at hg
      exact hg
    | finish hk hr he => obtain rfl := he; exact ih
    | crash hk he => obtain rfl := he; exact ih

end runs

end CapiSsh
