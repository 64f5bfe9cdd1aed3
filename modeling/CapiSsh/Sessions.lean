import CapiSsh.Powers

/-!
# Sessions on a host

Rules for the part of an attempt that holds the Lease of its target and a connection to
it. What is known there survives the calls that open and close the session, as long as
those keep it.
-/
namespace CapiSsh

open Effect Interference

variable {S : Setting} {Known : MachineRef → Local → Exchange → Prop} {i : MachineRef}
  {G : Attempt → Exchange → List Exchange → Prop} {K : Local → Prop} {A : α → Local → Prop} {E : Local → Prop}
  {P : Powers}

/-- The calls `s` of an attempt that knows `K` are made as `G` demands, and it still knows `K`. -/
def Keeps (S : Setting) (Known : MachineRef → Local → Exchange → Prop) (i : MachineRef)
    (G : Attempt → Exchange → List Exchange → Prop) (s : Op → Prop) (K : Local → Prop) : Prop :=
  ∀ op, s op → ∀ l c w r w', K l → w.staged i = l.staged → answer S.boots i op c w = some (r, w') →
    Known i l ⟨op, r, w, w'⟩ → G l.kind ⟨op, r, w, w'⟩ l.calls ∧ K (l.push i ⟨op, r, w, w'⟩)

/-- Calls that keep a fact, as a program. -/
theorem walks_kept {s : Op → Prop} {p : Act α} (h : Keeps S Known i G s K) (hp : p.Only s) :
    Walks S Known i G K p (fun _ => K) fun _ => K :=
  walks_only hp h

/-- What comes first keeps the fact, and may be forgotten. -/
theorem walks_skip {s : Op → Prop} {p : Act α} {f : α → Act β} {B : β → Local → Prop} {F : Exc → Local → Prop}
    (h : Keeps S Known i G s K) (hp : p.Only s) (hE : ∀ e l, K l → F e l) (hf : ∀ a, Walks S Known i G K (f a) B F) :
    Walks S Known i G K (p >>= f) B F :=
  walks_bind (walks_conseq (walks_kept h hp) (fun _ hl => hl) (fun _ _ hl => hl) fun e l hl => hE e l hl) hf

/-- How a block ended: what it returned stands, whatever closing it came to. -/
def Closed (A : α → Local → Prop) (E : Local → Prop) (exit : Exit α) (l : Local) : Prop :=
  (∀ a, exit.outcome = .ok a → exit.returned = some a) ∧ match exit.returned with
    | some a => A a l
    | none => E l

/-- A block that has ended is kept as its outcome is. -/
theorem keeps_closed {s : Op → Prop} (hA : ∀ a, Keeps S Known i G s (A a)) (hE : Keeps S Known i G s E)
    (exit : Exit α) : Keeps S Known i G s (Closed A E exit) := by
  rintro op hop l c w r w' ⟨hr, hl⟩ hs ha hk
  unfold Closed
  split at hl
  · rename_i a hret
    obtain ⟨hg, hl⟩ := hA a op hop l c w r w' hl hs ha hk
    rw [hret]
    exact ⟨hg, by simpa [hret] using hr, hl⟩
  · rename_i hret
    obtain ⟨hg, hl⟩ := hE op hop l c w r w' hl hs ha hk
    rw [hret]
    exact ⟨hg, by simpa [hret] using hr, hl⟩

theorem closed_error {exit : Exit α} {e : Exc} {l : Local} (h : Closed A E exit l) :
    Closed A E { exit with outcome := .error e } l :=
  ⟨by rintro a ⟨⟩, h.2⟩

/-- Running a block turns its error into an outcome. -/
theorem walks_run {body : Act α} (h : Walks S Known i G K body A fun _ => E) :
    Walks S Known i G K (Exit.run body) (Closed A E) fun _ => E := by
  refine walks_bind (walks_attempt (F := fun _ => E) h) fun r => ?_
  cases r with
  | ok a => exact walks_pure fun l hl => ⟨by rintro _ ⟨⟩; rfl, hl⟩
  | error e => exact walks_pure fun l hl => ⟨by rintro _ ⟨⟩, hl⟩

theorem closed_either {exit : Exit α} {l : Local} {F : Local → Prop} (hA : ∀ a l, A a l → F l) (hE : ∀ l, E l → F l)
    (h : Closed A E exit l) : F l := by
  obtain ⟨-, h⟩ := h
  split at h
  · exact hA _ l h
  · exact hE l h

section brackets

variable {F : Local → Prop} (hA : ∀ a, Keeps S Known i G (P.allows i) (A a))
  (hE : Keeps S Known i G (P.allows i) E) (hAF : ∀ a l, A a l → F l) (hEF : ∀ l, E l → F l)

include hA hE

/-- Closing the block leaves its outcome alone. -/
theorem walks_leave {exit : Exit α} {close : Act Unit} (hc : close.Only (P.allows i)) :
    Walks S Known i G (Closed A E exit) (exit.leave close) (Closed A E) fun _ => F := by
  refine walks_bind (walks_attempt (F := fun _ => F) (walks_kept (keeps_closed hA hE exit) hc)) fun r => ?_
  cases r with
  | ok _ => exact walks_pure fun l hl => hl
  | error e => exact walks_pure fun l hl => closed_error hl

include hEF

theorem walks_withConn {dial : Act Conn} {t : Target} {body : Conn → Act α} (hKE : ∀ l, K l → E l)
    (hd : Walks S Known i G K dial (fun conn l => conn.target = t ∧ K l) fun _ => K)
    (h : ∀ conn, conn.target = t → Walks S Known i G K (body conn) A fun _ => E) :
    Walks S Known i G K (withConn dial body) (Closed A E) fun _ => F := by
  refine walks_bind (walks_attempt (F := fun _ => F) hd) fun r => ?_
  cases r with
  | error e => exact walks_pure fun l hl => ⟨by rintro a ⟨⟩, hKE l hl⟩
  | ok conn =>
    refine walks_intro fun ht => walks_bind (walks_conseq (walks_run (h conn ht)) (fun _ hl => hl) (fun _ _ hl => hl)
      fun _ => hEF) fun exit => ?_
    exact walks_leave hA hE (may_call trivial)

include hAF

/-- A lost lease turns the outcome into an error at most. -/
theorem walks_lost {exit : Exit α} {lease : HostLeaseRef} :
    Walks S Known i G (Closed A E exit) (exit.lost lease) (Closed A E) fun _ => F := by
  unfold Exit.lost
  split
  · refine walks_skip (keeps_closed hA hE exit) (may_call trivial) (fun _ _ => closed_either hAF hEF) fun lost => ?_
    exact walks_ite (fun _ => walks_pure fun l hl => closed_error hl) fun _ => walks_pure fun l hl => hl
  · exact walks_pure fun l hl => hl

variable (hK : Keeps S Known i G (P.allows i) K) (hKF : ∀ l, K l → F l)

include hK hKF

/-- The lease is taken and given back around the block. -/
theorem walks_hostOperation {binding : Binding} {uid : Uid} {body : HostLeaseRef → Act (Exit α)}
    (h : ∀ lease, Walks S Known i G K (body lease) (Closed A E) fun _ => F) :
    Walks S Known i G K (hostOperation binding uid body) (Closed A E) fun _ => F := by
  refine walks_skip hK (Prog.only_handle (may_call trivial) fun _ => may_ite (fun _ => trivial) fun _ => trivial)
    (fun _ => hKF) fun acquired => walks_ite (fun _ => ?_) fun _ => walks_throw hKF
  refine walks_bind (h _) fun exit => walks_bind (walks_lost hA hE hAF hEF) fun exit => ?_
  exact walks_leave hA hE may_releaseLease

end brackets

/-- A connection is to the target that was dialled. -/
theorem walks_dial {t : Target} {user key knownHosts : String} (hK : Keeps S Known i G (P.allows i) K) (hP : P.dial) :
    Walks S Known i G K (call (.connect t user key knownHosts)) (fun conn l => conn.target = t ∧ K l) fun _ => K := by
  refine walks_call fun l c w r w' hl hs ha hk => ?_
  obtain ⟨hg, hl⟩ := hK (.connect t user key knownHosts) hP l c w r w' hl hs ha hk
  refine ⟨hg, ?_⟩
  cases c with
  | ok => cases ha; exact ⟨rfl, hl⟩
  | fail e => cases ha; exact hl
  | _ => cases ha

theorem walks_connect {binding : Binding} {ns : String} (hK : Keeps S Known i G (P.allows i) K) (hP : P.dial) :
    Walks S Known i G K (connect binding ns) (fun conn l => conn.target = binding.target ∧ K l) fun _ => K := by
  unfold connect
  split
  · exact walks_throw fun _ hl => hl
  · refine walks_skip hK (may_call trivial) (fun _ _ hl => hl) fun data => ?_
    split
    · exact walks_throw fun _ hl => hl
    · exact walks_skip hK may_readKnownHosts (fun _ _ hl => hl) fun _ => walks_dial hK hP

section sessions

variable {F : Local → Prop} {binding : Binding} {uid : Uid} {body : HostLeaseRef → Conn → Act α} (hP : P.dial)
  (hA : ∀ a, Keeps S Known i G (P.allows i) (A a)) (hE : Keeps S Known i G (P.allows i) E)
  (hAF : ∀ a l, A a l → F l) (hEF : ∀ l, E l → F l) (hK : Keeps S Known i G (P.allows i) K) (hKE : ∀ l, K l → E l)
  (h : ∀ lease conn, conn.target = binding.target → Walks S Known i G K (body lease conn) A fun _ => E)

include hP hA hE hAF hEF hK hKE h

/-- The body of a session runs on the target of its binding. -/
theorem walks_withHost {ns : String} :
    Walks S Known i G K (withHost binding uid ns body) (Closed A E) fun _ => F :=
  walks_hostOperation hA hE hAF hEF hK (fun l hl => hEF l (hKE l hl)) fun lease =>
    walks_withConn hA hE hEF hKE (walks_connect hK hP) (h lease)

theorem walks_withTarget {key knownHosts : String} :
    Walks S Known i G K (withTarget binding uid key knownHosts body) (Closed A E) fun _ => F :=
  walks_hostOperation hA hE hAF hEF hK (fun l hl => hEF l (hKE l hl)) fun lease =>
    walks_withConn hA hE hEF hKE (walks_dial hK hP) (h lease)

end sessions

/-- A session whose body returned and that was left without an error. -/
theorem walks_value {exit : Exit α} {F : Exc → Local → Prop} (hAF : ∀ e a l, A a l → F e l)
    (hEF : ∀ e l, E l → F e l) : Walks S Known i G (Closed A E exit) exit.value A F := by
  obtain ⟨returned, outcome⟩ := exit
  cases outcome with
  | ok a =>
    refine walks_pure fun l hl => ?_
    obtain ⟨hr, hl⟩ := hl
    obtain rfl : returned = some a := hr a rfl
    exact hl
  | error e => exact walks_throw fun l => closed_either (hAF e) (hEF e)

end CapiSsh
