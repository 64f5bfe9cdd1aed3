import CapiSsh.HostProbe
import CapiSsh.ReconcileRules
import CapiSsh.Replay

/-!
# Whether a host is in use

A claim and a release each make two writes to the host, and between them `inUse` and the
claim tell different things. Both go through with one resource version, so no probe comes
between them that they do not notice; a probe that comes after them with what it has read
before is noticed by nobody.
-/
namespace CapiSsh

open Effect Interference

section

variable {ι : Type} {i j : ι} {w w' : HostWorld ι} {key : ObjectKey} {heeded : Prop}

def HostWrite.opens : HostWrite → Bool
  | .claimed | .available => true
  | _ => false

theorem opened_iff : w.Opened i ↔ ∃ write, w.writes.head? = some (i, write) ∧ write.opens = true := by
  constructor
  · rintro (h | h)
    · exact ⟨_, h, rfl⟩
    · exact ⟨_, h, rfl⟩
  · rintro ⟨write, h, ho⟩
    cases write with
    | claimed => exact Or.inl h
    | available => exact Or.inr h
    | _ => cases ho

theorem opened_store {write : HostWrite} {spec : HostSpec} {status : HostStatus} :
    (w.store i write spec status).Opened j ↔ j = i ∧ write.opens = true := by
  rw [opened_iff]
  constructor
  · rintro ⟨write', h, ho⟩
    simp only [HostWorld.store, List.head?_cons, Option.some.injEq, Prod.mk.injEq] at h
    obtain ⟨rfl, rfl⟩ := h
    exact ⟨rfl, ho⟩
  · rintro ⟨rfl, ho⟩
    exact ⟨write, rfl, ho⟩

/-- Only a thread that is running keeps the two apart, and it does so for a claimed host. -/
structure Mirrored (w : HostWorld ι) : Prop where
  settled : (∀ i, ¬ w.Opened i) → w.Mirrors
  opened : ∀ i, w.Opened i → w.active i = true ∧ w.host.spec.consumerRef.isSome

structure HostRely (i : ι) (w w' : HostWorld ι) : Prop where
  active : w'.active i = w.active i
  key : w'.key = w.key
  seen : w'.seen i = w.seen i
  host : w'.host = w.host ∨ w.version < w'.version
  opened : w'.Opened i → w.Opened i

def hostDiscipline (ι : Type) : Discipline ι (HostWorld ι) where
  inv := Mirrored
  rely := HostRely
  refl _ _ _ := ⟨rfl, rfl, rfl, Or.inl rfl, id⟩
  trans := by
    intro i w₁ w₂ w₃ h₁ h₂
    refine ⟨h₂.active.trans h₁.active, h₂.key.trans h₁.key, h₂.seen.trans h₁.seen, ?_, fun h => h₁.opened (h₂.opened h)⟩
    have hv {u u' : HostWorld ι} (h : u'.host = u.host) : u'.version = u.version := by
      simp only [HostWorld.version, h]
    obtain h₁ | h₁ := h₁.host <;> obtain h₂ | h₂ := h₂.host
    · exact Or.inl (h₂.trans h₁)
    · have := hv h₁
      omega
    · have := hv h₂
      omega
    · omega

/-- One more write of a running thread, which leaves the two apart only if it opens. -/
theorem allows_store {write : HostWrite} {spec : HostSpec} {status : HostStatus} (hi : w.active i = true)
    (h : if write.opens = true then spec.consumerRef.isSome = true
      else (status.inUse = some true ↔ spec.consumerRef.isSome)) :
    (hostDiscipline ι).Allows i w (w.store i write spec status) := by
  refine ⟨⟨?_, ?_⟩, ?_⟩
  · intro hn
    by_cases ho : write.opens = true
    · exact absurd (opened_store.mpr ⟨rfl, ho⟩) (hn i)
    · rwa [if_neg ho] at h
  · intro k hk
    obtain ⟨rfl, ho⟩ := opened_store.mp hk
    rw [if_pos ho] at h
    exact ⟨hi, h⟩
  · intro k hk
    refine ⟨rfl, rfl, rfl, Or.inr (by simp [HostWorld.version, HostWorld.store]), ?_⟩
    intro ho
    exact absurd (opened_store.mp ho).1 hk

/-- The thread runs, and the last write to the host does not open one of its pairs. -/
structure HostWorld.Clear (w : HostWorld ι) (i : ι) (key : ObjectKey) : Prop where
  active : w.active i = true
  key : w.key = key
  closed : ¬ w.Opened i

/-- The host is as it was read, or a later write has taken its version. -/
def HostWorld.Known (w : HostWorld ι) (h : Host) : Prop := w.host = h ∨ h.metadata.resourceVersion < w.version

theorem known_rely {h : Host} (hr : HostRely i w w') (hk : w.Known h) : w'.Known h := by
  have hv (he : w'.host = w.host) : w'.version = w.version := by simp only [HostWorld.version, he]
  obtain hk | hk := hk <;> obtain hr | hr := hr.host
  · exact Or.inl (hr.trans hk)
  · right
    rw [← hk]
    exact hr
  · right
    rw [hv hr]
    exact hk
  · right
    omega

/-- The comparison of versions finds the host as it was read. -/
theorem known_meets {h : Host} (hk : w.Known h) (hm : w.host.metadata.meets h.precondition = true) : w.host = h := by
  simp only [ObjectMeta.meets, Host.precondition, Bool.and_eq_true, beq_iff_eq] at hm
  obtain hk | hk := hk
  · exact hk
  · rw [HostWorld.version] at hk
    omega

theorem clear_rely (hr : HostRely i w w') (h : w.Clear i key) : w'.Clear i key :=
  ⟨hr.active.trans h.active, hr.key.trans h.key, fun ho => h.closed (hr.opened ho)⟩

theorem clear_store {write : HostWrite} {spec : HostSpec} {status : HostStatus} (hi : w.active i = true)
    (hk : w.key = key) (ho : write.opens = false) : (w.store i write spec status).Clear i key := by
  refine ⟨hi, hk, ?_⟩
  intro h
  rw [(opened_store.mp h).2] at ho
  cases ho

/-- A thread that knows of its own claim what it has read or bound. -/
structure HostWorld.Bound (w : HostWorld ι) (i : ι) (key : ObjectKey) (bound : Prop) : Prop where
  active : w.active i = true
  key : w.key = key
  closed : bound ∨ ¬ w.Opened i

theorem bound_rely {bound : Prop} (hr : HostRely i w w') (h : w.Bound i key bound) : w'.Bound i key bound :=
  ⟨hr.active.trans h.active, hr.key.trans h.key, h.closed.imp id fun hn ho => hn (hr.opened ho)⟩

theorem clear_bound {bound : Prop} (h : w.Clear i key) : w.Bound i key bound := ⟨h.active, h.key, Or.inr h.closed⟩

/-- The operations that write to no host. -/
def Op.sparesHost : Op → Bool
  | .patchHost .. | .patchHostStatus .. => false
  | _ => true

variable [DecidableEq ι]

theorem answers_spares {op : Op} (h : op.sparesHost = true) {r : Except Exc (HostOp.api op).Reply}
    (ha : w.Answers heeded i (.api op) r w') : w' = w := by
  cases op with
  | readHost k => exact ha.1
  | listHosts ns => exact ha.1
  | patchHost => cases h
  | patchHostStatus => cases h
  | _ => exact ha

omit [DecidableEq ι] in
theorem spares_harmless {op : Op} (h : op.harmless) : op.sparesHost = true := by
  obtain hq | ⟨f, rfl, -⟩ := h
  · cases op <;> first | rfl | cases hq
  · rfl

abbrev HostProves (i : ι) {α : Type} (K : HostWorld ι → Prop) (p : HostAct α) (A : α → HostWorld ι → Prop)
    (E : Exc → HostWorld ι → Prop) : Prop :=
  Triple (hostRuns ι True) (hostDiscipline ι) i K p (post A E)

/-- A part that writes to no host keeps what nobody else can disturb. -/
theorem hostProves_spares {α : Type} {p : Act α} {K : HostWorld ι → Prop}
    (hp : p.Only fun op => op.sparesHost = true) (hK : (hostDiscipline ι).Stable i K) :
    HostProves i K (onHost p) (fun _ => K) fun _ => K := by
  refine triple_only (S := fun op => ∃ o, op = .api o ∧ o.sparesHost = true) ?_ hK ?_
  · exact Prog.only_interpret hp fun op h => Prog.only_perform ⟨op, rfl, h⟩
  · rintro op ⟨o, rfl, ho⟩ w r w' hw hk ha
    obtain rfl := answers_spares ho ha
    exact ⟨(hostDiscipline ι).allows_refl hw, hk⟩

theorem hostProves_bind {α β : Type} {p : Act α} {f : α → Act β} {K : HostWorld ι → Prop} {A : α → HostWorld ι → Prop}
    {B : β → HostWorld ι → Prop} {E : Exc → HostWorld ι → Prop} (hp : HostProves i K (onHost p) A E)
    (hf : ∀ a, HostProves i (A a) (onHost (f a)) B E) : HostProves i K (onHost (p >>= f)) B E := by
  rw [onHost, Prog.bind_eq, Prog.interpret_bind]
  exact triple_bind hp hf

theorem hostProves_handle {α : Type} {p : Act α} {f : Exc → Act α} {K : HostWorld ι → Prop}
    {A : α → HostWorld ι → Prop} {E E' : Exc → HostWorld ι → Prop} (hp : HostProves i K (onHost p) A E)
    (hf : ∀ e, HostProves i (E e) (onHost (f e)) A E') : HostProves i K (onHost (tryCatch p f)) A E' := by
  rw [onHost, Prog.tryCatch_eq, Prog.interpret_handle]
  exact triple_handle hp hf

theorem hostProves_call {op : HostOp} {K : HostWorld ι → Prop} {A : op.Reply → HostWorld ι → Prop}
    {E : Exc → HostWorld ι → Prop} (hK : (hostDiscipline ι).Stable i K)
    (h : ∀ w r w', Mirrored w → K w → w.Answers True i op r w' →
      (hostDiscipline ι).Allows i w w' ∧ post A E r w') : HostProves i K (hostCall op) A E :=
  triple_perform hK h

theorem hostProves_api {op : Op} {K : HostWorld ι → Prop} {A : Reply op → HostWorld ι → Prop}
    {E : Exc → HostWorld ι → Prop} (hK : (hostDiscipline ι).Stable i K)
    (h : ∀ w (r : Except Exc (HostOp.api op).Reply) w', Mirrored w → K w → w.Answers True i (.api op) r w' →
      (hostDiscipline ι).Allows i w w' ∧ post A E r w') : HostProves i K (onHost (call op)) A E := by
  rw [onHost, call, Prog.interpret_perform]
  exact hostProves_call hK h

theorem hostProves_readHost {k : ObjectKey} {K : HostWorld ι → Prop} {E : Exc → HostWorld ι → Prop}
    (hK : (hostDiscipline ι).Stable i K) (hkey : ∀ w, K w → w.key = key) (hE : ∀ e w, K w → E e w) :
    HostProves i K (onHost (call (.readHost k))) (fun (h : Host) w => K w ∧ (k = key → w.Known h)) E := by
  refine hostProves_api hK ?_
  rintro w r w' hw hk ⟨rfl, hr⟩
  refine ⟨(hostDiscipline ι).allows_refl hw, ?_⟩
  cases r with
  | error e => exact hE e w' hk
  | ok h => exact ⟨hk, fun he => Or.inl (hr h rfl (he.trans (hkey w' hk).symm)).symm⟩

theorem hostProves_raiseIf {α : Type} {c : Prop} [Decidable c] {e : Exc} {f : Unit → Act α} {K : HostWorld ι → Prop}
    {A : α → HostWorld ι → Prop} {E : Exc → HostWorld ι → Prop} (hE : ∀ w, K w → E e w)
    (hf : ¬ c → HostProves i K (onHost (f ())) A E) : HostProves i K (onHost (raiseIf c e >>= f)) A E := by
  unfold raiseIf
  by_cases hc : c
  · rw [if_pos hc]
    exact triple_throw fun w _ hk => hE w hk
  · rw [if_neg hc]
    exact hf hc

/-- The second write of a claim, by the thread that is bound to the host. -/
theorem hostProves_setHostPhase {binding : Binding} {machine : ObjectKey} {uid : Uid} {next : HostPhase}
    {reason : String} :
    HostProves i (fun w => w.Bound i key (binding.hostRef = some key))
      (onHost (setHostPhase binding machine uid next reason)) (fun _ w => w.Clear i key) fun _ _ => True := by
  cases href : binding.hostRef with
  | none =>
    simp only [setHostPhase, href]
    exact triple_pure fun w _ h => ⟨h.active, h.key, h.closed.resolve_left nofun⟩
  | some ref =>
    simp only [setHostPhase, href]
    refine hostProves_bind (hostProves_readHost (fun _ _ h hr _ => bound_rely hr h) (fun _ h => h.key)
      fun _ _ _ => trivial) fun host => ?_
    refine hostProves_raiseIf (fun _ _ => trivial) fun hc => ?_
    refine hostProves_bind (A := fun _ w => w.Clear i key) ?_ fun _ => triple_pure fun _ _ h => h
    refine hostProves_api (fun _ _ h hr _ => ⟨bound_rely hr h.1, fun he => known_rely hr (h.2 he)⟩) ?_
    rintro w r w' hw ⟨hb, hk⟩ (⟨rfl, hr⟩ | ⟨href', hm, rfl, hr⟩)
    · refine ⟨(hostDiscipline ι).allows_refl hw, ?_⟩
      cases r with
      | error e => trivial
      | ok h =>
        refine ⟨hb.active, hb.key, hb.closed.resolve_left ?_⟩
        intro hkey
        obtain ⟨e, he⟩ := hr ((Option.some.inj hkey).trans hb.key.symm)
        cases he
    · have hhost := known_meets (hk (href'.trans hb.key)) hm
      have hclaim : w.host.spec.consumerRef.isSome := by
        rw [not_or] at hc
        rw [hhost]
        cases hr : host.spec.consumerRef with
        | none => exact absurd (by rw [hr]; rfl) hc.2
        | some r => rfl
      refine ⟨allows_store hb.active (by simpa [HostWrite.opens] using hclaim), ?_⟩
      cases r with
      | error e => trivial
      | ok h => exact clear_store hb.active hb.key rfl

/-- Both writes of a release meet one version, so nothing comes between them. -/
theorem hostProves_releaseHost {binding : Binding} {machine : ObjectKey} {uid : Uid} :
    HostProves i (fun w => w.Clear i key) (onHost (releaseHost binding machine uid)) (fun _ w => w.Clear i key)
      fun _ _ => True := by
  have hclear : (hostDiscipline ι).Stable i fun w => w.Clear i key := fun _ _ h hr _ => clear_rely hr h
  cases href : binding.hostRef with
  | none =>
    simp only [releaseHost, href]
    exact triple_pure fun _ _ h => h
  | some ref =>
    simp only [releaseHost, href]
    refine hostProves_bind (hostProves_readHost hclear (fun _ h => h.key) fun _ _ _ => trivial) fun host => ?_
    refine hostProves_raiseIf (fun _ _ => trivial) fun _ => ?_
    by_cases hsome : host.spec.consumerRef.isSome = true
    · simp only [onlyIf, if_pos hsome]
      refine hostProves_raiseIf (fun _ _ => trivial) fun _ => ?_
      refine hostProves_bind (A := fun (h : Host) w => w.Bound i key (ref = key) ∧
        (ref = key → w.Known h ∧ h.status.inUse = some false)) ?_ fun again => ?_
      · refine hostProves_api (fun _ _ h hr _ => ⟨clear_rely hr h.1, fun he => known_rely hr (h.2 he)⟩) ?_
        rintro w r w' hw ⟨hb, hk⟩ (⟨rfl, hr⟩ | ⟨href', hm, rfl, hr⟩)
        · refine ⟨(hostDiscipline ι).allows_refl hw, ?_⟩
          cases r with
          | error e => trivial
          | ok h =>
            refine ⟨clear_bound hb, ?_⟩
            intro he
            obtain ⟨e, he⟩ := hr (he.trans hb.key.symm)
            cases he
        · have hhost := known_meets (hk (href'.trans hb.key)) hm
          refine ⟨allows_store hb.active (by simpa [HostWrite.opens, hhost] using hsome), ?_⟩
          cases r with
          | error e => trivial
          | ok h =>
            obtain he | ⟨e, he, -⟩ := hr
            · cases he
              exact ⟨⟨hb.active, hb.key, Or.inl (href'.trans hb.key)⟩, fun _ => ⟨Or.inl rfl, rfl⟩⟩
            · cases he
      · refine hostProves_bind (A := fun _ w => w.Clear i key) ?_ fun _ => triple_pure fun _ _ h => h
        refine hostProves_api
          (fun _ _ h hr _ => ⟨bound_rely hr h.1, fun he => ⟨known_rely hr (h.2 he).1, (h.2 he).2⟩⟩) ?_
        rintro w r w' hw ⟨hb, hk⟩ (⟨rfl, hr⟩ | ⟨href', hm, rfl, hr⟩)
        · refine ⟨(hostDiscipline ι).allows_refl hw, ?_⟩
          cases r with
          | error e => trivial
          | ok h =>
            refine ⟨hb.active, hb.key, hb.closed.resolve_left ?_⟩
            intro he
            obtain ⟨e, he⟩ := hr (he.trans hb.key.symm)
            cases he
        · obtain ⟨hknown, hfree⟩ := hk (href'.trans hb.key)
          have hhost := known_meets hknown hm
          refine ⟨allows_store hb.active (by simp [HostWrite.opens, hhost, hfree]), ?_⟩
          cases r with
          | error e => trivial
          | ok h => exact clear_store hb.active hb.key rfl
    · simp only [onlyIf, if_neg hsome]
      exact triple_pure fun _ _ h => h.1

/-- A claim that is refused with 404 or 409 was not made. -/
theorem hostProves_claimFirst {labels : List (String × String)} {machine : ObjectKey} {uid : Uid}
    (hosts : List Host) :
    HostProves i (fun w => w.Clear i key) (onHost (claimFirst labels machine uid hosts))
      (fun h w => w.Bound i key (h.metadata.key = key)) fun _ _ => True := by
  induction hosts with
  | nil => exact triple_throw fun _ _ _ => trivial
  | cons host rest ih =>
    unfold claimFirst
    by_cases hskip : skipHost labels host = true
    · rw [if_pos hskip]
      exact ih
    rw [if_neg hskip]
    refine hostProves_handle (E := fun e w => e = .api 404 ∨ e = .api 409 → w.Clear i key) ?_ fun e => ?_
    · refine hostProves_api (fun _ _ h hr _ => clear_rely hr h) ?_
      rintro w r w' hw hb (⟨rfl, hr⟩ | ⟨hkey, hm, rfl, hr⟩)
      · refine ⟨(hostDiscipline ι).allows_refl hw, ?_⟩
        cases r with
        | error e => exact fun _ => hb
        | ok h => exact clear_bound hb
      · refine ⟨allows_store hb.active (by simp [HostWrite.opens]), ?_⟩
        obtain rfl | ⟨e, rfl, h404, h409⟩ := hr
        · exact ⟨hb.active, hb.key, Or.inl hb.key⟩
        · intro he
          exact absurd he (by simp [h404, h409])
    · cases e with
      | api status =>
        simp only
        by_cases hs : status = 404 ∨ status = 409
        · rw [if_pos hs]
          refine triple_weaken ih fun w _ h => h ?_
          simpa using hs
        · rw [if_neg hs]
          exact triple_throw fun _ _ _ => trivial
      | _ => exact triple_throw fun _ _ _ => trivial

theorem hostProves_selectHost {spec : MachineSpec} {status : MachineStatus} {machine : ObjectKey} {uid : Uid} :
    HostProves i (fun w => w.Clear i key) (onHost (selectHost spec status machine uid))
      (fun h w => w.Bound i key (h.metadata.key = key)) fun _ _ => True := by
  have hclear : (hostDiscipline ι).Stable i fun w => w.Clear i key := fun _ _ h hr _ => clear_rely hr h
  unfold selectHost
  refine hostProves_bind (triple_conseq (hostProves_spares (Prog.only_perform rfl) hclear) (fun _ _ h => h)
    (fun _ _ _ h => h) fun _ _ _ _ => trivial) fun hosts => ?_
  split
  · exact triple_pure fun _ _ h => clear_bound h
  · exact triple_throw fun _ _ _ => trivial
  · refine hostProves_raiseIf (fun _ _ => trivial) fun _ => ?_
    refine hostProves_raiseIf (fun _ _ => trivial) fun _ => ?_
    exact hostProves_claimFirst _

theorem only_checkAllocation {binding : Binding} {spec : MachineSpec} {machine : ObjectKey} {uid : Uid} :
    (checkAllocation binding spec machine uid).Only Op.harmless := by
  unfold checkAllocation
  refine Prog.only_bind only_raiseIf fun _ => Prog.only_bind only_raiseIf fun _ => ?_
  refine Prog.only_bind only_raiseIf fun _ => Prog.only_bind only_raiseIf fun _ => ?_
  refine Prog.only_bind only_raiseIf fun _ => ?_
  split
  · refine Prog.only_bind (only_quiet (by rfl)) fun _ => Prog.only_bind only_raiseIf fun _ => ?_
    refine Prog.only_bind only_raiseIf fun _ => Prog.only_bind only_raiseIf fun _ => ?_
    exact Prog.only_bind only_raiseIf fun _ => trivial
  · trivial

theorem only_commitBinding {binding : Binding} {machine : ObjectKey} {uid : Uid} :
    (commitBinding binding machine uid).Only fun op => op.sparesHost = true := by
  refine Prog.only_bind (Prog.only_perform rfl) fun _ => Prog.only_bind only_raiseIf fun _ => ?_
  refine Prog.only_bind (Prog.only_perform rfl) fun _ => Prog.only_bind ?_ fun _ => trivial
  refine Prog.only_bind (Prog.only_perform rfl) fun _ => Prog.only_bind only_raiseIf fun _ => ?_
  refine Prog.only_bind (Prog.only_perform rfl) fun _ => ?_
  refine Prog.only_handle (Prog.only_perform rfl) fun e => ?_
  split <;> trivial

/-- A binding to the host is the only trace of a claim that was made. -/
theorem hostProves_deriveBinding {spec : MachineSpec} {status : MachineStatus} {machine : ObjectKey} {uid : Uid} :
    HostProves i (fun w => w.Clear i key) (onHost (deriveBinding spec status machine uid))
      (fun b w => w.Bound i key (b.hostRef = some key)) fun _ _ => True := by
  have hclear : (hostDiscipline ι).Stable i fun w => w.Clear i key := fun _ _ h hr _ => clear_rely hr h
  unfold deriveBinding
  split
  · refine triple_conseq (hostProves_spares (Prog.only_mono only_checkAllocation fun _ h => spares_harmless h) hclear)
      (fun _ _ h => h) (fun _ _ _ h => clear_bound h) fun _ _ _ _ => trivial
  · unfold newBinding
    by_cases hpool : (spec.hostSelector.isSome || spec.hostRef.isSome) = true
    · rw [if_pos hpool]
      refine hostProves_bind hostProves_selectHost fun host => ?_
      refine hostProves_raiseIf (fun _ _ => trivial) fun _ => ?_
      refine triple_pure fun w _ h => ⟨h.active, h.key, h.closed.imp ?_ id⟩
      intro hk
      simp only [poolBinding, hk]
    · rw [if_neg hpool]
      split
      · exact triple_throw fun _ _ _ => trivial
      · split
        · exact triple_throw fun _ _ _ => trivial
        · exact triple_pure fun _ _ h => clear_bound h

theorem hostProves_bindMachine {spec : MachineSpec} {status : MachineStatus} {machine : ObjectKey} {uid : Uid} :
    HostProves i (fun w => w.Clear i key) (onHost (bindMachine spec status machine uid))
      (fun _ w => w.Clear i key) fun _ _ => True := by
  have hbound (b : Prop) : (hostDiscipline ι).Stable i fun w => w.Bound i key b := fun _ _ h hr _ => bound_rely hr h
  have hskip {α : Type} {p : Act α} {b : Prop} (hp : p.Only fun op => op.sparesHost = true) :
      HostProves i (fun w => w.Bound i key b) (onHost p) (fun _ w => w.Bound i key b) fun _ _ => True :=
    triple_conseq (hostProves_spares hp (hbound b)) (fun _ _ h => h) (fun _ _ _ h => h) fun _ _ _ _ => trivial
  unfold bindMachine
  refine hostProves_bind hostProves_deriveBinding fun binding => ?_
  refine hostProves_bind (hskip (only_onlyIf only_commitBinding)) fun _ => ?_
  refine hostProves_bind (hskip (Prog.only_perform rfl)) fun _ => ?_
  exact hostProves_bind hostProves_setHostPhase fun _ => triple_pure fun _ _ h => h

theorem only_sshhostProbe {shown : Exc → String} {host : Host} {conditions : List Condition} :
    (sshhostProbe shown host conditions).Only Op.harmless := by
  unfold sshhostProbe hostPaused
  refine Prog.only_bind ?_ fun paused => ?_
  · split
    · trivial
    · exact only_isPausedOwners _ _ _
  split
  · trivial
  · split
    · refine Prog.only_bind (only_quiet (by rfl)) fun now => Prog.only_bind (Prog.only_attempt ?_) fun read => ?_
      · exact Prog.only_bind only_readSshKey fun _ => Prog.only_bind only_readKnownHosts fun _ => trivial
      cases read with
      | error e => exact Prog.only_bind only_raiseIf fun _ => trivial
      | ok credentials =>
        refine Prog.only_bind (Prog.only_attempt ?_) fun tested => ?_
        · exact Prog.only_bind (only_quiet (by rfl)) fun _ => only_quiet (by rfl)
        cases tested with
        | error e => exact Prog.only_bind only_raiseIf fun _ => trivial
        | ok u => trivial
    · trivial

/-- What a probe stages for `inUse` is the claim that it has read. -/
theorem returns_sshhostProbe {shown : Exc → String} {host : Host} {conditions : List Condition} :
    (sshhostProbe shown host conditions).Returns fun staged =>
      ∀ patch, staged = some patch → patch.inUse = host.spec.consumerRef.isSome := by
  have hsome {now : Time} {ready success : Bool} {cs : List Condition} : ∀ patch : ProbePatch,
      some ⟨host.spec.consumerRef.isSome, ready, now, success, cs⟩ = some patch →
        patch.inUse = host.spec.consumerRef.isSome := by
    rintro patch ⟨⟩
    rfl
  unfold sshhostProbe
  refine Prog.returns_last fun paused => ?_
  split
  · rintro patch ⟨⟩
  · split
    · refine Prog.returns_last fun now => Prog.returns_last fun read => ?_
      cases read with
      | error e => exact Prog.returns_last fun _ => hsome
      | ok credentials =>
        refine Prog.returns_last fun tested => ?_
        cases tested with
        | error e => exact Prog.returns_last fun _ => hsome
        | ok u => exact hsome
    · rintro patch ⟨⟩

/-- What a probe knows of the host that it has read. -/
structure HostWorld.Probing (w : HostWorld ι) (i : ι) (key : ObjectKey) (h : Host) : Prop extends w.Clear i key where
  seen : w.seen i = some h

theorem allows_look (hw : Mirrored w) : (hostDiscipline ι).Allows i w (w.look i) :=
  ⟨⟨hw.settled, hw.opened⟩, fun k hk => ⟨rfl, rfl, by simp [HostWorld.look, hk], Or.inl rfl, id⟩⟩

/-- A probe that is applied to the claim that it has read leaves the two together. -/
theorem hostProves_probe {shown : Exc → String} :
    HostProves i (fun w => w.Clear i key) ((HostAttempt.probe shown).program key) (fun _ w => w.Clear i key)
      fun _ _ => True := by
  refine triple_bind (A := fun (read : Host × List Condition) w => w.Probing i key read.1) ?_ fun read => ?_
  · refine hostProves_call (fun _ _ h hr _ => clear_rely hr h) ?_
    rintro w r w' hw hb (⟨rfl, hr⟩ | ⟨-, rfl, rfl⟩)
    · obtain ⟨e, rfl⟩ := hr hb.key.symm
      exact ⟨(hostDiscipline ι).allows_refl hw, trivial⟩
    · refine ⟨allows_look hw, ⟨hb.active, hb.key, hb.closed⟩, ?_⟩
      simp [HostWorld.look]
  · have hprobing : (hostDiscipline ι).Stable i fun w => w.Probing i key read.1 :=
      fun _ _ h hr _ => ⟨clear_rely hr h.toClear, hr.seen.trans h.seen⟩
    refine triple_bind (triple_returns (Prog.returns_interpret returns_sshhostProbe) (triple_conseq
      (hostProves_spares (Prog.only_mono only_sshhostProbe fun _ h => spares_harmless h) hprobing)
      (fun _ _ h => h) (fun _ _ _ h => h) fun _ _ _ _ => trivial)) fun staged => ?_
    cases staged with
    | none => exact triple_pure fun _ _ h => h.1.toClear
    | some patch =>
      refine hostProves_call (fun _ _ h hr hi => ⟨hprobing _ _ h.1 hr hi, h.2⟩) ?_
      rintro w r w' hw ⟨hb, hstaged⟩ (⟨rfl, -⟩ | ⟨-, hread, rfl, -⟩)
      · refine ⟨(hostDiscipline ι).allows_refl hw, ?_⟩
        cases r with
        | error e => trivial
        | ok u => exact hb.toClear
      · have hclaim : patch.inUse = w.host.spec.consumerRef.isSome := by
          have hsame := hread trivial
          rw [HostWorld.asRead, hb.seen, Option.all_some, beq_iff_eq] at hsame
          rw [hstaged patch rfl, hsame]
        let status : HostStatus := { w.host.status with inUse := some patch.inUse, ready := some patch.ready }
        have hstored : (hostDiscipline ι).Allows i w (w.store i .probed w.host.spec status) :=
          allows_store hb.active (by simp [HostWrite.opens, status, hclaim])
        have hafter : (w.store i .probed w.host.spec status).Clear i key := clear_store hb.active hb.key rfl
        refine ⟨⟨⟨hstored.1.settled, hstored.1.opened⟩, fun k hk => ?_⟩, ?_⟩
        · have hrely := hstored.2 k hk
          exact ⟨hrely.active, hrely.key, hrely.seen, hrely.host, hrely.opened⟩
        · cases r with
          | error e => trivial
          | ok u => exact ⟨hafter.active, hafter.key, hafter.closed⟩

theorem hostProves_program (a : HostAttempt) :
    HostProves i (fun w => w.Clear i key) (a.program key) (fun _ w => w.Clear i key) fun _ _ => True := by
  cases a with
  | bind spec status machine uid => exact triple_bind hostProves_bindMachine fun _ => triple_pure fun _ _ h => h
  | phase binding machine uid next reason =>
    exact triple_weaken hostProves_setHostPhase fun _ _ h => clear_bound h
  | release binding machine uid => exact hostProves_releaseHost
  | probe shown => exact hostProves_probe

/-- What is known of a thread that has ended. -/
def hostEnded (i : ι) : Except Exc Unit → HostWorld ι → Prop :=
  post (fun _ w => ¬ w.Opened i) fun _ _ => True

theorem allows_leave (hw : Mirrored w) (h : ¬ w.Opened i) :
    (hostDiscipline ι).Allows i w { w with active := fun k => if k = i then false else w.active k } := by
  refine ⟨⟨hw.settled, ?_⟩, ?_⟩
  · intro k hk
    have hne : k ≠ i := by
      rintro rfl
      exact h hk
    simpa [hne] using hw.opened k hk
  · intro k hk
    exact ⟨by simp [hk], rfl, rfl, Or.inl rfl, id⟩

theorem hostRuns_respects : Respects (hostRuns ι True) (hostDiscipline ι) hostEnded where
  env := by
    rintro w w' hw ⟨h, rfl, hkey, hversion, hclaim, huse⟩
    refine ⟨⟨?_, ?_⟩, fun i => ⟨rfl, hkey, rfl, Or.inr hversion, id⟩⟩
    · intro hn
      have := hw.settled hn
      rwa [HostWorld.Mirrors, ← hclaim, ← huse] at this
    · intro i hi
      refine ⟨(hw.opened i hi).1, ?_⟩
      rw [hclaim]
      exact (hw.opened i hi).2
  start := by
    rintro i p w w' hw ⟨hidle, ⟨a, rfl⟩, rfl⟩
    have hclosed : ¬ w.Opened i := by
      intro ho
      rw [(hw.opened i ho).1] at hidle
      cases hidle
    have hinv : Mirrored { w with active := fun k => if k = i then true else w.active k } := by
      refine ⟨hw.settled, fun k hk => ⟨?_, (hw.opened k hk).2⟩⟩
      by_cases hki : k = i
      · simp [hki]
      · simpa [hki] using (hw.opened k hk).1
    refine ⟨⟨hinv, fun k hk => ⟨by simp [hk], rfl, rfl, Or.inl rfl, id⟩⟩, ?_⟩
    refine wp_mono hinv (hostProves_program a _ hinv ⟨by simp, rfl, hclosed⟩) ?_
    rintro (e | u) w' - h
    · trivial
    · exact h.closed
  finish := by
    rintro i r w₀ w w' hw hq hr ⟨hcut, rfl⟩
    refine allows_leave hw ?_
    cases r with
    | error e => exact (hcut trivial).resolve_left nofun
    | ok u => exact fun ho => hq (hr.opened ho)
  crash := by
    rintro i w w' hw ⟨hcut, rfl⟩
    exact allows_leave hw ((hcut trivial).resolve_left nofun)

theorem answers_active {op : HostOp} {r : Except Exc op.Reply} (ha : w.Answers heeded i op r w') :
    w'.active = w.active := by
  cases op with
  | readProbe k =>
    obtain ⟨rfl, -⟩ | ⟨-, -, rfl⟩ := ha
    · rfl
    · rfl
  | applyProbe k p =>
    obtain ⟨rfl, -⟩ | ⟨-, -, rfl, -⟩ := ha
    · rfl
    · rfl
  | api op =>
    by_cases hs : op.sparesHost = true
    · rw [answers_spares hs ha]
    · cases op with
      | patchHost k pre claim =>
        obtain ⟨rfl, -⟩ | ⟨-, -, rfl, -⟩ := ha
        · rfl
        · rfl
      | patchHostStatus k pre next inUse reason =>
        obtain ⟨rfl, -⟩ | ⟨-, -, rfl, -⟩ := ha
        · rfl
        · rfl
      | _ => exact absurd rfl hs

/-- A thread that the world counts as running is running. -/
theorem active_running {c : Config ι HostOp HostOp.Reply Exc Unit (HostWorld ι)} (hw : ∀ i, w.active i = false)
    (h : Reachable (hostRuns ι heeded) (idle w) c) : ∀ i, c.world.active i = true → c.thread i ≠ none := by
  induction h with
  | refl =>
    intro i hi
    rw [idle, hw i] at hi
    cases hi
  | tail _ hs ih =>
    intro k hk
    cases hs with
    | env he =>
      obtain ⟨h, rfl, -⟩ := he
      exact ih k hk
    | @start i p w' hn hs =>
      obtain ⟨-, -, rfl⟩ := hs
      by_cases hki : k = i
      · subst hki
        simp
      · rw [set_other _ _ _ _ _ hki]
        exact ih k (by simpa [hki] using hk)
    | @call i op q r w' hp he =>
      by_cases hki : k = i
      · subst hki
        simp
      · rw [set_other _ _ _ _ _ hki]
        rw [set_world, answers_active he] at hk
        exact ih k hk
    | @finish i p r w' hp hr hl =>
      obtain ⟨-, rfl⟩ := hl
      by_cases hki : k = i
      · simp [hki] at hk
      · rw [set_other _ _ _ _ _ hki]
        exact ih k (by simpa [hki] using hk)
    | @crash i p w' hp hl =>
      obtain ⟨-, rfl⟩ := hl
      by_cases hki : k = i
      · simp [hki] at hk
      · rw [set_other _ _ _ _ _ hki]
        exact ih k (by simpa [hki] using hk)

/-- A host that nobody is working on. -/
structure HostWorld.AtRest (w : HostWorld ι) : Prop where
  idle : ∀ i, w.active i = false
  unwritten : w.writes = []
  mirrors : w.Mirrors

/-- In every run that heeds both conditions, whenever nothing is in flight, `inUse` is true
exactly for a host that is claimed. -/
theorem inUse_mirrors {c : Config ι HostOp HostOp.Reply Exc Unit (HostWorld ι)} (hw : w.AtRest)
    (h : Reachable (hostRuns ι True) (idle w) c) (hquiet : ∀ i, c.thread i = none) : c.world.Mirrors := by
  have hstart : Mirrored w := by
    refine ⟨fun _ => hw.mirrors, ?_⟩
    intro i hi
    obtain ⟨write, hhead, -⟩ := opened_iff.mp hi
    rw [hw.unwritten] at hhead
    cases hhead
  obtain ⟨hinv, -⟩ := Discipline.reachable hostRuns_respects hstart h
  refine hinv.settled fun i hi => ?_
  exact active_running hw.idle h i (hinv.opened i hi).1 (hquiet i)

/-- Writes are committed where they may be, and the Machine always answers as it was at
first; what is not about the two fails. -/
def usualAnswer (strict : Bool) (i : ι) : (op : HostOp) → HostWorld ι → Except Exc op.Reply × HostWorld ι
  | .api (.readHost k), w => (if k = w.key then .ok w.host else .error .timeout, w)
  | .api (.patchHost k pre claim), w =>
    if k = w.key ∧ w.host.metadata.meets pre = true then (.ok (w.patchClaim i claim).host, w.patchClaim i claim)
    else (.error (.api 409), w)
  | .api (.patchHostStatus k pre next inUse reason), w =>
    if k = w.key ∧ w.host.metadata.meets pre = true then
      (.ok (w.patchStatus i next inUse reason).host, w.patchStatus i next inUse reason)
    else (.error (.api 409), w)
  | .api (.listHosts _), w => (.ok [w.host], w)
  | .api (.readMachine k), w | .api (.patchMachine k ..), w | .api (.patchMachineStatus k ..), w =>
    (.ok (smallMachine k.name none), w)
  | .api .now, w => (.ok (0 : Time), w)
  | .api (.stage _), w => (.ok (), w)
  | .api _, w => (.error .timeout, w)
  | .readProbe k, w => if k = w.key then (.ok (w.host, w.probe.conditions), w.look i) else (.error .timeout, w)
  | .applyProbe k p, w =>
    if k = w.key ∧ (strict = true → w.asRead i = true) then (.ok (), w.applyProbe i p) else (.error .timeout, w)

theorem usual_answers {strict : Bool} (hs : heeded → strict = true) (op : HostOp) :
    w.Answers heeded i op (usualAnswer strict i op w).1 (usualAnswer strict i op w).2 := by
  cases op with
  | readProbe k =>
    by_cases hk : k = w.key
    · simp only [usualAnswer, if_pos hk]
      exact Or.inr ⟨hk, rfl, rfl⟩
    · simp only [usualAnswer, if_neg hk]
      exact Or.inl ⟨rfl, fun he => absurd he hk⟩
  | applyProbe k p =>
    by_cases hc : k = w.key ∧ (strict = true → w.asRead i = true)
    · simp only [usualAnswer, if_pos hc]
      exact Or.inr ⟨hc.1, fun hh => hc.2 (hs hh), rfl, Or.inl rfl⟩
    · simp only [usualAnswer, if_neg hc]
      exact Or.inl ⟨rfl, fun _ => ⟨_, rfl⟩⟩
  | api op =>
    cases op with
    | readHost k =>
      refine ⟨rfl, fun h hr hk => ?_⟩
      simp only [usualAnswer, if_pos hk] at hr
      exact (Except.ok.inj hr).symm
    | patchHost k pre claim =>
      by_cases hc : k = w.key ∧ w.host.metadata.meets pre = true
      · simp only [usualAnswer, if_pos hc]
        exact Or.inr ⟨hc.1, hc.2, rfl, Or.inl rfl⟩
      · simp only [usualAnswer, if_neg hc]
        exact Or.inl ⟨rfl, fun _ => ⟨_, rfl⟩⟩
    | patchHostStatus k pre next inUse reason =>
      by_cases hc : k = w.key ∧ w.host.metadata.meets pre = true
      · simp only [usualAnswer, if_pos hc]
        exact Or.inr ⟨hc.1, hc.2, rfl, Or.inl rfl⟩
      · simp only [usualAnswer, if_neg hc]
        exact Or.inl ⟨rfl, fun _ => ⟨_, rfl⟩⟩
    | listHosts ns =>
      refine ⟨rfl, fun l hl h hh _ => ?_⟩
      obtain rfl := Except.ok.inj hl
      exact List.mem_singleton.mp hh
    | _ => rfl

abbrev HostConfig (ι : Type) := Config ι HostOp HostOp.Reply Exc Unit (HostWorld ι)

inductive HostMove (ι : Type) where
  | start : ι → HostAttempt → HostMove ι
  | calls : ι → Nat → HostMove ι
  | finish : ι → HostMove ι

def hostCalls (strict : Bool) (i : ι) : Nat → HostConfig ι → Option (HostConfig ι)
  | 0, c => some c
  | n + 1, c =>
    match c.thread i with
    | some (.call op k) =>
      let answer := usualAnswer strict i op c.world
      hostCalls strict i n (c.set i (some (k answer.1)) answer.2)
    | _ => none

def hostPlay (strict : Bool) : HostMove ι → HostConfig ι → Option (HostConfig ι)
  | .start i a, c =>
    if (c.thread i).isNone ∧ c.world.active i = false then
      some (c.set i (some (a.program c.world.key))
        { c.world with active := fun j => if j = i then true else c.world.active j })
    else none
  | .calls i n, c => hostCalls strict i n c
  | .finish i, c =>
    match c.thread i with
    | some (.pure ()) =>
      some (c.set i none { c.world with active := fun j => if j = i then false else c.world.active j })
    | _ => none

def hostPlays (strict : Bool) : List (HostMove ι) → HostConfig ι → Option (HostConfig ι)
  | [], c => some c
  | m :: ms, c => (hostPlay strict m c).bind (hostPlays strict ms)

theorem hostCalls_reachable {strict : Bool} (hs : heeded → strict = true) {n : Nat} {c c' : HostConfig ι}
    (h : hostCalls strict i n c = some c') : Reachable (hostRuns ι heeded) c c' := by
  induction n generalizing c with
  | zero => cases h; exact .refl
  | succ n ih =>
    unfold hostCalls at h
    split at h
    · rename_i op k hp
      exact .head (.call hp (usual_answers hs op)) (ih h)
    · cases h

theorem hostPlay_reachable {strict : Bool} (hs : heeded → strict = true) {m : HostMove ι} {c c' : HostConfig ι}
    (h : hostPlay strict m c = some c') : Reachable (hostRuns ι heeded) c c' := by
  cases m with
  | start i a =>
    simp only [hostPlay] at h
    split at h
    · rename_i hn
      cases h
      exact .single (.start (by simpa using hn.1) ⟨hn.2, ⟨a, rfl⟩, rfl⟩)
    · cases h
  | calls i n => exact hostCalls_reachable hs h
  | finish i =>
    simp only [hostPlay] at h
    split at h
    · rename_i hp
      cases h
      exact .single (.finish hp rfl ⟨fun _ => Or.inl rfl, rfl⟩)
    · cases h

theorem hostPlays_exists {strict : Bool} (hs : heeded → strict = true) {ms : List (HostMove ι)} {c : HostConfig ι}
    {f : HostConfig ι → Bool} (h : (hostPlays strict ms c).any f = true) :
    ∃ c', Reachable (hostRuns ι heeded) c c' ∧ f c' = true := by
  induction ms generalizing c with
  | nil => exact ⟨c, .refl, h⟩
  | cons m ms ih =>
    unfold hostPlays at h
    cases hm : hostPlay strict m c with
    | none =>
      rw [hm] at h
      cases h
    | some c₁ =>
      rw [hm] at h
      obtain ⟨c', hc, hf⟩ := ih h
      exact ⟨c', (hostPlay_reachable hs hm).trans hc, hf⟩

end

def pooledHost : Host where
  metadata := { smallMeta "h" with uid := 7, ownerReferences := [] }
  spec := (smallHost "h" "a").spec
  status := ⟨some .available, some true, some false, some ""⟩

def claimedHost : Host where
  metadata := pooledHost.metadata
  spec := { pooledHost.spec with consumerRef := some (consumerRef ⟨"n", "m"⟩ 0) }
  status := ⟨some .claimed, some true, some true, some ""⟩

def restingWorld (host : Host) : HostWorld Bool := ⟨host, ⟨none, none, []⟩, [], fun _ => false, fun _ => none⟩

theorem pooledHost_atRest : (restingWorld pooledHost).AtRest := ⟨fun _ => rfl, rfl, nofun, nofun⟩

def pooledRelease : HostAttempt := .release (poolBinding pooledHost 0) ⟨"n", "m"⟩ 0

/-- A bind claims the host, a probe reads it then and is applied when the bind is over, and
the host is given back. -/
def probedBetween : List (HostMove Bool) :=
  [.start true (.bind (smallSpec none) .empty ⟨"n", "m"⟩ 0), .calls true 2, .start false (.probe fun _ => ""),
    .calls false 1, .calls true 8, .finish true, .calls false 3, .finish false, .start true pooledRelease,
    .calls true 3, .finish true]

/-- The host is given back while a probe waits for its SSH attempt. -/
def overlappingProbe : List (HostMove Bool) :=
  [.start false (.probe fun _ => ""), .calls false 1, .start true pooledRelease, .calls true 3, .finish true,
    .calls false 3, .finish false]

/-- A probe of a claimed host is applied between the claim and the release. -/
theorem inUse_mirrors_release : ∃ c, Reachable (hostRuns Bool True) (idle (restingWorld pooledHost)) c ∧
    c.world.writes = [(true, .unclaimed), (true, .available), (false, .probed), (true, .phase), (true, .claimed)] ∧
    c.world.Mirrors := by
  have h : (hostPlays true probedBetween (idle (restingWorld pooledHost))).any (fun c =>
      c.world.writes == [(true, .unclaimed), (true, .available), (false, .probed), (true, .phase), (true, .claimed)] &&
        ((c.thread true).isNone && (c.thread false).isNone)) = true := by
    decide +kernel
  obtain ⟨c, hc, hf⟩ := hostPlays_exists (fun _ => rfl) h
  simp only [Bool.and_eq_true, Option.isNone_iff_eq_none, beq_iff_eq] at hf
  refine ⟨c, hc, hf.1, inUse_mirrors pooledHost_atRest hc ?_⟩
  intro i
  cases i
  · exact hf.2.2
  · exact hf.2.1

/-- A probe has read the claim, the host is released, and the probe is applied. -/
theorem inUse_mirrors_overlap : ¬ ∀ c, Reachable (hostRuns Bool False) (idle (restingWorld claimedHost)) c →
    (∀ i, c.thread i = none) → c.world.Mirrors := by
  intro hall
  have h : (hostPlays false overlappingProbe (idle (restingWorld claimedHost))).any (fun c =>
      (c.world.host.spec.consumerRef.isNone && c.world.host.status.inUse == some true) &&
        ((c.thread true).isNone && (c.thread false).isNone)) = true := by
    decide +kernel
  obtain ⟨c, hc, hf⟩ := hostPlays_exists False.elim h
  simp only [Bool.and_eq_true, Option.isNone_iff_eq_none, beq_iff_eq] at hf
  obtain ⟨⟨hfree, huse⟩, htrue, hfalse⟩ := hf
  have hm := (hall c hc (by intro i; cases i <;> assumption)).mp huse
  rw [hfree] at hm
  cases hm

end CapiSsh
