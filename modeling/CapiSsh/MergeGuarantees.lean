import CapiSsh.ChangelogMerge
import CapiSsh.Lib.Transcripts

/-!
# What the merge gate guarantees

Whatever GitHub answers and whatever the clock reads, the gate issues at most one command,
and the answers of the iteration that issues it hold all the evidence the command needs.
-/
namespace CapiSsh.MergeGate

open Effect

/-- The pull request may be merged as far as its own state goes. -/
structure Accepted (pr : PullRequest) (repository expectedHead : String) : Prop where
  head : ∃ head, pr.head = some head ∧ head.sha = some expectedHead ∧
    head.ref = some "chore/changelog-update" ∧ head.repoFullName = some repository
  base : ∃ base, pr.base = some base ∧ base.ref = some "develop"
  opened : pr.state = some "open"
  ready : pr.draft ≠ some true
  current : pr.mergeableState ≠ some "behind" ∧ pr.mergeableState ≠ some "dirty"

def OnlyChangelog (changed : List ChangedFile) : Prop :=
  ∃ file, changed = [file] ∧ file.filename = some "CHANGELOG.md" ∧
    (file.status = some "added" ∨ file.status = some "modified")

/-- The run is one of the required check by the configured integration on the expected head. -/
def Matches (policy : Policy) (expectedHead name : String) (run : CheckRun) : Prop :=
  run.name = some name ∧ run.headSha = some expectedHead ∧ run.appId = some policy.integrationId

/-- The highest of the runs that match has been completed with success. -/
def Passed (policy : Policy) (expectedHead : String) (checks : List CheckRun) (name : String) : Prop :=
  ∃ run ∈ checks, ∃ id, Matches policy expectedHead name run ∧ run.id = some id ∧
    (∀ other ∈ checks, Matches policy expectedHead name other → ∃ i, other.id = some i ∧ i ≤ id) ∧
    run.status = some "completed" ∧ run.conclusion = some "success"

def AllPassed (policy : Policy) (expectedHead : String) (checks : List CheckRun) : Prop :=
  ∀ name ∈ policy.checks, Passed policy expectedHead checks name

/-- The review does not stand against a merge. -/
def Approves (policy : Policy) (review : ReviewState) : Prop :=
  review.reviewDecision = some (some "APPROVED") ∨
    policy.approvalRequired = false ∧
      (review.reviewDecision = some none ∨ review.reviewDecision = some (some ""))

section Responses

variable {pr : PullRequest} {repository expectedHead name : String} {policy : Policy} {checks : List CheckRun}
  {changed : List ChangedFile} {review : ReviewState} {α : Type} {key : String} {o : Option α} {a : α}

@[simp] theorem need_ok : need key o = .ok a ↔ o = some a := by
  cases o <;> simp [need]

theorem bind_ok {β : Type} {x : Except GateError α} {f : α → Except GateError β} {b : β} :
    (x >>= f) = .ok b ↔ ∃ a, x = .ok a ∧ f a = .ok b := by
  cases x with
  | error e => simp [bind, Except.bind]
  | ok a => simp [bind, Except.bind]

@[simp] theorem refuse_ok {blocked : Prop} [Decidable blocked] {e : GateError} {u : Unit} :
    refuse blocked e = .ok u ↔ ¬ blocked := by
  by_cases h : blocked <;> simp [refuse, h]

theorem validatePullRequest_ok (h : validatePullRequest pr repository expectedHead = .ok ()) :
    pr.merged = some true ∨ Accepted pr repository expectedHead := by
  simp only [validatePullRequest, bind_ok, need_ok, refuse_ok] at h
  obtain ⟨head, hhead, sha, hsha, -, h₁, base, hbase, ref, href, -, h₂, ref', href', -, h₃, -, h₄, h⟩ := h
  by_cases hm : pr.merged = some true
  · exact Or.inl hm
  right
  rw [if_neg hm] at h
  simp only [bind_ok, need_ok, refuse_ok] at h
  obtain ⟨state, hstate, -, h₅, h₆⟩ := h
  simp only [ne_eq, Decidable.not_not, not_or] at h₁ h₂ h₃ h₄ h₅ h₆
  exact ⟨⟨head, hhead, h₁ ▸ hsha, h₃ ▸ href', h₄⟩, ⟨base, hbase, h₂ ▸ href⟩, h₅.1 ▸ hstate, h₅.2, h₆⟩

theorem validateFiles_ok (h : validateFiles changed = .ok ()) : OnlyChangelog changed := by
  match changed, h with
  | [], h => cases h
  | _ :: _ :: _, h => cases h
  | [file], h =>
    simp only [validateFiles, bind_ok, need_ok, refuse_ok] at h
    obtain ⟨filename, hname, -, h₁, status, hstatus, h₂⟩ := h
    simp only [ne_eq, Decidable.not_not, not_and] at h₁ h₂
    refine ⟨file, rfl, h₁ ▸ hname, ?_⟩
    by_cases hs : status = "added"
    · exact Or.inl (hs ▸ hstatus)
    · exact Or.inr (h₂ hs ▸ hstatus)

theorem matchingRuns_ok {found : List CheckRun} (h : matchingRuns name expectedHead policy checks = .ok found) :
    ∀ run, run ∈ found ↔ run ∈ checks ∧ Matches policy expectedHead name run := by
  induction checks generalizing found with
  | nil =>
    cases h
    simp
  | cons check checks ih =>
    simp only [matchingRuns, bind_ok, need_ok] at h
    obtain ⟨given, hgiven, matching, hm, h⟩ := h
    have hhead : (given = name ∧ check.headSha = some expectedHead ∧ check.appId = some policy.integrationId) ↔
        Matches policy expectedHead name check := by
      simp [Matches, hgiven]
    intro run
    by_cases hc : Matches policy expectedHead name check
    · rw [if_pos (hhead.mpr hc)] at h
      cases h
      rw [List.mem_cons, ih hm run, List.mem_cons]
      constructor
      · rintro (rfl | hr)
        · exact ⟨Or.inl rfl, hc⟩
        · exact ⟨Or.inr hr.1, hr.2⟩
      · rintro ⟨rfl | hr, hmatch⟩
        · exact Or.inl rfl
        · exact Or.inr ⟨hr, hmatch⟩
    · rw [if_neg (mt hhead.mp hc)] at h
      cases h
      rw [ih hm run, List.mem_cons]
      constructor
      · exact fun hr => ⟨Or.inr hr.1, hr.2⟩
      · rintro ⟨rfl | hr, hmatch⟩
        · exact absurd hmatch hc
        · exact ⟨hr, hmatch⟩

theorem newest_max (first : Int × CheckRun) (others : List (Int × CheckRun)) :
    newest first others ∈ first :: others ∧ ∀ run ∈ first :: others, run.1 ≤ (newest first others).1 := by
  induction others generalizing first with
  | nil => simp [newest]
  | cons run others ih =>
    by_cases hlt : first.1 < run.1
    · have hn : newest first (run :: others) = newest run others := by simp [newest, hlt]
      obtain ⟨hmem, hmax⟩ := ih run
      have hrun := hmax run (by simp)
      rw [hn]
      constructor
      · simp only [List.mem_cons] at hmem ⊢
        exact Or.inr hmem
      · intro other hother
        simp only [List.mem_cons] at hother
        obtain rfl | hother := hother
        · omega
        · exact hmax other (by simpa using hother)
    · have hn : newest first (run :: others) = newest first others := by simp [newest, hlt]
      obtain ⟨hmem, hmax⟩ := ih first
      have hfirst := hmax first (by simp)
      rw [hn]
      constructor
      · simp only [List.mem_cons] at hmem ⊢
        tauto
      · intro other hother
        simp only [List.mem_cons] at hother
        obtain rfl | rfl | hother := hother
        · exact hfirst
        · omega
        · exact hmax other (by simp [hother])

/-- The runs beside the number that each of them has. -/
theorem keyed_ok {found : List CheckRun} {keyed : List (Int × CheckRun)}
    (h : found.mapM (fun run => do return (← need "id" run.id, run)) = Except.ok keyed) :
    (∀ run ∈ found, ∃ id, run.id = some id ∧ (id, run) ∈ keyed) ∧
      ∀ entry ∈ keyed, entry.2 ∈ found ∧ entry.2.id = some entry.1 := by
  induction found generalizing keyed with
  | nil =>
    cases h
    simp
  | cons run found ih =>
    simp only [List.mapM_cons, bind_ok, need_ok] at h
    obtain ⟨entry, ⟨id, hid, hentry⟩, rest, hrest, h⟩ := h
    cases hentry
    cases h
    obtain ⟨h₁, h₂⟩ := ih hrest
    constructor
    · intro other hother
      simp only [List.mem_cons] at hother
      obtain rfl | hother := hother
      · exact ⟨id, hid, by simp⟩
      · obtain ⟨i, hi, hmem⟩ := h₁ other hother
        exact ⟨i, hi, by simp [hmem]⟩
    · intro entry hentry
      simp only [List.mem_cons] at hentry
      obtain rfl | hentry := hentry
      · exact ⟨by simp, hid⟩
      · exact ⟨by simp [(h₂ entry hentry).1], (h₂ entry hentry).2⟩

theorem checkReady_ok (h : checkReady checks policy expectedHead name = .ok true) :
    Passed policy expectedHead checks name := by
  simp only [checkReady, bind_ok] at h
  obtain ⟨found, hfound, keyed, hkeyed, h⟩ := h
  have hmem := matchingRuns_ok hfound
  obtain ⟨hall, hback⟩ := keyed_ok hkeyed
  cases keyed with
  | nil => cases h
  | cons first others =>
    simp only [bind_ok, need_ok] at h
    obtain ⟨status, hstatus, h⟩ := h
    obtain ⟨hin, hmax⟩ := newest_max first others
    obtain ⟨hrun, hid⟩ := hback _ hin
    by_cases hs : status = "completed"
    · rw [if_neg (by simp [hs])] at h
      simp only [bind_ok, refuse_ok, ne_eq, Decidable.not_not] at h
      obtain ⟨-, hconclusion, -⟩ := h
      obtain ⟨hcheck, hmatch⟩ := (hmem _).mp hrun
      refine ⟨(newest first others).2, hcheck, (newest first others).1, hmatch, hid, ?_, hs ▸ hstatus, hconclusion⟩
      intro other hother hm
      obtain ⟨i, hi, hentry⟩ := hall other ((hmem other).mpr ⟨hother, hm⟩)
      exact ⟨i, hi, hmax _ hentry⟩
    · rw [if_pos hs] at h
      cases h

/-- Once a check is not ready, the others can only fail the whole. -/
theorem checksReady_ok {ready : Bool} {names : List String}
    (h : names.foldlM (fun ready name => do
      let one ← checkReady checks policy expectedHead name
      return ready && one) ready = Except.ok true) :
    ready = true ∧ ∀ name ∈ names, Passed policy expectedHead checks name := by
  induction names generalizing ready with
  | nil =>
    cases h
    simp
  | cons name names ih =>
    simp only [List.foldlM_cons, bind_ok] at h
    obtain ⟨both, ⟨one, hone, hboth⟩, h⟩ := h
    cases hboth
    obtain ⟨hready, hrest⟩ := ih h
    rw [Bool.and_eq_true] at hready
    obtain ⟨hready, rfl⟩ := hready
    refine ⟨hready, ?_⟩
    intro other hother
    simp only [List.mem_cons] at hother
    obtain rfl | hother := hother
    · exact checkReady_ok hone
    · exact hrest other hother

theorem reviewVerdict_ok {verdict : Verdict} (h : reviewVerdict review policy expectedHead = .ok verdict) :
    review.headRefOid = some expectedHead ∧
      (verdict = .queue → review.reviewDecision = some (some "REVIEW_REQUIRED")) ∧
      (verdict = .proceed → Approves policy review) := by
  simp only [reviewVerdict, bind_ok, refuse_ok, ne_eq, Decidable.not_not] at h
  obtain ⟨-, hhead, h⟩ := h
  refine ⟨hhead, ?_⟩
  cases hd : review.reviewDecision with
  | none =>
    rw [hd] at h
    cases h
  | some decision =>
    rw [hd] at h
    simp only at h
    by_cases h₁ : decision = some "REVIEW_REQUIRED"
    · rw [if_pos h₁] at h
      cases h
      exact ⟨fun _ => by rw [h₁], fun hv => (by cases hv)⟩
    rw [if_neg h₁] at h
    by_cases h₂ : decision = some "CHANGES_REQUESTED"
    · rw [if_pos h₂] at h
      cases h
      exact ⟨fun hv => (by cases hv), fun hv => (by cases hv)⟩
    rw [if_neg h₂] at h
    simp only [bind_ok, refuse_ok] at h
    obtain ⟨-, h₃, h⟩ := h
    cases h
    refine ⟨fun hv => (by cases hv), fun _ => ?_⟩
    by_cases h₄ : decision = some "APPROVED"
    · exact Or.inl (by rw [hd, h₄])
    right
    simp only [h₄, not_false_eq_true, true_and, not_or, not_and, Decidable.not_not] at h₃
    refine ⟨by simpa using h₃.1, ?_⟩
    by_cases h₅ : decision = none
    · exact Or.inl (by rw [hd, h₅])
    · exact Or.inr (by rw [hd, h₃.2 h₅])

end Responses

/-- A request that changes something. -/
def GateOp.command : GateOp → Bool
  | .queueMerge _ _ | .merge _ _ => true
  | _ => false

/-- A request inside an iteration that only looks. -/
def GateOp.looks : GateOp → Bool
  | .now | .queueMerge _ _ | .merge _ _ => false
  | _ => true

abbrev Seen := Event GateOp GateOp.Res GateError

def PullRequest.baseSha (pr : PullRequest) : Option String := pr.base.bind PullBase.sha

section Turns

variable (repository : String) (number : Nat) (expectedHead : String) (policy : Policy)

/-- The answers of one iteration that every command needs. -/
structure Evidence (turn : List Seen) (pr : PullRequest) (review : ReviewState) : Prop where
  read : ⟨.pullRequest number, .ok pr⟩ ∈ turn
  accepted : Accepted pr repository expectedHead
  files : ∃ changed, ⟨.files number, .ok changed⟩ ∈ turn ∧ OnlyChangelog changed
  checks : ∃ checks, ⟨.checks expectedHead, .ok checks⟩ ∈ turn ∧ AllPassed policy expectedHead checks
  reviewed : ⟨.reviewState number, .ok review⟩ ∈ turn
  reviewHead : review.headRefOid = some expectedHead

/-- The command that the answers of an iteration allow. A merge needs a second read. -/
inductive Authorizes (turn : List Seen) : GateOp → Prop
  | queue {pr : PullRequest} {review : ReviewState} :
      Evidence repository number expectedHead policy turn pr review →
      review.reviewDecision = some (some "REVIEW_REQUIRED") → Authorizes turn (.queueMerge number expectedHead)
  | merge {first second : List Seen} {pr current : PullRequest} {review : ReviewState} {sha : String} :
      turn = first ++ second → Evidence repository number expectedHead policy first pr review →
      Approves policy review → ⟨.pullRequest number, .ok current⟩ ∈ second →
      Accepted current repository expectedHead → pr.baseSha = some sha → current.baseSha = some sha →
      pr.clean = true → current.clean = true → Authorizes turn (.merge number expectedHead)

/-- No command so far, or one that the iteration in front of it allows. -/
def Gated (es : List Seen) : Prop :=
  (∀ e ∈ es, e.1.command = false) ∨
    ∃ before time turn op r, es = (before ++ ⟨.now, .ok time⟩ :: turn) ++ [⟨op, r⟩] ∧
      (∀ e ∈ before, e.1.command = false) ∧ (∀ e ∈ turn, e.1.looks = true) ∧
      Authorizes repository number expectedHead policy turn op

/-- At most one command, and its own iteration, since the clock was last read, authorizes it. -/
structure Safe (es : List Seen) : Prop where
  once : es.countP (fun e => e.1.command) ≤ 1
  authorized : ∀ before op r after, es = before ++ ⟨op, r⟩ :: after → op.command = true →
    ∃ earlier time turn, before = earlier ++ ⟨.now, .ok time⟩ :: turn ∧ (∀ e ∈ turn, e.1.looks = true) ∧
      Authorizes repository number expectedHead policy turn op

end Turns

/-- The requests since the clock was last read. -/
def Turn (es turn : List Seen) : Prop :=
  ∃ before time, es = before ++ ⟨.now, .ok time⟩ :: turn ∧ (∀ e ∈ before, e.1.command = false) ∧
    ∀ e ∈ turn, e.1.looks = true

theorem command_of_looks {op : GateOp} (h : op.looks = true) : op.command = false := by
  cases op <;> simp_all [GateOp.looks, GateOp.command]

theorem turn_look {es turn : List Seen} {op : GateOp} (h : Turn es turn) (hop : op.looks = true)
    (r : Except GateError op.Res) : Turn (es ++ [⟨op, r⟩]) (turn ++ [⟨op, r⟩]) := by
  obtain ⟨before, time, rfl, hb, ht⟩ := h
  refine ⟨before, time, by simp, hb, ?_⟩
  intro e he
  simp only [List.mem_append, List.mem_singleton] at he
  obtain he | rfl := he
  · exact ht e he
  · exact hop

theorem turn_quiet {es turn : List Seen} (h : Turn es turn) : ∀ e ∈ es, e.1.command = false := by
  obtain ⟨before, time, rfl, hb, ht⟩ := h
  intro e he
  simp only [List.mem_append, List.mem_cons] at he
  obtain he | rfl | he := he
  · exact hb e he
  · rfl
  · exact command_of_looks (ht e he)

section Meets

variable {repository : String} {number : Nat} {expectedHead : String} {policy : Policy} {interval : Int}
  {es turn : List Seen}

theorem turn_gated (h : Turn es turn) : Gated repository number expectedHead policy es := Or.inl (turn_quiet h)

theorem turn_command {op : GateOp} (h : Turn es turn) (hop : Authorizes repository number expectedHead policy turn op)
    (r : Except GateError op.Res) : Gated repository number expectedHead policy (es ++ [⟨op, r⟩]) := by
  obtain ⟨before, time, rfl, hb, ht⟩ := h
  exact Or.inr ⟨before, time, turn, op, r, rfl, hb, ht, hop⟩

theorem look_meets {op : GateOp} {A : op.Res → List Seen → Prop} (h : Turn es turn) (hop : op.looks = true)
    (hA : ∀ a, Turn (es ++ [⟨op, .ok a⟩]) (turn ++ [⟨op, .ok a⟩]) → A a (es ++ [⟨op, .ok a⟩])) :
    (Prog.perform op : Gate op.Res).Meets A (Gated repository number expectedHead policy) es := by
  apply Prog.meets_perform
  · exact turn_gated h
  · exact fun r => turn_gated (turn_look h hop r)
  · exact fun a => hA a (turn_look h hop (.ok a))

theorem ofExcept_meets {α : Type} {x : Except GateError α} {A : α → List Seen → Prop} (h : Turn es turn)
    (hA : ∀ a, x = .ok a → A a es) :
    (ofExcept x).Meets A (Gated repository number expectedHead policy) es := by
  cases x with
  | error e => exact turn_gated h
  | ok a => exact ⟨turn_gated h, hA a rfl⟩

theorem readValidated_meets {A : PullRequest → List Seen → Prop} (h : Turn es turn)
    (hA : ∀ pr es' more, Turn es' (turn ++ more) → ⟨.pullRequest number, .ok pr⟩ ∈ more →
      pr.merged = some true ∨ Accepted pr repository expectedHead → A pr es') :
    (readValidatedPullRequest repository number expectedHead interval).Meets A
      (Gated repository number expectedHead policy) es := by
  apply Prog.meets_bind
  apply look_meets h rfl
  intro pr h₁
  cases hv : validatePullRequest pr repository expectedHead with
  | ok u => exact ⟨turn_gated h₁, hA pr _ _ h₁ (by simp) (validatePullRequest_ok hv)⟩
  | error e =>
    cases e with
    | mergeBlocked m => exact turn_gated h₁
    | keyError k => exact turn_gated h₁
    | unfinished => exact turn_gated h₁
    | pullRequestStateBlocked m =>
      -- the state may be settling: it is read once more
      apply Prog.meets_bind
      apply look_meets h₁ rfl
      intro _ h₂
      apply Prog.meets_bind
      apply look_meets h₂ rfl
      intro again h₃
      apply Prog.meets_bind
      apply ofExcept_meets h₃
      intro u hu
      refine ⟨turn_gated h₃, hA again _ _ (by simpa using h₃) (by simp) (validatePullRequest_ok hu)⟩

theorem mergeIfClean_meets {pr : PullRequest} {review : ReviewState} (h : Turn es turn)
    (hev : Evidence repository number expectedHead policy turn pr review) (hrev : Approves policy review) :
    (mergeIfClean repository number expectedHead interval pr).Meets
      (fun outcome es' => outcome = none → ∃ turn', Turn es' turn')
      (Gated repository number expectedHead policy) es := by
  by_cases hclean : pr.clean = true
  · simp only [mergeIfClean, if_pos hclean]
    apply Prog.meets_bind
    apply readValidated_meets h
    intro current es' more h₁ hmore hacc
    by_cases hm : current.merged = some true
    · rw [if_pos hm]
      exact ⟨turn_gated h₁, fun hn => by cases hn⟩
    rw [if_neg hm]
    apply Prog.meets_bind
    apply ofExcept_meets h₁
    intro currentBase hcb
    apply Prog.meets_bind
    apply ofExcept_meets h₁
    intro currentSha hcs
    apply Prog.meets_bind
    apply ofExcept_meets h₁
    intro base hb
    apply Prog.meets_bind
    apply ofExcept_meets h₁
    intro sha hs
    rw [need_ok] at hcb hcs hb hs
    by_cases hsame : currentSha = sha ∧ current.clean = true
    · rw [if_pos hsame]
      have hfirst : pr.baseSha = some sha := by rw [PullRequest.baseSha, hb, Option.bind_some, hs]
      have hsecond : current.baseSha = some sha := by
        rw [PullRequest.baseSha, hcb, Option.bind_some, hcs, hsame.1]
      have hauth : Authorizes repository number expectedHead policy (turn ++ more) (.merge number expectedHead) :=
        .merge rfl hev hrev hmore (hacc.resolve_left hm) hfirst hsecond hclean hsame.2
      apply Prog.meets_bind
      apply Prog.meets_perform
      · exact turn_gated h₁
      · exact turn_command h₁ hauth
      · intro u
        exact ⟨turn_command h₁ hauth _, fun hn => by cases hn⟩
    · rw [if_neg hsame]
      exact ⟨turn_gated h₁, fun _ => ⟨_, h₁⟩⟩
  · simp only [mergeIfClean, if_neg hclean]
    exact ⟨turn_gated h, fun _ => ⟨turn, h⟩⟩

/-- An iteration that goes on waiting has issued nothing. -/
theorem mergeIteration_meets (h : Turn es []) :
    (mergeIteration repository number expectedHead policy interval).Meets
      (fun outcome es' => outcome = none → ∃ turn', Turn es' turn')
      (Gated repository number expectedHead policy) es := by
  apply Prog.meets_bind
  apply readValidated_meets h
  intro pr es' more h₁ hread hacc
  rw [List.nil_append] at h₁
  by_cases hm : pr.merged = some true
  · rw [if_pos hm]
    exact ⟨turn_gated h₁, fun hn => by cases hn⟩
  rw [if_neg hm]
  apply Prog.meets_bind
  apply look_meets h₁ rfl
  intro changed h₂
  apply Prog.meets_bind
  apply ofExcept_meets h₂
  intro u hfiles
  apply Prog.meets_bind
  apply look_meets h₂ rfl
  intro checks h₃
  apply Prog.meets_bind
  apply ofExcept_meets h₃
  intro passed hpassed
  by_cases hp : passed = true
  · rw [if_pos hp]
    subst hp
    apply Prog.meets_bind
    apply look_meets h₃ rfl
    intro review h₄
    apply Prog.meets_bind
    apply ofExcept_meets h₄
    intro verdict hverdict
    obtain ⟨hhead, hqueue, hproceed⟩ := reviewVerdict_ok hverdict
    have hev : Evidence repository number expectedHead policy
        (((more ++ [⟨.files number, .ok changed⟩]) ++ [⟨.checks expectedHead, .ok checks⟩]) ++
          [⟨.reviewState number, .ok review⟩]) pr review :=
      { read := by simp [hread]
        accepted := hacc.resolve_left hm
        files := ⟨changed, by simp, validateFiles_ok hfiles⟩
        checks := ⟨checks, by simp, (checksReady_ok hpassed).2⟩
        reviewed := by simp
        reviewHead := hhead }
    cases verdict with
    | queue =>
      have hauth := Authorizes.queue hev (hqueue rfl)
      apply Prog.meets_bind
      apply Prog.meets_perform
      · exact turn_gated h₄
      · exact turn_command h₄ hauth
      · intro u
        exact ⟨turn_command h₄ hauth _, fun hn => by cases hn⟩
    | leave => exact ⟨turn_gated h₄, fun hn => by cases hn⟩
    | proceed => exact mergeIfClean_meets h₄ hev (hproceed rfl)
  · rw [if_neg hp]
    exact ⟨turn_gated h₃, fun _ => ⟨_, h₃⟩⟩

/-- Induction on the turns that are left. -/
theorem mergeLoop_meets {deadline : Int} {turns : Nat} (h : ∀ e ∈ es, e.1.command = false) :
    (mergeLoop repository number expectedHead policy interval deadline turns).Meets (fun _ _ => True)
      (Gated repository number expectedHead policy) es := by
  induction turns generalizing es with
  | zero => exact Or.inl h
  | succ turns ih =>
    apply Prog.meets_bind
    have hclock (r : Except GateError Int) : ∀ e ∈ es ++ [⟨.now, r⟩], e.1.command = false := by
      intro e he
      simp only [List.mem_append, List.mem_singleton] at he
      obtain he | rfl := he
      · exact h e he
      · rfl
    apply Prog.meets_perform
    · exact Or.inl h
    · exact fun r => Or.inl (hclock r)
    intro (time : Int)
    by_cases htime : time < deadline
    · rw [if_pos htime]
      apply Prog.meets_bind
      have hturn : Turn (es ++ [⟨.now, .ok time⟩]) [] := ⟨es, time, rfl, h, by simp⟩
      apply Prog.meets_mono (mergeIteration_meets hturn)
      intro outcome es' hg hcont
      cases outcome with
      | some outcome => exact ⟨hg, trivial⟩
      | none =>
        obtain ⟨turn, ht⟩ := hcont rfl
        apply Prog.meets_bind
        apply look_meets ht rfl
        intro u ht'
        exact ih (turn_quiet ht')
    · rw [if_neg htime]
      exact Or.inl (hclock _)

theorem mergeWhenReady_meets {timeout : Int} {turns : Nat} :
    (mergeWhenReady repository number expectedHead policy interval timeout turns).Meets (fun _ _ => True)
      (Gated repository number expectedHead policy) [] := by
  apply Prog.meets_bind
  apply Prog.meets_perform
  · exact Or.inl (by simp)
  · exact fun r => Or.inl (by simp [GateOp.command])
  · exact fun start => mergeLoop_meets (by simp [GateOp.command])

end Meets

section Gate

variable {repository : String} {number : Nat} {expectedHead : String} {policy : Policy} {interval timeout : Int}
  {turns : Nat} {es : List Seen} {o : Option (Except GateError (Option String))}

/-- A command stands at the end of its transcript. -/
theorem command_last {before after front : List Seen} {e last : Seen} (h : front ++ [last] = before ++ e :: after)
    (hfront : ∀ e ∈ front, e.1.command = false) (he : e.1.command = true) : front = before ∧ last = e := by
  rcases List.eq_nil_or_concat after with rfl | ⟨inner, y, rfl⟩
  · obtain ⟨h₁, h₂⟩ := List.append_inj' h rfl
    exact ⟨h₁, by simpa using h₂⟩
  · have hsplit : front ++ [last] = (before ++ e :: inner) ++ [y] := by simpa using h
    obtain ⟨rfl, -⟩ := List.append_inj' hsplit rfl
    have hquiet := hfront e (by simp)
    rw [he] at hquiet
    cases hquiet

theorem gated_safe (h : Gated repository number expectedHead policy es) :
    Safe repository number expectedHead policy es := by
  obtain hquiet | ⟨earlier, time, turn, op, r, rfl, hearlier, hturn, hauth⟩ := h
  · constructor
    · rw [List.countP_eq_zero.mpr]
      · omega
      · simpa using hquiet
    · rintro before op r after rfl hop
      have hno := hquiet ⟨op, r⟩ (by simp)
      rw [hop] at hno
      cases hno
  have hquiet := turn_quiet ⟨earlier, time, rfl, hearlier, hturn⟩
  constructor
  · rw [List.countP_append, List.countP_eq_zero.mpr]
    · simp only [List.countP_singleton, Nat.zero_add]
      split <;> omega
    · simpa using hquiet
  · intro before op' r' after hes hop
    obtain ⟨rfl, hlast⟩ := command_last hes hquiet hop
    cases hlast
    exact ⟨earlier, time, turn, rfl, hturn, hauth⟩

/-- Every transcript of `merge_when_ready` is safe, whatever is answered between two requests. -/
theorem merge_when_ready_safe
    (h : (mergeWhenReady repository number expectedHead policy interval timeout turns).Transcript es o) :
    Safe repository number expectedHead policy es := by
  apply gated_safe
  simpa using Prog.meets_transcript mergeWhenReady_meets h

end Gate

/-- A pull request that is ready at once. -/
def readyReply : (op : GateOp) → Except GateError op.Res
  | .now => .ok (0 : Int)
  | .sleep _ => .ok ()
  | .pullRequest _ => .ok
    { head := some ⟨some "c0ffee", some "chore/changelog-update", some "org/repo"⟩
      base := some ⟨some "ba5e", some "develop"⟩
      state := some "open"
      merged := some false
      draft := some false
      mergeable := some true
      mergeableState := some "clean" }
  | .files _ => .ok [⟨some "CHANGELOG.md", some "modified"⟩]
  | .checks _ => .ok [⟨some 1, some "test", some "c0ffee", some 15368, some "completed", some "failure"⟩,
    ⟨some 2, some "test", some "c0ffee", some 15368, some "completed", some "success"⟩]
  | .reviewState _ => .ok ⟨some "c0ffee", some (some "APPROVED")⟩
  | .queueMerge _ _ => .ok ()
  | .merge _ _ => .ok ()

/-- A pull request that is ready at the first look: two reads, and the merge. -/
theorem merge_when_ready_safe_ready :
    ((mergeWhenReady "org/repo" 7 "c0ffee" ⟨15368, ["test"], true⟩ 15 2400 1).events readyReply).map Sigma.fst =
        [.now, .now, .pullRequest 7, .files 7, .checks "c0ffee", .reviewState 7, .pullRequest 7,
          .merge 7 "c0ffee"] ∧
      Safe "org/repo" 7 "c0ffee" ⟨15368, ["test"], true⟩
        ((mergeWhenReady "org/repo" 7 "c0ffee" ⟨15368, ["test"], true⟩ 15 2400 1).events readyReply) :=
  ⟨by decide +kernel, merge_when_ready_safe (Prog.transcript_events readyReply _)⟩

end CapiSsh.MergeGate
