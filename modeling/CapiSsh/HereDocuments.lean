import CapiSsh.KubeadmPatches
import CapiSsh.ShellBootstrap
import Mathlib.Data.List.TakeWhile

/-!
# The injectors against the here-documents of a shell

A shell splits a script at newlines only, and a here-document ends at the line that is its
tag. `ShellPatched` says what a payload becomes when the kubeadm bodies are patched under
these rules and nothing else is touched; the injectors arrive there on the payloads that
they read as the shell does.
-/
namespace CapiSsh

open TextLines

/-- The patched text in place of a body of a kubeadm file in which a document was found;
where no document changed that text is the body itself. -/
def PatchedBody (patch : BodyPatch) (path : Line) (body body' : List Line) : Prop :=
  if isKubeadmYaml path then
    ∃ text saw changed, patch (String.ofList (join body)) = .ok (text, saw, changed) ∧
      body' = if saw && changed then shellLines text.toList else body
  else body' = body

inductive ShellPatched (patch : BodyPatch) : List Line → List Line → Prop where
  | nil : ShellPatched patch [] []
  | line {line : Line} {lines out : List Line} : parseHeredocStart line = none → ShellPatched patch lines out →
      ShellPatched patch (line :: lines) (line :: out)
  | unterminated {line path tag : Line} {lines : List Line} : parseHeredocStart line = some (path, tag) → tag ∉ lines →
      ShellPatched patch (line :: lines) (line :: lines)
  | heredoc {line path tag : Line} {body body' rest out : List Line} : parseHeredocStart line = some (path, tag) →
      tag ∉ body → PatchedBody patch path body body' → ShellPatched patch rest out →
      ShellPatched patch (line :: (body ++ tag :: rest)) (line :: (body' ++ tag :: out))

/-- The injectors find the here-documents that the shell finds: no line before a terminator
only looks like it. `Q` is what is asked of each body besides. -/
inductive Reads (Q : Line → List Line → Prop) : List Line → Prop where
  | nil : Reads Q []
  | line {line : Line} {lines : List Line} : parseHeredocStart line = none → Reads Q lines → Reads Q (line :: lines)
  | unterminated {line path tag : Line} {lines : List Line} : parseHeredocStart line = some (path, tag) →
      (∀ l ∈ lines, stripLine l ≠ tag) → Reads Q (line :: lines)
  | heredoc {line path tag : Line} {body rest : List Line} : parseHeredocStart line = some (path, tag) →
      (∀ l ∈ body, stripLine l ≠ tag) → Q path body → Reads Q rest →
      Reads Q (line :: (body ++ tag :: rest))

/-- A kubeadm body whose documents stay as they are does not end in an empty line. -/
def ClosedBody (patch : BodyPatch) (path : Line) (body : List Line) : Prop :=
  isKubeadmYaml path = true → ∀ text, patch (String.ofList (join body)) = .ok (text, true, false) →
    body.getLast? ≠ some []

/-- Nothing in the body needs changing. -/
def StillBody (patch : BodyPatch) (path : Line) (body : List Line) : Prop :=
  isKubeadmYaml path = true → ∃ text saw, patch (String.ofList (join body)) = .ok (text, saw, false)

/-- No body of a here-document needs changing, where the lines that `ends` accepts for a tag
end it. -/
inductive Unpatched (ends : Line → Line → Prop) (patch : BodyPatch) : List Line → Prop where
  | nil : Unpatched ends patch []
  | line {line : Line} {lines : List Line} : parseHeredocStart line = none → Unpatched ends patch lines →
      Unpatched ends patch (line :: lines)
  | unterminated {line path tag : Line} {lines : List Line} : parseHeredocStart line = some (path, tag) →
      (∀ l ∈ lines, ¬ ends tag l) → Unpatched ends patch (line :: lines)
  | heredoc {line path tag last : Line} {body rest : List Line} : parseHeredocStart line = some (path, tag) →
      (∀ l ∈ body, ¬ ends tag l) → ends tag last → StillBody patch path body → Unpatched ends patch rest →
      Unpatched ends patch (line :: (body ++ last :: rest))

/-- A shell ends a here-document at its tag, the injectors at a line that strips to it; for
neither is there anything to change. -/
structure LeftAlone (patch : BodyPatch) (payload : String) : Prop where
  shell : Unpatched (fun tag l => l = tag) patch (shellLines payload.toList)
  injector : Unpatched (fun tag l => stripLine l = tag) patch (splitlines payload.toList)

variable {patch : BodyPatch} {line path tag : Line} {lines out body rest : List Line}

theorem PatchedBody.unique {body₁ body₂ : List Line} (h₁ : PatchedBody patch path body body₁)
    (h₂ : PatchedBody patch path body body₂) : body₁ = body₂ := by
  by_cases hp : isKubeadmYaml path = true
  · simp only [PatchedBody, hp, if_true] at h₁ h₂
    obtain ⟨t, s, c, ht, rfl⟩ := h₁
    obtain ⟨t', s', c', ht', rfl⟩ := h₂
    cases ht.symm.trans ht'
    rfl
  · simp only [PatchedBody, hp] at h₁ h₂
    exact h₁.trans h₂.symm

/-- A body is what stands before the first line that is the tag. -/
theorem body_unique {body₁ body₂ rest₁ rest₂ : List Line} (h : body₁ ++ tag :: rest₁ = body₂ ++ tag :: rest₂)
    (h₁ : tag ∉ body₁) (h₂ : tag ∉ body₂) : body₁ = body₂ ∧ rest₁ = rest₂ := by
  induction body₁ generalizing body₂ with
  | nil =>
    cases body₂ with
    | nil => exact ⟨rfl, (List.cons.inj h).2⟩
    | cons l body₂ => exact absurd ((List.cons.inj h).1 ▸ List.mem_cons_self) h₂
  | cons l body₁ ih =>
    cases body₂ with
    | nil => exact absurd ((List.cons.inj h).1.symm ▸ List.mem_cons_self) h₁
    | cons l' body₂ =>
      obtain ⟨hl, ht⟩ := List.cons.inj (show l :: (body₁ ++ tag :: rest₁) = l' :: (body₂ ++ tag :: rest₂) from h)
      obtain ⟨hb, hr⟩ := ih ht (fun hm => h₁ (List.mem_cons_of_mem _ hm)) fun hm => h₂ (List.mem_cons_of_mem _ hm)
      exact ⟨by rw [hl, hb], hr⟩

/-- There is one result for each payload. -/
theorem ShellPatched.unique {out' : List Line} (h : ShellPatched patch lines out)
    (h' : ShellPatched patch lines out') : out = out' := by
  induction h generalizing out' with
  | nil =>
    cases h'
    rfl
  | line hs _ ih =>
    cases h' with
    | line _ h' => rw [ih h']
    | unterminated hs' _ => simp [hs] at hs'
    | heredoc hs' _ _ _ => simp [hs] at hs'
  | unterminated hs ht =>
    cases h' with
    | line hs' _ => simp [hs] at hs'
    | unterminated _ _ => rfl
    | heredoc hs' _ _ _ =>
      cases hs.symm.trans hs'
      simp at ht
  | @heredoc l p t b b' r o hs ht hb _ ih =>
    generalize hl : l :: (b ++ t :: r) = all at h'
    cases h' with
    | nil => cases hl
    | line hs' _ =>
      cases (List.cons.inj hl).1
      simp [hs] at hs'
    | unterminated hs' ht' =>
      obtain ⟨rfl, hb⟩ := List.cons.inj hl
      cases hs.symm.trans hs'
      rw [← hb] at ht'
      simp at ht'
    | heredoc hs' ht' hb' hr' =>
      obtain ⟨rfl, hbody⟩ := List.cons.inj hl
      cases hs.symm.trans hs'
      obtain ⟨rfl, rfl⟩ := body_unique hbody ht ht'
      rw [hb.unique hb', ih hr']

theorem skipSpaces_id {l : List Char} (h : ∀ c ∈ l, isSpace c = false) : l.dropWhile isSpace = l := by
  cases l with
  | nil => rfl
  | cons c l => simp [h c (by simp)]

theorem stripLine_id {l : Line} (h : ∀ c ∈ l, isSpace c = false) : stripLine l = l := by
  rw [stripLine, skipSpaces_id h, skipSpaces_id fun c hc => h c (List.mem_reverse.mp hc),
    List.reverse_reverse]

theorem tagOf_chars {l rest : List Char} (h : tagOf l = some (tag, rest)) :
    tag ≠ [] ∧ ∀ c ∈ tag, isTagChar c = true := by
  simp only [tagOf] at h
  by_cases hs : ((quote l).head?.map isTagStart).getD false = true
  · rw [if_pos hs] at h
    simp only [Option.some.injEq, Prod.mk.injEq] at h
    obtain ⟨rfl, -⟩ := h
    refine ⟨?_, fun c hc => List.mem_takeWhile_imp hc⟩
    cases hq : quote l with
    | nil => simp [hq] at hs
    | cons c l' =>
      have hc : isTagChar c = true := by
        simp only [hq, List.head?_cons, Option.map_some, Option.getD_some, isTagStart, Bool.or_eq_true] at hs
        rcases hs with hs | hs
        · simp [isTagChar, Char.isAlphanum, hs]
        · simp [isTagChar, hs]
      simp [hc]
  · rw [if_neg hs] at h
    cases h

theorem isSpace_tagChar {c : Char} (h : isTagChar c = true) : isSpace c = false := by
  have hr : (65 ≤ c.toNat ∧ c.toNat ≤ 90 ∨ 97 ≤ c.toNat ∧ c.toNat ≤ 122) ∨
      (48 ≤ c.toNat ∧ c.toNat ≤ 57) ∨ c.toNat = 95 := by
    have ha : c.isAlpha = (c.isUpper || c.isLower) := rfl
    have hu : c.isUpper = decide (c.val ≥ 65 ∧ c.val ≤ 90) := rfl
    have hl : c.isLower = (decide (c.val ≥ 97) && decide (c.val ≤ 122)) := rfl
    simp only [isTagChar, Char.isAlphanum, ha, hu, hl, Char.isDigit, Bool.or_eq_true, Bool.and_eq_true,
      decide_eq_true_eq, beq_iff_eq] at h
    rcases h with ((h | h) | h) | rfl
    · exact .inl (.inl h)
    · exact .inl (.inr h)
    · exact .inr (.inl h)
    · exact .inr (.inr rfl)
  have hval : ∀ n : Nat, n < 128 → 32 < n → c.val.toNat = n → isSpace c = false := by
    intro n hn hl hc
    have hne : ∀ m : UInt32, 133 ≤ m.toNat → c.val ≠ m := by
      rintro m hm rfl
      omega
    simp only [isSpace, Bool.or_eq_false_iff, Bool.and_eq_false_iff, decide_eq_false_iff_not,
      UInt32.le_iff_toNat_le, hc, List.contains_eq_mem, List.mem_cons, List.not_mem_nil, or_false]
    refine ⟨⟨⟨.inr ?_, .inr ?_⟩, .inl ?_⟩, ?_⟩
    · simp; omega
    · simp; omega
    · simp; omega
    · simp [hne]
  exact hval c.toNat (by omega) (by omega) rfl

theorem parseHeredocStart_tag (h : parseHeredocStart line = some (path, tag)) :
    tag ≠ [] ∧ stripLine tag = tag := by
  have hchars : tag ≠ [] ∧ ∀ c ∈ tag, isTagChar c = true := by
    simp only [parseHeredocStart, Option.or_eq_some_iff] at h
    rcases h with h | ⟨-, h⟩
    · simp only [directStart, Option.bind_eq_bind, Option.bind_eq_some_iff] at h
      obtain ⟨l₁, -, l₂, -, l₃, -, ⟨p, l₄⟩, -, l₅, -, l₆, -, ⟨t, l₇⟩, ht, h⟩ := h
      by_cases hr : l₇.all isSpace = true
      · simp only [hr, if_true, Option.some.injEq, Prod.mk.injEq] at h
        exact h.2 ▸ tagOf_chars ht
      · simp [hr] at h
    · simp only [reverseStart, Option.bind_eq_bind, Option.bind_eq_some_iff] at h
      obtain ⟨l₁, -, l₂, -, l₃, -, ⟨t, l₄⟩, ht, l₅, -, l₆, -, ⟨p, l₇⟩, -, h⟩ := h
      by_cases hr : l₇.all isSpace = true
      · simp only [hr, if_true, Option.some.injEq, Prod.mk.injEq] at h
        exact h.2 ▸ tagOf_chars ht
      · simp [hr] at h
  exact ⟨hchars.1, stripLine_id fun c hc => isSpace_tagChar (hchars.2 c hc)⟩

/-- What the loop relies on: a text in which nothing changed is returned as it is, and one
that the YAML library wrote has the same lines for Python and for a shell. -/
structure TextPatch (patch : BodyPatch) : Prop where
  same : ∀ text text' saw, patch text = .ok (text', saw, false) → text' = text
  plain : ∀ text text' saw, patch text = .ok (text', saw, true) →
    splitlines text'.toList = shellLines text'.toList

theorem patchBody_ok (hpatch : TextPatch patch) {body' : List Line} {saw changed : Bool}
    (h : patchBody patch path body = .ok (body', saw, changed))
    (hb : ∀ l ∈ body, ∀ c ∈ l, isLineBreak c = false) (hq : ClosedBody patch path body) :
    PatchedBody patch path body body' ∧ (changed = false → body' = body) := by
  by_cases hp : isKubeadmYaml path = true
  · simp only [patchBody, PatchedBody, hp, if_true] at h ⊢
    cases ht : patch (String.ofList (join body)) with
    | error e =>
      rw [ht] at h
      cases h
    | ok r =>
      obtain ⟨text, s, c⟩ := r
      rw [ht] at h
      cases h
      cases s with
      | false => exact ⟨⟨text, false, c, rfl, rfl⟩, fun _ => rfl⟩
      | true =>
        cases c with
        | true => exact ⟨⟨text, true, true, rfl, by simp [hpatch.plain _ _ _ ht]⟩, fun hc => by cases hc⟩
        | false =>
          have hsame : splitlines text.toList = body := by
            rw [hpatch.same _ _ _ ht, String.toList_ofList]
            exact splitlines_join hb (hq hp text ht)
          exact ⟨⟨text, true, false, rfl, by simp [hsame]⟩, fun _ => by simp [hsame]⟩
  · have hp' : isKubeadmYaml path = false := by simpa using hp
    simp only [patchBody, PatchedBody, hp', Bool.false_eq_true, if_false] at h ⊢
    cases h
    exact ⟨rfl, fun _ => rfl⟩

theorem injectLines_body {acc : List Line} (hb : ∀ l ∈ body, stripLine l ≠ tag) :
    injectLines patch (some (path, tag, acc)) (body ++ rest) =
      injectLines patch (some (path, tag, acc ++ body)) rest := by
  induction body generalizing acc with
  | nil => simp
  | cons l body ih =>
    rw [List.cons_append, injectLines, if_neg (hb l List.mem_cons_self),
      ih fun l' hl' => hb l' (List.mem_cons_of_mem l hl')]
    simp

theorem injectLines_start (hs : parseHeredocStart line = some (path, tag)) :
    injectLines patch none (line :: lines) =
      (injectLines patch (some (path, tag, [])) lines).bind fun r => .ok (line :: r.1, r.2) := by
  rw [injectLines, hs]
  rfl

/-- Under the shell's reading the loop makes of the lines what they are to become. -/
theorem injectLines_patched (hpatch : TextPatch patch) (hr : Reads (ClosedBody patch) lines)
    (hb : ∀ l ∈ lines, ∀ c ∈ l, isLineBreak c = false) {saw changed : Bool}
    (h : injectLines patch none lines = .ok (out, saw, changed)) :
    ShellPatched patch lines out ∧ (changed = false → out = lines) := by
  induction hr generalizing out saw changed with
  | nil =>
    cases h
    exact ⟨.nil, fun _ => rfl⟩
  | @line l ls hs _ ih =>
    rw [injectLines, hs] at h
    cases hi : injectLines patch none ls with
    | error e =>
      rw [Option.map_none, hi] at h
      cases h
    | ok r =>
      rw [Option.map_none, hi] at h
      cases h
      obtain ⟨hp, hsame⟩ := ih (fun l' hl' => hb l' (List.mem_cons_of_mem l hl')) hi
      exact ⟨.line hs hp, fun hc => by rw [hsame hc]⟩
  | @unterminated l p t ls hs ht =>
    have hn : t ∉ ls := fun hm => ht t hm (parseHeredocStart_tag hs).2
    rw [injectLines_start hs, ← List.append_nil ls, injectLines_body ht] at h
    cases h
    simpa using ShellPatched.unterminated hs hn
  | @heredoc l p t b r hs ht hq _ ih =>
    have hn : t ∉ b := fun hm => ht t hm (parseHeredocStart_tag hs).2
    rw [injectLines_start hs, injectLines_body ht, injectLines, if_pos (parseHeredocStart_tag hs).2] at h
    have hbody : ∀ l' ∈ b, ∀ c ∈ l', isLineBreak c = false := fun l' hl' => hb l' (by simp [hl'])
    have hrest : ∀ l' ∈ r, ∀ c ∈ l', isLineBreak c = false := fun l' hl' => hb l' (by simp [hl'])
    cases hpb : patchBody patch p b with
    | error e =>
      rw [List.nil_append, hpb] at h
      cases h
    | ok x =>
      cases hi : injectLines patch none r with
      | error e =>
        rw [List.nil_append, hpb, hi] at h
        cases h
      | ok y =>
        rw [List.nil_append, hpb, hi] at h
        cases h
        obtain ⟨hp, hsame⟩ := patchBody_ok hpatch hpb hbody hq
        obtain ⟨hp', hsame'⟩ := ih hrest hi
        refine ⟨.heredoc hs hn hp hp', fun hc => ?_⟩
        simp only [Bool.or_eq_false_iff] at hc
        rw [hsame hc.1, hsame' hc.2]

theorem StillBody.patched (h : StillBody patch path body) : PatchedBody patch path body body := by
  unfold PatchedBody
  split
  · rename_i hk
    obtain ⟨text, saw, ht⟩ := h hk
    exact ⟨text, saw, false, ht, by simp⟩
  · rfl

/-- Where a shell finds nothing that needs changing, a script is what it is to become. -/
theorem unpatched_shell (h : Unpatched (fun tag l => l = tag) patch lines) : ShellPatched patch lines lines := by
  induction h with
  | nil => exact .nil
  | line hs _ ih => exact .line hs ih
  | unterminated hs ht => exact .unterminated hs fun hm => ht _ hm rfl
  | heredoc hs ht hlast hb _ ih =>
    subst hlast
    exact .heredoc hs (fun hm => ht _ hm rfl) hb.patched ih

/-- Where the loop finds nothing that needs changing, it reports that nothing was changed. -/
theorem injectLines_unpatched (hr : Unpatched (fun tag l => stripLine l = tag) patch lines) {saw changed : Bool}
    (h : injectLines patch none lines = .ok (out, saw, changed)) : changed = false := by
  induction hr generalizing out saw changed with
  | nil =>
    cases h
    rfl
  | @line l ls hs _ ih =>
    rw [injectLines, hs] at h
    cases hi : injectLines patch none ls with
    | error e =>
      rw [Option.map_none, hi] at h
      cases h
    | ok r =>
      rw [Option.map_none, hi] at h
      cases h
      exact ih hi
  | @unterminated l p t ls hs ht =>
    rw [injectLines_start hs, ← List.append_nil ls, injectLines_body ht] at h
    cases h
    rfl
  | @heredoc l p t last b r hs ht hlast hb _ ih =>
    rw [injectLines_start hs, injectLines_body ht, injectLines, if_pos hlast, List.nil_append] at h
    have hbody : ∀ x, patchBody patch p b = .ok x → x.2.2 = false := by
      intro x hx
      by_cases hk : isKubeadmYaml p = true
      · obtain ⟨text, s, htext⟩ := hb hk
        simp only [patchBody, hk, if_true, htext] at hx
        cases hx
        rfl
      · have hk' : isKubeadmYaml p = false := by simpa using hk
        simp only [patchBody, hk', Bool.false_eq_true, if_false] at hx
        cases hx
        rfl
    cases hpb : patchBody patch p b with
    | error e =>
      rw [hpb] at h
      cases h
    | ok x =>
      cases hi : injectLines patch none r with
      | error e =>
        rw [hpb, hi] at h
        cases h
      | ok y =>
        rw [hpb, hi] at h
        cases h
        simp [hbody x hpb, ih hi]

/-- What is behind the last line break of a payload is no part of a here-document. -/
theorem ShellPatched.close (h : ShellPatched patch lines out) :
    ShellPatched patch (lines ++ [[]]) (out ++ [[]]) := by
  induction h with
  | nil => exact .line (by decide) .nil
  | line hs _ ih => exact .line hs ih
  | unterminated hs ht =>
    refine .unterminated hs fun hm => ?_
    rcases List.mem_append.mp hm with hm | hm
    · exact ht hm
    · exact (parseHeredocStart_tag hs).1 (List.mem_singleton.mp hm)
  | heredoc hs ht hb _ ih => simpa using ShellPatched.heredoc hs ht hb ih

theorem ShellPatched.ne_nil (h : ShellPatched patch lines out) (hne : lines ≠ []) : out ≠ [] := by
  cases h with
  | nil => exact absurd rfl hne
  | line _ _ => simp
  | unterminated _ _ => simp
  | heredoc _ _ _ _ => simp

theorem join_close (hne : lines ≠ []) : join (lines ++ [[]]) = join lines ++ ['\n'] := by
  induction lines with
  | nil => exact absurd rfl hne
  | cons l lines ih =>
    cases lines with
    | nil => simp [join]
    | cons l' lines =>
      have ih := ih (by simp)
      simp only [join, List.cons_append, List.intercalate_cons_cons] at ih ⊢
      simp [ih]

/-- The payload that the injectors write has the lines of the loop and the payload's end. -/
theorem rendered_eq {payload : String} (h : ShellPatched patch (splitlines payload.toList) out) :
    ShellPatched patch (splitlines payload.toList ++ closing payload.toList)
        (out ++ closing payload.toList) ∧
      rendered payload out = String.ofList (join (out ++ closing payload.toList)) := by
  cases hl : payload.toList.getLast? with
  | none =>
    have hnil : payload.toList = [] := by simpa using hl
    rw [hnil] at h ⊢
    cases h
    exact ⟨.line (by decide) .nil, by simp [rendered, hnil, closing, join]⟩
  | some c =>
    have hne : payload.toList ≠ [] := by
      intro hnil
      simp [hnil] at hl
    by_cases hc : c = '\n'
    · subst hc
      have hclose : closing payload.toList = [[]] := by simp [closing, hl]
      rw [hclose]
      exact ⟨h.close, by rw [rendered, hl, if_pos rfl, join_close (h.ne_nil (splitlines_ne_nil hne))]⟩
    · have hclose : closing payload.toList = [] := by simp [closing, hl, hc]
      rw [hclose]
      exact ⟨by simpa using h, by simp [rendered, hl, hc]⟩

/-- The payload has become what a shell's reading asks for, and is the same when nothing
was changed. -/
def Injected (patch : BodyPatch) (payload result : String) (changed : Bool) : Prop :=
  (∃ out, ShellPatched patch (shellLines payload.toList) out ∧ result = String.ofList (join out)) ∧
    (changed = false → result = payload)

theorem injected_same {payload : String} (h : ShellPatched patch (shellLines payload.toList) (shellLines payload.toList)) :
    Injected patch payload payload false :=
  ⟨⟨_, h, by rw [join_shellLines, String.ofList_toList]⟩, fun _ => rfl⟩

theorem injected_plain {payload : String} (hp : Plain payload.toList)
    (h : ShellPatched patch (splitlines payload.toList) (splitlines payload.toList)) :
    Injected patch payload payload false := by
  obtain ⟨hs, -⟩ := rendered_eq h
  rw [← shellLines_eq hp] at hs
  exact injected_same hs

theorem injected_rendered {payload : String} (hpatch : TextPatch patch) (hp : Plain payload.toList)
    (hr : Reads (ClosedBody patch) (splitlines payload.toList)) {saw changed : Bool}
    (h : injectLines patch none (splitlines payload.toList) = .ok (out, saw, changed)) :
    Injected patch payload (rendered payload out) changed := by
  obtain ⟨hs, hsame⟩ := injectLines_patched hpatch hr (splitlines_breaks hp) h
  obtain ⟨hs', hout⟩ := rendered_eq hs
  rw [← shellLines_eq hp] at hs'
  refine ⟨⟨_, hs', hout⟩, fun hc => ?_⟩
  rw [hout, hsame hc, ← shellLines_eq hp, join_shellLines, String.ofList_toList]

/-- The YAML library writes ASCII lines that end with newlines, and no empty text for any
documents. -/
def YamlLibrary.DumpsPlainly {σ : Type} (yaml : YamlLibrary σ) : Prop :=
  ∀ docs, docs ≠ [] → Plain (yaml.safeDumpAll docs).toList ∧ ∃ c ∈ (yaml.safeDumpAll docs).toList, c ≠ '\n'

variable {σ : Type} {yaml : YamlLibrary σ}

theorem rstrip_last {text : List Char} (h : ∃ c ∈ text, c ≠ '\n') :
    ∃ c, (text.reverse.dropWhile (· == '\n')).reverse.getLast? = some c ∧ c ≠ '\n' := by
  obtain ⟨c, hc, hne⟩ := h
  cases hd : text.reverse.dropWhile (· == '\n') with
  | nil =>
    have := List.dropWhile_eq_nil_iff.mp hd c (List.mem_reverse.mpr hc)
    exact absurd (by simpa using this) hne
  | cons d l =>
    have hd' := List.head_dropWhile_not (· == '\n') (l := text.reverse) (by simp [hd])
    refine ⟨d, by simp, ?_⟩
    simpa [hd] using hd'

theorem render_plain (hy : yaml.DumpsPlainly) {docs : List (DataTree.Node σ)} (hne : docs ≠ []) :
    splitlines (yaml.render docs).toList = shellLines (yaml.render docs).toList := by
  obtain ⟨hp, hc⟩ := hy docs hne
  obtain ⟨c, hl, hcn⟩ := rstrip_last hc
  have hp' : Plain (yaml.render docs).toList := by
    intro d hd
    simp only [YamlLibrary.render, rstripNewlines, String.toList_ofList, List.mem_reverse] at hd
    exact hp d (List.mem_reverse.mp ((List.dropWhile_sublist _).subset hd))
  have hclose : closing (yaml.render docs).toList = [] := by
    simp [closing, YamlLibrary.render, rstripNewlines, hl, hcn]
  rw [shellLines_eq hp', hclose, List.append_nil]

theorem patchDocs_ne_nil {patchDoc : DataTree.Node σ → Except Exc (DataTree.Node σ × Bool × Bool)}
    {docs docs' : List (DataTree.Node σ)} {saw : Bool}
    (h : patchDocs patchDoc docs = .ok (docs', saw, true)) : docs' ≠ [] := by
  cases docs with
  | nil => simp [patchDocs] at h
  | cons d ds =>
    rw [patchDocs] at h
    cases hd : patchDoc d with
    | error e =>
      rw [hd] at h
      cases h
    | ok x =>
      rw [hd] at h
      cases hds : patchDocs patchDoc ds with
      | error e =>
        simp only [hds] at h
        cases h
      | ok y =>
        simp only [hds] at h
        obtain ⟨rfl, -⟩ := Prod.mk.inj (Except.ok.inj h)
        simp

theorem textPatch_kubeadm (hy : yaml.DumpsPlainly)
    (patchDoc : DataTree.Node σ → Except Exc (DataTree.Node σ × Bool × Bool)) :
    TextPatch (patchKubeadmYaml yaml patchDoc) := by
  have hcases : ∀ text text' saw changed, patchKubeadmYaml yaml patchDoc text = .ok (text', saw, changed) →
      (changed = false → text' = text) ∧ (changed = true → ∃ docs, docs ≠ [] ∧ text' = yaml.render docs) := by
    intro text text' saw changed h
    cases hd : yaml.documents text with
    | none =>
      rw [patchKubeadmYaml, hd] at h
      cases h
      exact ⟨fun _ => rfl, fun hc => by cases hc⟩
    | some docs =>
      rw [patchKubeadmYaml_docs hd] at h
      cases hp : patchDocs patchDoc docs with
      | error e =>
        rw [hp] at h
        cases h
      | ok r =>
        obtain ⟨docs', saw', c⟩ := r
        rw [hp] at h
        cases c with
        | false =>
          cases h
          exact ⟨fun _ => rfl, fun hc => by cases hc⟩
        | true =>
          cases h
          exact ⟨fun hc => (by cases hc), fun _ => ⟨docs', patchDocs_ne_nil hp, rfl⟩⟩
  constructor
  · intro text text' saw h
    exact (hcases text text' saw false h).1 rfl
  · intro text text' saw h
    obtain ⟨docs, hne, rfl⟩ := (hcases text text' saw true h).2 rfl
    exact render_plain hy hne

variable [BEq σ]

/-- Both shell injectors, on payloads whose only line breaks are newlines and whose
here-documents they delimit as the shell does, or, for the provider ID, in which neither
finds anything to change: what they return is the payload with the kubeadm bodies patched
and nothing else touched. -/
theorem shell_injection (hy : yaml.DumpsPlainly) {payload : String} :
    (∀ providerId result changed,
      injectProviderIdIntoShellBootstrapData yaml payload providerId = .ok (result, changed) →
      (Plain payload.toList ∧ Reads (ClosedBody fun text => patchProviderIdInKubeadmYaml yaml text providerId)
          (splitlines payload.toList) ∨
        LeftAlone (fun text => patchProviderIdInKubeadmYaml yaml text providerId) payload) →
      Injected (fun text => patchProviderIdInKubeadmYaml yaml text providerId) payload result changed) ∧
    ∀ etcd result changed,
      injectExternalEtcdIntoShellBootstrapData yaml payload etcd = .ok (result, changed) →
      Plain payload.toList →
      Reads (ClosedBody fun text => patchExternalEtcdInKubeadmYaml yaml text etcd)
        (splitlines payload.toList) →
      Injected (fun text => patchExternalEtcdInKubeadmYaml yaml text etcd) payload result changed := by
  constructor
  · intro providerId result changed h hr
    have hpatch := textPatch_kubeadm hy (patchProviderIdDoc providerId)
    cases hi : injectLines (fun text => patchProviderIdInKubeadmYaml yaml text providerId) none
        (splitlines payload.toList) with
    | error e =>
      rw [injectProviderIdIntoShellBootstrapData, hi] at h
      cases h
    | ok r =>
      obtain ⟨out, saw, c⟩ := r
      rw [injectProviderIdIntoShellBootstrapData, hi] at h
      rcases hr with ⟨hp, hr⟩ | hr
      · cases c with
        | true =>
          cases h
          exact injected_rendered hpatch hp hr hi
        | false =>
          cases h
          obtain ⟨hs, hsame⟩ := injectLines_patched hpatch hr (splitlines_breaks hp) hi
          rw [hsame rfl] at hs
          exact injected_plain hp hs
      · obtain rfl := injectLines_unpatched hr.injector hi
        cases h
        exact injected_same (unpatched_shell hr.shell)
  · intro etcd result changed h hp hr
    have hpatch := textPatch_kubeadm hy (patchExternalEtcdDoc etcd)
    cases hi : injectLines (fun text => patchExternalEtcdInKubeadmYaml yaml text etcd) none
        (splitlines payload.toList) with
    | error e =>
      rw [injectExternalEtcdIntoShellBootstrapData, hi] at h
      cases h
    | ok r =>
      obtain ⟨out, saw, c⟩ := r
      rw [injectExternalEtcdIntoShellBootstrapData, hi] at h
      cases saw with
      | false => cases h
      | true =>
        cases h
        exact injected_rendered hpatch hp hr hi

def shellYaml : YamlLibrary Bool where
  safeLoadAll text := if text = String.ofList (join joinBody) then some [joinDoc] else some []
  safeDumpAll docs := if DataTree.sameItems docs [joinPatchedDoc] then joinPatchedText ++ "\n" else "null\n"

def joinPath : Line := "/run/kubeadm/kubeadm.yaml".toList

def joinStart : Line := "cat > ".toList ++ joinPath ++ " << EOF".toList

def joinLines : List Line := joinStart :: (joinBody ++ "EOF".toList :: ["kubeadm join".toList])

/-- A script of these lines behind some text. -/
def joinScript (first : List Char) : String := String.ofList (first ++ '\n' :: join joinLines)

def joinOutput : List Line :=
  joinStart :: (splitlines joinPatchedText.toList ++ "EOF".toList :: ["kubeadm join".toList])

theorem plain_of_all {text : List Char} (h : text.all (fun c => !isLineBreak c || c == '\n') = true) :
    Plain text := by
  intro c hc hb
  have := List.all_eq_true.mp h c hc
  simpa [hb] using this

theorem shellYaml_plain : shellYaml.DumpsPlainly := by
  intro docs _
  simp only [shellYaml]
  by_cases hs : DataTree.sameItems docs [joinPatchedDoc] = true
  · rw [if_pos hs]
    have hplain : Plain (joinPatchedText ++ "\n").toList := plain_of_all (by
      delta joinPatchedText
      simp [isLineBreak])
    have hmem : 'a' ∈ (joinPatchedText ++ "\n").toList := by
      delta joinPatchedText
      simp
    exact ⟨hplain, 'a', hmem, by decide⟩
  · rw [if_neg hs]
    exact ⟨plain_of_all (by decide), 'n', by decide, by decide⟩

theorem shellYaml_patch : patchProviderIdInKubeadmYaml shellYaml (String.ofList (join joinBody)) "ssh://10.0.0.1" =
    .ok (joinPatchedText, true, true) := by
  have hdocs : shellYaml.documents (String.ofList (join joinBody)) = some [joinDoc] := by
    have hload : shellYaml.safeLoadAll (String.ofList (join joinBody)) = some [joinDoc] := by
      simp [shellYaml]
    rw [YamlLibrary.documents, hload]
    rfl
  have hpatch : patchDocs (patchProviderIdDoc "ssh://10.0.0.1") [joinDoc] = .ok ([joinPatchedDoc], true, true) := rfl
  have hrender : shellYaml.render [joinPatchedDoc] = joinPatchedText := by
    have hend : joinPatchedText.toList.reverse.head?.getD '\n' ≠ '\n' := by
      delta joinPatchedText
      simp
    have hs : DataTree.sameItems [joinPatchedDoc] [joinPatchedDoc] = true := rfl
    simp only [YamlLibrary.render, shellYaml, hs, if_true, rstripNewlines, String.toList_append]
    cases hr : joinPatchedText.toList.reverse with
    | nil => simp [hr] at hend
    | cons c l =>
      have hc : c ≠ '\n' := by simpa [hr] using hend
      have hl : joinPatchedText.toList = l.reverse ++ [c] := by
        rw [← List.reverse_reverse joinPatchedText.toList, hr]
        simp
      simp [hr, hc, ← hl]
  rw [patchProviderIdInKubeadmYaml, patchKubeadmYaml_docs hdocs, hpatch]
  simp only [Except.map, if_true, hrender]

theorem joinStart_parsed : parseHeredocStart joinStart = some (joinPath, "EOF".toList) := by decide

theorem injectLines_lines (hs : ∀ l ∈ lines, parseHeredocStart l = none) :
    injectLines patch none (lines ++ rest) =
      (injectLines patch none rest).bind fun r => .ok (lines ++ r.1, r.2) := by
  induction lines with
  | nil =>
    rw [List.nil_append]
    cases injectLines patch none rest <;> rfl
  | cons l lines ih =>
    rw [List.cons_append, injectLines, hs l List.mem_cons_self, Option.map_none,
      ih fun l' hl' => hs l' (List.mem_cons_of_mem l hl')]
    cases injectLines patch none rest <;> rfl

/-- A script with one here-document, whose body the patch answers for. -/
theorem injectLines_document (patch : BodyPatch) {start : Line} {pre post : List Line} {text : String} {saw changed : Bool}
    (hs : parseHeredocStart start = some (path, tag)) (hpath : isKubeadmYaml path = true)
    (hpre : ∀ l ∈ pre, parseHeredocStart l = none) (hbody : ∀ l ∈ body, stripLine l ≠ tag)
    (hpost : ∀ l ∈ post, parseHeredocStart l = none)
    (hpatch : patch (String.ofList (join body)) = .ok (text, saw, changed)) :
    injectLines patch none (pre ++ start :: (body ++ tag :: post)) =
      .ok (pre ++ start :: ((if saw then splitlines text.toList else body) ++ tag :: post), saw, changed) := by
  have hend : injectLines patch none post = .ok (post, false, false) := by
    have hlines : injectLines patch none (post ++ []) = _ := injectLines_lines hpost
    simpa [injectLines, Except.bind] using hlines
  rw [injectLines_lines hpre, injectLines_start hs, injectLines_body hbody, injectLines,
    if_pos (parseHeredocStart_tag hs).2, patchBody, hpath, List.nil_append, hpatch, hend]
  cases saw <;> simp [Except.bind, bind, pure, Except.pure]

theorem joinScript_last (first : List Char) : (joinScript first).toList.getLast? = some 'n' := by
  have hlast : (join joinLines).getLast? = some 'n' := by decide
  rw [joinScript, String.toList_ofList, List.getLast?_append, List.getLast?_cons, hlast]
  rfl

theorem joinLines_last : joinLines.getLast? ≠ some [] := by decide

theorem splitlines_joinLines : splitlines (join joinLines) = joinLines := by
  refine splitlines_join (fun l hl c hc => ?_) joinLines_last
  have hall : joinLines.all (fun l => l.all fun c => !isLineBreak c) = true := by decide
  simpa using List.all_eq_true.mp (List.all_eq_true.mp hall l hl) c hc

/-- The injector on a script whose first lines are no start of a here-document. -/
theorem joinScript_result {first : List Char} (pre : List Line)
    (hs : splitlines (joinScript first).toList = pre ++ joinLines)
    (hpre : ∀ l ∈ pre, parseHeredocStart l = none) :
    injectProviderIdIntoShellBootstrapData shellYaml (joinScript first) "ssh://10.0.0.1" =
      .ok (String.ofList (join (pre ++ joinOutput)), true) := by
  have hpath : isKubeadmYaml joinPath = true := by decide
  have hbody : ∀ l ∈ joinBody, stripLine l ≠ "EOF".toList := by decide
  have hend : ∀ l ∈ ["kubeadm join".toList], parseHeredocStart l = none := by decide
  have hi : injectLines (fun text => patchProviderIdInKubeadmYaml shellYaml text "ssh://10.0.0.1") none
      (pre ++ joinLines) = .ok (pre ++ joinOutput, true, true) := by
    rw [joinLines, joinOutput,
      injectLines_document (fun text => patchProviderIdInKubeadmYaml shellYaml text "ssh://10.0.0.1") joinStart_parsed
        hpath hpre hbody hend shellYaml_patch, if_pos rfl]
  rw [injectProviderIdIntoShellBootstrapData, hs, hi]
  have hr : rendered (joinScript first) (pre ++ joinOutput) = String.ofList (join (pre ++ joinOutput)) := by
    simp [rendered, joinScript_last]
  simp [bind, Except.bind, pure, Except.pure, hr]

/-- A form feed where there is nothing to change. -/
def stillScript : String := String.ofList ('\x0c' :: '\n' :: "kubeadm join".toList)

theorem stillScript_leftAlone : LeftAlone patch stillScript := by
  have hn : parseHeredocStart "kubeadm join".toList = none := by decide
  have hf : parseHeredocStart ['\x0c'] = none := by decide
  have hshell : shellLines stillScript.toList = ['\x0c'] :: ["kubeadm join".toList] := by decide +kernel
  have hpython : splitlines stillScript.toList = [] :: [] :: ["kubeadm join".toList] := by decide +kernel
  constructor
  · rw [hshell]
    exact .line hf (.line hn .nil)
  · rw [hpython]
    exact .line (by decide) (.line (by decide) (.line hn .nil))

/-- A join script is patched, and a script with other line separators, in which nothing is to be
changed, stays as it is. -/
theorem shell_injection_join :
    Injected (fun text => patchProviderIdInKubeadmYaml shellYaml text "ssh://10.0.0.1")
      (joinScript "#!/bin/sh".toList) (String.ofList (join ("#!/bin/sh".toList :: joinOutput))) true ∧
    Injected (fun text => patchProviderIdInKubeadmYaml shellYaml text "ssh://10.0.0.1") stillScript stillScript false := by
  have hfirst : parseHeredocStart "#!/bin/sh".toList = none := by decide
  have hbody : ∀ l ∈ joinBody, stripLine l ≠ "EOF".toList := by decide
  have hend : parseHeredocStart "kubeadm join".toList = none := by decide
  have hlines : (joinScript "#!/bin/sh".toList).toList = join ("#!/bin/sh".toList :: joinLines) := by
    rw [joinScript, String.toList_ofList]
    simp [join, joinLines]
  have hall : ("#!/bin/sh".toList :: joinLines).all (fun l => l.all fun c => !isLineBreak c) = true := by
    decide
  have hbreaks : ∀ l ∈ "#!/bin/sh".toList :: joinLines, ∀ c ∈ l, isLineBreak c = false := fun l hl c hc => by
    simpa using List.all_eq_true.mp (List.all_eq_true.mp hall l hl) c hc
  have hsplit : splitlines (joinScript "#!/bin/sh".toList).toList = ["#!/bin/sh".toList] ++ joinLines := by
    rw [hlines, splitlines_join hbreaks (by rw [List.getLast?_cons]; decide), List.singleton_append]
  have hplain : Plain (joinScript "#!/bin/sh".toList).toList := hlines ▸ plain_join hbreaks
  have hresult := joinScript_result _ hsplit fun l hl => (List.mem_singleton.mp hl ▸ hfirst)
  rw [List.singleton_append] at hresult
  refine ⟨(shell_injection shellYaml_plain).1 "ssh://10.0.0.1" _ _ hresult (.inl ⟨hplain, ?_⟩),
    (shell_injection shellYaml_plain).1 "ssh://10.0.0.1" _ _ ?_ (.inr stillScript_leftAlone)⟩
  · rw [hsplit]
    refine .line hfirst (.heredoc joinStart_parsed hbody (fun _ text ht => ?_) (.line hend .nil))
    cases shellYaml_patch.symm.trans ht
  · rw [injectProviderIdIntoShellBootstrapData,
      show splitlines stillScript.toList = [] :: [] :: ["kubeadm join".toList] by decide +kernel]
    rfl

/-- A form feed in a first line is a line break for Python only. -/
theorem shell_injection_formFeed :
    injectProviderIdIntoShellBootstrapData shellYaml (joinScript ['\x0c']) "ssh://10.0.0.1" =
        .ok (String.ofList (join ([] :: [] :: joinOutput)), true) ∧
      ¬ Injected (fun text => patchProviderIdInKubeadmYaml shellYaml text "ssh://10.0.0.1")
        (joinScript ['\x0c']) (String.ofList (join ([] :: [] :: joinOutput))) true := by
  have hchars : (joinScript ['\x0c']).toList = '\x0c' :: '\n' :: join joinLines := by
    rw [joinScript, String.toList_ofList]
    rfl
  constructor
  · refine joinScript_result [[], []] ?_ (by decide)
    rw [hchars, splitlines_cons (by decide), splitlines_cons (by decide), splitlines_joinLines]
    rfl
  · rintro ⟨⟨out, hs, hr⟩, -⟩
    have hlines : shellLines (joinScript ['\x0c']).toList = ['\x0c'] :: shellLines (join joinLines) := by
      rw [hchars]
      simp [shellLines, List.splitOn_cons_eq_if_modifyHead]
    have hn : parseHeredocStart ['\x0c'] = none := by decide
    rw [hlines] at hs
    have hhead : (join out).head? = some '\x0c' := by
      generalize hl : ['\x0c'] :: shellLines (join joinLines) = lines at hs
      cases hs with
      | nil => cases hl
      | @line _ _ out' _ _ =>
        cases hl
        cases out' <;> rfl
      | unterminated hp _ =>
        cases hl
        simp [hn] at hp
      | heredoc hp _ _ _ =>
        obtain ⟨rfl, -⟩ := List.cons.inj hl
        simp [hn] at hp
    have hjoin := congrArg String.toList hr
    rw [String.toList_ofList, String.toList_ofList] at hjoin
    rw [← hjoin] at hhead
    simp [join] at hhead

end CapiSsh
