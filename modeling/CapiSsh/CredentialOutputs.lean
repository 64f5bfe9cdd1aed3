import CapiSsh.DiagnosticWords

/-!
# Outputs with credentials in them

A command output in which values of kubeadm credential flags are left open, and which of
them the patterns of the single flags take: a word ends in a flag, and no pattern up to that
of the flag has cut the word or taken it for a value itself.
-/
namespace CapiSsh

open Substitution

def credentialFlags : List (List Char) :=
  ["--token".toList, "--discovery-token".toList, "--tls-bootstrap-token".toList,
    "--certificate-key".toList, "--discovery-token-ca-cert-hash".toList]

/-- Some place of the text spells the name. -/
def mentions (name text : List Char) : Bool := text.tails.any fun l => (spelling name l).isSome

def endsIn (name text : List Char) : Bool := text.tails.any fun l => l.map foldCase = name

def endsInFlag (text : List Char) : Bool := credentialFlags.any fun flag => endsIn flag text

/-- The text has the flag with an equals sign and a value behind it. -/
def assigns (flag text : List Char) : Bool := text.tails.any fun l =>
  (spelling flag l).any fun p => p.2.head? = some '=' ∧ p.2.tail ≠ []

structure CredentialValue where
  text : List Char
  nonempty : text ≠ []
  spaceless : Spaceless text
  flagless : ∀ flag ∈ credentialFlags, mentions flag text = false

/-- A fixed word, a text with an equals sign and a value behind it, or a value alone. -/
inductive OutputWord (ι : Type) where
  | plain (text : List Char)
  | assigned (text : List Char) (i : ι)
  | value (i : ι)
  deriving DecidableEq, Repr

/-- Words, each with the whitespace behind it. -/
abbrev OutputWords (ι : Type) := List (OutputWord ι × List Char)

variable {ι : Type}

def OutputWord.fill (v : ι → CredentialValue) : OutputWord ι → List Char
  | .plain text => text
  | .assigned text i => text ++ '=' :: (v i).text
  | .value i => (v i).text

def fillWords (v : ι → CredentialValue) : OutputWords ι → List Char
  | [] => []
  | (w, gap) :: r => w.fill v ++ (gap ++ fillWords v r)

def OutputWord.Proper : OutputWord ι → Prop
  | .plain text => text ≠ [] ∧ Spaceless text
  | .assigned text _ => Spaceless text
  | .value _ => True

/-- Only the last word may have no whitespace behind it. -/
def Spaced : OutputWords ι → Prop
  | [] => True
  | (w, gap) :: r => w.Proper ∧ Blank gap ∧ (gap = [] → r = []) ∧ Spaced r

/-- Every value stands behind a credential flag, in its word or as the next one. -/
def FollowsFlags : Option (List Char) → OutputWords ι → Prop
  | _, [] => True
  | _, (.plain text, _) :: r => FollowsFlags (some text) r
  | _, (.assigned text _, _) :: r => endsInFlag text = true ∧ FollowsFlags none r
  | before, (.value _, _) :: r => before.any endsInFlag = true ∧ FollowsFlags none r

structure CommandOutput (ι : Type) where
  lead : List Char
  words : OutputWords ι
  blank : Blank lead
  spaced : Spaced words
  flagged : FollowsFlags none words

/-- The output with values in its places. -/
def CommandOutput.fill (T : CommandOutput ι) (v : ι → CredentialValue) : List Char :=
  T.lead ++ fillWords v T.words

/-- The patterns before one. -/
def FlagPattern.earlier : FlagPattern → List FlagPattern
  | .token => []
  | .certificateKey => [.token]
  | .caCertHash => [.token, .certificateKey]

def FlagPattern.upTo (k : FlagPattern) : List FlagPattern := k.earlier ++ [k]

/-- The pattern takes the word that follows these, the nearest of them first. -/
def takesNext : FlagPattern → List (OutputWord ι) → Bool
  | k, .plain text :: before =>
    endsIn k.flag text && k.upTo.all fun j => !assigns j.flag text && !takesNext j before
  | _, _ => false

def OutputWord.isValue : OutputWord ι → Bool
  | .value _ => true
  | _ => false

def CoveredFrom (before : List (OutputWord ι)) : OutputWords ι → Prop
  | [] => True
  | (w, _) :: r => (w.isValue = true → ∃ k, takesNext k before = true) ∧ CoveredFrom (w :: before) r

/-- Every value that stands alone is taken by the pattern of its flag. -/
def CommandOutput.Covered (T : CommandOutput ι) : Prop := CoveredFrom [] T.words

/-- What the pass of a flag leaves of a text before an equals sign and a value. -/
def cutAssigned (flag : List Char) : List Char → Option (List Char)
  | [] => none
  | c :: w =>
    match spelling flag (c :: w) with
    | some (name, l) =>
      if l.head?.getD '=' = '=' then some (name ++ '=' :: redacted) else (cutAssigned flag w).map (c :: ·)
    | none => (cutAssigned flag w).map (c :: ·)

def OutputWord.cut (flag : List Char) (taken : Bool) : OutputWord ι → OutputWord ι × Bool
  | w =>
    if taken then (.plain redacted, false)
    else match w with
      | .plain text => (.plain (cutWord flag text).1, (cutWord flag text).2)
      | .assigned text i => (((cutAssigned flag text).map .plain).getD (.assigned text i), false)
      | .value i => (.value i, false)

def passWords (flag : List Char) : Bool → OutputWords ι → OutputWords ι
  | _, [] => []
  | taken, (w, gap) :: r => ((w.cut flag taken).1, gap) :: passWords flag (w.cut flag taken).2 r

section Cut

variable {flag w b text gap : List Char} {c : Char} {v : ι → CredentialValue} {r : OutputWords ι} {taken : Bool}

theorem mentions_tail (h : mentions flag (c :: w) = false) :
    spelling flag (c :: w) = none ∧ mentions flag w = false := by
  simpa [mentions] using h

/-- A word without the flag is left alone. -/
theorem cutWord_absent (h : mentions flag w = false) : cutWord flag w = (w, false) := by
  induction w with
  | nil => rfl
  | cons c w ih =>
    obtain ⟨hn, hw⟩ := mentions_tail h
    simp [cutWord, hn, ih hw]

theorem cutWord_assigned (text : List Char) (hf : IsFlag flag) (hb : b ≠ []) (hm : mentions flag b = false) :
    cutWord flag (text ++ '=' :: b) = ((cutAssigned flag text).getD (text ++ '=' :: b), false) := by
  induction text with
  | nil =>
    have hn : spelling flag ('=' :: b) = none := spelling_head hf.dash (by decide)
    simp [cutWord, cutAssigned, hn, cutWord_absent hm]
  | cons c w ih =>
    have hs : spelling flag (c :: w ++ '=' :: b) =
        (spelling flag (c :: w)).map fun p => (p.1, p.2 ++ '=' :: b) := by
      refine spelling_append fun d hd hmem => ?_
      cases hd
      exact hf.equals hmem
    rw [List.cons_append] at hs ⊢
    cases hn : spelling flag (c :: w) with
    | none =>
      rw [hn] at hs
      simp only [cutWord, cutAssigned, hn, hs, Option.map_none, ih]
      cases cutAssigned flag w <;> rfl
    | some p =>
      obtain ⟨name, l⟩ := p
      rw [hn] at hs
      simp only [cutWord, cutAssigned, hn, hs, Option.map_some, ih]
      cases l with
      | nil => simp [hb]
      | cons d l =>
        by_cases hd : d = '='
        · simp [hd]
        · simp only [List.cons_append, reduceCtorEq, if_false, List.head?_cons, Option.some.injEq, hd,
            false_and, Option.getD_some]
          cases cutAssigned flag w <;> rfl

theorem redacted_spaceless : Spaceless redacted := by
  have h : redacted.all (fun c => !isSpace c) = true := by
    delta redacted
    simp [isSpace]
  intro c hc
  simpa using List.all_eq_true.mp h c hc

/-- Cutting leaves no space in a word. -/
theorem cutWord_spaceless (flag : List Char) (hw : Spaceless w) : Spaceless (cutWord flag w).1 := by
  induction w with
  | nil => exact hw
  | cons c w ih =>
    have hcopy : Spaceless (c :: (cutWord flag w).1) := by
      intro d hd
      cases List.mem_cons.mp hd with
      | inl h => exact h ▸ hw c List.mem_cons_self
      | inr h => exact ih (fun e he => hw e (List.mem_cons_of_mem c he)) d h
    cases hn : spelling flag (c :: w) with
    | none => simpa [cutWord, hn] using hcopy
    | some p =>
      obtain ⟨name, l⟩ := p
      have hname : Spaceless name := by
        rw [(spelling_some hn).1] at hw
        exact hw.of_append.1
      simp only [cutWord, hn]
      by_cases hl₀ : l = []
      · simpa [if_pos hl₀] using hw
      rw [if_neg hl₀]
      by_cases hl₁ : l.head? = some '=' ∧ l.tail ≠ []
      · rw [if_pos hl₁]
        intro d hd
        cases List.mem_append.mp hd with
        | inl h => exact hname d h
        | inr h =>
          cases List.mem_cons.mp h with
          | inl h => exact h ▸ by decide
          | inr h => exact redacted_spaceless d h
      · rwa [if_neg hl₁]

theorem OutputWord.fill_proper {w : OutputWord ι} (h : w.Proper) : w.fill v ≠ [] ∧ Spaceless (w.fill v) := by
  cases w with
  | plain text => exact h
  | value i => exact ⟨(v i).nonempty, (v i).spaceless⟩
  | assigned text i =>
    refine ⟨by simp [OutputWord.fill], fun d hd => ?_⟩
    simp only [OutputWord.fill, List.mem_append, List.mem_cons] at hd
    obtain hd | rfl | hd := hd
    · exact h d hd
    · decide
    · exact (v i).spaceless d hd

theorem fillWords_atBreak (hg : Blank gap) (hr : gap = [] → r = []) : AtBreak (gap ++ fillWords v r) :=
  hg.atBreak fun h => by
    rw [hr h]
    intro c hc
    cases hc

/-- A word is cut the same whatever its value is. -/
theorem OutputWord.cut_fill (hf : IsFlag flag) (hv : flag ∈ credentialFlags) (w : OutputWord ι) :
    cutWord flag (w.fill v) = ((w.cut flag false).1.fill v, (w.cut flag false).2) := by
  cases w with
  | plain text => rfl
  | value i => simp [OutputWord.fill, OutputWord.cut, cutWord_absent ((v i).flagless flag hv)]
  | assigned text i =>
    simp only [OutputWord.fill, OutputWord.cut,
      cutWord_assigned text hf (v i).nonempty ((v i).flagless flag hv)]
    cases cutAssigned flag text <;> rfl

/-- A pass over the text is a pass over its words, whatever the secrets are. -/
theorem pass_fillWords (hf : IsFlag flag) (hv : flag ∈ credentialFlags) : (words : OutputWords ι) →
    Spaced words → pass flag (fillWords v words) = fillWords v (passWords flag false words)
  | [], _ => rfl
  | (w, gap) :: r, ⟨hw, hg, hr, hs⟩ => by
    have hc := OutputWord.cut_fill hf hv (v := v) w
    have hp := w.fill_proper (v := v) hw
    have hb := fillWords_atBreak (v := v) hg hr
    have ih := pass_fillWords hf hv r hs
    cases ho : (w.cut flag false).2 with
    | false =>
      have hc₂ : (cutWord flag (w.fill v)).2 = false := by rw [hc, ho]
      rw [fillWords, pass_word hf hp.2 hb hc₂, pass_blank hf hg, ih, hc]
      simp only [passWords, fillWords, ho]
    | true =>
      have hc₂ : (cutWord flag (w.fill v)).2 = true := by rw [hc, ho]
      have hsame : (w.cut flag false).1.fill v = w.fill v := by
        have := cutWord_open hc₂
        rwa [hc] at this
      cases r with
      | nil =>
        simp only [fillWords, passWords, List.append_nil, hsame]
        exact pass_last hf hp.2 hc₂ hg
      | cons p r =>
        obtain ⟨w', gap'⟩ := p
        obtain ⟨hw', hg', hr', hs'⟩ := hs
        have hp' := w'.fill_proper (v := v) hw'
        have ih' := pass_fillWords hf hv r hs'
        simp only [fillWords, passWords, hsame, ho]
        rw [pass_open hf hp.2 hc₂ hg (fun h => by cases hr h) hp'.2 hp'.1 (fillWords_atBreak hg' hr'),
          pass_blank hf hg', ih']
        simp [OutputWord.cut, OutputWord.fill]

theorem cutWord_ne_nil (flag : List Char) (h : w ≠ []) : (cutWord flag w).1 ≠ [] := by
  fun_cases cutWord flag w with
  | case1 => exact absurd rfl h
  | _ => simp

theorem IsFlag.unmentioned (hf : IsFlag flag) : mentions flag ['x'] = false := by
  have hx : spelling flag ['x'] = none := spelling_head hf.dash (by decide)
  have hn : spelling flag [] = none := by
    refine spelling_short ?_
    cases flag with
    | nil => cases hf.dash
    | cons c l => simp
  simp [mentions, hx, hn]

theorem OutputWord.cut_proper (hf : IsFlag flag) {w : OutputWord ι} (h : w.Proper) :
    (w.cut flag taken).1.Proper := by
  cases taken with
  | true => exact ⟨by delta redacted; simp, redacted_spaceless⟩
  | false =>
    cases w with
    | plain text => exact ⟨cutWord_ne_nil flag h.1, cutWord_spaceless flag h.2⟩
    | value i => trivial
    | assigned text i =>
      cases hq : cutAssigned flag text with
      | none => simpa [OutputWord.cut, hq] using h
      | some q =>
        -- any value behind the equals sign gives the same text
        have hc := cutWord_assigned text hf (by simp) hf.unmentioned
        rw [hq, Option.getD_some] at hc
        have hs : Spaceless (text ++ '=' :: ['x']) := by
          intro c hc
          simp only [List.mem_append, List.mem_cons, List.not_mem_nil, or_false] at hc
          obtain hc | rfl | rfl := hc
          · exact h c hc
          · decide
          · decide
        have h₁ := cutWord_ne_nil flag (w := text ++ '=' :: ['x']) (by simp)
        have h₂ := cutWord_spaceless flag hs
        rw [hc] at h₁ h₂
        simp only [OutputWord.cut, hq, Bool.false_eq_true, if_false, Option.map_some, Option.getD_some]
        exact ⟨h₁, h₂⟩

/-- The words stay apart. -/
theorem Spaced.passWords (hf : IsFlag flag) {words : OutputWords ι} (h : Spaced words) :
    Spaced (passWords flag taken words) := by
  induction words generalizing taken with
  | nil => exact h
  | cons p r ih =>
    obtain ⟨w, gap⟩ := p
    obtain ⟨hw, hg, hr, hs⟩ := h
    refine ⟨OutputWord.cut_proper hf hw, hg, fun h => ?_, ih hs⟩
    rw [hr h]
    rfl

end Cut

def OutputWord.endsIn (flag : List Char) : OutputWord ι → Bool
  | .plain text => CapiSsh.endsIn flag text
  | _ => false

/-- The pass of the flag cuts the word. -/
def OutputWord.assigns (flag : List Char) : OutputWord ι → Bool
  | .plain text => CapiSsh.assigns flag text
  | .assigned text _ => (cutAssigned flag text).isSome
  | .value _ => false

/-- A word that no pass takes a flag from any more. -/
def OutputWord.Sealed : OutputWord ι → Prop
  | .plain text => text.getLast? = some ']'
  | .assigned _ _ => True
  | .value _ => False

/-- What the passes of the three flags make of the words, where each of them may take the first. -/
def settledFrom (taken : FlagPattern → Bool) (words : OutputWords ι) : OutputWords ι :=
  passWords FlagPattern.caCertHash.flag (taken .caCertHash)
    (passWords FlagPattern.certificateKey.flag (taken .certificateKey)
      (passWords FlagPattern.token.flag (taken .token) words))

section Settled

variable {flag w text : List Char} {taken : Bool}

theorem redacted_last : redacted.getLast? = some ']' := by
  delta redacted
  simp

theorem sealed_append (s : List Char) : (s ++ '=' :: redacted).getLast? = some ']' := by
  rw [List.getLast?_append, List.getLast?_cons, redacted_last]
  rfl

theorem spelling_whole (h : spelling flag w = none) : ¬ w.map foldCase = flag := by
  intro hw
  rw [spelling_self hw] at h
  cases h

theorem assigns_cons (flag w : List Char) (c : Char) : assigns flag (c :: w) =
    ((spelling flag (c :: w)).any (fun p => p.2.head? = some '=' ∧ p.2.tail ≠ []) || assigns flag w) := by
  simp [assigns]

theorem endsIn_cons (flag w : List Char) (c : Char) :
    endsIn flag (c :: w) = (decide ((c :: w).map foldCase = flag) || endsIn flag w) := by
  simp [endsIn]

theorem assigns_short (h : w.length < flag.length) : assigns flag w = false := by
  induction w with
  | nil => simp [assigns, spelling_short h]
  | cons c w ih =>
    rw [assigns_cons, spelling_short h, ih (by simp only [List.length_cons] at h; omega)]
    rfl

/-- A word assigns the flag and is cut, or it stays. -/
theorem cutWord_cases (hf : IsFlag flag) (w : List Char) :
    assigns flag w = false ∧ cutWord flag w = (w, endsIn flag w) ∨
      assigns flag w = true ∧ (cutWord flag w).2 = false ∧ (cutWord flag w).1.getLast? = some ']' := by
  have hn : flag ≠ [] := by
    rintro rfl
    cases hf.dash
  induction w with
  | nil =>
    left
    refine ⟨assigns_short (List.length_pos_iff.mpr hn), ?_⟩
    simp [cutWord, endsIn, hn.symm]
  | cons c w ih =>
    rw [assigns_cons, endsIn_cons]
    -- a place that is copied changes nothing
    have hcopy : cutWord flag (c :: w) = (c :: (cutWord flag w).1, (cutWord flag w).2) →
        ¬ (c :: w).map foldCase = flag →
        assigns flag w = false ∧ cutWord flag (c :: w) =
            (c :: w, decide ((c :: w).map foldCase = flag) || endsIn flag w) ∨
          assigns flag w = true ∧ (cutWord flag (c :: w)).2 = false ∧
            (cutWord flag (c :: w)).1.getLast? = some ']' := by
      intro hc hw
      rw [hc]
      cases ih with
      | inl h =>
        left
        rw [decide_eq_false hw, h.2]
        exact ⟨h.1, rfl⟩
      | inr h =>
        right
        refine ⟨h.1, h.2.1, ?_⟩
        rw [List.getLast?_cons, h.2.2]
        rfl
    cases hs : spelling flag (c :: w) with
    | none => simpa using hcopy (by simp [cutWord, hs]) (spelling_whole hs)
    | some p =>
      obtain ⟨name, l⟩ := p
      obtain ⟨hp, hm⟩ := spelling_some hs
      by_cases hl₀ : l = []
      · subst hl₀
        rw [List.append_nil] at hp
        left
        have hw : w.length < flag.length := by
          rw [← hm, ← hp]
          simp
        rw [assigns_short hw, decide_eq_true (hp ▸ hm)]
        simp [cutWord, hs]
      by_cases hl₁ : l.head? = some '=' ∧ l.tail ≠ []
      · right
        simp only [cutWord, hs, if_neg hl₀, if_pos hl₁]
        exact ⟨by simp [hl₁], trivial, sealed_append name⟩
      · have hw : ¬ (c :: w).map foldCase = flag := by
          intro hw
          have hlen := congrArg List.length (hw.trans hm.symm)
          rw [hp, List.length_map, List.length_map, List.length_append] at hlen
          exact hl₀ (List.length_eq_zero_iff.mp (by omega))
        have := hcopy (by simp only [cutWord, hs, if_neg hl₀, if_neg hl₁]) hw
        simpa only [Option.any_some, hl₁, decide_false, Bool.false_or] using this

theorem cutAssigned_last {q : List Char} (h : cutAssigned flag w = some q) : q.getLast? = some ']' := by
  induction w generalizing q with
  | nil => cases h
  | cons c w ih =>
    have hcopy : (cutAssigned flag w).map (c :: ·) = some q → q.getLast? = some ']' := by
      intro h
      obtain ⟨q', hq, rfl⟩ := Option.map_eq_some_iff.mp h
      rw [List.getLast?_cons, ih hq]
      rfl
    cases hs : spelling flag (c :: w) with
    | none =>
      simp only [cutAssigned, hs] at h
      exact hcopy h
    | some p =>
      obtain ⟨name, l⟩ := p
      simp only [cutAssigned, hs] at h
      by_cases hl : l.head?.getD '=' = '='
      · rw [if_pos hl] at h
        cases h
        exact sealed_append name
      · rw [if_neg hl] at h
        exact hcopy h

/-- A pass seals a word or leaves it as it is. -/
theorem OutputWord.cut_cases (hf : IsFlag flag) (w : OutputWord ι) (taken : Bool) :
    (taken || w.assigns flag) = true ∧ (w.cut flag taken).1.Sealed ∧ (w.cut flag taken).2 = false ∨
      (taken || w.assigns flag) = false ∧ w.cut flag taken = (w, w.endsIn flag) := by
  cases taken with
  | true => exact Or.inl ⟨rfl, redacted_last, rfl⟩
  | false =>
    cases w with
    | value i => exact Or.inr ⟨rfl, rfl⟩
    | plain text =>
      cases cutWord_cases hf text with
      | inl h =>
        right
        simp [OutputWord.assigns, OutputWord.cut, OutputWord.endsIn, h]
      | inr h =>
        left
        simpa [OutputWord.assigns, OutputWord.cut, OutputWord.Sealed] using ⟨h.1, h.2.2, h.2.1⟩
    | assigned text i =>
      cases hq : cutAssigned flag text with
      | none =>
        right
        simp [OutputWord.assigns, OutputWord.cut, OutputWord.endsIn, hq]
      | some q =>
        left
        simp [OutputWord.assigns, OutputWord.cut, OutputWord.Sealed, hq, cutAssigned_last hq]

theorem foldCase_bracket : foldCase ']' = ']' := by decide

theorem endsIn_last {d : Char} (h : endsIn flag w = true) (hn : flag ≠ []) (hd : w.getLast? = some d) :
    foldCase d ∈ flag := by
  induction w with
  | nil => cases hd
  | cons c w ih =>
    rw [endsIn_cons, Bool.or_eq_true, decide_eq_true_eq] at h
    cases h with
    | inl h =>
      rw [← h]
      exact List.mem_map_of_mem (List.mem_of_getLast? hd)
    | inr h =>
      cases w with
      | nil => exact absurd h (by simp [endsIn, hn.symm])
      | cons e w => exact ih h (by simpa using hd)

/-- A word that was cut is not cut again. -/
theorem OutputWord.Sealed.cut (hf : IsFlag flag) (hb : ']' ∉ flag) {w : OutputWord ι} (hw : w.Sealed) :
    (w.cut flag taken).1.Sealed ∧ (w.cut flag taken).2 = false := by
  cases w.cut_cases hf taken with
  | inl h => exact h.2
  | inr h =>
    rw [h.2]
    refine ⟨hw, ?_⟩
    cases w with
    | value i => exact absurd hw id
    | assigned text i => rfl
    | plain text =>
      cases he : CapiSsh.endsIn flag text with
      | false => exact he
      | true =>
        have hn : flag ≠ [] := by
          rintro rfl
          cases hf.dash
        have := endsIn_last he hn hw
        rw [foldCase_bracket] at this
        exact absurd this hb

theorem OutputWord.Sealed.isValue {w : OutputWord ι} (hw : w.Sealed) : w.isValue = false := by
  cases w with
  | value i => exact absurd hw id
  | plain text => rfl
  | assigned text i => rfl

/-- What takes the next word is decided from the words before it. -/
theorem takesNext_cons (k : FlagPattern) (w : OutputWord ι) (before : List (OutputWord ι)) :
    takesNext k (w :: before) =
      (w.endsIn k.flag && k.upTo.all fun j => !(takesNext j before || w.assigns j.flag)) := by
  cases w with
  | plain text => simp [takesNext, OutputWord.endsIn, OutputWord.assigns, Bool.and_comm]
  | assigned text i => simp [takesNext, OutputWord.endsIn]
  | value i => simp [takesNext, OutputWord.endsIn]

theorem bracket_flag (k : FlagPattern) : ']' ∉ k.flag := by
  cases k <;> decide +kernel

/-- What the passes of some patterns leave of a word, where each of them may take it. -/
def OutputWord.cutAll (taken : FlagPattern → Bool) : List FlagPattern → OutputWord ι → OutputWord ι
  | [], w => w
  | k :: ks, w => cutAll taken ks (w.cut k.flag (taken k)).1

/-- Nor by any other pattern. -/
theorem OutputWord.Sealed.cutAll {f : FlagPattern → Bool} {ks : List FlagPattern} {w : OutputWord ι}
    (hw : w.Sealed) : (w.cutAll f ks).Sealed := by
  induction ks generalizing w with
  | nil => exact hw
  | cons k ks ih => exact ih (hw.cut (isFlag_flag k) (bracket_flag k)).1

theorem OutputWord.cutAll_cases (f : FlagPattern → Bool) (ks : List FlagPattern) (w : OutputWord ι) :
    (ks.any fun j => f j || w.assigns j.flag) = true ∧ (w.cutAll f ks).Sealed ∨
      (ks.any fun j => f j || w.assigns j.flag) = false ∧ w.cutAll f ks = w := by
  induction ks with
  | nil => exact Or.inr ⟨rfl, rfl⟩
  | cons k ks ih =>
    cases w.cut_cases (isFlag_flag k) (f k) with
    | inl h =>
      left
      refine ⟨by rw [List.any_cons, h.1, Bool.true_or], ?_⟩
      rw [OutputWord.cutAll]
      exact h.2.1.cutAll
    | inr h =>
      rw [List.any_cons, h.1, Bool.false_or, OutputWord.cutAll, h.2]
      exact ih

/-- A word takes the next one exactly when the words before it say so. -/
theorem OutputWord.cut_takesNext (w : OutputWord ι) (before : List (OutputWord ι)) (k : FlagPattern) :
    ((w.cutAll (fun j => takesNext j before) k.earlier).cut k.flag (takesNext k before)).2 = takesNext k (w :: before) := by
  have hup : (k.upTo.all fun j => !(takesNext j before || w.assigns j.flag)) =
      (!(k.earlier.any fun j => takesNext j before || w.assigns j.flag) &&
        !(takesNext k before || w.assigns k.flag)) := by
    cases k <;> simp [FlagPattern.upTo, FlagPattern.earlier, Bool.and_assoc]
  rw [takesNext_cons, hup]
  cases w.cutAll_cases (fun j => takesNext j before) k.earlier with
  | inl h =>
    rw [h.1, (h.2.cut (isFlag_flag k) (bracket_flag k)).2]
    simp
  | inr h =>
    rw [h.1, h.2]
    cases w.cut_cases (isFlag_flag k) (takesNext k before) with
    | inl hc => simp [hc.1, hc.2.2]
    | inr hc => simp [hc.1, hc.2]

theorem settledFrom_cons (w : OutputWord ι) (gap : List Char) (r : OutputWords ι)
    (before : List (OutputWord ι)) : settledFrom (fun k => takesNext k before) ((w, gap) :: r) =
      (w.cutAll (fun k => takesNext k before) [.token, .certificateKey, .caCertHash], gap) ::
        settledFrom (fun k => takesNext k (w :: before)) r := by
  simp only [settledFrom, passWords]
  rw [← w.cut_takesNext before .token, ← w.cut_takesNext before .certificateKey, ← w.cut_takesNext before .caCertHash]
  rfl

/-- The passes leave no value alone exactly when all of them are taken. -/
theorem settledFrom_covered (words : OutputWords ι) (before : List (OutputWord ι)) :
    (∀ p ∈ settledFrom (fun k => takesNext k before) words, p.1.isValue = false) ↔
      CoveredFrom before words := by
  induction words generalizing before with
  | nil => simp [settledFrom, passWords, CoveredFrom]
  | cons p r ih =>
    obtain ⟨w, gap⟩ := p
    rw [settledFrom_cons, List.forall_mem_cons, ih, CoveredFrom]
    refine and_congr_left fun _ => ?_
    cases w.cutAll_cases (fun k => takesNext k before) [.token, .certificateKey, .caCertHash] with
    | inl h =>
      obtain ⟨hany, hs⟩ := h
      refine ⟨fun _ hw => ?_, fun _ => hs.isValue⟩
      obtain ⟨k, -, hk⟩ := List.any_eq_true.mp hany
      cases w with
      | value i => exact ⟨k, by simpa [OutputWord.assigns] using hk⟩
      | plain text => cases hw
      | assigned text i => cases hw
    | inr h =>
      obtain ⟨hany, hs⟩ := h
      rw [hs]
      constructor
      · intro hw hv
        rw [hw] at hv
        cases hv
      · intro hw
        cases hv : w.isValue with
        | false => rfl
        | true =>
          obtain ⟨k, hk⟩ := hw hv
          have := List.any_eq_false.mp hany k (by cases k <;> simp)
          simp [hk] at this

end Settled

end CapiSsh
