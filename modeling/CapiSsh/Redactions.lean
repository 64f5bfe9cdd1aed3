import CapiSsh.SettingPass

/-!
# What the redaction of diagnostics hides

The sanitized text of an output says nothing about the values of its credential flags
exactly when every value that stands alone is taken by the pattern of its flag. A value
behind an equals sign is always hidden; one that follows `--discovery-token` or
`--tls-bootstrap-token`, or a flag that is itself taken for a value, never is.
-/
namespace CapiSsh

open Substitution

variable {ι : Type}

section Words

variable {flag w text : List Char} {v v' : ι → CredentialValue} {words : OutputWords ι} {taken b b' : Bool}
  {i : ι} {gap : List Char}

/-- Of the fixed words only those that end in no sign stand before a value alone. -/
def Led : Bool → OutputWords ι → Prop
  | _, [] => True
  | _, (.plain text, _) :: r => Led (!isAssignment text.getLast?) r
  | _, (.assigned _ _, _) :: r => Led false r
  | b, (.value _, _) :: r => b = true ∧ Led false r

theorem credentialFlags_ok : ∀ flag ∈ credentialFlags, IsFlag flag ∧ ':' ∉ flag := by
  have h : credentialFlags.all (fun flag => flag.all (fun c => !isSpace c) && decide ('=' ∉ flag) &&
      decide (flag.head? = some '-') && decide (':' ∉ flag)) = true := by simp [credentialFlags, isSpace]
  intro flag hf
  have := List.all_eq_true.mp h flag hf
  simp only [Bool.and_eq_true, decide_eq_true_eq] at this
  exact ⟨⟨fun c hc => by simpa using List.all_eq_true.mp this.1.1.1 c hc, this.1.1.2, this.1.2⟩, this.2⟩

theorem flag_credential (k : FlagPattern) : k.flag ∈ credentialFlags := by
  cases k <;> decide

theorem IsFlag.ne_nil (hf : IsFlag flag) : flag ≠ [] := by
  rintro rfl
  cases hf.dash

/-- A word that ends in a flag ends in no sign. -/
theorem endsInFlag_last (h : endsInFlag w = true) : isAssignment w.getLast? = false := by
  obtain ⟨flag, hf, he⟩ := List.any_eq_true.mp h
  obtain ⟨hflag, hcolon⟩ := credentialFlags_ok flag hf
  cases hl : w.getLast? with
  | none => rfl
  | some d =>
    have hm := endsIn_last he hflag.ne_nil hl
    cases hs : isAssignment (some d) with
    | false => rfl
    | true =>
      simp only [isAssignment, Bool.or_eq_true, beq_iff_eq, Option.some.injEq] at hs
      rcases hs with rfl | rfl
      · exact absurd hm hcolon
      · exact absurd hm hflag.equals

theorem FollowsFlags.led {before : Option (List Char)} (h : FollowsFlags before words)
    (hb : before.any endsInFlag = true → b = true) : Led b words := by
  induction words generalizing before b with
  | nil => trivial
  | cons p r ih =>
    obtain ⟨w, gap⟩ := p
    cases w with
    | plain text =>
      refine ih h fun he => ?_
      rw [endsInFlag_last (by simpa using he)]
      rfl
    | assigned text i => exact ih h.2 (by simp)
    | value i => exact ⟨hb h.1, ih h.2 (by simp)⟩

theorem Led.mono (h : Led b words) (hb : b = true → b' = true) : Led b' words := by
  cases words with
  | nil => trivial
  | cons p r =>
    obtain ⟨w, gap⟩ := p
    cases w with
    | plain text => exact h
    | assigned text i => exact h
    | value i => exact ⟨hb h.1, h.2⟩

/-- What the words after the first say of it. -/
theorem Led.tail {w : OutputWord ι} (h : Led b ((w, gap) :: words)) : Led true words := by
  cases w with
  | plain text => exact Led.mono h fun _ => rfl
  | assigned text i => exact Led.mono h fun _ => rfl
  | value i => exact h.2.mono fun _ => rfl

theorem Led.passWords (hf : IsFlag flag) (h : Led b words) (hb : b = true → b' = true) :
    Led b' (passWords flag taken words) := by
  induction words generalizing b b' taken with
  | nil => trivial
  | cons p r ih =>
    obtain ⟨w, gap⟩ := p
    rw [CapiSsh.passWords]
    cases w.cut_cases hf taken with
    | inl hc =>
      cases hw : (w.cut flag taken).1 with
      | plain text =>
        have hs := hc.2.1
        rw [hw] at hs
        refine ih h.tail fun _ => ?_
        rw [hs]
        rfl
      | assigned text i =>
        cases w with
        | assigned text i => exact ih h id
        | plain text => cases taken <;> simp [OutputWord.cut] at hw
        | value i => cases taken <;> simp [OutputWord.cut] at hw
      | value i =>
        have hs := hc.2.1
        rw [hw] at hs
        exact hs.elim
    | inr hc =>
      rw [hc.2]
      cases w with
      | plain text => exact ih h id
      | assigned text i => exact ih h id
      | value i => exact ⟨hb h.1, ih h.2 id⟩

/-- A text with an equals sign and a value is left alone only if its flag has no pattern. -/
theorem passWords_assigned (h : (.assigned text i, gap) ∈ passWords flag taken words) :
    (.assigned text i, gap) ∈ words ∧ cutAssigned flag text = none := by
  induction words generalizing taken with
  | nil => cases h
  | cons p r ih =>
    obtain ⟨w, gap'⟩ := p
    rw [CapiSsh.passWords] at h
    cases List.mem_cons.mp h with
    | inr h => exact ⟨List.mem_cons_of_mem _ (ih h).1, (ih h).2⟩
    | inl h =>
      injection h with hw hg
      subst hg
      cases taken with
      | true => cases hw
      | false =>
        cases w with
        | plain text => cases hw
        | value i => cases hw
        | assigned text' i' =>
          cases hq : cutAssigned flag text' with
          | some q => simp [OutputWord.cut, hq] at hw
          | none =>
            simp only [OutputWord.cut, hq, Bool.false_eq_true, if_false, Option.map_none, Option.getD_none,
              OutputWord.assigned.injEq] at hw
            obtain ⟨rfl, rfl⟩ := hw
            exact ⟨List.mem_cons_self, hq⟩

theorem cutAssigned_endsIn (hn : flag ≠ []) (h : endsIn flag w = true) : cutAssigned flag w ≠ none := by
  induction w with
  | nil => simp [endsIn, hn.symm] at h
  | cons c w ih =>
    rw [endsIn_cons, Bool.or_eq_true, decide_eq_true_eq] at h
    cases h with
    | inl h => simp [cutAssigned, spelling_self h]
    | inr h =>
      have hw := ih h
      cases hs : spelling flag (c :: w) with
      | none => simpa [cutAssigned, hs] using hw
      | some p =>
        simp only [cutAssigned, hs]
        by_cases hp : p.2.head?.getD '=' = '='
        · simp [hp]
        · simpa [hp] using hw

theorem endsIn_suffix (h : endsIn flag w = true) : ∃ l, l <:+ w ∧ l.map foldCase = flag := by
  induction w with
  | nil => exact ⟨[], List.suffix_refl _, by simpa [endsIn] using h⟩
  | cons c w ih =>
    rw [endsIn_cons, Bool.or_eq_true, decide_eq_true_eq] at h
    cases h with
    | inl h => exact ⟨c :: w, List.suffix_refl _, h⟩
    | inr h =>
      obtain ⟨l, hl, hm⟩ := ih h
      exact ⟨l, hl.trans (List.suffix_cons c w), hm⟩

theorem foldCase_dash {c : Char} (h : foldCase c = '-') : c = '-' := by
  simp only [foldCase] at h
  by_cases h₁ : c.toNat = 0x212A
  · rw [if_pos h₁] at h
    exact absurd h (by decide)
  by_cases h₂ : c.toNat = 0x17F
  · rw [if_neg h₁, if_pos h₂] at h
    exact absurd h (by decide)
  by_cases h₃ : c.toNat = 0x130 ∨ c.toNat = 0x131
  · rw [if_neg h₁, if_neg h₂, if_pos h₃] at h
    exact absurd h (by decide)
  rw [if_neg h₁, if_neg h₂, if_neg h₃, asciiLower] at h
  by_cases h₄ : 65 ≤ c.toNat ∧ c.toNat ≤ 90
  · rw [if_pos h₄] at h
    have hn : ∀ n : Nat, n < 26 → Char.ofNat (n + 97) ≠ '-' := by decide
    refine absurd ?_ (hn (c.toNat - 65) (by omega))
    rwa [show c.toNat - 65 + 97 = c.toNat + 32 by omega]
  · rwa [if_neg h₄] at h

/-- The flags without a pattern end in `-token`. -/
theorem endsInFlag_token {before : Option Char} (h : endsInFlag text = true)
    (hk : ∀ k : FlagPattern, cutAssigned k.flag text = none) : Guards before text := by
  obtain ⟨flag, hf, he⟩ := List.any_eq_true.mp h
  have hno (k : FlagPattern) : flag ≠ k.flag := by
    rintro rfl
    exact cutAssigned_endsIn (isFlag_flag k).ne_nil he (hk k)
  have htail : ∃ p, flag = p ++ '-' :: "token".toList := by
    simp only [credentialFlags, List.mem_cons, List.not_mem_nil, or_false] at hf
    rcases hf with rfl | rfl | rfl | rfl | rfl
    · exact absurd rfl (hno .token)
    · exact ⟨"--discovery".toList, by simp⟩
    · exact ⟨"--tls-bootstrap".toList, by simp⟩
    · exact absurd rfl (hno .certificateKey)
    · exact absurd rfl (hno .caCertHash)
  obtain ⟨p, rfl⟩ := htail
  obtain ⟨l, hl, hm⟩ := endsIn_suffix he
  obtain ⟨l₁, l₂, rfl, -, h₂⟩ := List.map_eq_append_iff.mp hm
  obtain ⟨c, k, rfl, hc, hk'⟩ := List.map_eq_cons_iff.mp h₂
  rw [foldCase_dash hc] at hl
  refine ⟨k, hk', ?_⟩
  exact ((List.suffix_append l₁ _).trans hl).trans (List.suffix_append _ _)

theorem Twin.prepend {before : Option Char} {s s' : List Char} (h : Twin none s s') (l : List Char) :
    Twin before (l ++ s) (l ++ s') := by
  cases h with
  | same => exact .same _ _
  | split guards hb hb' hs hs' ht ht' next =>
    rw [← List.append_assoc, ← List.append_assoc]
    obtain ⟨k, hk, hg⟩ := guards
    refine .split ⟨k, hk, ?_⟩ hb hb' hs hs' ht ht' next
    rw [← List.append_assoc]
    exact hg.trans (List.suffix_append _ _)

theorem fillWords_twin (hs : Spaced words) (hv : ∀ p ∈ words, p.1.isValue = false)
    (hg : ∀ text i gap, (.assigned text i, gap) ∈ words → Guards none text) :
    Twin none (fillWords v words) (fillWords v' words) := by
  induction words with
  | nil => exact .same _ _
  | cons p r ih =>
    obtain ⟨w, gap⟩ := p
    obtain ⟨-, hb, hr, hs⟩ := hs
    have ih := ih hs (fun p hp => hv p (List.mem_cons_of_mem _ hp))
      fun text i gap hp => hg text i gap (List.mem_cons_of_mem _ hp)
    cases w with
    | value i =>
      have := hv _ List.mem_cons_self
      cases this
    | plain text => exact (ih.prepend gap).prepend text
    | assigned text i =>
      simp only [fillWords, OutputWord.fill, List.append_assoc, List.cons_append]
      exact .split (hg text i gap List.mem_cons_self) (v i).nonempty (v' i).nonempty (v i).spaceless
        (v' i).spaceless (fillWords_atBreak hb hr) (fillWords_atBreak hb hr) (ih.prepend gap)

theorem leads_word {p text : List Char} (ht : text ≠ []) (hs : Spaceless text)
    (he : (!isAssignment text.getLast?) = true) : Leads (p ++ text) := by
  intro e h
  rw [List.getLast?_append_of_ne_nil _ ht] at h
  rw [h, Bool.not_eq_true'] at he
  exact ⟨hs e (List.mem_of_getLast? h), he⟩

/-- A value alone stands behind a blank, and before it a word that ends in no sign. -/
theorem fillWords_alone (hs : Spaced words) (hl : Led b words) (hv : ∃ p ∈ words, p.1.isValue = true)
    (p g : List Char) (hb : b = true → Leads p ∧ g ≠ []) (hg : Blank g) :
    ∃ q gap i rest, Leads q ∧ Blank gap ∧ gap ≠ [] ∧
      p ++ (g ++ fillWords v words) = q ++ (gap ++ ((v i).text ++ rest)) := by
  induction words generalizing b p g with
  | nil =>
    obtain ⟨p, hp, -⟩ := hv
    cases hp
  | cons x r ih =>
    obtain ⟨w, gap⟩ := x
    obtain ⟨hw, hgap, hr, hs⟩ := hs
    cases hval : w.isValue with
    | true =>
      cases w with
      | value i => exact ⟨p, g, i, _, (hb hl.1).1, hg, (hb hl.1).2, rfl⟩
      | plain text => cases hval
      | assigned text i => cases hval
    | false =>
      obtain ⟨x, hx, hx'⟩ := hv
      have hxr : x ∈ r := by
        cases List.mem_cons.mp hx with
        | inr h => exact h
        | inl h =>
          rw [h, hval] at hx'
          cases hx'
      have hgap' : gap ≠ [] := by
        intro h
        rw [hr h] at hxr
        cases hxr
      have hp : p ++ (g ++ fillWords v ((w, gap) :: r)) = p ++ g ++ w.fill v ++ (gap ++ fillWords v r) := by
        simp [fillWords]
      rw [hp]
      cases w with
      | value i => cases hval
      | plain text =>
        exact ih hs hl ⟨x, hxr, hx'⟩ _ _ (fun he => ⟨leads_word hw.1 hw.2 he, hgap'⟩) hgap
      | assigned text i => exact ih hs hl ⟨x, hxr, hx'⟩ _ _ (fun he => by cases he) hgap

end Words

def nonBlank (s : List Char) : List Char := s.filter fun c => !isSpace c

theorem nonBlank_blank {s : List Char} (h : Blank s) : nonBlank s = [] := by
  simpa [nonBlank, Blank] using h

theorem gapHit_advances : Advances gapHit := by
  intro before s h hs
  obtain ⟨rest, hr, rfl⟩ := Option.map_eq_some_iff.mp hs
  exact spaces_length hr

/-- Only blanks are lost where whitespace is drawn together. -/
theorem nonBlank_collapse (before : Option Char) (s : List Char) :
    nonBlank (rewrite gapHit before s) = nonBlank s := by
  induction hn : s.length using Nat.strongRecOn generalizing before s with
  | ind n ih =>
    cases s with
    | nil => rfl
    | cons c s =>
      cases hs : gapHit before (c :: s) with
      | none =>
        have hc : isSpace c = false := by
          cases hc : isSpace c with
          | false => rfl
          | true => simp [gapHit, spaces, hc] at hs
        have := ih s.length (by simp [← hn]) (some c) s rfl
        rw [rewrite_none hs]
        simp only [nonBlank, List.filter_cons, hc] at this ⊢
        simp [this]
      | some h =>
        have hl := gapHit_advances _ _ _ hs
        rw [rewrite_some gapHit_advances hs]
        obtain ⟨rest, hr, rfl⟩ := Option.map_eq_some_iff.mp hs
        have hrest : rest = skipSpaces (c :: s) := by
          simp only [spaces] at hr
          by_cases hc : isSpace c = true
          · simpa [hc, eq_comm] using hr
          · simp [hc] at hr
        obtain ⟨gap, hg, hgap⟩ := skipSpaces_eq (c :: s)
        have := ih rest.length (hn ▸ hl) ((c :: s).takeWhile isSpace).getLast? rest rfl
        have hblank := nonBlank_blank hg
        rw [← hrest] at hgap
        simp only [nonBlank, List.filter_append] at this hblank ⊢
        rw [this, hgap, List.filter_append, hblank]
        simp [isSpace]

theorem nonBlank_skip (s : List Char) : nonBlank (s.dropWhile isSpace) = nonBlank s := by
  obtain ⟨gap, hg, hs⟩ := skipSpaces_eq s
  conv_rhs => rw [hs]
  have := nonBlank_blank hg
  simp only [nonBlank, List.filter_append] at this ⊢
  rw [this]
  rfl

theorem nonBlank_strip (s : List Char) : nonBlank (stripLine s) = nonBlank s := by
  have hrev (s : List Char) : nonBlank s.reverse = (nonBlank s).reverse := by simp [nonBlank]
  rw [stripLine, hrev, nonBlank_skip, hrev, List.reverse_reverse, nonBlank_skip]

section Output

variable {wide : Char → Bool}

/-- The words after the passes of the three flags. -/
def CommandOutput.settled (T : CommandOutput ι) : OutputWords ι := settledFrom (fun _ => false) T.words

theorem CommandOutput.settled_spaced (T : CommandOutput ι) : Spaced T.settled :=
  (((T.spaced.passWords (isFlag_flag .token)).passWords (isFlag_flag .certificateKey)).passWords
    (isFlag_flag .caCertHash))

theorem CommandOutput.sanitize_fill (T : CommandOutput ι) (v : ι → CredentialValue) :
    sanitizeBootstrapDiagnosticText wide (T.fill v) =
      stripLine (rewrite gapHit none (rewrite (settingsHit wide) none (T.lead ++ fillWords v T.settled))) := by
  have hp (k : FlagPattern) (words : OutputWords ι) (hs : Spaced words) :
      rewrite (flagHit k.flag) none (T.lead ++ fillWords v words) =
        T.lead ++ fillWords v (passWords k.flag false words) := by
    rw [← pass_fillWords (isFlag_flag k) (flag_credential k) words hs]
    exact pass_blank (isFlag_flag k) T.blank
  have h₁ : Spaced (passWords FlagPattern.token.flag false T.words) :=
    T.spaced.passWords (isFlag_flag .token)
  have h₂ : Spaced (passWords FlagPattern.certificateKey.flag false
      (passWords FlagPattern.token.flag false T.words)) := h₁.passWords (isFlag_flag .certificateKey)
  simp only [sanitizeBootstrapDiagnosticText, bootstrapDiagnosticRedactions, List.foldl_cons, List.foldl_nil,
    CommandOutput.fill]
  rw [hp .token _ T.spaced, hp .certificateKey _ h₁, hp .caCertHash _ h₂]
  rfl

theorem CommandOutput.covered_iff (T : CommandOutput ι) :
    (∀ p ∈ T.settled, p.1.isValue = false) ↔ T.Covered := settledFrom_covered T.words []

theorem FollowsFlags.assigned {before : Option (List Char)} {words : OutputWords ι} {text gap : List Char} {i : ι}
    (h : FollowsFlags before words) (hm : (.assigned text i, gap) ∈ words) : endsInFlag text = true := by
  induction words generalizing before with
  | nil => cases hm
  | cons p r ih =>
    obtain ⟨w, gap'⟩ := p
    cases List.mem_cons.mp hm with
    | inl he =>
      injection he with hw hg
      subst hw
      exact h.1
    | inr hr =>
      cases w with
      | plain text => exact ih h hr
      | assigned text i => exact ih h.2 hr
      | value i => exact ih h.2 hr

theorem CommandOutput.settled_guards (T : CommandOutput ι) (text : List Char) (i : ι) (gap : List Char)
    (h : (.assigned text i, gap) ∈ T.settled) : Guards none text := by
  obtain ⟨h, h₃⟩ := passWords_assigned h
  obtain ⟨h, h₂⟩ := passWords_assigned h
  obtain ⟨h, h₁⟩ := passWords_assigned h
  refine endsInFlag_token (T.flagged.assigned h) fun k => ?_
  cases k with
  | token => exact h₁
  | certificateKey => exact h₂
  | caCertHash => exact h₃

/-- Where all values are taken the sanitized text does not depend on them. -/
theorem CommandOutput.Covered.sanitize {T : CommandOutput ι} (h : T.Covered) (v v' : ι → CredentialValue) :
    sanitizeBootstrapDiagnosticText wide (T.fill v) = sanitizeBootstrapDiagnosticText wide (T.fill v') := by
  have hw : Twin none (fillWords v T.settled) (fillWords v' T.settled) :=
    fillWords_twin T.settled_spaced (T.covered_iff.mpr h) T.settled_guards
  rw [T.sanitize_fill, T.sanitize_fill, (hw.prepend T.lead).rewrite]

/-- A value that no flag and no setting is spelled with. -/
def plainValue (n : Nat) : CredentialValue where
  text := List.replicate (n + 1) 'x'
  nonempty := by simp
  spaceless := fun c hc => by
    rw [List.eq_of_mem_replicate hc]
    decide
  flagless := fun flag hf => by
    have hflag := (credentialFlags_ok flag hf).1
    have hn : spelling flag [] = none := spelling_short (List.length_pos_iff.mpr hflag.ne_nil)
    induction n + 1 with
    | zero => simp [mentions, hn]
    | succ n ih =>
      have hx : spelling flag ('x' :: List.replicate n 'x') = none := spelling_head hflag.dash (by decide)
      simp only [mentions, List.replicate_succ] at ih ⊢
      simpa [hx] using ih

/-- A value that is not taken is as long in the sanitized text as it was. -/
theorem CommandOutput.sanitize_length {T : CommandOutput ι} (h : ¬ T.Covered) (n : Nat) :
    n < (sanitizeBootstrapDiagnosticText wide (T.fill fun _ => plainValue n)).length := by
  have hv : ∃ p ∈ T.settled, p.1.isValue = true := by
    by_contra hno
    refine h (T.covered_iff.mp fun p hp => ?_)
    cases hval : p.1.isValue with
    | false => rfl
    | true => exact absurd ⟨p, hp, hval⟩ hno
  have hl : Led false T.settled :=
    (((T.flagged.led (by simp)).passWords (isFlag_flag .token) id).passWords (isFlag_flag .certificateKey)
      id).passWords (isFlag_flag .caCertHash) id
  obtain ⟨q, gap, i, rest, hq, hg, hg₀, heq⟩ := fillWords_alone (v := fun _ => plainValue n)
    T.settled_spaced hl hv T.lead [] (by simp) (by simp [Blank])
  have hx : ∀ c ∈ (plainValue n).text, isSpace c = false ∧ isAssignment (some c) = false ∧
      ∀ name ∈ settingNames, name.head? ≠ some (foldCase c) := by
    intro c hc
    rw [List.eq_of_mem_replicate hc]
    have hnames : ∀ name ∈ settingNames, name.head? ≠ some (foldCase 'x') := by
      simp [settingNames]
      decide
    exact ⟨by decide, by decide, hnames⟩
  obtain ⟨s, s', hs⟩ : ∃ s s', rewrite (settingsHit wide) none (q ++ (gap ++ ((plainValue n).text ++ rest))) =
      s ++ ((plainValue n).text ++ s') := rewrite_alone hq hg hg₀ hx (plainValue n).nonempty
  rw [List.nil_append] at heq
  have hcount : (plainValue n).text.length ≤ (nonBlank (s ++ ((plainValue n).text ++ s'))).length := by
    have hz : nonBlank (plainValue n).text = (plainValue n).text := by
      simpa [nonBlank, List.filter_eq_self, Spaceless] using (plainValue n).spaceless
    simp only [nonBlank, List.filter_append] at hz ⊢
    rw [hz, List.length_append, List.length_append]
    omega
  rw [← hs, ← heq, ← nonBlank_collapse none, ← nonBlank_strip, ← T.sanitize_fill] at hcount
  have := List.length_filter_le (fun c => !isSpace c)
    (sanitizeBootstrapDiagnosticText wide (T.fill fun _ => plainValue n))
  have hlen : (plainValue n).text.length = n + 1 := List.length_replicate
  rw [hlen] at hcount
  exact Nat.lt_of_lt_of_le hcount this

end Output

section Redaction

variable {wide : Char → Bool}

theorem sanitize_covered (T : CommandOutput ι) :
    (∀ v v', sanitizeBootstrapDiagnosticText wide (T.fill v) =
      sanitizeBootstrapDiagnosticText wide (T.fill v')) ↔ T.Covered := by
  constructor
  · intro h
    by_contra hc
    obtain ⟨n, hn⟩ : ∃ n, n = (sanitizeBootstrapDiagnosticText wide (T.fill fun _ => plainValue 0)).length :=
      ⟨_, rfl⟩
    have hlen : n < (sanitizeBootstrapDiagnosticText wide (T.fill fun _ => plainValue n)).length :=
      T.sanitize_length hc n
    rw [h (fun _ => plainValue n) fun _ => plainValue 0, ← hn] at hlen
    exact Nat.lt_irrefl n hlen
  · exact fun h v v' => h.sanitize v v'

/-- The result of a command, with values in both of its outputs. -/
def resultWith (exitCode : Int) (stderr stdout : CommandOutput ι) (v : ι → CredentialValue) : SSHResult :=
  ⟨exitCode, String.ofList (stdout.fill v), String.ofList (stderr.fill v)⟩

/-- The sanitized text hides the values exactly if all of them are taken, and then so do the
excerpt and, for one phase, the message. -/
theorem diagnostic_redaction (wide : Char → Bool) (stderr stdout : CommandOutput ι) (exitCode : Int)
    (bootstrapScript : List Char) :
    ((∀ v v', sanitizeBootstrapDiagnosticText wide (stderr.fill v) =
        sanitizeBootstrapDiagnosticText wide (stderr.fill v')) ↔ stderr.Covered) ∧
      (stderr.Covered → stdout.Covered → ∀ v v',
        excerptCommandOutput wide (resultWith exitCode stderr stdout v) =
            excerptCommandOutput wide (resultWith exitCode stderr stdout v') ∧
          classifyKubeletNotReady wide (resultWith exitCode stderr stdout v) =
            classifyKubeletNotReady wide (resultWith exitCode stderr stdout v') ∧
          (classifyBootstrapFailure wide (resultWith exitCode stderr stdout v) bootstrapScript =
              classifyBootstrapFailure wide (resultWith exitCode stderr stdout v') bootstrapScript ↔
            detectBootstrapFailurePhase wide (stderr.fill v) (stdout.fill v) bootstrapScript =
              detectBootstrapFailurePhase wide (stderr.fill v') (stdout.fill v') bootstrapScript)) := by
  refine ⟨sanitize_covered stderr, fun he ho v v' => ?_⟩
  have hexcerpt : excerptCommandOutput wide (resultWith exitCode stderr stdout v) =
      excerptCommandOutput wide (resultWith exitCode stderr stdout v') := by
    simp only [excerptCommandOutput, resultWith, String.toList_ofList, List.map_cons, List.map_nil]
    rw [he.sanitize v v', ho.sanitize v v']
  refine ⟨hexcerpt, ?_, ?_⟩
  · simp only [classifyKubeletNotReady, hexcerpt]
    rfl
  · simp only [classifyBootstrapFailure, hexcerpt, BootstrapFailure.mk.injEq]
    simp only [resultWith, String.toList_ofList]
    constructor
    · exact fun h => h.2.1
    · intro h
      rw [h]
      exact ⟨rfl, rfl, rfl, trivial⟩

def discoveryTokenWords : OutputWords Unit := [(.plain "--discovery-token".toList, [' ']), (.value (), [])]

theorem discoveryTokenWords_spaced : Spaced discoveryTokenWords := by
  have h : "--discovery-token".toList.all (fun c => !isSpace c) = true := by simp [isSpace]
  have hw : Spaceless "--discovery-token".toList := fun c hc => by simpa using List.all_eq_true.mp h c hc
  have hb : Blank [' '] := by
    intro c hc
    rw [List.mem_singleton.mp hc]
    decide
  exact ⟨⟨by simp, hw⟩, hb, by simp, trivial, by simp [Blank], by simp, trivial⟩

theorem discoveryTokenWords_flagged : FollowsFlags none discoveryTokenWords := ⟨by decide, trivial⟩

theorem blank_nil : Blank [] := by simp [Blank]

/-- The output of `kubeadm join` with a discovery token given as a word of its own. -/
def discoveryTokenOutput : CommandOutput Unit :=
  ⟨[], discoveryTokenWords, blank_nil, discoveryTokenWords_spaced, discoveryTokenWords_flagged⟩

/-- The token behind `--discovery-token` stays in the text. -/
theorem diagnostic_redaction_discoveryToken : ¬ ∀ v v',
    sanitizeBootstrapDiagnosticText (fun _ => false) (discoveryTokenOutput.fill v) =
      sanitizeBootstrapDiagnosticText (fun _ => false) (discoveryTokenOutput.fill v') := by
  intro h
  have h := h (fun _ => plainValue 0) (fun _ => plainValue 1)
  revert h
  decide

end Redaction

end CapiSsh
