import CapiSsh.Diagnostics

/-!
# Diagnostics word by word

A command output as words with whitespace between them, some of them with the value of a
credential flag in it. A pattern with a flag of its own works on the words: it cuts a word
behind the flag and an equals sign, and it replaces the word that follows one ending in the
flag.
-/
namespace CapiSsh

open Substitution

/-- The text is at its end or goes on with whitespace. -/
def AtBreak (s : List Char) : Prop := ∀ c, s.head? = some c → isSpace c = true

def Spaceless (s : List Char) : Prop := ∀ c ∈ s, isSpace c = false

def Blank (s : List Char) : Prop := ∀ c ∈ s, isSpace c = true

section Spelling

variable {name s u rest gap found l : List Char} {c : Char}

theorem isSpace_toNat (h : isSpace c = true) :
    c.toNat ∈ [9, 10, 11, 12, 13, 28, 29, 30, 31, 32, 133, 160, 5760, 8192, 8193, 8194, 8195, 8196, 8197,
      8198, 8199, 8200, 8201, 8202, 8232, 8233, 8239, 8287, 12288] := by
  simp only [isSpace, Bool.or_eq_true, Bool.and_eq_true, decide_eq_true_eq, UInt32.le_iff_toNat_le,
    List.contains_eq_mem, List.mem_cons, List.not_mem_nil, or_false, ← UInt32.toNat_inj] at h
  have hv : c.val.toNat = c.toNat := rfl
  simp only [List.mem_cons, List.not_mem_nil, or_false]
  simp at h
  omega

theorem foldCase_space (h : isSpace c = true) : foldCase c = c := by
  have hn := isSpace_toNat h
  simp only [List.mem_cons, List.not_mem_nil, or_false] at hn
  have h₁ : ¬ c.toNat = 0x212A := by omega
  have h₂ : ¬ c.toNat = 0x17F := by omega
  have h₃ : ¬ (c.toNat = 0x130 ∨ c.toNat = 0x131) := by omega
  have h₄ : ¬ (65 ≤ c.toNat ∧ c.toNat ≤ 90) := by omega
  rw [foldCase, if_neg h₁, if_neg h₂, if_neg h₃, asciiLower, if_neg h₄]

theorem spelling_some (h : spelling name s = some (found, l)) :
    s = found ++ l ∧ found.map foldCase = name := by
  simp only [spelling] at h
  by_cases hs : (s.take name.length).map foldCase = name
  · rw [if_pos hs] at h
    cases h
    exact ⟨(List.take_append_drop _ _).symm, hs⟩
  · rw [if_neg hs] at h
    cases h

theorem spelling_append_self (h : found.map foldCase = name) :
    spelling name (found ++ l) = some (found, l) := by
  have hn : name.length = found.length := by rw [← h, List.length_map]
  simp [spelling, hn, h]

/-- No name reaches beyond a character that it does not have. -/
theorem spelling_append (h : ∀ c, rest.head? = some c → foldCase c ∉ name) :
    spelling name (u ++ rest) = (spelling name u).map fun p => (p.1, p.2 ++ rest) := by
  by_cases hn : name.length ≤ u.length
  · simp only [spelling, List.take_append_of_le_length hn, List.drop_append_of_le_length hn]
    by_cases hu : (u.take name.length).map foldCase = name
    · simp only [if_pos hu, Option.map_some]
    · simp only [if_neg hu, Option.map_none]
  · have hu : ¬ (u.take name.length).map foldCase = name := by
      intro hu
      have := congrArg List.length hu
      simp only [List.length_map, List.length_take] at this
      omega
    have hr : ¬ ((u ++ rest).take name.length).map foldCase = name := by
      intro hr
      cases rest with
      | nil => exact hu (by simpa using hr)
      | cons c rest =>
        refine h c rfl ?_
        rw [← hr]
        refine List.mem_map_of_mem ?_
        rw [List.take_append, List.mem_append]
        right
        obtain ⟨n, hn⟩ : ∃ n, name.length - u.length = n + 1 := ⟨name.length - u.length - 1, by omega⟩
        simp [hn]
    simp only [spelling, if_neg hu, if_neg hr, Option.map_none]

theorem spelling_break (hn : Spaceless name) (hr : AtBreak rest) :
    spelling name (u ++ rest) = (spelling name u).map fun p => (p.1, p.2 ++ rest) := by
  refine spelling_append fun c hc hm => ?_
  have hs := hr c hc
  rw [foldCase_space hs] at hm
  rw [hn c hm] at hs
  cases hs

theorem Spaceless.of_append (h : Spaceless (u ++ l)) : Spaceless u ∧ Spaceless l :=
  ⟨fun c hc => h c (List.mem_append_left l hc), fun c hc => h c (List.mem_append_right u hc)⟩

theorem Blank.atBreak (h : Blank gap) (hr : gap = [] → AtBreak rest) : AtBreak (gap ++ rest) := by
  cases gap with
  | nil => simpa using hr rfl
  | cons c gap =>
    intro d hd
    cases hd
    exact h c List.mem_cons_self

theorem takeWhile_word (hu : Spaceless u) (hr : AtBreak rest) :
    (u ++ rest).takeWhile (fun c => !isSpace c) = u := by
  induction u with
  | nil =>
    cases rest with
    | nil => rfl
    | cons c rest => simp [hr c rfl]
  | cons c u ih => simp [hu c List.mem_cons_self, ih fun d hd => hu d (List.mem_cons_of_mem c hd)]

theorem word_append (hu : Spaceless u) (hr : AtBreak rest) :
    word (u ++ rest) = if u = [] then none else some (u, rest) := by
  simp [word, takeWhile_word hu hr]

theorem takeWhile_blank (hg : Blank gap) (hu : Spaceless (u.take 1)) :
    (gap ++ u).takeWhile isSpace = gap := by
  induction gap with
  | nil =>
    cases u with
    | nil => rfl
    | cons c u => simp [hu c (by simp)]
  | cons c gap ih => simp [hg c List.mem_cons_self, ih fun d hd => hg d (List.mem_cons_of_mem c hd)]

theorem skipSpaces_blank (hg : Blank gap) (hu : Spaceless (u.take 1)) : skipSpaces (gap ++ u) = u := by
  induction gap with
  | nil =>
    cases u with
    | nil => rfl
    | cons c u => simp [skipSpaces, hu c (by simp)]
  | cons c gap ih =>
    have ih := ih fun d hd => hg d (List.mem_cons_of_mem c hd)
    simp only [skipSpaces] at ih ⊢
    simp [hg c List.mem_cons_self, ih]

theorem spaces_blank (hg : Blank gap) (hn : gap ≠ []) (hu : Spaceless (u.take 1)) :
    spaces (gap ++ u) = some u := by
  cases gap with
  | nil => exact absurd rfl hn
  | cons c gap =>
    have hs := skipSpaces_blank hg hu
    simp only [List.cons_append] at hs
    simp [spaces, hg c List.mem_cons_self, hs]

end Spelling

theorem word_some {s u rest : List Char} (h : word s = some (u, rest)) :
    u ≠ [] ∧ s = u ++ rest ∧ Spaceless u ∧ AtBreak rest := by
  simp only [word] at h
  by_cases hs : s.takeWhile (fun c => !isSpace c) = []
  · rw [if_pos hs] at h
    cases h
  · rw [if_neg hs] at h
    have hd : s.drop (s.takeWhile fun c => !isSpace c).length = s.dropWhile fun c => !isSpace c := by
      conv_lhs => rw [← List.takeWhile_append_dropWhile (p := fun c => !isSpace c) (l := s)]
      exact List.drop_left' (by rw [List.takeWhile_append_dropWhile])
    rw [hd] at h
    cases h
    refine ⟨hs, List.takeWhile_append_dropWhile.symm, fun c hc => ?_, fun c hc => ?_⟩
    · simpa using List.all_eq_true.mp List.all_takeWhile c hc
    · have := List.head?_dropWhile_not (fun c => !isSpace c) s
      rw [hc] at this
      simpa using this

theorem word_length {s u rest : List Char} (h : word s = some (u, rest)) : rest.length < s.length := by
  obtain ⟨hu, rfl, -⟩ := word_some h
  have := List.length_pos_iff.mpr hu
  simp only [List.length_append]
  omega

theorem spaces_length {s rest : List Char} (h : spaces s = some rest) : rest.length < s.length := by
  cases s with
  | nil => simp [spaces] at h
  | cons c s =>
    cases hc : isSpace c with
    | false => simp [spaces, hc] at h
    | true =>
      simp only [spaces, List.head?_cons, Option.map_some, hc, Option.getD_some, if_true, Option.some.injEq] at h
      subst h
      have := List.dropWhile_suffix isSpace (l := s)
      simp only [skipSpaces, List.dropWhile_cons, hc, if_true, List.length_cons]
      exact Nat.lt_succ_of_le this.length_le

theorem flagGap_length {s gap rest : List Char} (h : flagGap s = some (gap, rest)) : rest.length < s.length := by
  by_cases hs : s.head? = some '='
  · simp only [flagGap, if_pos hs] at h
    cases s with
    | nil => cases hs
    | cons c s =>
      cases h
      simp
  · simp only [flagGap, if_neg hs, Option.map_eq_some_iff] at h
    obtain ⟨l, hl, hg⟩ := h
    cases hg
    exact spaces_length hl

theorem flagHit_advances (flag : List Char) : Advances (flagHit flag) := by
  intro before s h hs
  simp only [flagHit, Option.bind_eq_bind, Option.bind_eq_some_iff] at hs
  obtain ⟨⟨name, l⟩, hn, ⟨gap, l'⟩, hg, ⟨value, rest⟩, hw, hs⟩ := hs
  cases hs
  have h₁ := congrArg List.length (spelling_some hn).1
  have h₂ := flagGap_length hg
  have h₃ := word_length hw
  simp only [List.length_append] at h₁ h₂ h₃ ⊢
  omega

theorem flagHit_blind (flag : List Char) : Blind (flagHit flag) := fun _ _ _ => rfl

/-- The pass of one flag's pattern over a text. -/
def pass (flag s : List Char) : List Char := rewrite (flagHit flag) none s

/-- What the pass of a flag leaves of a word, and whether it takes the next word. -/
def cutWord (flag : List Char) : List Char → List Char × Bool
  | [] => ([], false)
  | c :: w =>
    match spelling flag (c :: w) with
    | some (name, l) =>
      if l = [] then (c :: w, true)
      else if l.head? = some '=' ∧ l.tail ≠ [] then (name ++ '=' :: redacted, false)
      else (c :: (cutWord flag w).1, (cutWord flag w).2)
    | none => (c :: (cutWord flag w).1, (cutWord flag w).2)

section Pass

variable {flag u w rest gap name l s : List Char} {c : Char}

/-- What the patterns need of a flag. -/
structure IsFlag (flag : List Char) : Prop where
  spaceless : Spaceless flag
  equals : '=' ∉ flag
  dash : flag.head? = some '-'

theorem isFlag_flag (k : FlagPattern) : IsFlag k.flag := by
  have hs : k.flag.all (fun c => !isSpace c) = true := by cases k <;> decide +kernel
  constructor
  · intro c hc
    simpa using List.all_eq_true.mp hs c hc
  · cases k <;> decide +kernel
  · cases k <;> decide +kernel

theorem pass_none (h : flagHit flag none (c :: s) = none) : pass flag (c :: s) = c :: pass flag s := by
  rw [pass, rewrite_none h, pass, rewrite_blind (flagHit_blind flag)]

theorem pass_some {h : Hit Char} (hs : flagHit flag none s = some h) :
    pass flag s = h.put ++ pass flag h.rest := by
  rw [pass, rewrite_some (flagHit_advances flag) hs, pass, rewrite_blind (flagHit_blind flag)]

theorem flagHit_spelling (h : spelling flag s = none) : flagHit flag none s = none := by
  simp [flagHit, h]

theorem flagGap_equals : flagGap ('=' :: l) = some (['='], l) := by simp [flagGap]

theorem flagGap_other (hc : isSpace c = false) (he : c ≠ '=') : flagGap (c :: l) = none := by
  simp [flagGap, spaces, hc, he]

theorem flagGap_blank (hg : Blank gap) (hn : gap ≠ []) (hu : Spaceless (u.take 1)) :
    flagGap (gap ++ u) = some (gap, u) := by
  have he : (gap ++ u).head? ≠ some '=' := by
    cases gap with
    | nil => exact absurd rfl hn
    | cons c gap =>
      intro he
      cases he
      exact absurd (hg '=' List.mem_cons_self) (by decide)
  rw [flagGap, if_neg he, spaces_blank hg hn hu, Option.map_some, takeWhile_blank hg hu]

theorem spelling_head {d : Char} (hf : flag.head? = some d) (hc : foldCase c ≠ d) :
    spelling flag (c :: s) = none := by
  cases flag with
  | nil => cases hf
  | cons e flag =>
    cases hf
    simp [spelling, hc]

/-- A flag inside a word with no value behind an equals sign is left alone. -/
theorem flagHit_inside (hf : IsFlag flag) (hw : Spaceless (c :: w)) (hr : AtBreak rest)
    (hn : spelling flag (c :: w) = some (name, l)) (hl₀ : l ≠ [])
    (hl₁ : ¬ (l.head? = some '=' ∧ l.tail ≠ [])) : flagHit flag none (c :: (w ++ rest)) = none := by
  have hs := spelling_break (u := c :: w) hf.spaceless hr
  rw [hn, List.cons_append, Option.map_some] at hs
  have hl : Spaceless l := by
    rw [(spelling_some hn).1] at hw
    exact hw.of_append.2
  cases l with
  | nil => exact absurd rfl hl₀
  | cons d l' =>
    by_cases hd : d = '='
    · subst hd
      have hl' : l' = [] := by simpa using hl₁
      subst hl'
      have hv : word rest = none := by simpa using word_append (u := []) (by simp [Spaceless]) hr
      simp [flagHit, hs, flagGap_equals, hv]
    · simp [flagHit, hs, flagGap_other (hl d List.mem_cons_self) hd]

/-- A word that takes nothing is cut in its place. -/
theorem pass_word (hf : IsFlag flag) (hw : Spaceless w) (hr : AtBreak rest)
    (hc : (cutWord flag w).2 = false) : pass flag (w ++ rest) = (cutWord flag w).1 ++ pass flag rest := by
  induction w with
  | nil => rfl
  | cons c w ih =>
    have hw' : Spaceless w := fun d hd => hw d (List.mem_cons_of_mem c hd)
    have hs := spelling_break (u := c :: w) hf.spaceless hr
    rw [List.cons_append] at hs ⊢
    cases hn : spelling flag (c :: w) with
    | none =>
      rw [hn] at hs
      simp only [cutWord, hn] at hc ⊢
      rw [pass_none (flagHit_spelling hs), ih hw' hc]
      rfl
    | some p =>
      obtain ⟨name, l⟩ := p
      rw [hn] at hs
      simp only [Option.map_some] at hs
      have hl : Spaceless l := by
        have := (spelling_some hn).1
        rw [this] at hw
        exact hw.of_append.2
      simp only [cutWord, hn] at hc ⊢
      by_cases hl₀ : l = []
      · simp [hl₀] at hc
      rw [if_neg hl₀] at hc ⊢
      by_cases hl₁ : l.head? = some '=' ∧ l.tail ≠ []
      · rw [if_pos hl₁]
        obtain ⟨l', rfl⟩ : ∃ l', l = '=' :: l' := by
          cases l with
          | nil => exact absurd rfl hl₀
          | cons d l' =>
            cases hl₁.1
            exact ⟨l', rfl⟩
        have hv : word (l' ++ rest) = some (l', rest) := by
          rw [word_append (fun d hd => hl d (List.mem_cons_of_mem _ hd)) hr, if_neg (by simpa using hl₁)]
        have hh : flagHit flag none (c :: (w ++ rest)) =
            some ⟨name ++ ['='] ++ redacted, l'.getLast?, rest⟩ := by
          simp [flagHit, hs, flagGap_equals, hv]
        rw [pass_some hh]
        simp
      · rw [if_neg hl₁] at hc ⊢
        have hh := flagHit_inside hf hw hr hn hl₀ hl₁
        rw [pass_none hh, ih hw' hc]
        rfl

theorem cutWord_open (hc : (cutWord flag w).2 = true) : (cutWord flag w).1 = w := by
  induction w with
  | nil => rfl
  | cons c w ih =>
    cases hn : spelling flag (c :: w) with
    | none =>
      simp only [cutWord, hn] at hc ⊢
      rw [ih hc]
    | some p =>
      obtain ⟨name, l⟩ := p
      simp only [cutWord, hn] at hc ⊢
      by_cases hl₀ : l = []
      · rw [if_pos hl₀]
      rw [if_neg hl₀] at hc ⊢
      by_cases hl₁ : l.head? = some '=' ∧ l.tail ≠ []
      · simp [if_pos hl₁] at hc
      · rw [if_neg hl₁] at hc ⊢
        simp only at hc ⊢
        rw [ih hc]

theorem pass_blank (hf : IsFlag flag) (hg : Blank gap) : pass flag (gap ++ s) = gap ++ pass flag s := by
  refine rewrite_append (flagHit_blind flag) fun q hq hs => flagHit_spelling ?_
  cases q with
  | nil => exact absurd rfl hq
  | cons c q =>
    have hc := hg c (hs.subset List.mem_cons_self)
    refine spelling_head hf.dash ?_
    rw [foldCase_space hc]
    rintro rfl
    exact absurd hc (by decide)

theorem spelling_self (h : name.map foldCase = flag) : spelling flag name = some (name, []) := by
  have := spelling_append_self (l := []) h
  rwa [List.append_nil] at this

theorem spelling_short (h : s.length < flag.length) : spelling flag s = none := by
  cases hs : spelling flag s with
  | none => rfl
  | some p =>
    obtain ⟨name, l⟩ := p
    obtain ⟨hp, hq⟩ := spelling_some hs
    rw [hp, ← hq] at h
    simp only [List.length_append, List.length_map] at h
    omega

/-- Of a word that takes the next one the pass reaches the flag at its end. -/
theorem pass_reaches (hf : IsFlag flag) (hw : Spaceless w) (hr : AtBreak rest)
    (hc : (cutWord flag w).2 = true) :
    ∃ p name, w = p ++ name ∧ name.map foldCase = flag ∧
      pass flag (w ++ rest) = p ++ pass flag (name ++ rest) := by
  induction w with
  | nil => simp [cutWord] at hc
  | cons c w ih =>
    have hw' : Spaceless w := fun d hd => hw d (List.mem_cons_of_mem c hd)
    have hs := spelling_break (u := c :: w) hf.spaceless hr
    have hcopy : (cutWord flag w).2 = true → flagHit flag none (c :: (w ++ rest)) = none →
        ∃ p name, c :: w = p ++ name ∧ name.map foldCase = flag ∧
          pass flag (c :: w ++ rest) = p ++ pass flag (name ++ rest) := by
      intro hc hh
      obtain ⟨p, name, hp, hn, hpass⟩ := ih hw' hc
      refine ⟨c :: p, name, by rw [hp]; rfl, hn, ?_⟩
      rw [List.cons_append, pass_none hh, hpass]
      rfl
    cases hs₁ : spelling flag (c :: w) with
    | none =>
      rw [hs₁] at hs
      simp only [cutWord, hs₁] at hc
      exact hcopy hc (flagHit_spelling hs)
    | some p =>
      obtain ⟨name, l⟩ := p
      simp only [cutWord, hs₁] at hc
      by_cases hl₀ : l = []
      · subst hl₀
        obtain ⟨hn, hm⟩ := spelling_some hs₁
        refine ⟨[], name, by simpa using hn, hm, ?_⟩
        rw [hn, List.append_nil]
        rfl
      rw [if_neg hl₀] at hc
      by_cases hl₁ : l.head? = some '=' ∧ l.tail ≠ []
      · simp [if_pos hl₁] at hc
      · rw [if_neg hl₁] at hc
        exact hcopy hc (flagHit_inside hf hw hr hs₁ hl₀ hl₁)

/-- A word that ends in the flag takes the next one. -/
theorem pass_open (hf : IsFlag flag) (hw : Spaceless w) (hc : (cutWord flag w).2 = true)
    (hg : Blank gap) (hn : gap ≠ []) (hu : Spaceless u) (hu₀ : u ≠ []) (hr : AtBreak rest) :
    pass flag (w ++ (gap ++ (u ++ rest))) = w ++ (gap ++ (redacted ++ pass flag rest)) := by
  have hu₁ : Spaceless ((u ++ rest).take 1) := by
    cases u with
    | nil => exact absurd rfl hu₀
    | cons c u =>
      intro d hd
      simp only [List.cons_append, List.take_succ_cons, List.take_zero, List.mem_singleton] at hd
      exact hd ▸ hu c List.mem_cons_self
  have hb : AtBreak (gap ++ (u ++ rest)) := hg.atBreak fun h => absurd h hn
  obtain ⟨p, name, rfl, hm, hp⟩ := pass_reaches hf hw hb hc
  have hv : word (u ++ rest) = some (u, rest) := by rw [word_append hu hr, if_neg hu₀]
  have hh : flagHit flag none (name ++ (gap ++ (u ++ rest))) =
      some ⟨name ++ gap ++ redacted, u.getLast?, rest⟩ := by
    simp only [flagHit, spelling_append_self hm, Option.bind_eq_bind, Option.bind_some,
      flagGap_blank hg hn hu₁, hv]
  rw [hp, pass_some hh]
  simp

/-- The last word of a text takes nothing. -/
theorem pass_last (hf : IsFlag flag) (hw : Spaceless w) (hc : (cutWord flag w).2 = true) (hg : Blank gap) :
    pass flag (w ++ gap) = w ++ gap := by
  have hb : AtBreak gap := fun c hc => hg c (List.mem_of_mem_head? hc)
  obtain ⟨p, name, rfl, hm, hp⟩ := pass_reaches hf hw hb hc
  have hcopy : pass flag (name ++ gap) = name ++ pass flag gap := by
    refine rewrite_append (flagHit_blind flag) fun q hq hs => ?_
    by_cases hl : q.length < flag.length
    · refine flagHit_spelling ?_
      rw [spelling_break hf.spaceless hb, spelling_short hl]
      rfl
    · have hq : q = name := by
        refine hs.eq_of_length_le ?_
        rw [← hm, List.length_map] at hl
        omega
      subst hq
      have hgap : flagGap gap = none ∨ flagGap gap = some (gap, []) := by
        by_cases hg₀ : gap = []
        · subst hg₀
          exact Or.inl (by simp [flagGap, spaces])
        · right
          simpa using flagGap_blank (u := []) hg hg₀ (by simp [Spaceless])
      have hv : word [] = none := by simp [word]
      cases hgap with
      | inl h => simp [flagHit, spelling_append_self hm, h]
      | inr h => simp [flagHit, spelling_append_self hm, h, hv]
  have hblank : pass flag gap = gap := by simpa [pass] using pass_blank (s := []) hf hg
  rw [hp, hcopy, hblank, List.append_assoc]

end Pass

end CapiSsh
