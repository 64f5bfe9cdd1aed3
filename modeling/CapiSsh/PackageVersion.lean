import CapiSsh.Lib.ByteFiles
import CapiSsh.Lib.Hexadecimal

/-!
# Package versions

`package_version.py` translates the SemVer of a release into a Python version. A plain
release stays as it is, three stages have a short form, and any other label is kept in
hexadecimal digits behind a development version. Nothing but an optional `v` is lost.
-/
namespace CapiSsh

open ByteFiles Hexadecimal

def isDecimalDigit (c : Char) : Bool := 48 ≤ c.toNat && c.toNat ≤ 57

/-- `[0-9A-Za-z.-]` -/
def isLabelChar (c : Char) : Bool :=
  isDecimalDigit c || (65 ≤ c.toNat && c.toNat ≤ 90) || (97 ≤ c.toNat && c.toNat ≤ 122) ||
    c == '.' || c == '-'

/-- `v?` -/
def withoutV (s : List Char) : List Char := if s.head? = some 'v' then s.tail else s

/-- `(0|[1-9][0-9]*)`, with what follows; no digit may follow. -/
def numeral (s : List Char) : Option (List Char × List Char) :=
  let d := s.takeWhile isDecimalDigit
  if d = ['0'] ∨ (d ≠ [] ∧ d.head? ≠ some '0') then some (d, s.dropWhile isDecimalDigit) else none

/-- `\.` -/
def dot (s : List Char) : Option (List Char) := if s.head? = some '.' then some s.tail else none

/-- `(?:-([0-9A-Za-z.-]+))?` at the end -/
def prereleaseLabel (s : List Char) : Option (Option (List Char)) :=
  if s = [] then some none
  else if s.head? = some '-' ∧ s.tail ≠ [] ∧ s.tail.all isLabelChar = true then some (some s.tail)
  else none

@[ext]
structure SemVer where
  major : List Char
  minor : List Char
  patch : List Char
  prerelease : Option (List Char)
  deriving DecidableEq, Repr

/-- `SEMVER.fullmatch` -/
def semVer (value : List Char) : Option SemVer := do
  let (major, s) ← numeral (withoutV value)
  let s ← dot s
  let (minor, s) ← numeral s
  let s ← dot s
  let (patch, s) ← numeral s
  let prerelease ← prereleaseLabel s
  some ⟨major, minor, patch, prerelease⟩

inductive VersionError where
  | invalidProviderRelease (value : List Char)
  | invalidPrerelease (prerelease : List Char)
  deriving DecidableEq, Repr

/-- An empty identifier, or a number with a leading zero. -/
def invalidIdentifier (item : List Char) : Bool :=
  item == [] || (item.all isDecimalDigit && item.length > 1 && item.head? == some '0')

/-- The stages with their short names. -/
def stages : List (List Char × List Char) :=
  [("alpha".toList, ['a']), ("beta".toList, ['b']), ("rc".toList, ['r', 'c'])]

def stageNumber (stage prerelease : List Char) : Option (List Char) :=
  let number := prerelease.drop (stage.length + 1)
  if prerelease.take (stage.length + 1) = stage ++ ['.'] ∧ number ≠ [] ∧ number.all isDecimalDigit = true then
    some number
  else none

/-- `(alpha|beta|rc)\.([0-9]+)`: the short name with the number. -/
def standard (prerelease : List Char) : Option (List Char × List Char) :=
  stages.findSome? fun stage => (stageNumber stage.1 prerelease).map fun number => (stage.2, number)

def SemVer.base (m : SemVer) : List Char := m.major ++ '.' :: (m.minor ++ '.' :: m.patch)

/-- `normalize_version` -/
def normalizeVersion (value : List Char) : Except VersionError (List Char) :=
  match semVer value with
  | none => .error (.invalidProviderRelease value)
  | some m =>
    match m.prerelease with
    | none => .ok m.base
    | some prerelease =>
      if (prerelease.splitOn '.').any invalidIdentifier = true then .error (.invalidPrerelease prerelease)
      else
        match standard prerelease with
        | some (stage, number) => .ok (m.base ++ (stage ++ number))
        | none => .ok (m.base ++ (".dev0+gitversion.".toList ++ hex (encode prerelease)))

/-- A number of a version. -/
def Digits (d : List Char) : Prop := d ≠ [] ∧ ∀ c ∈ d, isDecimalDigit c = true

/-- The text does not go on with a digit. -/
def Ends (s : List Char) : Prop := ∀ c, s.head? = some c → isDecimalDigit c = false

def render (m : SemVer) : List Char :=
  m.base ++ (m.prerelease.map ('-' :: ·)).getD []

/-- What stands behind the three numbers. -/
def suffix : Option (List Char) → List Char
  | none => []
  | some prerelease =>
    match standard prerelease with
    | some (stage, number) => stage ++ number
    | none => ".dev0+gitversion.".toList ++ hex (encode prerelease)

structure SemVer.Numbered (m : SemVer) : Prop where
  major : Digits m.major
  minor : Digits m.minor
  patch : Digits m.patch

section Read

variable {s t d d' r r' value x : List Char} {m m' : SemVer} {c : Char}

theorem numeral_some (h : numeral s = some (d, r)) : s = d ++ r ∧ Digits d := by
  simp only [numeral] at h
  by_cases hd : s.takeWhile isDecimalDigit = ['0'] ∨
      (s.takeWhile isDecimalDigit ≠ [] ∧ (s.takeWhile isDecimalDigit).head? ≠ some '0')
  · rw [if_pos hd] at h
    cases h
    refine ⟨List.takeWhile_append_dropWhile.symm, ?_, fun c hc => List.all_eq_true.mp List.all_takeWhile c hc⟩
    cases hd with
    | inl hd => simp [hd]
    | inr hd => exact hd.1
  · rw [if_neg hd] at h
    cases h

theorem dot_some (h : dot s = some r) : s = '.' :: r := by
  simp only [dot] at h
  by_cases hs : s.head? = some '.'
  · rw [if_pos hs] at h
    cases s with
    | nil => cases hs
    | cons c s =>
      cases hs
      cases h
      rfl
  · rw [if_neg hs] at h
    cases h

theorem prereleaseLabel_some {p : Option (List Char)} (h : prereleaseLabel s = some p) :
    s = (p.map ('-' :: ·)).getD [] ∧ p ≠ some [] := by
  simp only [prereleaseLabel] at h
  by_cases hs : s = []
  · rw [if_pos hs] at h
    cases h
    exact ⟨hs, by simp⟩
  · rw [if_neg hs] at h
    by_cases hl : s.head? = some '-' ∧ s.tail ≠ [] ∧ s.tail.all isLabelChar = true
    · rw [if_pos hl] at h
      cases h
      cases s with
      | nil => exact absurd rfl hs
      | cons c s =>
        cases hl.1
        exact ⟨rfl, fun h => hl.2.1 (Option.some.inj h)⟩
    · rw [if_neg hl] at h
      cases h

/-- Nothing but the `v` is lost in the parts of a version. -/
theorem semVer_some (h : semVer value = some m) : withoutV value = render m ∧ m.Numbered := by
  simp only [semVer, Option.bind_eq_bind, Option.bind_eq_some_iff] at h
  obtain ⟨⟨major, s₁⟩, h₁, s₂, h₂, ⟨minor, s₃⟩, h₃, s₄, h₄, ⟨patch, s₅⟩, h₅, p, h₆, h⟩ := h
  cases h
  simp only at h₂ h₄ h₆
  obtain ⟨e₁, d₁⟩ := numeral_some h₁
  obtain ⟨e₃, d₃⟩ := numeral_some h₃
  obtain ⟨e₅, d₅⟩ := numeral_some h₅
  have e₂ := dot_some h₂
  have e₄ := dot_some h₄
  obtain ⟨e₆, -⟩ := prereleaseLabel_some h₆
  refine ⟨?_, d₁, d₃, d₅⟩
  rw [e₁, e₂, e₃, e₄, e₅, e₆]
  simp [render, SemVer.base]

theorem normalizeVersion_ok (h : normalizeVersion value = .ok x) :
    ∃ m, semVer value = some m ∧ x = m.base ++ suffix m.prerelease := by
  simp only [normalizeVersion] at h
  cases hm : semVer value with
  | none =>
    rw [hm] at h
    cases h
  | some m =>
    rw [hm] at h
    refine ⟨m, rfl, ?_⟩
    cases hp : m.prerelease with
    | none =>
      simp only [hp] at h
      cases h
      simp [suffix]
    | some p =>
      simp only [hp] at h
      by_cases hi : (p.splitOn '.').any invalidIdentifier = true
      · rw [if_pos hi] at h
        cases h
      · rw [if_neg hi] at h
        cases hs : standard p with
        | none =>
          simp only [hs] at h
          cases h
          simp [suffix, hs]
        | some q =>
          simp only [hs] at h
          cases h
          simp [suffix, hs]

theorem digits_unique (hd : ∀ c ∈ d, isDecimalDigit c = true) (hd' : ∀ c ∈ d', isDecimalDigit c = true)
    (hr : Ends r) (hr' : Ends r') (h : d ++ r = d' ++ r') : d = d' ∧ r = r' := by
  induction d generalizing d' with
  | nil =>
    cases d' with
    | nil => exact ⟨rfl, h⟩
    | cons c d' =>
      have hc := hd' c List.mem_cons_self
      rw [hr c (by simpa using congrArg List.head? h)] at hc
      cases hc
  | cons c d ih =>
    cases d' with
    | nil =>
      have hc := hd c List.mem_cons_self
      rw [hr' c (by simpa using congrArg List.head? h.symm)] at hc
      cases hc
    | cons c' d' =>
      injection h with hc h
      obtain ⟨h₁, h₂⟩ := ih (fun e he => hd e (List.mem_cons_of_mem c he))
        (fun e he => hd' e (List.mem_cons_of_mem c' he)) h
      exact ⟨by rw [hc, h₁], h₂⟩

theorem ends_dot : Ends ('.' :: s) := by
  intro c hc
  cases hc
  decide

/-- The numbers and what follows them can be told from the text. -/
theorem base_unique (hm : m.Numbered) (hm' : m'.Numbered) (hr : Ends r) (hr' : Ends r')
    (h : m.base ++ r = m'.base ++ r') :
    m.major = m'.major ∧ m.minor = m'.minor ∧ m.patch = m'.patch ∧ r = r' := by
  simp only [SemVer.base, List.append_assoc, List.cons_append] at h
  obtain ⟨h₁, h⟩ := digits_unique hm.major.2 hm'.major.2 ends_dot ends_dot h
  injection h with _ h
  obtain ⟨h₂, h⟩ := digits_unique hm.minor.2 hm'.minor.2 ends_dot ends_dot h
  injection h with _ h
  obtain ⟨h₃, h⟩ := digits_unique hm.patch.2 hm'.patch.2 hr hr' h
  exact ⟨h₁, h₂, h₃, h⟩

theorem standard_some {p stage number : List Char} (h : standard p = some (stage, number)) :
    ∃ long, (long, stage) ∈ stages ∧ p = long ++ '.' :: number ∧ Digits number := by
  obtain ⟨q, hq, hn⟩ := List.exists_of_findSome?_eq_some h
  obtain ⟨number', hn, he⟩ := Option.map_eq_some_iff.mp hn
  cases he
  simp only [stageNumber] at hn
  by_cases hc : p.take (q.1.length + 1) = q.1 ++ ['.'] ∧ p.drop (q.1.length + 1) ≠ [] ∧
      (p.drop (q.1.length + 1)).all isDecimalDigit = true
  · rw [if_pos hc] at hn
    cases hn
    refine ⟨q.1, hq, ?_, hc.2.1, fun c hm => List.all_eq_true.mp hc.2.2 c hm⟩
    conv_lhs => rw [← List.take_append_drop (q.1.length + 1) p, hc.1]
    simp
  · rw [if_neg hc] at hn
    cases hn

end Read

def StagedSuffix (t : List Char) : Prop :=
  ∃ stage number, (∃ long, (long, stage) ∈ stages) ∧ Digits number ∧ t = stage ++ number

def LocalSuffix (t : List Char) : Prop := ∃ h, t = ".dev0+gitversion.".toList ++ h

section Suffix

variable {t x : List Char} {p p' : Option (List Char)} {c : Char}

theorem StagedSuffix.head (h : StagedSuffix t) : ∃ c, t.head? = some c ∧ (c = 'a' ∨ c = 'b' ∨ c = 'r') := by
  obtain ⟨stage, number, ⟨long, hs⟩, -, rfl⟩ := h
  simp only [stages, List.mem_cons, List.not_mem_nil, or_false, Prod.mk.injEq] at hs
  rcases hs with ⟨-, rfl⟩ | ⟨-, rfl⟩ | ⟨-, rfl⟩
  · exact ⟨'a', rfl, by simp⟩
  · exact ⟨'b', rfl, by simp⟩
  · exact ⟨'r', rfl, by simp⟩

theorem local_head : (".dev0+gitversion.".toList ++ t).head? = some '.' := by
  rw [List.head?_append_of_ne_nil _ (by simp)]
  simp

theorem LocalSuffix.head (h : LocalSuffix t) : t.head? = some '.' := by
  obtain ⟨h, rfl⟩ := h
  exact local_head

theorem StagedSuffix.not_local (h : StagedSuffix t) : ¬ LocalSuffix t := by
  intro hl
  obtain ⟨c, hc, hs⟩ := h.head
  rw [hl.head] at hc
  cases hc
  simp at hs

theorem StagedSuffix.ends (h : StagedSuffix t) : Ends t := by
  obtain ⟨c, hc, hs⟩ := h.head
  intro d hd
  rw [hc] at hd
  cases hd
  rcases hs with rfl | rfl | rfl <;> decide

theorem LocalSuffix.ends (h : LocalSuffix t) : Ends t := by
  intro d hd
  rw [h.head] at hd
  cases hd
  decide

theorem ends_nil : Ends [] := by simp [Ends]

/-- The three forms of what follows the numbers. -/
theorem suffix_cases (p : Option (List Char)) :
    p = none ∧ suffix p = [] ∨
      (∃ long stage number, p = some (long ++ '.' :: number) ∧ (long, stage) ∈ stages ∧ Digits number ∧
        suffix p = stage ++ number) ∨
      ∃ label, p = some label ∧ suffix p = ".dev0+gitversion.".toList ++ hex (encode label) := by
  cases p with
  | none => exact Or.inl ⟨rfl, rfl⟩
  | some label =>
    right
    cases hs : standard label with
    | some q =>
      obtain ⟨stage, number⟩ := q
      obtain ⟨long, hl, rfl, hn⟩ := standard_some hs
      exact Or.inl ⟨long, stage, number, rfl, hl, hn, by simp [suffix, hs]⟩
    | none => exact Or.inr ⟨label, rfl, by simp [suffix, hs]⟩

theorem suffix_ends : Ends (suffix p) := by
  rcases suffix_cases p with ⟨-, h⟩ | ⟨long, stage, number, -, hs, hn, h⟩ | ⟨label, -, h⟩
  · rw [h]
    exact ends_nil
  · rw [h]
    exact StagedSuffix.ends ⟨stage, number, ⟨long, hs⟩, hn, rfl⟩
  · rw [h]
    exact LocalSuffix.ends ⟨_, rfl⟩

/-- A stage and its number can be told apart. -/
theorem stage_unique {long long' stage stage' number number' : List Char} (hs : (long, stage) ∈ stages)
    (hs' : (long', stage') ∈ stages) (h : stage ++ number = stage' ++ number') :
    long = long' ∧ number = number' := by
  simp only [stages, List.mem_cons, List.not_mem_nil, or_false, Prod.mk.injEq] at hs hs'
  rcases hs with ⟨rfl, rfl⟩ | ⟨rfl, rfl⟩ | ⟨rfl, rfl⟩ <;>
    rcases hs' with ⟨rfl, rfl⟩ | ⟨rfl, rfl⟩ | ⟨rfl, rfl⟩ <;>
    simp_all

/-- No two labels have one suffix. -/
theorem suffix_injective (h : suffix p = suffix p') : p = p' := by
  have hnil {long stage number : List Char} (hs : (long, stage) ∈ stages) (hn : Digits number) :
      stage ++ number ≠ [] := fun he => hn.1 (List.append_eq_nil_iff.mp he).2
  have hlocal (t : List Char) : ".dev0+gitversion.".toList ++ t ≠ [] := by
    intro he
    have := local_head (t := t)
    rw [he] at this
    cases this
  have hstaged {long stage number t : List Char} (hs : (long, stage) ∈ stages) (hn : Digits number) :
      stage ++ number ≠ ".dev0+gitversion.".toList ++ t :=
    fun he => StagedSuffix.not_local ⟨stage, number, ⟨long, hs⟩, hn, rfl⟩ ⟨t, he⟩
  rcases suffix_cases p with ⟨hp, hx⟩ | ⟨long, stage, number, hp, hs, hn, hx⟩ | ⟨label, hp, hx⟩ <;>
    rcases suffix_cases p' with ⟨hp', hx'⟩ | ⟨long', stage', number', hp', hs', hn', hx'⟩ | ⟨label', hp', hx'⟩ <;>
    rw [hx, hx'] at h
  · rw [hp, hp']
  · exact absurd h.symm (hnil hs' hn')
  · exact absurd h.symm (hlocal _)
  · exact absurd h (hnil hs hn)
  · obtain ⟨rfl, rfl⟩ := stage_unique hs hs' h
    rw [hp, hp']
  · exact absurd h (hstaged hs hn)
  · exact absurd h (hlocal _)
  · exact absurd h.symm (hstaged hs' hn')
  · have hl := congrArg decode (hex_injective (List.append_cancel_left h))
    rw [decode_encode, decode_encode] at hl
    rw [hp, hp', hl]

end Suffix

def PlainForm (x : List Char) : Prop := ∃ m : SemVer, m.Numbered ∧ x = m.base

def StagedForm (x : List Char) : Prop := ∃ m : SemVer, m.Numbered ∧ ∃ t, StagedSuffix t ∧ x = m.base ++ t

def LocalForm (x : List Char) : Prop := ∃ m : SemVer, m.Numbered ∧ ∃ t, LocalSuffix t ∧ x = m.base ++ t

/-- The digits behind `+gitversion.` -/
def localSegment (x : List Char) : Option (List Char) :=
  let s := x.dropWhile fun c => c ≠ '+'
  if s.take 12 = "+gitversion.".toList then some (s.drop 12) else none

def prereleaseOf (value : List Char) : Option (List Char) := (semVer value).bind SemVer.prerelease

theorem forms_disjoint (x : List Char) : ¬ (PlainForm x ∧ StagedForm x) ∧ ¬ (PlainForm x ∧ LocalForm x) ∧
    ¬ (StagedForm x ∧ LocalForm x) := by
  refine ⟨?_, ?_, ?_⟩
  · rintro ⟨⟨m, hm, rfl⟩, m', hm', t, ht, h⟩
    have hx := base_unique (r := []) hm hm' ends_nil ht.ends (by simpa using h)
    obtain ⟨c, hc, -⟩ := ht.head
    rw [← hx.2.2.2] at hc
    cases hc
  · rintro ⟨⟨m, hm, rfl⟩, m', hm', t, ht, h⟩
    have hx := base_unique (r := []) hm hm' ends_nil ht.ends (by simpa using h)
    have hc := ht.head
    rw [← hx.2.2.2] at hc
    cases hc
  · rintro ⟨⟨m, hm, t, ht, rfl⟩, m', hm', t', ht', h⟩
    have hx := base_unique hm hm' ht.ends ht'.ends h
    exact ht.not_local (hx.2.2.2 ▸ ht')

theorem localSegment_base {m : SemVer} (hm : m.Numbered) (s : List Char) :
    localSegment (m.base ++ (".dev0+gitversion.".toList ++ s)) = some s := by
  have hd {d : List Char} (h : Digits d) : ∀ c ∈ d, c ≠ '+' := by
    rintro c hc rfl
    exact absurd (h.2 '+' hc) (by decide)
  have hskip : ∀ c ∈ m.base ++ ".dev0".toList, c ≠ '+' := by
    intro c hc
    have hall : ".dev0".toList.all (fun c => c != '+') = true := by simp
    have hdev : ∀ c ∈ ".dev0".toList, c ≠ '+' :=
      fun c hc => bne_iff_ne.mp (List.all_eq_true.mp hall c hc)
    simp only [SemVer.base, List.mem_append, List.mem_cons] at hc
    obtain (hc | rfl | hc | rfl | hc) | hc := hc
    · exact hd hm.major c hc
    · decide
    · exact hd hm.minor c hc
    · decide
    · exact hd hm.patch c hc
    · exact hdev c hc
  have hsplit : ".dev0+gitversion.".toList = ".dev0".toList ++ "+gitversion.".toList := by simp
  have hdrop : (m.base ++ (".dev0+gitversion.".toList ++ s)).dropWhile (fun c => c ≠ '+') =
      "+gitversion.".toList ++ s := by
    rw [hsplit, List.append_assoc, ← List.append_assoc, List.dropWhile_append_of_pos (by simpa using hskip)]
    rfl
  have hlen : "+gitversion.".toList.length = 12 := by simp
  simp only [localSegment, hdrop]
  rw [List.take_left' hlen, List.drop_left' hlen, if_pos rfl]

theorem normalizeVersion_injective {a b x y : List Char} (ha : normalizeVersion a = .ok x)
    (hb : normalizeVersion b = .ok y) : x = y ↔ withoutV a = withoutV b := by
  obtain ⟨m, hm, rfl⟩ := normalizeVersion_ok ha
  obtain ⟨m', hm', rfl⟩ := normalizeVersion_ok hb
  obtain ⟨hr, hn⟩ := semVer_some hm
  obtain ⟨hr', hn'⟩ := semVer_some hm'
  constructor
  · intro h
    obtain ⟨h₁, h₂, h₃, h₄⟩ := base_unique hn hn' suffix_ends suffix_ends h
    have hmm : m = m' := SemVer.ext h₁ h₂ h₃ (suffix_injective h₄)
    rw [hr, hr', hmm]
  · intro h
    simp only [semVer, h] at hm hm'
    rw [hm] at hm'
    cases hm'
    rfl

/-- Two accepted versions have one package identity only if they are one up to the `v`; the form
tells whether there is a label, and a label without a short form is read back from it. -/
theorem version_translation :
    (∀ a b x y, normalizeVersion a = .ok x → normalizeVersion b = .ok y → (x = y ↔ withoutV a = withoutV b)) ∧
      (∀ x, ¬ (PlainForm x ∧ StagedForm x) ∧ ¬ (PlainForm x ∧ LocalForm x) ∧ ¬ (StagedForm x ∧ LocalForm x)) ∧
      ∀ a x, normalizeVersion a = .ok x → (PlainForm x ∨ StagedForm x ∨ LocalForm x) ∧
        (PlainForm x → prereleaseOf a = none) ∧
        (LocalForm x → ∃ label, prereleaseOf a = some label ∧
          ((localSegment x).bind unhex).bind decode = some label) := by
  refine ⟨fun a b x y ha hb => normalizeVersion_injective ha hb, forms_disjoint, fun a x ha => ?_⟩
  obtain ⟨hps, hpl, hsl⟩ := forms_disjoint x
  obtain ⟨m, hm, rfl⟩ := normalizeVersion_ok ha
  obtain ⟨-, hn⟩ := semVer_some hm
  have hpre : prereleaseOf a = m.prerelease := by simp [prereleaseOf, hm]
  rcases suffix_cases m.prerelease with ⟨hp, hx⟩ | ⟨long, stage, number, hp, hs, hd, hx⟩ | ⟨label, hp, hx⟩
  · have hf : PlainForm (m.base ++ suffix m.prerelease) := ⟨m, hn, by rw [hx, List.append_nil]⟩
    exact ⟨Or.inl hf, fun _ => by rw [hpre, hp], fun h => absurd ⟨hf, h⟩ hpl⟩
  · have hf : StagedForm (m.base ++ suffix m.prerelease) := ⟨m, hn, _, ⟨stage, number, ⟨long, hs⟩, hd, rfl⟩, by rw [hx]⟩
    exact ⟨Or.inr (Or.inl hf), fun h => absurd ⟨h, hf⟩ hps, fun h => absurd ⟨hf, h⟩ hsl⟩
  · have hf : LocalForm (m.base ++ suffix m.prerelease) := ⟨m, hn, _, ⟨_, rfl⟩, by rw [hx]⟩
    refine ⟨Or.inr (Or.inr hf), fun h => absurd ⟨h, hf⟩ hpl, fun _ => ⟨label, by rw [hpre, hp], ?_⟩⟩
    rw [hx, localSegment_base hn, Option.bind_some, unhex_hex, Option.bind_some, decode_encode]

/-- A release, a candidate and a branch: no two of them are one up to the `v`, and the label of
the branch is read back. -/
theorem version_translation_forms :
    normalizeVersion "v1.2.3".toList = .ok "1.2.3".toList ∧ normalizeVersion "1.2.3-rc.1".toList = .ok "1.2.3rc1".toList ∧
      normalizeVersion "1.2.3-dev".toList = .ok "1.2.3.dev0+gitversion.646576".toList ∧
      withoutV "1.2.3-rc.1".toList ≠ withoutV "1.2.3-dev".toList ∧
      PlainForm "1.2.3".toList ∧ StagedForm "1.2.3rc1".toList ∧ LocalForm "1.2.3.dev0+gitversion.646576".toList ∧
      ∃ label, prereleaseOf "1.2.3-dev".toList = some label ∧
        ((localSegment "1.2.3.dev0+gitversion.646576".toList).bind unhex).bind decode = some label := by
  have hplain : normalizeVersion "v1.2.3".toList = .ok "1.2.3".toList := by decide +kernel
  have hstaged : normalizeVersion "1.2.3-rc.1".toList = .ok "1.2.3rc1".toList := by decide +kernel
  have hlocal : normalizeVersion "1.2.3-dev".toList = .ok "1.2.3.dev0+gitversion.646576".toList := by decide +kernel
  have hm : semVer "1.2.3".toList = some ⟨['1'], ['2'], ['3'], none⟩ := by decide +kernel
  have hn := (semVer_some hm).2
  have hf : LocalForm "1.2.3.dev0+gitversion.646576".toList := ⟨_, hn, _, ⟨"646576".toList, rfl⟩, by decide +kernel⟩
  have hsuffix : StagedSuffix ['r', 'c', '1'] := ⟨['r', 'c'], ['1'], ⟨"rc".toList, by decide +kernel⟩, hn.major, rfl⟩
  refine ⟨hplain, hstaged, hlocal, fun h => ?_, ⟨_, hn, by decide +kernel⟩, ⟨_, hn, _, hsuffix, by decide +kernel⟩,
    hf, (version_translation.2.2 _ _ hlocal).2.2 hf⟩
  exact absurd ((version_translation.1 _ _ _ _ hstaged hlocal).mpr h) (by decide +kernel)

end CapiSsh
