import CapiSsh.CredentialOutputs

/-!
# The pass of the settings

The last pattern takes a name with a colon or an equals sign behind it, wherever a word
boundary lets the name start, and replaces the word that follows. A value behind the name of
a flag and an equals sign does not outlast it; a value alone behind a word that ends in
neither of the two signs does.
-/
namespace CapiSsh

open Substitution

/-- A match of one name: the name, the sign and the value, with the whitespace between them. -/
structure SettingAt (wide : Char → Bool) (name : List Char) (before : Option Char)
    (found gap : List Char) (c : Char) (gap' value rest : List Char) : Prop where
  spelled : found.map foldCase = name
  opens : edge wide before (found ++ (gap ++ c :: (gap' ++ (value ++ rest)))).head? = true
  closes : edge wide found.getLast? (gap ++ c :: (gap' ++ (value ++ rest))).head? = true
  blank : Blank gap
  sign : isAssignment (some c) = true
  blank' : Blank gap'
  value_ne_nil : value ≠ []
  spaceless : Spaceless value
  breaks : AtBreak rest

section Setting

variable {wide : Char → Bool} {name found gap gap' value rest s : List Char} {before : Option Char}
  {c : Char} {h : Hit Char}

theorem isAssignment_spaceless (h : isAssignment (some c) = true) : isSpace c = false := by
  simp only [isAssignment, Bool.or_eq_true, beq_iff_eq, Option.some.injEq] at h
  cases h with
  | inl h => exact h ▸ by decide
  | inr h => exact h ▸ by decide

theorem head_spaceless {u : List Char} (hu : u ≠ []) (hs : Spaceless u) :
    Spaceless ((u ++ rest).take 1) := by
  cases u with
  | nil => exact absurd rfl hu
  | cons c u =>
    intro d hd
    simp only [List.cons_append, List.take_succ_cons, List.take_zero, List.mem_singleton] at hd
    exact hd ▸ hs c List.mem_cons_self

theorem SettingAt.hit (h : SettingAt wide name before found gap c gap' value rest) :
    settingHit wide name before (found ++ (gap ++ c :: (gap' ++ (value ++ rest)))) =
      some ⟨found ++ '=' :: redacted, value.getLast?, rest⟩ := by
  have hc : Spaceless ((c :: (gap' ++ (value ++ rest))).take 1) := by
    intro d hd
    simp only [List.take_succ_cons, List.take_zero, List.mem_singleton] at hd
    exact hd ▸ isAssignment_spaceless h.sign
  have h₁ : skipSpaces (gap ++ c :: (gap' ++ (value ++ rest))) = c :: (gap' ++ (value ++ rest)) :=
    skipSpaces_blank h.blank hc
  have h₂ : skipSpaces (gap' ++ (value ++ rest)) = value ++ rest :=
    skipSpaces_blank h.blank' (head_spaceless h.value_ne_nil h.spaceless)
  have h₃ : word (value ++ rest) = some (value, rest) := by
    rw [word_append h.spaceless h.breaks, if_neg h.value_ne_nil]
  simp only [settingHit, spelling_append_self h.spelled, Option.bind_eq_bind, Option.bind_some, h₁,
    List.tail_cons, h₂, h₃, List.head?_cons]
  exact if_pos ⟨h.opens, h.closes, h.sign⟩

theorem skipSpaces_eq (s : List Char) : ∃ gap, Blank gap ∧ s = gap ++ skipSpaces s := by
  refine ⟨s.takeWhile isSpace, fun c hc => ?_, List.takeWhile_append_dropWhile.symm⟩
  exact List.all_eq_true.mp List.all_takeWhile c hc

theorem settingHit_some (hs : settingHit wide name before s = some h) : ∃ found gap c gap' value rest,
    SettingAt wide name before found gap c gap' value rest ∧
      s = found ++ (gap ++ c :: (gap' ++ (value ++ rest))) ∧
      h = ⟨found ++ '=' :: redacted, value.getLast?, rest⟩ := by
  simp only [settingHit, Option.bind_eq_bind, Option.bind_eq_some_iff] at hs
  obtain ⟨⟨found, l⟩, hn, ⟨value, rest⟩, hw, hs⟩ := hs
  simp only at hw hs
  obtain ⟨hs', hm⟩ := spelling_some hn
  obtain ⟨hv, hl, hsp, hb⟩ := word_some hw
  by_cases hc : edge wide before s.head? = true ∧ edge wide found.getLast? l.head? = true ∧
      isAssignment (skipSpaces l).head? = true
  · rw [if_pos hc] at hs
    cases hs
    obtain ⟨h₁, h₂, h₃⟩ := hc
    obtain ⟨gap, hg, hgl⟩ := skipSpaces_eq l
    cases hk : skipSpaces l with
    | nil =>
      rw [hk] at h₃
      cases h₃
    | cons c k =>
      rw [hk] at h₃ hgl hl
      obtain ⟨gap', hg', hgk⟩ := skipSpaces_eq k
      rw [List.tail_cons] at hl
      rw [hl] at hgk
      subst hgk hgl
      subst hs'
      exact ⟨found, gap, c, gap', value, rest, ⟨hm, h₁, h₂, hg, h₃, hg', hv, hsp, hb⟩, rfl, rfl⟩
  · rw [if_neg hc] at hs
    cases hs

theorem settingHit_advances (wide : Char → Bool) (name : List Char) : Advances (settingHit wide name) := by
  intro before s h hs
  obtain ⟨found, gap, c, gap', value, rest, ha, rfl, rfl⟩ := settingHit_some hs
  simp only [List.length_append, List.length_cons]
  omega

theorem settingsHit_some (hs : settingsHit wide before s = some h) :
    ∃ name ∈ settingNames, settingHit wide name before s = some h := by
  rw [settingsHit] at hs
  exact List.exists_of_findSome?_eq_some hs

theorem settingsHit_advances (wide : Char → Bool) : Advances (settingsHit wide) := by
  intro before s h hs
  obtain ⟨name, -, hn⟩ := settingsHit_some hs
  exact settingHit_advances wide name before s h hn

structure IsSettingName (name : List Char) : Prop where
  nonempty : name ≠ []
  spaceless : Spaceless name
  equals : '=' ∉ name

theorem settingNames_ok : ∀ name ∈ settingNames, IsSettingName name := by
  have h : settingNames.all (fun name => decide (name ≠ []) && name.all (fun c => !isSpace c) &&
      decide ('=' ∉ name)) = true := by simp [settingNames, isSpace]
  intro name hn
  have := List.all_eq_true.mp h name hn
  simp only [Bool.and_eq_true, decide_eq_true_eq] at this
  exact ⟨this.1.1, fun c hc => by simpa using List.all_eq_true.mp this.1.2 c hc, this.2⟩

/-- No name starts at this character. -/
theorem settingsHit_none (hc : ∀ name ∈ settingNames, name.head? ≠ some (foldCase c)) :
    settingsHit wide before (c :: s) = none := by
  cases hs : settingsHit wide before (c :: s) with
  | none => rfl
  | some h =>
    obtain ⟨name, hn, hh⟩ := settingsHit_some hs
    obtain ⟨found, gap, d, gap', value, rest, ha, hl, -⟩ := settingHit_some hh
    cases found with
    | nil => exact absurd ha.spelled.symm (settingNames_ok name hn).nonempty
    | cons e found =>
      cases hl
      refine absurd ?_ (hc name hn)
      rw [← ha.spelled]
      rfl

theorem Blank.within {gap p y z : List Char} {e : Char} (hg : Blank gap) (hp : p.getLast? = some e)
    (he : isSpace e = false) (hs : gap ++ z = p ++ y) :
    ∃ q, p = gap ++ q ∧ q.getLast? = some e ∧ z = q ++ y := by
  have hmem : e ∉ gap := by
    intro hm
    rw [hg e hm] at he
    cases he
  cases List.append_eq_append_iff.mp hs with
  | inl h =>
    obtain ⟨q, rfl, hz⟩ := h
    cases q with
    | nil =>
      rw [List.append_nil] at hp
      exact absurd (List.mem_of_getLast? hp) hmem
    | cons d q =>
      refine ⟨d :: q, rfl, ?_, hz⟩
      rwa [List.getLast?_append_of_ne_nil _ (by simp)] at hp
  | inr h =>
    obtain ⟨q, rfl, hz⟩ := h
    exact absurd (List.mem_append_left q (List.mem_of_getLast? hp)) hmem

/-- A text that ends in no blank and no sign has a part of the value in it, if the gap starts there. -/
theorem SettingAt.within {p y : List Char} {e : Char}
    (h : SettingAt wide name before found gap c gap' value rest) (hp : p.getLast? = some e)
    (he : isSpace e = false) (he' : isAssignment (some e) = false)
    (hs : gap ++ c :: (gap' ++ (value ++ rest)) = p ++ y) :
    ∃ q, p = gap ++ c :: (gap' ++ q) ∧ q.getLast? = some e ∧ value ++ rest = q ++ y := by
  obtain ⟨q, rfl, hq, hz⟩ := h.blank.within hp he hs
  cases q with
  | nil => cases hq
  | cons d q =>
    injection hz with hd hz
    subst hd
    cases q with
    | nil =>
      have hce : c = e := by simpa using hq
      rw [← hce, h.sign] at he'
      cases he'
    | cons d q =>
      rw [List.getLast?_cons_cons] at hq
      obtain ⟨q', hq', hlast, hv⟩ := h.blank'.within hq he hz
      exact ⟨q', by rw [hq'], hlast, hv⟩

/-- A name with no blank in it does not reach beyond the text before a blank. -/
theorem SettingAt.found_within {p y : List Char} {d : Char}
    (h : SettingAt wide name before found gap c gap' value rest) (hd : foldCase d ∉ name)
    (hs : found ++ (gap ++ c :: (gap' ++ (value ++ rest))) = p ++ d :: y) :
    ∃ q, p = found ++ q ∧ gap ++ c :: (gap' ++ (value ++ rest)) = q ++ d :: y := by
  cases List.append_eq_append_iff.mp hs with
  | inl hq => exact hq
  | inr hq =>
    obtain ⟨q, hf, hy⟩ := hq
    cases q with
    | nil => exact ⟨[], by simpa using hf.symm, by simpa using hy.symm⟩
    | cons e q =>
      injection hy with he hy
      refine absurd ?_ hd
      rw [← h.spelled, hf, he]
      simp

end Setting

/-- The text before a value alone is used up or ends in no blank and no sign. -/
def Leads (p : List Char) : Prop :=
  ∀ e, p.getLast? = some e → isSpace e = false ∧ isAssignment (some e) = false

theorem settingNames_space {c : Char} (hc : isSpace c = true) :
    ∀ name ∈ settingNames, name.head? ≠ some (foldCase c) := by
  intro name hn he
  have := (settingNames_ok name hn).spaceless _ (List.mem_of_mem_head? he)
  rw [foldCase_space hc, hc] at this
  cases this

section Alone

variable {wide : Char → Bool} {name p gap z rest : List Char} {before : Option Char} {h : Hit Char}

/-- A match before a value alone ends before it. -/
theorem settingHit_alone (hn : IsSettingName name) (hp : Leads p) (hg : Blank gap) (hg₀ : gap ≠ [])
    (hz : ∀ c ∈ z, isSpace c = false ∧ isAssignment (some c) = false) (hz₀ : z ≠ [])
    (hs : settingHit wide name before (p ++ (gap ++ (z ++ rest))) = some h) :
    ∃ q, Leads q ∧ q.length < p.length ∧ h.rest = q ++ (gap ++ (z ++ rest)) := by
  obtain ⟨found, gap₁, c, gap₂, value, rest', ha, heq, rfl⟩ := settingHit_some hs
  obtain ⟨d, gap', rfl⟩ := List.exists_cons_of_ne_nil hg₀
  have hd := hg d List.mem_cons_self
  have hdn : foldCase d ∉ name := by
    intro hm
    rw [foldCase_space hd] at hm
    rw [hn.spaceless d hm] at hd
    cases hd
  obtain ⟨a, rfl, hin⟩ := ha.found_within hdn heq.symm
  replace hin : gap₁ ++ c :: (gap₂ ++ (value ++ rest')) = a ++ (d :: gap' ++ (z ++ rest)) := hin
  cases hl : a.getLast? with
  | none =>
    -- the sign would be the first character of the value
    rw [List.getLast?_eq_none_iff] at hl
    subst hl
    have hc : Spaceless ((c :: (gap₂ ++ (value ++ rest'))).take 1) := by
      intro e he
      simp only [List.take_succ_cons, List.take_zero, List.mem_singleton] at he
      exact he ▸ isAssignment_spaceless ha.sign
    have h₁ := skipSpaces_blank ha.blank hc
    rw [hin, List.nil_append, skipSpaces_blank hg (head_spaceless hz₀ fun e he => (hz e he).1)] at h₁
    obtain ⟨e, z', rfl⟩ := List.exists_cons_of_ne_nil hz₀
    injection h₁ with he h₁
    have := (hz e List.mem_cons_self).2
    rw [he, ha.sign] at this
    cases this
  | some e =>
    have hpe : (found ++ a).getLast? = some e := by
      rw [List.getLast?_append, hl]
      rfl
    obtain ⟨he, he'⟩ := hp e hpe
    obtain ⟨q, rfl, hq, hv⟩ := ha.within hl he he' hin
    have hval : ∃ q', q = value ++ q' ∧ rest' = q' ++ (d :: gap' ++ (z ++ rest)) := by
      cases List.append_eq_append_iff.mp hv with
      | inl h => exact h
      | inr h =>
        obtain ⟨b, hb, hy⟩ := h
        cases b with
        | nil => exact ⟨[], by simpa using hb.symm, by simpa using hy.symm⟩
        | cons e b =>
          injection hy with hde hy
          have := ha.spaceless e (hb ▸ by simp)
          rw [← hde, hd] at this
          cases this
    obtain ⟨q', rfl, hr⟩ := hval
    refine ⟨q', fun e' he' => hp e' ?_, ?_, hr⟩
    · simp [List.getLast?_append, List.getLast?_cons, he']
    · simp only [List.length_append, List.length_cons]
      omega

theorem settingsHit_alone (hp : Leads p) (hg : Blank gap) (hg₀ : gap ≠ [])
    (hz : ∀ c ∈ z, isSpace c = false ∧ isAssignment (some c) = false) (hz₀ : z ≠ [])
    (hs : settingsHit wide before (p ++ (gap ++ (z ++ rest))) = some h) :
    ∃ q, Leads q ∧ q.length < p.length ∧ h.rest = q ++ (gap ++ (z ++ rest)) := by
  obtain ⟨name, hn, hh⟩ := settingsHit_some hs
  exact settingHit_alone (settingNames_ok name hn) hp hg hg₀ hz hz₀ hh

theorem Leads.tail {c : Char} (h : Leads (c :: p)) : Leads p := by
  intro e he
  refine h e ?_
  rw [List.getLast?_cons, he]
  rfl

/-- A value alone is in the text after the pass. -/
theorem rewrite_alone (hp : Leads p) (hg : Blank gap) (hg₀ : gap ≠ [])
    (hz : ∀ c ∈ z, isSpace c = false ∧ isAssignment (some c) = false ∧
      ∀ name ∈ settingNames, name.head? ≠ some (foldCase c)) (hz₀ : z ≠ []) :
    ∃ s s', rewrite (settingsHit wide) before (p ++ (gap ++ (z ++ rest))) = s ++ (z ++ s') := by
  induction hn : p.length using Nat.strongRecOn generalizing p before with
  | ind n ih =>
    cases hs : settingsHit wide before (p ++ (gap ++ (z ++ rest))) with
    | some h =>
      obtain ⟨q, hq, hl, hr⟩ :=
        settingsHit_alone hp hg hg₀ (fun c hc => ⟨(hz c hc).1, (hz c hc).2.1⟩) hz₀ hs
      obtain ⟨s, s', hss⟩ : ∃ s s', rewrite (settingsHit wide) h.last (q ++ (gap ++ (z ++ rest))) =
          s ++ (z ++ s') := ih q.length (hn ▸ hl) hq rfl
      refine ⟨h.put ++ s, s', ?_⟩
      rw [rewrite_some (settingsHit_advances wide) hs, hr, hss, List.append_assoc]
    | none =>
      cases p with
      | nil =>
        obtain ⟨b, hb⟩ := rewrite_copy (m := settingsHit wide) (p := gap) (s := z ++ rest) before
          fun c hc b s => settingsHit_none (settingNames_space (hg c hc))
        obtain ⟨b', hb'⟩ := rewrite_copy (m := settingsHit wide) (p := z) (s := rest) b
          fun c hc b s => settingsHit_none (hz c hc).2.2
        exact ⟨gap, rewrite (settingsHit wide) b' rest, by rw [List.nil_append, hb, hb']⟩
      | cons c p =>
        obtain ⟨s, s', hss⟩ : ∃ s s', rewrite (settingsHit wide) (some c) (p ++ (gap ++ (z ++ rest))) =
            s ++ (z ++ s') := ih p.length (by rw [← hn]; simp) hp.tail rfl
        refine ⟨c :: s, s', ?_⟩
        rw [List.cons_append] at hs ⊢
        rw [rewrite_none hs, hss]
        rfl

end Alone

/-- The text goes on to a flag that ends in `-token`, with an equals sign to follow. -/
def Guards (before : Option Char) (p : List Char) : Prop :=
  ∃ k, k.map foldCase = "token".toList ∧ '-' :: k <:+ before.toList ++ p

/-- Two texts that differ in values behind an equals sign only. -/
inductive Twin : Option Char → List Char → List Char → Prop
  | same (before : Option Char) (s : List Char) : Twin before s s
  | split {before : Option Char} {p b b' t t' : List Char} (guards : Guards before p)
      (hb : b ≠ []) (hb' : b' ≠ []) (hs : Spaceless b) (hs' : Spaceless b')
      (ht : AtBreak t) (ht' : AtBreak t') (next : Twin none t t') :
      Twin before (p ++ '=' :: (b ++ t)) (p ++ '=' :: (b' ++ t'))

section Twin

variable {wide : Char → Bool} {name p s s' b t : List Char} {before : Option Char} {h : Hit Char}

theorem Twin.symm (h : Twin before s s') : Twin before s' s := by
  induction h with
  | same before s => exact .same before s
  | split guards hb hb' hs hs' ht ht' next ih => exact .split guards hb' hb hs' hs ht' ht ih

theorem token_spaceless {k : List Char} (hk : k.map foldCase = "token".toList) : Spaceless k := by
  intro c hc
  cases hs : isSpace c with
  | false => rfl
  | true =>
    have hm : foldCase c ∈ "token".toList := hk ▸ List.mem_map_of_mem hc
    rw [foldCase_space hs] at hm
    have hn := (settingNames_ok "token".toList (by simp [settingNames])).spaceless c hm
    rw [hs] at hn
    cases hn

/-- The last letter of a flag that ends in `-token`. -/
theorem Guards.last (h : Guards before p) (hp : p ≠ []) :
    ∃ e, p.getLast? = some e ∧ isSpace e = false ∧ isAssignment (some e) = false := by
  obtain ⟨k, hk, l, hl⟩ := h
  have hlast : k.getLast?.map foldCase = some 'n' := by
    rw [← List.getLast?_map, hk]
    simp
  obtain ⟨e, he, hf⟩ := Option.map_eq_some_iff.mp hlast
  refine ⟨e, ?_, token_spaceless hk e (List.mem_of_getLast? he), ?_⟩
  · have := congrArg List.getLast? hl
    rw [List.getLast?_append_of_ne_nil _ (by simp), List.getLast?_append_of_ne_nil _ hp,
      List.getLast?_cons, he] at this
    exact this.symm
  · cases hs : isAssignment (some e) with
    | false => rfl
    | true =>
      simp only [isAssignment, Bool.or_eq_true, beq_iff_eq, Option.some.injEq] at hs
      rcases hs with rfl | rfl
      · exact absurd hf (by decide)
      · exact absurd hf (by decide)

/-- What follows a blank is still on the way to the flag. -/
theorem Guards.rest {q : List Char} (h : Guards before (p ++ q)) (hq : q ≠ []) (hb : AtBreak q) :
    Guards none q := by
  obtain ⟨k, hk, hs⟩ := h
  refine ⟨k, hk, ?_⟩
  have hq' : q <:+ before.toList ++ (p ++ q) := ⟨before.toList ++ p, by simp⟩
  cases List.suffix_or_suffix_of_suffix hs hq' with
  | inl h => simpa using h
  | inr h =>
    obtain ⟨c, q, rfl⟩ := List.exists_cons_of_ne_nil hq
    have hc := hb c rfl
    cases List.mem_cons.mp (h.subset List.mem_cons_self) with
    | inl he =>
      subst he
      exact absurd hc (by decide)
    | inr he =>
      rw [token_spaceless hk c he] at hc
      cases hc

/-- A text and a break behind it determine the text. -/
theorem break_unique {u u' r r' : List Char} (hu : Spaceless u) (hu' : Spaceless u') (hr : AtBreak r)
    (hr' : AtBreak r') (h : u ++ r = u' ++ r') : u = u' ∧ r = r' := by
  have h₁ := takeWhile_word hu hr
  rw [h, takeWhile_word hu' hr'] at h₁
  subst h₁
  exact ⟨rfl, List.append_cancel_left h⟩

theorem SettingAt.change {found gap gap' value value' rest rest' : List Char} {c : Char}
    (h : SettingAt wide name before found gap c gap' value rest) (hf : found ≠ []) (hv : value' ≠ [])
    (hs : Spaceless value') (hb : AtBreak rest') :
    SettingAt wide name before found gap c gap' value' rest' := by
  refine ⟨h.spelled, ?_, ?_, h.blank, h.sign, h.blank', hv, hs, hb⟩
  · have := h.opens
    rwa [List.head?_append_of_ne_nil _ hf] at this ⊢
  · have := h.closes
    cases gap <;> exact this

/-- Twins have the same matches. -/
theorem Twin.settingHit (hn : IsSettingName name) (hw : Twin before s s')
    (hs : settingHit wide name before s = some h) :
    ∃ h', CapiSsh.settingHit wide name before s' = some h' ∧ h.put = h'.put ∧ Twin none h.rest h'.rest ∧
      AtBreak h.rest ∧ AtBreak h'.rest := by
  obtain ⟨found, gap, c, gap', value, rest, ha, heq, rfl⟩ := settingHit_some hs
  have hf : found ≠ [] := by
    rintro rfl
    exact hn.nonempty ha.spelled.symm
  cases hw with
  | same => exact ⟨_, hs, rfl, .same _ _, ha.breaks, ha.breaks⟩
  | split guards hb hb' hsb hsb' ht ht' next =>
    rename_i p b b' t t'
    have he : foldCase '=' ∉ name := hn.equals
    obtain ⟨a, rfl, hin⟩ := ha.found_within he heq.symm
    by_cases ha₀ : a = []
    · -- the name of the flag itself
      subst ha₀
      have hgap : gap = [] := by
        cases gap with
        | nil => rfl
        | cons d gap =>
          injection hin with hd
          exact absurd (hd ▸ ha.blank d List.mem_cons_self) (by decide)
      subst hgap
      injection hin with hc hin
      subst hc
      have hgap' : gap' = [] := by
        cases gap' with
        | nil => rfl
        | cons d gap' =>
          obtain ⟨d', b, rfl⟩ := List.exists_cons_of_ne_nil hb
          injection hin with hd
          have := ha.blank' d List.mem_cons_self
          rw [hd, hsb d' List.mem_cons_self] at this
          cases this
      subst hgap'
      obtain ⟨rfl, rfl⟩ := break_unique ha.spaceless hsb ha.breaks ht hin
      have hchange := ha.change hf hb' hsb' ht'
      rw [List.append_nil]
      exact ⟨_, hchange.hit, rfl, next, ht, ht'⟩
    · obtain ⟨e, hlast, hes, hea⟩ := guards.last (by simp [hf])
      rw [List.getLast?_append_of_ne_nil _ ha₀] at hlast
      obtain ⟨q, rfl, hq, hv⟩ := ha.within hlast hes hea hin
      cases List.append_eq_append_iff.mp hv with
      | inl h =>
        -- the value ends before the flag
        obtain ⟨q', rfl, rfl⟩ := h
        have hq' : q' ≠ [] := by
          rintro rfl
          exact absurd (ha.breaks '=' rfl) (by decide)
        have hbreak : AtBreak q' := by
          intro d hd
          refine ha.breaks d ?_
          rw [List.head?_append_of_ne_nil _ hq', hd]
        have hbreak' : AtBreak (q' ++ '=' :: (b' ++ t')) := by
          intro d hd
          rw [List.head?_append_of_ne_nil _ hq'] at hd
          exact hbreak d hd
        have hguards : Guards none q' := by
          have hg : Guards before (found ++ (gap ++ c :: (gap' ++ value)) ++ q') := by simpa using guards
          exact hg.rest hq' hbreak
        have hchange := ha.change hf ha.value_ne_nil ha.spaceless hbreak'
        have hs' : found ++ (gap ++ c :: (gap' ++ (value ++ q'))) ++ '=' :: (b' ++ t') =
            found ++ (gap ++ c :: (gap' ++ (value ++ (q' ++ '=' :: (b' ++ t'))))) := by simp
        rw [hs']
        exact ⟨_, hchange.hit, rfl, .split hguards hb hb' hsb hsb' ht ht' next, ha.breaks, hbreak'⟩
      | inr h =>
        -- the value goes on to that of the flag
        obtain ⟨r, rfl, hrest⟩ := h
        obtain ⟨r, rfl, hr⟩ : ∃ r', r = '=' :: r' ∧ b ++ t = r' ++ rest := by
          cases r with
          | nil => exact absurd (ha.breaks '=' (by simpa using congrArg List.head? hrest.symm)) (by decide)
          | cons d r =>
            injection hrest with hd hr
            exact ⟨r, by rw [hd], hr⟩
        have hsr : Spaceless r := fun d hd => ha.spaceless d (by simp [hd])
        obtain ⟨rfl, rfl⟩ := break_unique hsb hsr ht ha.breaks hr
        have hval : Spaceless (q ++ '=' :: b') := by
          intro d hd
          simp only [List.mem_append, List.mem_cons] at hd
          obtain hd | rfl | hd := hd
          · exact ha.spaceless d (by simp [hd])
          · decide
          · exact hsb' d hd
        have hchange := ha.change hf (by simp) hval ht'
        have hs' : found ++ (gap ++ c :: (gap' ++ q)) ++ '=' :: (b' ++ t') =
            found ++ (gap ++ c :: (gap' ++ (q ++ '=' :: b' ++ t'))) := by simp
        rw [hs']
        exact ⟨_, hchange.hit, rfl, next, ha.breaks, ht'⟩

theorem Twin.findSome {names : List (List Char)} (hn : ∀ name ∈ names, IsSettingName name)
    (hw : Twin before s s')
    (hs : names.findSome? (fun name => CapiSsh.settingHit wide name before s) = some h) :
    ∃ h', names.findSome? (fun name => CapiSsh.settingHit wide name before s') = some h' ∧
      h.put = h'.put ∧ Twin none h.rest h'.rest ∧ AtBreak h.rest ∧ AtBreak h'.rest := by
  induction names with
  | nil => cases hs
  | cons name names ih =>
    rw [List.findSome?_cons] at hs ⊢
    cases hh : CapiSsh.settingHit wide name before s with
    | some k =>
      rw [hh] at hs
      cases hs
      obtain ⟨h', hh', hr⟩ := hw.settingHit (hn name List.mem_cons_self) hh
      exact ⟨h', by rw [hh'], hr⟩
    | none =>
      rw [hh] at hs
      have hh' : CapiSsh.settingHit wide name before s' = none := by
        cases hk : CapiSsh.settingHit wide name before s' with
        | none => rfl
        | some k =>
          obtain ⟨k', hk', -⟩ := hw.symm.settingHit (hn name List.mem_cons_self) hk
          rw [hh] at hk'
          cases hk'
      rw [hh']
      exact ih (fun n hm => hn n (List.mem_cons_of_mem name hm)) hs

/-- At a break it does not matter what stood before. -/
theorem rewrite_break (a b : Option Char) (hs : AtBreak s) :
    rewrite (settingsHit wide) a s = rewrite (settingsHit wide) b s := by
  cases s with
  | nil => rfl
  | cons c s =>
    have hc := settingNames_space (hs c rfl)
    rw [rewrite_none (settingsHit_none hc), rewrite_none (settingsHit_none hc)]

theorem isWordChar_fold {c : Char} (h : foldCase c = 't' ∨ foldCase c = 'n') : isWordChar wide c = true := by
  have hu : c.isUpper = decide (c.val ≥ 65 ∧ c.val ≤ 90) := rfl
  have ha : c.isAlphanum = (c.isUpper || c.isLower || c.isDigit) := rfl
  have hn : c.isAlphanum = true := by
    simp only [foldCase] at h
    by_cases h₁ : c.toNat = 0x212A
    · rw [if_pos h₁] at h
      exact absurd h (by decide)
    by_cases h₂ : c.toNat = 0x17F
    · rw [if_neg h₁, if_pos h₂] at h
      exact absurd h (by decide)
    by_cases h₃ : c.toNat = 0x130 ∨ c.toNat = 0x131
    · rw [if_neg h₁, if_neg h₂, if_pos h₃] at h
      exact absurd h (by decide)
    rw [if_neg h₁, if_neg h₂, if_neg h₃, asciiLower] at h
    by_cases h₄ : 65 ≤ c.toNat ∧ c.toNat ≤ 90
    · have : c.val ≥ 65 ∧ c.val ≤ 90 := h₄
      rw [ha, hu, decide_eq_true this]
      rfl
    · rw [if_neg h₄] at h
      rcases h with rfl | rfl <;> decide
  simp [isWordChar, hn]

/-- The flag itself is a match. -/
theorem settingsHit_token {k : List Char} (hk : k.map foldCase = "token".toList) (hb : b ≠ [])
    (hs : Spaceless b) (ht : AtBreak t) :
    settingsHit wide (some '-') (k ++ '=' :: (b ++ t)) ≠ none := by
  have hhead : k.head?.map foldCase = some 't' := by
    rw [← List.head?_map, hk]
    simp
  have hlast : k.getLast?.map foldCase = some 'n' := by
    rw [← List.getLast?_map, hk]
    simp
  obtain ⟨c, hc, hct⟩ := Option.map_eq_some_iff.mp hhead
  obtain ⟨e, he, hen⟩ := Option.map_eq_some_iff.mp hlast
  have hdash : isWordChar wide '-' = false := by
    simp [isWordChar]
  have hequals : isWordChar wide '=' = false := by
    simp [isWordChar]
  have hk₀ : k ≠ [] := by
    rintro rfl
    cases hc
  have ha : SettingAt wide "token".toList (some '-') k [] '=' [] b t := by
    refine ⟨hk, ?_, ?_, by simp [Blank], by decide, by simp [Blank], hb, hs, ht⟩
    · rw [List.head?_append_of_ne_nil _ hk₀, hc]
      simp [edge, hdash, isWordChar_fold (Or.inl hct)]
    · rw [he]
      simp [edge, hequals, isWordChar_fold (Or.inr hen)]
  have hh : settingHit wide "token".toList (some '-') (k ++ '=' :: (b ++ t)) = _ := ha.hit
  rw [settingsHit, settingNames, List.findSome?_cons, hh]
  simp

/-- The pass makes the same of twins. -/
theorem Twin.rewrite (hw : Twin before s s') :
    Substitution.rewrite (settingsHit wide) before s = Substitution.rewrite (settingsHit wide) before s' := by
  induction hn : s.length using Nat.strongRecOn generalizing before s s' with
  | ind n ih =>
    cases hs : settingsHit wide before s with
    | some h =>
      obtain ⟨h', hs', hput, hrest, hb, hb'⟩ := hw.findSome settingNames_ok hs
      have hl := settingsHit_advances wide _ _ _ hs
      rw [rewrite_some (settingsHit_advances wide) hs, rewrite_some (settingsHit_advances wide) hs', hput,
        rewrite_break h.last none hb, rewrite_break h'.last none hb', ih h.rest.length (hn ▸ hl) hrest rfl]
    | none =>
      have hs' : settingsHit wide before s' = none := by
        cases hk : settingsHit wide before s' with
        | none => rfl
        | some k =>
          obtain ⟨k', hk', -⟩ := hw.symm.findSome settingNames_ok hk
          rw [settingsHit] at hs
          rw [hs] at hk'
          cases hk'
      cases hw with
      | same => rfl
      | split guards hb hb' hsb hsb' ht ht' next =>
        rename_i p b b' t t'
        obtain ⟨k, hk, l, hl⟩ := guards
        cases p with
        | nil =>
          have := congrArg List.length hl
          have hlen := congrArg List.length hk
          simp only [List.length_map] at hlen
          cases before <;> simp [hlen] at this
        | cons c p =>
          have hg : Guards (some c) p := by
            cases before with
            | none => exact ⟨k, hk, l, hl⟩
            | some e =>
              cases l with
              | nil =>
                injection hl with he hl
                subst he hl
                exact absurd hs (settingsHit_token hk hb hsb ht)
              | cons d l =>
                injection hl with _ hl
                exact ⟨k, hk, l, hl⟩
          rw [List.cons_append] at hs hs'
          rw [List.cons_append, List.cons_append, rewrite_none hs, rewrite_none hs',
            ih _ (by rw [← hn]; simp) (.split hg hb hb' hsb hsb' ht ht' next) rfl]

end Twin

end CapiSsh
