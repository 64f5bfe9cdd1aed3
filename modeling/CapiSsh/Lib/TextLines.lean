import Mathlib.Data.List.Basic

/-!
# Texts and their lines

A shell has one line break and keeps the text behind the last one apart; a Python program
that splits a text has several and drops an empty last line. Where a text has no line
breaks but the shell's, the two agree up to that last line.
-/
namespace TextLines

abbrev Line := List Char

/-- The lines of a shell, with what stands behind the last line break. -/
def shellLines (text : List Char) : List Line := text.splitOn '\n'

/-- `"\n".join(lines)` -/
def join (lines : List Line) : List Char := ['\n'].intercalate lines

/-- The separators of `str.splitlines`, besides the pair of carriage return and newline. -/
def isLineBreak (c : Char) : Bool :=
  [10, 11, 12, 13, 28, 29, 30, 133, 8232, 8233].contains c.toNat

def consHead (c : Char) : List Line → List Line
  | [] => [[c]]
  | l :: ls => (c :: l) :: ls

/-- `str.splitlines` -/
def splitlines : List Char → List Line
  | [] => []
  | '\r' :: '\n' :: text => [] :: splitlines text
  | c :: text => if isLineBreak c then [] :: splitlines text else consHead c (splitlines text)

/-- The only line breaks of the text are newlines. -/
def Plain (text : List Char) : Prop := ∀ c ∈ text, isLineBreak c = true → c = '\n'

/-- What the lines of a shell have behind those of `splitlines`. -/
def closing (text : List Char) : List Line := if text.getLast?.getD '\n' = '\n' then [[]] else []

variable {text : List Char} {c : Char} {lines : List Line}

theorem Plain.tail (h : Plain (c :: text)) : Plain text := fun d hd => h d (List.mem_cons_of_mem c hd)

theorem splitlines_cons (hc : c ≠ '\r') : splitlines (c :: text) =
    if isLineBreak c then [] :: splitlines text else consHead c (splitlines text) := by
  rw [splitlines]
  rintro text' rfl
  exact absurd rfl hc

theorem splitlines_ne_nil (h : text ≠ []) : splitlines text ≠ [] := by
  fun_cases splitlines text with
  | case1 => exact absurd rfl h
  | case2 text => simp
  | case3 c text hc hb => simp
  | case4 c text hc hb =>
    have : consHead c (splitlines text) ≠ [] := by
      cases splitlines text <;> simp [consHead]
    simpa using this

theorem shellLines_eq (h : Plain text) : shellLines text = splitlines text ++ closing text := by
  induction text with
  | nil => rfl
  | cons c text ih =>
    have ih := ih h.tail
    have hc : isLineBreak c = true → c = '\n' := h c List.mem_cons_self
    have hr : c ≠ '\r' := by
      rintro rfl
      exact absurd (hc (by decide)) (by decide)
    simp only [shellLines] at ih ⊢
    rw [List.splitOn_cons_eq_if_modifyHead, splitlines_cons hr, ih]
    by_cases hn : c = '\n'
    · subst hn
      cases text with
      | nil => rfl
      | cons d text => simp [closing, isLineBreak]
    · have hb : isLineBreak c = false := by
        cases hb : isLineBreak c with
        | true => exact absurd (hc hb) hn
        | false => rfl
      cases text with
      | nil => simp [closing, hn, hb, splitlines, consHead]
      | cons d text =>
        have hne : splitlines (d :: text) ≠ [] := splitlines_ne_nil (by simp)
        obtain ⟨l, ls, hl⟩ := List.exists_cons_of_ne_nil hne
        simp [closing, hn, hb, hl, consHead]

theorem join_shellLines : join (shellLines text) = text := List.intercalate_splitOn '\n'

theorem shellLines_join (h : ∀ l ∈ lines, '\n' ∉ l) (hl : lines ≠ []) : shellLines (join lines) = lines :=
  List.splitOn_intercalate '\n' h hl

/-- No line of a text has a line break in it. -/
theorem splitlines_breaks (h : Plain text) : ∀ l ∈ splitlines text, ∀ c ∈ l, isLineBreak c = false := by
  induction text with
  | nil => simp [splitlines]
  | cons c text ih =>
    have ih := ih h.tail
    have hc : isLineBreak c = true → c = '\n' := h c List.mem_cons_self
    have hr : c ≠ '\r' := by
      rintro rfl
      exact absurd (hc (by decide)) (by decide)
    rw [splitlines_cons hr]
    cases hb : isLineBreak c with
    | true => simpa using ih
    | false =>
      cases hl : splitlines text with
      | nil => simp [consHead, hb]
      | cons l ls =>
        rw [hl] at ih
        simp only [Bool.false_eq_true, if_false, consHead, List.mem_cons] at ih ⊢
        rintro l' (rfl | hl') d hd
        · rcases List.mem_cons.mp hd with rfl | hd
          · exact hb
          · exact ih l (.inl rfl) d hd
        · exact ih l' (.inr hl') d hd

theorem plain_join (h : ∀ l ∈ lines, ∀ c ∈ l, isLineBreak c = false) : Plain (join lines) := by
  induction lines with
  | nil => simp [Plain, join]
  | cons l ls ih =>
    have ih := ih fun l' hl' => h l' (List.mem_cons_of_mem l hl')
    have hl : ∀ c ∈ l, isLineBreak c = true → c = '\n' := fun c hc hb => by
      rw [h l List.mem_cons_self c hc] at hb
      cases hb
    cases ls with
    | nil => simpa [Plain, join] using hl
    | cons l' ls =>
      intro c hc hb
      simp only [join, List.intercalate_cons_cons, List.mem_append, List.mem_singleton] at hc
      rcases hc with (hc | rfl) | hc
      · exact hl c hc hb
      · rfl
      · exact ih c hc hb

/-- Lines that are joined are split again, up to an empty last one. -/
theorem splitlines_join (h : ∀ l ∈ lines, ∀ c ∈ l, isLineBreak c = false)
    (hl : lines.getLast? ≠ some []) : splitlines (join lines) = lines := by
  by_cases hne : lines = []
  · subst hne
    rfl
  · have hn : ∀ l ∈ lines, '\n' ∉ l := fun l hl hc => absurd (h l hl '\n' hc) (by decide)
    have heq := (shellLines_join hn hne).symm.trans (shellLines_eq (plain_join h))
    by_cases hc : closing (join lines) = []
    · rw [hc, List.append_nil] at heq
      exact heq.symm
    · have hlast : closing (join lines) = [[]] := by
        simp only [closing] at hc ⊢
        by_cases hlast : (join lines).getLast?.getD '\n' = '\n'
        · rw [if_pos hlast]
        · rw [if_neg hlast] at hc
          exact absurd rfl hc
      rw [hlast] at heq
      rw [heq] at hl
      simp at hl

end TextLines
