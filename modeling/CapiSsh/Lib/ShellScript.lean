import CapiSsh.Lib.ShellWords
import CapiSsh.Lib.TextLines

/-!
# Scripts of literal commands

What a shell makes of a line of literal words: a simple command, or one that reads a here
document with a quoted delimiter and writes a file. A word with an expansion, a leading
assignment, a reserved word and every other operator are outside of this fragment, and the
reader says so. `Shell` is a shell that reads the fragment like that, and the rest of its
language as it likes.
-/
namespace ShellScript

open ShellWords TextLines

/-- What a shell takes literally between double quotes. -/
def isPlain (c : Char) : Bool := !(['$', '\\', '!', Char.ofNat 96].contains c)

/-- The word at the beginning of a text has no expansion and closes its quotes. -/
def literal : Quoting → List Char → Bool
  | .bare, [] => true
  | .single, [] | .double, [] => false
  | .bare, c :: s =>
    if c = apostrophe then literal .single s
    else if c = doubleQuote then literal .double s
    else if endsWord c then true
    else isSafe c && literal .bare s
  | .single, c :: s => if c = apostrophe then literal .bare s else literal .single s
  | .double, c :: s => if c = doubleQuote then literal .bare s else isPlain c && literal .double s

inductive Element where
  | word (w : List Char)
  | input (delimiter : List Char)
  | output (path : List Char)
  deriving DecidableEq, Repr

/-- A blank or the end of the line follows. -/
def closed : List Char → Bool
  | [] => true
  | c :: _ => c == ' ' || c == '\n'

/-- The words and redirections up to the end of the line. -/
def elements : Nat → List Char → Option (List Element × List Char)
  | 0, _ => none
  | _ + 1, [] => some ([], [])
  | n + 1, c :: s =>
    if c = '\n' then some ([], s)
    else if c = ' ' then elements n s
    else if c = '<' then
      if s.head? = some '<' && s.tail.head? = some apostrophe && literal .single s.tail.tail &&
          closed (word .single s.tail.tail).2 then
        (elements n (word .single s.tail.tail).2).map fun r => (.input (word .single s.tail.tail).1 :: r.1, r.2)
      else none
    else if c = '>' then
      if s.head? = some ' ' && !endsWord (s.tail.head?.getD ' ') && literal .bare s.tail &&
          closed (word .bare s.tail).2 then
        (elements n (word .bare s.tail).2).map fun r => (.output (word .bare s.tail).1 :: r.1, r.2)
      else none
    else if c = '#' || endsWord c || !literal .bare (c :: s) || !closed (word .bare (c :: s)).2 then none
    else (elements n (word .bare (c :: s)).2).map fun r => (.word (word .bare (c :: s)).1 :: r.1, r.2)

def Element.argument : Element → Option (List Char)
  | .word w => some w
  | _ => none

def Element.delimiter : Element → Option (List Char)
  | .input d => some d
  | _ => none

def Element.target : Element → Option (List Char)
  | .output p => some p
  | _ => none

/-- The lines in front of the delimiter, with those behind it. -/
def hereLines (delimiter : Line) : List Line → Option (List Char × List Line)
  | [] => none
  | l :: ls => if l = delimiter then some ([], ls) else (hereLines delimiter ls).map fun r => (l ++ '\n' :: r.1, r.2)

inductive Statement where
  | command (argv : List (List Char))
  | hereDocument (argv : List (List Char)) (path : List Char) (body : List Char)
  deriving DecidableEq, Repr

def isNameStart (c : Char) : Bool := c.isAlpha || c == '_'

def isNameChar (c : Char) : Bool := c.isAlphanum || c == '_'

def reservedWords : List (List Char) :=
  ["if".toList, "then".toList, "elif".toList, "else".toList, "fi".toList, "time".toList, "for".toList, "in".toList,
    "until".toList, "while".toList, "do".toList, "done".toList, "case".toList, "esac".toList, "coproc".toList,
    "select".toList, "function".toList]

/-- `NAME=value` and `NAME+=value`, as they are written. -/
def isAssignment (text : List Char) : Bool :=
  (match text with
    | c :: _ => isNameStart c
    | [] => false) &&
  (let rest := text.dropWhile isNameChar
   rest.head? == some '=' || (rest.head? == some '+' && rest.tail.head? == some '='))

/-- The text of the first word, as it is written, is neither of the two. -/
def namesCommand (text : List Char) : Bool :=
  let written := (text.dropWhile (· == ' ')).take
    ((text.dropWhile (· == ' ')).length - (word .bare (text.dropWhile (· == ' '))).2.length)
  !reservedWords.contains written && !isAssignment written

def statement (text : List Char) : Option (Statement × List Char) :=
  match elements (text.length + 1) text with
  | none => none
  | some (es, rest) =>
    if (es.head?.bind Element.argument).isNone || !namesCommand text then none
    else match es.filterMap Element.delimiter, es.filterMap Element.target with
      | [], [] => some (.command (es.filterMap Element.argument), rest)
      | [d], [p] => (hereLines d (shellLines rest)).map fun r =>
        (.hereDocument (es.filterMap Element.argument) p r.1, join r.2)
      | _, _ => none

/-- A shell: `Foreign` are its commands outside of the fragment. -/
inductive Item (Foreign : Type) where
  | statement (s : Statement)
  | foreign (a : Foreign)

/-- A shell drops it. -/
def nul : Char := Char.ofNat 0

/-- The laws of a shell: what it reads where a text begins with a comment, an empty line or
a statement of the fragment. -/
structure ShellLaws {Foreign : Type} (parse : List Char → List (Item Foreign)) : Prop where
  nil : parse [] = []
  blank : ∀ text, parse ('\n' :: text) = parse text
  comment : ∀ line text, '\n' ∉ line → parse ('#' :: (line ++ '\n' :: text)) = parse text
  statement : ∀ text s rest, nul ∉ text → ShellScript.statement text = some (s, rest) → parse text = .statement s :: parse rest

variable {s rest : List Char} {c : Char}

theorem literal_end (h : endsWord c = true) : literal .bare (c :: rest) = true := by
  rw [literal]
  have hc : c ≠ apostrophe ∧ c ≠ doubleQuote := by
    constructor
    · rintro rfl
      revert h
      decide
    · rintro rfl
      revert h
      decide
  rw [if_neg hc.1, if_neg hc.2, if_pos h]

theorem literal_safe (hs : s.all isSafe = true) (h : endsWord c = true) : literal .bare (s ++ c :: rest) = true := by
  induction s with
  | nil => exact literal_end h
  | cons a s ih =>
    rw [List.all_cons, Bool.and_eq_true] at hs
    obtain ⟨h₁, h₂, h₃⟩ := safe_bare hs.1
    simp [literal, h₁, h₂, h₃, hs.1, ih hs.2]

theorem literal_escape (h : endsWord c = true) : literal .single (escape s ++ apostrophe :: c :: rest) = true := by
  induction s with
  | nil =>
    rw [escape, List.nil_append, literal, if_pos rfl]
    exact literal_end h
  | cons a s ih =>
    by_cases ha : a = apostrophe
    · subst ha
      have hne : apostrophe ≠ doubleQuote := by decide
      have hplain : isPlain apostrophe = true := by decide
      simp [escape, literal, hne, hne.symm, hplain, ih]
    · simp [escape, literal, ha, ih]

/-- A quoted word has no expansion. -/
theorem literal_quote (s : List Char) (h : endsWord c = true) : literal .bare (quote s ++ c :: rest) = true := by
  by_cases hn : s = []
  · subst hn
    rw [quote, if_pos rfl, List.cons_append, List.cons_append, List.nil_append, literal, if_pos rfl, literal, if_pos rfl]
    exact literal_end h
  by_cases hs : s.all isSafe = true
  · rw [quote, if_neg hn, if_pos hs]
    exact literal_safe hs h
  · rw [quote, if_neg hn, if_neg hs, List.cons_append, literal, if_pos rfl]
    simpa using literal_escape h

/-- A quoted word begins with a character of its own. -/
theorem quote_cons (s : List Char) : ∃ a t, quote s = a :: t ∧ endsWord a = false ∧ a ≠ '#' := by
  by_cases hn : s = []
  · exact ⟨apostrophe, [apostrophe], by rw [quote, if_pos hn], by decide, by decide⟩
  by_cases hs : s.all isSafe = true
  · obtain ⟨a, t, rfl⟩ := List.exists_cons_of_ne_nil hn
    have ha : isSafe a = true := by
      rw [List.all_cons, Bool.and_eq_true] at hs
      exact hs.1
    refine ⟨a, t, by rw [quote, if_neg hn, if_pos hs], (safe_bare ha).2.2, ?_⟩
    rintro rfl
    revert ha
    decide
  · exact ⟨apostrophe, escape s ++ [apostrophe], by rw [quote, if_neg hn, if_neg hs], by decide, by decide⟩

theorem endsWord_blank (h : c = ' ' ∨ c = '\n') : endsWord c = true := by
  obtain rfl | rfl := h <;> decide

theorem ne_of_endsWord {a b : Char} (ha : endsWord a = false) (hb : endsWord b = true) : a ≠ b := by
  rintro rfl
  rw [ha] at hb
  cases hb

theorem closed_cons (h : c = ' ' ∨ c = '\n') : closed (c :: rest) = true := by
  obtain rfl | rfl := h <;> rfl

theorem elements_newline (n : Nat) (s : List Char) : elements (n + 1) ('\n' :: s) = some ([], s) := by
  rw [elements, if_pos rfl]

theorem elements_blank (n : Nat) (s : List Char) : elements (n + 1) (' ' :: s) = elements n s := by
  rw [elements, if_neg (by decide), if_pos rfl]

/-- It is one element of its line. -/
theorem elements_quote (n : Nat) (s : List Char) (h : c = ' ' ∨ c = '\n') :
    elements (n + 1) (quote s ++ c :: rest) = (elements n (c :: rest)).map fun r => (.word s :: r.1, r.2) := by
  have hend := endsWord_blank h
  have hword : word .bare (quote s ++ c :: rest) = (s, c :: rest) := word_quote s hend
  have hlit : literal .bare (quote s ++ c :: rest) = true := literal_quote s hend
  obtain ⟨a, t, hq, ha, hne⟩ := quote_cons s
  rw [hq, List.cons_append] at hword hlit ⊢
  have hline : a ≠ '\n' := ne_of_endsWord ha (by decide)
  have hspace : a ≠ ' ' := ne_of_endsWord ha (by decide)
  have hless : a ≠ '<' := ne_of_endsWord ha (by decide)
  have hgreater : a ≠ '>' := ne_of_endsWord ha (by decide)
  simp [elements, hline, hspace, hless, hgreater, hne, ha, hlit, hword, closed_cons h]

/-- Arguments as they are written behind the name of a command. -/
def arguments (args : List (List Char)) : List Char := args.flatMap fun a => ' ' :: quote a

theorem arguments_cons (a : List Char) (args : List (List Char)) (rest : List Char) :
    arguments (a :: args) ++ rest = ' ' :: (quote a ++ (arguments args ++ rest)) := by
  simp [arguments]

/-- Behind a quoted word, more arguments or the end of the line follow. -/
theorem arguments_head (args : List (List Char)) (rest : List Char) :
    ∃ c t, arguments args ++ '\n' :: rest = c :: t ∧ (c = ' ' ∨ c = '\n') := by
  cases args with
  | nil => exact ⟨'\n', rest, rfl, .inr rfl⟩
  | cons a args =>
    rw [arguments_cons]
    exact ⟨_, _, rfl, .inl rfl⟩

/-- Quoted arguments are read back. -/
theorem elements_arguments (args : List (List Char)) (rest : List Char) {n : Nat} (hn : 2 * args.length < n) :
    elements n (arguments args ++ '\n' :: rest) = some (args.map .word, rest) := by
  induction args generalizing n with
  | nil =>
    obtain ⟨m, rfl⟩ : ∃ m, n = m + 1 := ⟨n - 1, by omega⟩
    exact elements_newline m rest
  | cons a args ih =>
    rw [List.length_cons] at hn
    obtain ⟨m, rfl⟩ : ∃ m, n = m + 1 + 1 := ⟨n - 2, by omega⟩
    obtain ⟨c, t, ht, hc⟩ := arguments_head args rest
    rw [arguments_cons, elements_blank, ht, elements_quote m a hc, ← ht, ih (by omega)]
    rfl

theorem quote_length (s : List Char) : 1 ≤ (quote s).length := by
  obtain ⟨a, t, hq, -⟩ := quote_cons s
  simp [hq]

theorem arguments_length (args : List (List Char)) : 2 * args.length ≤ (arguments args).length := by
  induction args with
  | nil => simp
  | cons a args ih =>
    have := quote_length a
    simp only [arguments, List.flatMap_cons, List.length_append, List.length_cons] at ih ⊢
    omega

/-- The name is not a reserved word and no assignment, as it is written. -/
def CommandName (name : List Char) : Prop := quote name ∉ reservedWords ∧ isAssignment (quote name) = false

instance (name : List Char) : Decidable (CommandName name) :=
  inferInstanceAs (Decidable (quote name ∉ reservedWords ∧ isAssignment (quote name) = false))

theorem namesCommand_quote {name : List Char} (hname : CommandName name) (h : c = ' ' ∨ c = '\n') :
    namesCommand (quote name ++ c :: rest) = true := by
  have hword : word .bare (quote name ++ c :: rest) = (name, c :: rest) := word_quote name (endsWord_blank h)
  have hfront : (quote name ++ c :: rest).dropWhile (· == ' ') = quote name ++ c :: rest := by
    obtain ⟨a, t, hq, ha, -⟩ := quote_cons name
    have hspace : a ≠ ' ' := ne_of_endsWord ha (by decide)
    simp [hq, hspace]
  have hwritten : (quote name ++ c :: rest).take ((quote name ++ c :: rest).length - (c :: rest).length) = quote name := by
    rw [List.length_append, Nat.add_sub_cancel, List.take_left]
  simp only [namesCommand, hfront, hword, hwritten]
  simp [hname.1, hname.2]

theorem arguments_words (args : List (List Char)) : (args.map Element.word).filterMap Element.argument = args ∧
    (args.map Element.word).filterMap Element.delimiter = [] ∧ (args.map Element.word).filterMap Element.target = [] := by
  induction args with
  | nil => exact ⟨rfl, rfl, rfl⟩
  | cons a args ih =>
    obtain ⟨h₁, h₂, h₃⟩ := ih
    simp_all [Element.argument, Element.delimiter, Element.target]

/-- A line of quoted words is a simple command with exactly these words. -/
theorem statement_command {name : List Char} (hname : CommandName name) (args : List (List Char)) (rest : List Char) :
    statement (quote name ++ (arguments args ++ '\n' :: rest)) = some (.command (name :: args), rest) := by
  obtain ⟨c, t, ht, hc⟩ := arguments_head args rest
  have hlen : 2 * args.length < (quote name ++ (arguments args ++ '\n' :: rest)).length := by
    have := quote_length name
    have := arguments_length args
    simp only [List.length_append, List.length_cons]
    omega
  have helements : elements ((quote name ++ (arguments args ++ '\n' :: rest)).length + 1)
      (quote name ++ (arguments args ++ '\n' :: rest)) = some ((name :: args).map .word, rest) := by
    rw [ht, elements_quote _ name hc, ← ht, elements_arguments args rest hlen]
    rfl
  have hnames : namesCommand (quote name ++ (arguments args ++ '\n' :: rest)) = true := by
    rw [ht]
    exact namesCommand_quote hname hc
  obtain ⟨h₁, h₂, h₃⟩ := arguments_words (name :: args)
  rw [statement, helements]
  simp only [hnames, h₁, h₂, h₃]
  simp [Element.argument]

theorem shellLines_cons {l : Line} (h : '\n' ∉ l) (text : List Char) :
    shellLines (l ++ '\n' :: text) = l :: shellLines text := by
  induction l with
  | nil => simp [shellLines, List.splitOn_cons_eq_if_modifyHead]
  | cons a l ih =>
    rw [List.mem_cons, not_or] at h
    have hne : a ≠ '\n' := Ne.symm h.1
    have ih := ih h.2
    simp only [shellLines] at ih ⊢
    rw [List.cons_append, List.splitOn_cons_eq_if_modifyHead, ih]
    simp [hne]

/-- Lines that each end with a line break. -/
def unlines (lines : List Line) : List Char := lines.flatMap fun l => l ++ ['\n']

/-- A here-document ends at the first line that is its delimiter. -/
theorem hereLines_read {d : Line} {lines : List Line} (hd : d ∉ lines) (hn : ∀ l ∈ lines, '\n' ∉ l) (hdn : '\n' ∉ d)
    (rest : List Char) :
    hereLines d (shellLines (unlines lines ++ (d ++ '\n' :: rest))) = some (unlines lines, shellLines rest) := by
  induction lines with
  | nil =>
    rw [unlines, List.flatMap_nil, List.nil_append, shellLines_cons hdn, hereLines, if_pos rfl]
  | cons l lines ih =>
    rw [List.mem_cons, not_or] at hd
    have ih := ih hd.2 fun l' hl' => hn l' (List.mem_cons_of_mem l hl')
    have htext : unlines (l :: lines) ++ (d ++ '\n' :: rest) = l ++ '\n' :: (unlines lines ++ (d ++ '\n' :: rest)) := by
      simp [unlines]
    rw [htext, shellLines_cons (hn l List.mem_cons_self), hereLines, if_neg (Ne.symm hd.1), ih]
    simp [unlines]

theorem word_single {d : List Char} (h : apostrophe ∉ d) (hc : endsWord c = true) :
    word .single (d ++ apostrophe :: c :: rest) = (d, c :: rest) := by
  induction d with
  | nil =>
    rw [List.nil_append, word_closes]
    exact word_end hc
  | cons a d ih =>
    rw [List.mem_cons, not_or] at h
    simp [word, Ne.symm h.1, ih h.2]

theorem literal_single {d : List Char} (h : apostrophe ∉ d) (hc : endsWord c = true) :
    literal .single (d ++ apostrophe :: c :: rest) = true := by
  induction d with
  | nil =>
    rw [List.nil_append, literal, if_pos rfl]
    exact literal_end hc
  | cons a d ih =>
    rw [List.mem_cons, not_or] at h
    simp [literal, Ne.symm h.1, ih h.2]

/-- The first line of a here document. -/
def hereStart (name d path : List Char) : List Char :=
  quote name ++ ([' ', '<', '<', apostrophe] ++ (d ++ ([apostrophe, ' ', '>', ' '] ++ quote path)))

theorem elements_input {d : List Char} (hd : apostrophe ∉ d) (n : Nat) :
    elements (n + 1) ('<' :: '<' :: apostrophe :: (d ++ apostrophe :: ' ' :: rest)) =
      (elements n (' ' :: rest)).map fun r => (.input d :: r.1, r.2) := by
  have hend : endsWord ' ' = true := by decide
  rw [elements, if_neg (by decide), if_neg (by decide), if_pos rfl]
  simp [literal_single hd hend, word_single hd hend, closed]

theorem elements_output (path : List Char) (n : Nat) :
    elements (n + 1) ('>' :: ' ' :: (quote path ++ '\n' :: rest)) =
      (elements n ('\n' :: rest)).map fun r => (.output path :: r.1, r.2) := by
  have hend : endsWord '\n' = true := by decide
  have hword : word .bare (quote path ++ '\n' :: rest) = (path, '\n' :: rest) := word_quote path hend
  have hlit : literal .bare (quote path ++ '\n' :: rest) = true := literal_quote path hend
  obtain ⟨a, t, hq, ha, -⟩ := quote_cons path
  rw [hq, List.cons_append] at hword hlit ⊢
  rw [elements, if_neg (by decide), if_neg (by decide), if_neg (by decide), if_pos rfl]
  simp [ha, hlit, hword, closed]

/-- The line that opens one names the command, the delimiter and the target. -/
theorem elements_hereStart {name d : List Char} (path : List Char) (hd : apostrophe ∉ d) {n : Nat} (hn : 7 ≤ n)
    (rest : List Char) : elements n (hereStart name d path ++ '\n' :: rest) =
      some ([.word name, .input d, .output path], rest) := by
  obtain ⟨m, rfl⟩ : ∃ m, n = m + 7 := ⟨n - 7, by omega⟩
  have htext : hereStart name d path ++ '\n' :: rest = quote name ++ ' ' :: ('<' :: '<' :: apostrophe ::
      (d ++ apostrophe :: ' ' :: ('>' :: ' ' :: (quote path ++ '\n' :: rest)))) := by
    simp [hereStart]
  rw [htext, elements_quote (m + 6) name (.inl rfl), elements_blank, elements_input hd, elements_blank, elements_output,
    elements_newline]
  rfl

/-- A here document writes its lines, each with a line break, up to its delimiter. -/
theorem statement_hereDocument {name d : List Char} (path : List Char) {lines : List Line} (hname : CommandName name)
    (hd : apostrophe ∉ d) (hdn : '\n' ∉ d) (hout : d ∉ lines) (hn : ∀ l ∈ lines, '\n' ∉ l) (rest : List Char) :
    statement (hereStart name d path ++ '\n' :: (unlines lines ++ (d ++ '\n' :: rest))) =
      some (.hereDocument [name] path (unlines lines), rest) := by
  have hlen : 7 ≤ (hereStart name d path ++ '\n' :: (unlines lines ++ (d ++ '\n' :: rest))).length + 1 := by
    simp only [hereStart, List.length_append, List.length_cons, List.length_nil]
    omega
  have hnames : namesCommand (hereStart name d path ++ '\n' :: (unlines lines ++ (d ++ '\n' :: rest))) = true := by
    have htext : hereStart name d path ++ '\n' :: (unlines lines ++ (d ++ '\n' :: rest)) = quote name ++ ' ' ::
        ('<' :: '<' :: apostrophe :: (d ++ apostrophe :: ' ' :: '>' :: ' ' :: (quote path ++ '\n' ::
          (unlines lines ++ (d ++ '\n' :: rest))))) := by
      simp [hereStart]
    rw [htext]
    exact namesCommand_quote hname (.inl rfl)
  have hwords : ([.word name, .input d, .output path] : List Element).filterMap Element.argument = [name] := rfl
  have hinputs : ([.word name, .input d, .output path] : List Element).filterMap Element.delimiter = [d] := rfl
  have houtputs : ([.word name, .input d, .output path] : List Element).filterMap Element.target = [path] := rfl
  rw [statement, elements_hereStart path hd hlen]
  simp only [hnames, hwords, hinputs, houtputs, hereLines_read hout hn hdn, Option.map_some, join_shellLines]
  rfl

/-- The text is read as these items, whatever follows it. -/
def Reads {Foreign : Type} (parse : List Char → List (Item Foreign)) (text : List Char) (items : List (Item Foreign)) : Prop :=
  ∀ rest, nul ∉ text ++ rest → parse (text ++ rest) = items ++ parse rest

section reads

variable {Foreign : Type} {parse : List Char → List (Item Foreign)} {text text' : List Char} {items items' : List (Item Foreign)}

theorem reads_nil : Reads parse [] [] := fun _ _ => rfl

/-- Texts that are read are read one after the other. -/
theorem reads_append (h : Reads parse text items) (h' : Reads parse text' items') :
    Reads parse (text ++ text') (items ++ items') := by
  intro rest hclean
  rw [List.append_assoc] at hclean ⊢
  have hclean' : nul ∉ text' ++ rest := fun hmem => hclean (List.mem_append_right _ hmem)
  rw [h _ hclean, h' _ hclean', List.append_assoc]

theorem reads_flatMap {α : Type} {f : α → List Char} {g : α → List (Item Foreign)} {as : List α}
    (h : ∀ a ∈ as, Reads parse (f a) (g a)) : Reads parse (as.flatMap f) (as.flatMap g) := by
  induction as with
  | nil => exact reads_nil
  | cons a as ih =>
    rw [List.flatMap_cons, List.flatMap_cons]
    exact reads_append (h a List.mem_cons_self) (ih fun b hb => h b (List.mem_cons_of_mem a hb))

/-- A command line of quoted words is that command. -/
theorem reads_command (hS : ShellLaws parse) {name : List Char} (hn : CommandName name) (args : List (List Char)) :
    Reads parse (quote name ++ (arguments args ++ ['\n'])) [.statement (.command (name :: args))] := by
  intro rest hclean
  have htext : quote name ++ (arguments args ++ ['\n']) ++ rest = quote name ++ (arguments args ++ '\n' :: rest) := by simp
  rw [htext] at hclean ⊢
  exact hS.statement _ _ _ hclean (statement_command hn args rest)

/-- A here-document with a quoted delimiter is taken literally. -/
theorem reads_hereDocument (hS : ShellLaws parse) {name d : List Char} (path : List Char) {lines : List Line} (hname : CommandName name)
    (hd : apostrophe ∉ d) (hdn : '\n' ∉ d) (hout : d ∉ lines) (hn : ∀ l ∈ lines, '\n' ∉ l) :
    Reads parse (hereStart name d path ++ '\n' :: (unlines lines ++ (d ++ ['\n'])))
      [.statement (.hereDocument [name] path (unlines lines))] := by
  intro rest hclean
  have htext : hereStart name d path ++ '\n' :: (unlines lines ++ (d ++ ['\n'])) ++ rest =
      hereStart name d path ++ '\n' :: (unlines lines ++ (d ++ '\n' :: rest)) := by
    simp
  rw [htext] at hclean ⊢
  exact hS.statement _ _ _ hclean (statement_hereDocument path hname hd hdn hout hn rest)

theorem reads_comment (hS : ShellLaws parse) {line : List Char} (h : '\n' ∉ line) : Reads parse ('#' :: (line ++ ['\n'])) [] := by
  intro rest _
  have h := hS.comment line rest h
  simpa using h

end reads

/-- What is outside of the fragment is left as it stands. -/
def readFrom : Nat → List Char → List (Item (List Char))
  | 0, _ => []
  | _ + 1, [] => []
  | n + 1, c :: s =>
    if c = '\n' then readFrom n s
    else if c = '#' then readFrom n ((s.dropWhile (· != '\n')).drop 1)
    else match statement (c :: s) with
      | some (st, rest) => .statement st :: readFrom n rest
      | none => [.foreign (c :: s)]

def read (text : List Char) : List (Item (List Char)) := readFrom (text.length + 1) text

theorem word_shorter (h : endsWord c = false) : (word .bare (c :: s)).2.length < (c :: s).length := by
  have hb := word_length .bare s
  have hs := word_length .single s
  have hd := word_length .double s
  rw [word, List.length_cons, h]
  split
  · omega
  · split
    · omega
    · exact Nat.lt_succ_of_le hb

theorem elements_length {n : Nat} {text : List Char} {es : List Element} (h : elements n text = some (es, rest)) :
    rest.length + es.length ≤ text.length := by
  have hone : ∀ {m : Nat} {t : List Char} {e : Element} {es : List Element},
      (elements m t).map (fun r => (e :: r.1, r.2)) = some (es, rest) →
        ∃ es', elements m t = some (es', rest) ∧ es = e :: es' := by
    intro m t e es hm
    obtain ⟨⟨es', rest'⟩, hr, heq⟩ := Option.map_eq_some_iff.mp hm
    cases heq
    exact ⟨es', hr, rfl⟩
  induction n generalizing text es with
  | zero => cases h
  | succ n ih =>
    cases text with
    | nil =>
      cases h
      simp
    | cons c s =>
      rw [elements] at h
      split at h
      · cases h
        simp
      · split at h
        · have := ih h
          rw [List.length_cons]
          omega
        · split at h
          · split at h
            · obtain ⟨es', he, rfl⟩ := hone h
              have := ih he
              have := word_length .single s.tail.tail
              simp only [List.length_tail, List.length_cons] at *
              omega
            · cases h
          · split at h
            · split at h
              · obtain ⟨es', he, rfl⟩ := hone h
                have := ih he
                have := word_length .bare s.tail
                simp only [List.length_tail, List.length_cons] at *
                omega
              · cases h
            · split at h
              · cases h
              · next hcond =>
                obtain ⟨es', he, rfl⟩ := hone h
                have hc : endsWord c = false := by
                  simp only [Bool.or_eq_true, not_or, Bool.not_eq_true] at hcond
                  exact hcond.1.1.2
                have := ih he
                have := word_shorter (s := s) hc
                simp only [List.length_cons] at *
                omega

theorem join_cons_length (l : Line) (ls : List Line) : (join ls).length ≤ (join (l :: ls)).length := by
  cases ls with
  | nil => simp [join]
  | cons l' ls =>
    simp only [join, List.intercalate_cons_cons, List.length_append]
    omega

theorem hereLines_length {d : Line} {ls rest : List Line} {body : List Char} (h : hereLines d ls = some (body, rest)) :
    (join rest).length ≤ (join ls).length := by
  induction ls generalizing body with
  | nil => cases h
  | cons l ls ih =>
    rw [hereLines] at h
    split at h
    · cases h
      exact join_cons_length l rest
    · obtain ⟨⟨body', rest'⟩, hr, heq⟩ := Option.map_eq_some_iff.mp h
      cases heq
      exact Nat.le_trans (ih hr) (join_cons_length l ls)

/-- A statement has at least a word. -/
theorem statement_shorter {text : List Char} {st : Statement} (h : statement text = some (st, rest)) :
    rest.length < text.length := by
  rw [statement] at h
  split at h
  · cases h
  · next es tail he =>
    have hlen := elements_length he
    split at h
    · cases h
    · next hhead =>
      have hes : 0 < es.length := by
        cases es with
        | nil => simp at hhead
        | cons e es => simp
      split at h
      · cases h
        omega
      · obtain ⟨⟨body, ls⟩, hr, heq⟩ := Option.map_eq_some_iff.mp h
        cases heq
        have hle := hereLines_length hr
        rw [join_shellLines] at hle
        simp only
        omega
      · cases h

theorem readFrom_fuel {n m : Nat} {text : List Char} (hn : text.length < n) (hm : text.length < m) :
    readFrom n text = readFrom m text := by
  induction n generalizing m text with
  | zero => omega
  | succ n ih =>
    obtain ⟨k, rfl⟩ : ∃ k, m = k + 1 := ⟨m - 1, by omega⟩
    cases text with
    | nil => rfl
    | cons c s =>
      rw [List.length_cons] at hn hm
      rw [readFrom, readFrom]
      split
      · exact ih (by omega) (by omega)
      · split
        · have hle := (List.dropWhile_suffix (· != '\n') (l := s)).length_le
          have hdrop : ((s.dropWhile (· != '\n')).drop 1).length ≤ s.length := by
            rw [List.length_drop]
            omega
          exact ih (by omega) (by omega)
        · cases hs : statement (c :: s) with
          | none => rfl
          | some r =>
            obtain ⟨st, rest⟩ := r
            have hlt := statement_shorter hs
            rw [List.length_cons] at hlt
            simp only [List.cons.injEq, true_and]
            exact ih (by omega) (by omega)

theorem read_laws : ShellLaws read := by
  constructor
  · rfl
  · intro text
    rw [read, List.length_cons, readFrom, if_pos rfl, read]
  · intro line text hline
    have hne : ∀ c ∈ line, (c != '\n') = true := by
      intro c hc
      rw [bne_iff_ne]
      rintro rfl
      exact hline hc
    have hdrop : ((line ++ '\n' :: text).dropWhile (· != '\n')).drop 1 = text := by
      rw [List.dropWhile_append_of_pos hne]
      simp
    rw [read, List.length_cons, readFrom, if_neg (by decide), if_pos rfl, hdrop, read]
    exact readFrom_fuel (by simp; omega) (by omega)
  · intro text st rest _ hs
    have hlt := statement_shorter hs
    cases text with
    | nil => simp at hlt
    | cons c s =>
      have hline : c ≠ '\n' := by
        rintro rfl
        rw [statement, List.length_cons, elements_newline] at hs
        simp at hs
      have hhash : c ≠ '#' := by
        rintro rfl
        simp [statement, elements] at hs
      rw [read, readFrom, if_neg hline, if_neg hhash, hs]
      simp only [List.cons.injEq, true_and]
      exact readFrom_fuel (by omega) (by omega)

end ShellScript
