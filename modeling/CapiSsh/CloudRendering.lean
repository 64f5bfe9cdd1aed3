import CapiSsh.CloudConfig

/-!
# What a shell reads in a rendered cloud-config

The script of an accepted payload, read by a shell: the commands of each `write_files`
entry, each word exactly as the entry has it, and then those of `runcmd`. A content is
written line by line, so its line breaks become newlines and its last line gets one.
-/
namespace CapiSsh.CloudConfig

open DataTree TextLines ShellScript ShellWords

structure FileRequest where
  path : List Char
  content : List Char
  permissions : Option (List Char)
  owner : Option (List Char)
  deriving DecidableEq, Repr

def requestOf (idx : Nat) (file : CloudFile) : Except Exc FileRequest := do
  let content ← decodeCloudWriteFileContent file.entry idx
  let permissions ← permissionsOf idx file.entry
  let owner ← ownerOf idx file.entry
  pure ⟨file.path, content, permissions, owner⟩

/-- The file that is written for a content. -/
def written (content : List Char) : List Char := unlines (splitlines content)

def installWords (path : List Char) : List (List Char) :=
  ["install".toList, "-d".toList, "-m".toList, "0755".toList, directoryOf path]

/-- The commands for an entry. -/
def FileRequest.statements (r : FileRequest) : List Statement :=
  [.command (installWords r.path), .hereDocument ["cat".toList] r.path (written r.content)] ++
    ((r.permissions.toList.map fun mode => .command ["chmod".toList, mode, r.path]) ++
      r.owner.toList.map fun owner => .command ["chown".toList, owner, r.path])

def FileRequest.lines (idx : Nat) (r : FileRequest) : List Line :=
  [installText ++ ShellWords.quote (directoryOf r.path), catLine idx r.path] ++
    (splitlines r.content ++ [marker idx] ++
      ((r.permissions.toList.map fun mode => chmodText ++ (ShellWords.quote mode ++ ' ' :: ShellWords.quote r.path)) ++
        r.owner.toList.map fun owner => chownText ++ (ShellWords.quote owner ++ ' ' :: ShellWords.quote r.path)))

theorem fileLines_request (idx : Nat) (file : CloudFile) :
    fileLines idx file = (requestOf idx file).map (FileRequest.lines idx) := by
  have hsplit : ∀ content : List Char, (if content ≠ [] then splitlines content else []) = splitlines content := by
    intro content
    split
    · rfl
    · next h =>
      rw [ne_eq, not_not] at h
      rw [h]
      rfl
  rw [fileLines, requestOf]
  cases hc : decodeCloudWriteFileContent file.entry idx with
  | error e => rfl
  | ok content =>
    cases hp : permissionsOf idx file.entry with
    | error e => rfl
    | ok permissions =>
      cases ho : ownerOf idx file.entry with
      | error e => rfl
      | ok owner =>
        simp only [bind, Except.bind, pure, Except.pure, Except.map, hsplit, FileRequest.lines]
        cases permissions <;> cases owner <;> simp

theorem splitlines_unbroken (text : List Char) : ∀ l ∈ splitlines text, ∀ c ∈ l, isLineBreak c = false := by
  fun_induction splitlines text with
  | case1 => simp
  | case2 text ih => simpa using ih
  | case3 c text hc hb ih => simpa using ih
  | case4 c text hc hb ih =>
    have hb' : isLineBreak c = false := by simpa using hb
    cases hl : splitlines text with
    | nil => simp [consHead, hb']
    | cons l ls =>
      rw [hl] at ih
      intro l' hl' d hd
      obtain rfl | hmem := List.mem_cons.mp hl'
      · obtain rfl | hd := List.mem_cons.mp hd
        · exact hb'
        · exact ih l List.mem_cons_self d hd
      · exact ih l' (List.mem_cons_of_mem l hmem) d hd

/-- Lines hold no newline. -/
theorem newline_out {text : List Char} : ∀ l ∈ splitlines text, '\n' ∉ l := by
  intro l hl hn
  have := splitlines_unbroken text l hl '\n' hn
  revert this
  decide

theorem unlines_append (ls ls' : List Line) : unlines (ls ++ ls') = unlines ls ++ unlines ls' := by simp [unlines]

theorem unlines_singleton (l : Line) : unlines [l] = l ++ ['\n'] := by simp [unlines]

theorem join_newline {ls : List Line} (h : ls ≠ []) : join ls ++ ['\n'] = unlines ls := by
  induction ls with
  | nil => exact absurd rfl h
  | cons l ls ih =>
    cases ls with
    | nil => simp [join, unlines]
    | cons l' ls =>
      have ih := ih (by simp)
      simp only [join, List.intercalate_cons_cons, unlines, List.flatMap_cons, List.append_assoc] at ih ⊢
      rw [ih]

/-- The written file is the content where that has no other line break than newlines, and
one at its end. -/
theorem written_eq_iff (content : List Char) :
    written content = content ↔ content = [] ∨ (Plain content ∧ content.getLast? = some '\n') := by
  constructor
  · intro h
    by_cases hn : content = []
    · exact .inl hn
    · refine .inr ⟨?_, ?_⟩
      · intro c hc hb
        rw [← h] at hc
        simp only [written, unlines, List.mem_flatMap, List.mem_append, List.mem_singleton] at hc
        obtain ⟨l, hl, hc | hc⟩ := hc
        · rw [splitlines_unbroken content l hl c hc] at hb
          cases hb
        · exact hc
      · have hne : splitlines content ≠ [] := splitlines_ne_nil hn
        rw [← h, written, ← join_newline hne]
        simp
  · rintro (rfl | ⟨hp, hl⟩)
    · rfl
    · have hn : content ≠ [] := by
        rintro rfl
        cases hl
      have hlines := shellLines_eq hp
      rw [closing, hl, Option.getD_some, if_pos rfl] at hlines
      have hne : splitlines content ≠ [] := splitlines_ne_nil hn
      have hjoin : join (shellLines content) = content := join_shellLines
      rw [hlines] at hjoin
      have hlast : join (splitlines content ++ [[]]) = join (splitlines content) ++ ['\n'] := by
        generalize splitlines content = ls at hne
        induction ls with
        | nil => exact absurd rfl hne
        | cons l ls ih =>
          cases ls with
          | nil => simp [join]
          | cons l' ls =>
            have ih := ih (by simp)
            simp only [join, List.cons_append, List.intercalate_cons_cons, List.append_assoc] at ih ⊢
            rw [ih]
      rw [written, ← join_newline hne, ← hlast, hjoin]

variable {Foreign : Type} {parse : List Char → List (Item Foreign)}

theorem install_words (path : List Char) : installText ++ ShellWords.quote (directoryOf path) =
    ShellWords.quote "install".toList ++ arguments ["-d".toList, "-m".toList, "0755".toList, directoryOf path] := by
  have hfront : installText = ShellWords.quote "install".toList ++
      (arguments ["-d".toList, "-m".toList, "0755".toList] ++ [' ']) := by decide
  rw [hfront]
  simp [arguments]

theorem chmod_words (mode path : List Char) : chmodText ++ (ShellWords.quote mode ++ ' ' :: ShellWords.quote path) =
    ShellWords.quote "chmod".toList ++ arguments [mode, path] := by
  have hfront : chmodText = ShellWords.quote "chmod".toList ++ [' '] := by decide
  rw [hfront]
  simp [arguments]

theorem chown_words (owner path : List Char) : chownText ++ (ShellWords.quote owner ++ ' ' :: ShellWords.quote path) =
    ShellWords.quote "chown".toList ++ arguments [owner, path] := by
  have hfront : chownText = ShellWords.quote "chown".toList ++ [' '] := by decide
  rw [hfront]
  simp [arguments]

theorem catLine_eq (idx : Nat) (path : List Char) : catLine idx path = hereStart "cat".toList (marker idx) path := by
  have hfront : catText = ShellWords.quote "cat".toList ++ [' ', '<', '<'] := by decide
  have hinto : intoText = [' ', '>', ' '] := by decide
  simp [catLine, hereStart, hfront, hinto]

theorem marker_safe (idx : Nat) : ∀ c ∈ marker idx, isSafe c = true := by
  have hfront : markerFront.all isSafe = true := by decide
  have hback : markerBack.all isSafe = true := by decide
  intro c hc
  obtain hc | hc := List.mem_append.mp hc
  · exact List.all_eq_true.mp hfront c hc
  · obtain hc | hc := List.mem_append.mp hc
    · have hdigit := Nat.isDigit_of_mem_toDigits (by omega) (by omega) hc
      simp [isSafe, Char.isAlphanum, hdigit]
    · exact List.all_eq_true.mp hback c hc

theorem marker_apostrophe (idx : Nat) : apostrophe ∉ marker idx := by
  intro h
  have := marker_safe idx _ h
  revert this
  decide

theorem marker_newline (idx : Nat) : '\n' ∉ marker idx := by
  intro h
  have := marker_safe idx _ h
  revert this
  decide

/-- The content has no line that ends its here document too early. -/
def FileRequest.Contained (idx : Nat) (r : FileRequest) : Prop := marker idx ∉ splitlines r.content

theorem reads_option (o : Option (List Char)) {f : List Char → Line} {g : List Char → Statement}
    (h : ∀ a, Reads parse (f a ++ ['\n']) [.statement (g a)]) :
    Reads parse (unlines (o.toList.map f)) ((o.toList.map g).map .statement) := by
  cases o with
  | none => exact reads_nil
  | some a => simpa [unlines] using h a

/-- The lines of an entry are read as its statements. -/
theorem reads_lines (hS : ShellLaws parse) {idx : Nat} {r : FileRequest} (hr : r.Contained idx) :
    Reads parse (unlines (r.lines idx)) (r.statements.map .statement) := by
  have hinstall : CommandName "install".toList := by decide
  have hcat : CommandName "cat".toList := by decide
  have hchmod : CommandName "chmod".toList := by decide
  have hchown : CommandName "chown".toList := by decide
  have hfirst : Reads parse (unlines [installText ++ ShellWords.quote (directoryOf r.path)])
      [.statement (.command (installWords r.path))] := by
    have h := reads_command hS hinstall ["-d".toList, "-m".toList, "0755".toList, directoryOf r.path]
    rw [← List.append_assoc, ← install_words] at h
    rw [unlines_singleton]
    exact h
  have hbody : Reads parse (unlines (catLine idx r.path :: (splitlines r.content ++ [marker idx])))
      [.statement (.hereDocument ["cat".toList] r.path (written r.content))] := by
    have h := reads_hereDocument hS r.path hcat (marker_apostrophe idx) (marker_newline idx) hr newline_out
    rw [← catLine_eq] at h
    simpa [unlines, written] using h
  have hmode : Reads parse (unlines (r.permissions.toList.map fun mode =>
      chmodText ++ (ShellWords.quote mode ++ ' ' :: ShellWords.quote r.path)))
      ((r.permissions.toList.map fun mode => Statement.command ["chmod".toList, mode, r.path]).map .statement) := by
    refine reads_option _ fun mode => ?_
    rw [chmod_words, List.append_assoc]
    exact reads_command hS hchmod [mode, r.path]
  have howner : Reads parse (unlines (r.owner.toList.map fun owner =>
      chownText ++ (ShellWords.quote owner ++ ' ' :: ShellWords.quote r.path)))
      ((r.owner.toList.map fun owner => Statement.command ["chown".toList, owner, r.path]).map .statement) := by
    refine reads_option _ fun owner => ?_
    rw [chown_words, List.append_assoc]
    exact reads_command hS hchown [owner, r.path]
  have hall := reads_append hfirst (reads_append hbody (reads_append hmode howner))
  simpa [FileRequest.lines, FileRequest.statements, unlines] using hall

/-- The line has no line break at its end. -/
def Closed (l : Line) : Prop := ∃ t c, l = t ++ [c] ∧ c ≠ '\n'

theorem rstripLines_break (t : List Char) : rstripLines (t ++ ['\n']) = rstripLines t := by
  rw [rstripLines, List.rdropWhile_concat_pos _ _ _ (by simp)]
  rfl

theorem rstripLines_closed {l : Line} (h : Closed l) : rstripLines l = l := by
  obtain ⟨t, c, rfl, hc⟩ := h
  rw [rstripLines, List.rdropWhile_concat_neg _ _ _ (by simpa using hc)]

theorem closed_append {l : Line} (h : Closed l) (front : List Char) : Closed (front ++ l) := by
  obtain ⟨t, c, rfl, hc⟩ := h
  exact ⟨front ++ t, c, by simp, hc⟩

theorem Closed.ne_nil {l : Line} (h : Closed l) : l ≠ [] := by
  obtain ⟨t, c, rfl, -⟩ := h
  simp

/-- Only the end of a text is stripped, by induction from there. -/
theorem rstripLines_append (t u : List Char) :
    rstripLines (t ++ u) = if rstripLines u = [] then rstripLines t else t ++ rstripLines u := by
  induction u using List.reverseRecOn with
  | nil => simp [rstripLines]
  | append_singleton u c ih =>
    by_cases hc : c = '\n'
    · subst hc
      rw [← List.append_assoc, rstripLines_break, rstripLines_break, ih]
    · have hclosed : Closed (u ++ [c]) := ⟨u, c, rfl, hc⟩
      rw [rstripLines_closed hclosed, rstripLines_closed (closed_append hclosed t), if_neg hclosed.ne_nil]

/-- A quoted word ends in a character that is no blank, and so does each line that ends in one. -/
theorem closed_quote (s : List Char) : Closed (ShellWords.quote s) := by
  have hmark : apostrophe ≠ '\n' := by decide
  by_cases hn : s = []
  · exact ⟨[apostrophe], apostrophe, by rw [ShellWords.quote, if_pos hn]; rfl, hmark⟩
  by_cases hs : s.all isSafe = true
  · rw [ShellWords.quote, if_neg hn, if_pos hs]
    refine ⟨s.dropLast, s.getLast hn, (List.dropLast_append_getLast hn).symm, ?_⟩
    intro hlast
    have hsafe := List.all_eq_true.mp hs _ (List.getLast_mem hn)
    rw [hlast] at hsafe
    revert hsafe
    decide
  · rw [ShellWords.quote, if_neg hn, if_neg hs]
    exact ⟨apostrophe :: escape s, apostrophe, rfl, hmark⟩

theorem closed_marker (idx : Nat) : Closed (marker idx) :=
  ⟨markerFront ++ (Nat.toDigits 10 idx ++ ['_']), '_', by simp [marker, markerBack], by decide⟩

/-- A list of lines that ends with a closed one. -/
def EndsClosed (ls : List Line) : Prop := ∃ front l, ls = front ++ [l] ∧ Closed l

theorem endsClosed_append {ls : List Line} (h : EndsClosed ls) (front : List Line) : EndsClosed (front ++ ls) := by
  obtain ⟨f, l, rfl, hl⟩ := h
  exact ⟨front ++ f, l, by simp, hl⟩

theorem endsClosed_lines (idx : Nat) (r : FileRequest) : EndsClosed (r.lines idx) := by
  have hquoted : ∀ (t : List Char) (u : List Char), Closed (t ++ (u ++ ' ' :: ShellWords.quote r.path)) := by
    intro t u
    have h := closed_append (closed_quote r.path) (t ++ (u ++ [' ']))
    simpa using h
  rw [FileRequest.lines]
  refine endsClosed_append ?_ _
  cases r.owner with
  | some owner =>
    refine endsClosed_append (endsClosed_append ⟨[], _, rfl, ?_⟩ _) _
    exact hquoted _ _
  | none =>
    cases r.permissions with
    | some mode =>
      refine endsClosed_append ⟨[], _, rfl, ?_⟩ _
      exact hquoted _ _
    | none => exact ⟨splitlines r.content, marker idx, by simp, closed_marker idx⟩

/-- Stripping the script takes away its last newline only. -/
theorem rstripLines_unlines {ls : List Line} (h : EndsClosed ls) : rstripLines (unlines ls) ++ ['\n'] = unlines ls := by
  obtain ⟨front, l, rfl, hl⟩ := h
  rw [unlines_append, unlines_singleton, ← List.append_assoc, rstripLines_break,
    rstripLines_closed (closed_append hl _)]

/-- No other character than line breaks is lost. -/
theorem mem_stripped {t : List Char} {c : Char} (hc : c ≠ '\n') (h : c ∈ t) : c ∈ rstripLines t ++ ['\n'] := by
  induction t using List.reverseRecOn with
  | nil => cases h
  | append_singleton t d ih =>
    by_cases hd : d = '\n'
    · subst hd
      rw [rstripLines_break]
      obtain h | h := List.mem_append.mp h
      · exact ih h
      · exact absurd (List.mem_singleton.mp h) hc
    · rw [rstripLines_closed ⟨t, d, rfl, hd⟩]
      exact List.mem_append_left _ h

def RunCommand.lines : RunCommand → List Line
  | .text command => [command]
  | .argv [] => []
  | .argv parts => [joinedParts parts]

theorem joinedParts_cons (name : List Char) (args : List (List Char)) :
    joinedParts (name :: args) = ShellWords.quote name ++ arguments args := by
  induction args generalizing name with
  | nil => simp [joinedParts, arguments]
  | cons a args ih =>
    have ih := ih a
    simp only [joinedParts, List.map_cons, List.intercalate_cons_cons, arguments, List.flatMap_cons] at ih ⊢
    rw [ih]
    simp

theorem closed_joinedParts (name : List Char) (args : List (List Char)) : Closed (joinedParts (name :: args)) := by
  induction args generalizing name with
  | nil =>
    have h := closed_quote name
    simpa [joinedParts] using h
  | cons a args ih =>
    have h := closed_append (ih a) (ShellWords.quote name ++ [' '])
    have heq : joinedParts (name :: a :: args) = ShellWords.quote name ++ [' '] ++ joinedParts (a :: args) := by
      simp [joinedParts]
    rwa [heq]

theorem commandLines_ok (idx : Nat) (c : RunCommand) : commandLines idx c = .ok c.lines := by
  cases c with
  | text command => rfl
  | argv parts =>
    cases parts with
    | nil => rfl
    | cons name args =>
      rw [commandLines, if_neg (closed_joinedParts name args).ne_nil, RunCommand.lines]
      · rintro ⟨⟩
      · rintro ⟨⟩

/-- What a command of `runcmd` is for a shell: a list is a simple command, and a string is
what the shell makes of it by itself. -/
def RunCommand.items (parse : List Char → List (Item Foreign)) : RunCommand → List (Item Foreign)
  | .text command => parse (rstripLines command ++ ['\n'])
  | .argv [] => []
  | .argv parts => [.statement (.command parts)]

/-- A string is complete by itself, and a list begins with the name of a command. -/
def RunCommand.Proper (parse : List Char → List (Item Foreign)) : RunCommand → Prop
  | .text command => ∀ rest, nul ∉ rest →
    parse (command ++ '\n' :: rest) = parse (rstripLines command ++ ['\n']) ++ parse rest
  | .argv [] => True
  | .argv (name :: _) => CommandName name

/-- A command is read as it was meant: a list as its words, a text as what the shell makes of it. -/
theorem reads_runCommand (hS : ShellLaws parse) {c : RunCommand} (hc : c.Proper parse) :
    Reads parse (unlines c.lines) (c.items parse) := by
  cases c with
  | text command =>
    intro rest hclean
    have hline : unlines (RunCommand.text command).lines ++ rest = command ++ '\n' :: rest := by
      simp [RunCommand.lines, unlines]
    rw [hline]
    exact hc rest fun hmem => hclean (List.mem_append_right _ hmem)
  | argv parts =>
    cases parts with
    | nil => exact reads_nil
    | cons name args =>
      have h := reads_command hS hc args
      rw [← List.append_assoc, ← joinedParts_cons, ← unlines_singleton] at h
      exact h

theorem reads_runCommands (hS : ShellLaws parse) {cs : List RunCommand} (hcs : ∀ c ∈ cs, c.Proper parse) :
    Reads parse (unlines (cs.flatMap RunCommand.lines)) (cs.flatMap (RunCommand.items parse)) := by
  have h := reads_flatMap fun c hc => reads_runCommand hS (hcs c hc)
  have hlines : unlines (cs.flatMap RunCommand.lines) = cs.flatMap fun c => unlines c.lines := by
    simp [unlines, List.flatMap_assoc]
  rw [hlines]
  exact h

/-- The last command is read although the line breaks at its end are stripped. -/
theorem read_last (hS : ShellLaws parse) {c : RunCommand} {l : Line} (hc : c.Proper parse) (hl : c.lines = [l])
    (hclean : nul ∉ l ++ ['\n']) :
    parse (rstripLines l ++ ['\n']) = c.items parse := by
  cases c with
  | text command =>
    cases hl
    rfl
  | argv parts =>
    cases parts with
    | nil => cases hl
    | cons name args =>
      cases hl
      have h := reads_runCommand hS hc []
      rw [RunCommand.lines, unlines_singleton, List.append_nil, hS.nil, List.append_nil] at h
      · rw [rstripLines_closed (closed_joinedParts name args)]
        exact h hclean
      · rintro ⟨⟩

/-- By induction from the last command: the strings at the end may be empty. -/
theorem read_script (hS : ShellLaws parse) {front : List Char} {items : List (Item Foreign)} (hF : Reads parse front items)
    (hc : rstripLines front ++ ['\n'] = front) {cs : List RunCommand} (hcs : ∀ c ∈ cs, c.Proper parse)
    (hclean : nul ∉ front ++ unlines (cs.flatMap RunCommand.lines)) :
    parse (rstripLines (front ++ unlines (cs.flatMap RunCommand.lines)) ++ ['\n']) =
      items ++ cs.flatMap (RunCommand.items parse) := by
  induction cs using List.reverseRecOn with
  | nil =>
    have h := hF []
    rw [List.append_nil, hS.nil, List.append_nil] at h
    simp only [List.flatMap_nil, unlines, List.append_nil] at hclean ⊢
    rw [hc, h hclean]
  | append_singleton cs c ih =>
    have hbefore : ∀ c ∈ cs, c.Proper parse := fun d hd => hcs d (List.mem_append_left _ hd)
    have hlast : c.Proper parse := hcs c (by simp)
    rw [List.flatMap_append, List.flatMap_singleton, unlines_append, ← List.append_assoc] at hclean ⊢
    rw [List.flatMap_append, List.flatMap_singleton]
    have hfront : nul ∉ front ++ unlines (cs.flatMap RunCommand.lines) := fun h => hclean (List.mem_append_left _ h)
    have ih := ih hbefore hfront
    have hread := reads_append hF (reads_runCommands hS hbefore)
    cases hl : c.lines with
    | nil =>
      have hitems : c.items parse = [] := by
        cases c with
        | text command => cases hl
        | argv parts =>
          cases parts with
          | nil => rfl
          | cons name args => cases hl
      rw [hitems]
      simpa [unlines] using ih
    | cons l rest =>
      have hone : c.lines = [l] := by
        cases c with
        | text command =>
          cases hl
          rfl
        | argv parts =>
          cases parts with
          | nil => cases hl
          | cons name args =>
            cases hl
            rfl
      have hrest : rest = [] := by
        rw [hone] at hl
        cases hl
        rfl
      subst hrest
      rw [hone, unlines_singleton] at hclean
      have hitems := read_last hS hlast hone fun h => hclean (List.mem_append_right _ h)
      rw [unlines_singleton, ← List.append_assoc, rstripLines_break, rstripLines_append]
      split
      · next hempty =>
        rw [hempty, List.nil_append, hS.blank, hS.nil] at hitems
        rw [ih, ← hitems, List.append_nil]
      · have hstripped : nul ∉ front ++ unlines (cs.flatMap RunCommand.lines) ++ (rstripLines l ++ ['\n']) := by
          intro h
          obtain h | h := List.mem_append.mp h
          · exact hfront h
          · refine hclean (List.mem_append_right _ ?_)
            obtain h | h := List.mem_append.mp h
            · exact List.mem_append_left _ ((List.rdropWhile_prefix _ l).subset h)
            · exact List.mem_append_right _ h
        rw [List.append_assoc, hread _ hstripped, hitems, List.append_assoc]

/-- A loop over what each element asks for, and then over what is made of it. -/
theorem eachFrom_map {α β γ : Type} {f : Nat → α → Except Exc γ} {g : Nat → α → Except Exc β} {k : Nat → β → γ}
    (h : ∀ idx a, f idx a = (g idx a).map (k idx)) (n : Nat) (as : List α) :
    eachFrom f n as = (eachFrom g n as).map fun bs => (bs.zipIdx n).map fun b => k b.2 b.1 := by
  induction as generalizing n with
  | nil => rfl
  | cons a as ih =>
    rw [eachFrom, eachFrom, h, ih]
    cases g n a with
    | error e => rfl
    | ok b =>
      cases eachFrom g (n + 1) as with
      | error e => rfl
      | ok bs => rfl

theorem eachFrom_pure {α β : Type} {f : Nat → α → Except Exc β} {k : α → β} (h : ∀ idx a, f idx a = .ok (k a)) (n : Nat)
    (as : List α) : eachFrom f n as = .ok (as.map k) := by
  induction as generalizing n with
  | nil => rfl
  | cons a as ih =>
    rw [eachFrom, h, ih]
    rfl

/-- The lines in front of `runcmd`. -/
def frontLines (requests : List FileRequest) : List Line :=
  [bashLine, strictLine] ++ requests.zipIdx.flatMap fun r => r.1.lines r.2

def strictStatement : Statement := .command ["set".toList, "-euo".toList, "pipefail".toList]

/-- The entries of `write_files` stand in front, in their order. -/
theorem reads_front (hS : ShellLaws parse) {requests : List FileRequest}
    (hr : ∀ r ∈ requests.zipIdx, r.1.Contained r.2) :
    Reads parse (unlines (frontLines requests))
      (.statement strictStatement :: requests.flatMap fun r => r.statements.map .statement) := by
  have hset : CommandName "set".toList := by decide
  have hbash : Reads parse (unlines [bashLine]) [] := by
    have hline : '\n' ∉ "!/bin/bash".toList := by decide
    exact reads_comment hS hline
  have hstrict : Reads parse (unlines [strictLine]) [.statement strictStatement] := by
    have hline : strictLine = ShellWords.quote "set".toList ++ arguments ["-euo".toList, "pipefail".toList] := by decide
    have h := reads_command hS hset ["-euo".toList, "pipefail".toList]
    rw [← List.append_assoc, ← hline, ← unlines_singleton] at h
    exact h
  have hfiles : Reads parse (requests.zipIdx.flatMap fun r => unlines (r.1.lines r.2))
      (requests.zipIdx.flatMap fun r => r.1.statements.map .statement) :=
    reads_flatMap fun r h => reads_lines hS (hr r h)
  have hitems (f : FileRequest → List (Item Foreign)) :
      (requests.zipIdx.flatMap fun r => f r.1) = requests.flatMap f := by
    have hmap := List.zipIdx_map_fst 0 requests
    calc (requests.zipIdx.flatMap fun r => f r.1)
        = (requests.zipIdx.map Prod.fst).flatMap f := by rw [List.flatMap_map]
      _ = requests.flatMap f := by rw [hmap]
  have hlines : unlines (frontLines requests) =
      unlines [bashLine] ++ (unlines [strictLine] ++ requests.zipIdx.flatMap fun r => unlines (r.1.lines r.2)) := by
    simp [frontLines, unlines, List.flatMap_assoc]
  rw [hlines]
  rw [hitems fun r => r.statements.map .statement] at hfiles
  exact reads_append hbash (reads_append hstrict hfiles)

theorem endsClosed_front (requests : List FileRequest) : EndsClosed (frontLines requests) := by
  have hstrict : EndsClosed [bashLine, strictLine] :=
    ⟨[bashLine], strictLine, rfl, "set -euo pipefai".toList, 'l', rfl, by decide⟩
  rw [frontLines]
  cases requests using List.reverseRecOn with
  | nil => simpa using hstrict
  | append_singleton requests r =>
    have h := endsClosed_append (endsClosed_lines requests.length r)
      ([bashLine, strictLine] ++ requests.zipIdx.flatMap fun r => r.1.lines r.2)
    simpa [List.zipIdx_append] using h

/-- What a shell reads in the script of a payload, if each content is contained and each
command is proper. The shell would drop null characters. -/
theorem cloud_config_read (safeLoad : SafeLoad) {bootstrapData script : List Char}
    (h : renderCloudConfigToShell safeLoad bootstrapData = .ok script) :
    ∃ config requests, parseCloudConfig safeLoad bootstrapData = .ok config ∧
      eachFrom requestOf 0 config.writeFiles = .ok requests ∧
      (∀ r ∈ requests, written r.content = r.content ↔
        r.content = [] ∨ (Plain r.content ∧ r.content.getLast? = some '\n')) ∧
      ∀ (Foreign : Type) (parse : List Char → List (Item Foreign)), ShellLaws parse →
        nul ∉ script → (∀ r ∈ requests.zipIdx, r.1.Contained r.2) → (∀ c ∈ config.runcmd, c.Proper parse) →
        parse script = .statement strictStatement ::
          (requests.flatMap fun r => r.statements.map .statement) ++ config.runcmd.flatMap (RunCommand.items parse) := by
  rw [renderCloudConfigToShell] at h
  cases hc : parseCloudConfig safeLoad bootstrapData with
  | error e =>
    rw [hc] at h
    cases h
  | ok config =>
    have hfiles := eachFrom_map fileLines_request 0 config.writeFiles
    have hcommands := eachFrom_pure commandLines_ok 0 config.runcmd
    cases hr : eachFrom requestOf 0 config.writeFiles with
    | error e =>
      rw [hr] at hfiles
      rw [hc] at h
      simp only [bind, Except.bind, hfiles, Except.map] at h
      cases h
    | ok requests =>
      refine ⟨config, requests, rfl, hr, fun r _ => written_eq_iff r.content, ?_⟩
      intro Foreign parse hS hclean hcontained hproper
      rw [hr] at hfiles
      rw [hc] at h
      simp only [bind, Except.bind, hfiles, hcommands, Except.map, pure, Except.pure, Except.ok.injEq] at h
      have hlines : [bashLine, strictLine] ++ ((requests.zipIdx.map fun r => r.1.lines r.2).flatten ++
          (config.runcmd.map RunCommand.lines).flatten) =
          frontLines requests ++ config.runcmd.flatMap RunCommand.lines := by
        simp [frontLines, List.flatMap_def]
      have hne : frontLines requests ++ config.runcmd.flatMap RunCommand.lines ≠ [] := by simp [frontLines]
      have hstrip : rstripLines (join (frontLines requests ++ config.runcmd.flatMap RunCommand.lines)) =
          rstripLines (unlines (frontLines requests) ++ unlines (config.runcmd.flatMap RunCommand.lines)) := by
        rw [← unlines_append, ← join_newline hne, rstripLines_break]
      rw [hlines, hstrip] at h
      have hlong : nul ∉ unlines (frontLines requests) ++ unlines (config.runcmd.flatMap RunCommand.lines) := by
        intro hmem
        exact hclean (h ▸ mem_stripped (by decide) hmem)
      rw [← h]
      exact read_script hS (reads_front hS hcontained) (rstripLines_unlines (endsClosed_front requests)) hproper hlong

def joinPath : String := "/etc/kubernetes/join config.yaml"

def joinContent : List Char := "kind: X\nname: y\n".toList

def joinEntry : CloudEntry :=
  [(.str "path", .str joinPath), (.str "content", .str "a2luZDogWApuYW1lOiB5Cg=="), (.str "encoding", .str "b64"),
    (.str "permissions", .str "0600"), (.str "owner", .str "root:root")]

def joinConfig : CloudEntry :=
  [(.str "write_files", .list [.map joinEntry]),
    (.str "runcmd", .list [.list [.str "kubeadm", .str "join", .str "--config", .str joinPath], .str "sync"])]

def joinText : List Char :=
  ("#cloud-config\nwrite_files:\n- path: /etc/kubernetes/join config.yaml\n  content: a2luZDogWApuYW1lOiB5Cg==\n" ++
    "  encoding: b64\n  permissions: '0600'\n  owner: root:root\nruncmd:\n" ++
    "- [kubeadm, join, --config, /etc/kubernetes/join config.yaml]\n- sync\n").toList

def joinLoad : SafeLoad := fun text => if text = joinText then .ok (.map joinConfig) else .error none

def joinFile : CloudFile := ⟨joinPath.toList, by decide, joinEntry, by rw [String.ofList_toList]; rfl⟩

def joinRequest : FileRequest := ⟨joinPath.toList, joinContent, some "0600".toList, some "root:root".toList⟩

def joinCommands : List RunCommand :=
  [.argv ["kubeadm".toList, "join".toList, "--config".toList, joinPath.toList], .text "sync".toList]

theorem joinText_parsed : parseCloudConfig joinLoad joinText = .ok ⟨joinConfig, [joinFile], joinCommands⟩ := by
  rw [parseCloudConfig, joinLoad, if_pos rfl]
  rfl

theorem joinFile_request (idx : Nat) : requestOf idx joinFile = .ok joinRequest := by
  have hspaces : ("a2luZDogWApuYW1lOiB5Cg==".toList.filter fun c => !isSpace c) = Base64.encode joinContent := by decide
  have hb64 : isPlainEncoding (normalizedEncoding "b64") = false ∧ isBase64 (normalizedEncoding "b64") = true := by decide
  have hcontent : decodeCloudWriteFileContent joinEntry idx = .ok joinContent := by
    have hread : contentOf idx joinEntry = .ok "a2luZDogWApuYW1lOiB5Cg==".toList := rfl
    have hencoding : DataTree.get "encoding" joinEntry = some (.scalar (.str "b64")) := rfl
    rw [decodeCloudWriteFileContent, hread]
    simp only [bind, Except.bind, hencoding, hb64.1, hb64.2, hspaces, Base64.decode_encode]
    rfl
  have hmode : permissionsOf idx joinEntry = .ok (some "0600".toList) := rfl
  have howner : ownerOf idx joinEntry = .ok (some "root:root".toList) := rfl
  rw [requestOf]
  simp only [joinFile, hcontent, hmode, howner, bind, Except.bind]
  rfl

def joinScript : List Char :=
  unlines ["#!/bin/bash".toList, "set -euo pipefail".toList, "install -d -m 0755 /etc/kubernetes".toList,
    "cat <<'__CAPI_BOOTSTRAP_FILE_0__' > '/etc/kubernetes/join config.yaml'".toList, "kind: X".toList, "name: y".toList,
    "__CAPI_BOOTSTRAP_FILE_0__".toList, "chmod 0600 '/etc/kubernetes/join config.yaml'".toList,
    "chown root:root '/etc/kubernetes/join config.yaml'".toList,
    "kubeadm join --config '/etc/kubernetes/join config.yaml'".toList, "sync".toList]

theorem joinFiles_requests : eachFrom requestOf 0 [joinFile] = .ok [joinRequest] := by
  rw [eachFrom, joinFile_request]
  rfl

set_option maxRecDepth 2000 in

/-- The renderer on this payload. -/
theorem joinText_rendered : renderCloudConfigToShell joinLoad joinText = .ok joinScript := by
  have hscript : rstripLines (join ([bashLine, strictLine] ++ (joinRequest.lines 0 ++ joinCommands.flatMap RunCommand.lines))) ++
      ['\n'] = joinScript := by decide
  rw [renderCloudConfigToShell, joinText_parsed]
  simp only [bind, Except.bind, eachFrom_map fileLines_request, joinFiles_requests, eachFrom_pure commandLines_ok,
    Except.map, pure, Except.pure, ← hscript]
  rfl

set_option maxRecDepth 2000 in

/-- The script of a joining node does one thing after another: it installs the file, fills it,
sets its mode and its owner, joins and syncs. -/
theorem cloud_config_read_join : read joinScript =
    [.statement strictStatement, .statement (.command (installWords joinPath.toList)),
      .statement (.hereDocument ["cat".toList] joinPath.toList joinContent),
      .statement (.command ["chmod".toList, "0600".toList, joinPath.toList]),
      .statement (.command ["chown".toList, "root:root".toList, joinPath.toList]),
      .statement (.command ["kubeadm".toList, "join".toList, "--config".toList, joinPath.toList]),
      .statement (.command ["sync".toList])] := by
  obtain ⟨config, requests, hc, hr, -, hread⟩ := cloud_config_read joinLoad joinText_rendered
  rw [joinText_parsed] at hc
  cases hc
  rw [joinFiles_requests] at hr
  cases hr
  have hclean : nul ∉ joinScript := by decide
  have hcontained : joinRequest.Contained 0 := by
    have hout : marker 0 ∉ splitlines joinContent := by decide
    exact hout
  have hkubeadm : CommandName "kubeadm".toList := by decide
  have hname : CommandName "sync".toList := by decide
  have hsync : ∀ rest, nul ∉ rest → read ("sync\n".toList ++ rest) = .statement (.command ["sync".toList]) :: read rest := by
    intro rest hrest
    have h := reads_command read_laws hname [] rest
    have htext : ShellWords.quote "sync".toList ++ (arguments [] ++ ['\n']) = "sync\n".toList := by decide
    have hword : nul ∉ "sync\n".toList := by decide
    rw [htext] at h
    exact h fun hmem => (List.mem_append.mp hmem).elim hword hrest
  have hend : read "sync\n".toList = [.statement (.command ["sync".toList])] := hsync [] (by simp)
  have hproper : ∀ c ∈ joinCommands, c.Proper read := by
    intro c hc
    simp only [joinCommands, List.mem_cons, List.not_mem_nil, or_false] at hc
    obtain rfl | rfl := hc
    · exact hkubeadm
    · intro rest hrest
      have hstrip : rstripLines "sync".toList ++ ['\n'] = "sync\n".toList := by decide
      rw [hstrip, hend]
      exact hsync rest hrest
  have hall : ∀ r ∈ [joinRequest].zipIdx, r.1.Contained r.2 := by
    intro r hr
    obtain rfl := List.mem_singleton.mp hr
    exact hcontained
  rw [hread _ read read_laws hclean hall hproper]
  have hlast : (RunCommand.text "sync".toList).items read = [.statement (.command ["sync".toList])] := hend
  have hwritten : written joinContent = joinContent := by decide
  simp only [joinCommands, List.flatMap_cons, List.flatMap_nil, hlast, FileRequest.statements, joinRequest, hwritten]
  rfl

end CapiSsh.CloudConfig
