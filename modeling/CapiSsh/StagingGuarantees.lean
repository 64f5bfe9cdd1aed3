import CapiSsh.HereDocuments
import CapiSsh.Payloads
import Mathlib.Tactic.Basic

/-!
# What certificate staging does to a payload

The commands of the staging install the files and then leave a shell behind that has read
`set -euo pipefail`. A payload runs as it does alone where it is started so, or where it
makes these settings itself before its first command.
-/
namespace CapiSsh.Staging

open ShellWords TextLines

variable {Program τ : Type} {S : Interpreters Program τ} {files : List EtcdFile} {payload : List Char}
  {p : Program} {cs cs' : List ShellCommand} {c : ShellCommand} {m m' : ShellMode} {status status' : Int}
  {d d' : Disk τ}

theorem join_cons (l a : Line) (ls : List Line) : join (l :: a :: ls) = l ++ '\n' :: join (a :: ls) := by
  simp [join, List.intercalate, List.intersperse]

theorem join_lines (l : Line) (ls : List Line) :
    join (l :: ls) ++ ['\n'] = (l :: ls).flatMap (fun line => line ++ ['\n']) := by
  induction ls generalizing l with
  | nil => simp [join, List.intercalate]
  | cons a ls ih =>
    have hrest := ih a
    simp only [List.flatMap_cons] at hrest ⊢
    simp [join_cons, hrest]

theorem certificateScript_eq (encode : String → List Char) (file : EtcdFile) :
    certificateScript encode (file :: files) =
      (file :: files).flatMap fun f => (fileLines encode f).flatMap (fun line => line ++ ['\n']) := by
  rw [certificateScript, ← List.flatMap_assoc]
  exact join_lines _ _

def EtcdFile.Absolute (file : EtcdFile) : Prop := file.path.head? = some '/'

def ShellCommand.isSetting : ShellCommand → Bool
  | .set _ => true
  | .umask _ => true
  | _ => false

namespace Interpreters

theorem run_acts (hc : c.isSetting = false) : S.run p (c :: cs) m status d =
    match S.effect p m c d with
    | .exits status d' => ([(p, m, c)], .exits status d')
    | .goes m' status d' => ((p, m, c) :: (S.run p cs m' status d').1, (S.run p cs m' status d').2) := by
  cases c with
  | set => cases hc
  | umask => cases hc
  | install => rfl
  | decode => rfl
  | chmod => rfl
  | other => rfl

/-- By induction on the first commands, which all ran. -/
theorem run_append (h : (S.run p cs m status d).2 = .goes m' status' d') :
    S.run p (cs ++ cs') m status d =
      ((S.run p cs m status d).1 ++ (S.run p cs' m' status' d').1, (S.run p cs' m' status' d').2) := by
  induction cs generalizing m status d with
  | nil =>
    simp only [run, Next.goes.injEq] at h
    obtain ⟨rfl, rfl, rfl⟩ := h
    simp [run]
  | cons c cs ih =>
    cases hc : c.isSetting with
    | true =>
      cases c with
      | set changes => simpa [run] using ih h
      | umask mask => simpa [run] using ih h
      | install => cases hc
      | decode => cases hc
      | chmod => cases hc
      | other => cases hc
    | false =>
      rw [run_acts hc] at h
      rw [List.cons_append, run_acts hc, run_acts hc]
      cases he : S.effect p m c d with
      | exits s d₁ => simp [he] at h
      | goes m₁ s d₁ =>
        simp only [he] at h
        simp [ih h]

/-- A command that the script goes on after. -/
theorem run_goes (hc : c.isSetting = false) (h : (S.run p (c :: cs) m status d).2 = .goes m' status' d') :
    ∃ m₁ s₁ d₁, S.effect p m c d = .goes m₁ s₁ d₁ ∧ (S.run p cs m₁ s₁ d₁).2 = .goes m' status' d' ∧
      S.run p (c :: cs) m status d = ((p, m, c) :: (S.run p cs m₁ s₁ d₁).1, (S.run p cs m₁ s₁ d₁).2) := by
  rw [run_acts hc] at h ⊢
  cases he : S.effect p m c d with
  | exits s d₁ => simp [he] at h
  | goes m₁ s d₁ =>
    simp only [he] at h
    exact ⟨m₁, s, d₁, rfl, h, rfl⟩

/-- The staging sets the umask that the job has set before it. -/
theorem run_umask : S.run p (.umask 0o077 :: cs) strictMode status d = S.run p cs strictMode 0 d := rfl

/-- Writing a file and then setting its mode. -/
theorem chmod_write (d : Disk τ) (name : List Char) (value : String) (mask mode : Nat) :
    (d.write mask name value).chmod mode name = d.put name value mode := by
  have hp : (d.write mask name value).files name =
      some (value, ((d.files name).map Prod.snd).getD (0o666 - (0o666 &&& mask))) := by
    simp [Disk.write, Disk.put]
  rw [Disk.chmod, hp]
  simp only [Disk.write, Disk.put, Disk.mk.injEq, and_true]
  funext n
  by_cases hn : n = name <;> simp [hn]

/-- What a command does beside its file can come before or after the mode is set. -/
theorem chmod_beside (c : ShellCommand) (d : Disk τ) (mode : Nat) (name : List Char) :
    (S.beside c d).chmod mode name = S.beside c (d.chmod mode name) := by
  have hfiles : (S.beside c d).files = d.files := rfl
  rw [Disk.chmod, Disk.chmod, hfiles]
  cases d.files name <;> rfl

theorem beside_rest (c : ShellCommand) (d : Disk τ) : (S.beside c d).rest = S.aside c d.rest := rfl

theorem write_rest (d : Disk τ) (mask : Nat) (name : List Char) (value : String) :
    (d.write mask name value).rest = d.rest := rfl

/-- The written file is still where its path leads when its mode is set. -/
theorem stage_eq (hS : S.Lawful files) {file : EtcdFile} (hf : file ∈ files) (mask : Nat) :
    S.beside (chmodCommand file) (Disk.chmod
      (S.beside (S.decodeCommand file) ((S.beside (installCommand file) d).write mask
        (S.target file.path (S.beside (installCommand file) d).rest) file.value)) (octal file.mode)
      (S.target file.path (S.beside (S.decodeCommand file) ((S.beside (installCommand file) d).write mask
        (S.target file.path (S.beside (installCommand file) d).rest) file.value)).rest)) = S.stage d file := by
  rw [beside_rest (S.decodeCommand file), write_rest, hS.standing file hf, chmod_beside, chmod_write]
  rfl

/-- The commands of one file, where the script goes on after them. -/
theorem run_file (hS : S.Lawful files) {file : EtcdFile} (hf : file ∈ files)
    (h : (S.run S.bash (S.fileCommands file ++ cs) strictMode 0 d).2 = .goes m' status' d') :
    (S.run S.bash cs strictMode 0 (S.stage d file)).2 = .goes m' status' d' ∧
      ∃ front : Log Program, front.map (fun e => e.2.2) = S.stagingOf file ∧
        (S.run S.bash (S.fileCommands file ++ cs) strictMode 0 d).1 =
          front ++ (S.run S.bash cs strictMode 0 (S.stage d file)).1 := by
  simp only [fileCommands, List.cons_append, List.nil_append] at h ⊢
  obtain ⟨m₁, s₁, d₁, he₁, h₁, hr₁⟩ := run_goes rfl h
  obtain ⟨rfl, rfl, rfl⟩ := hS.install file hf _ _ _ _ he₁
  rw [run_umask] at h₁ hr₁
  rw [hr₁]
  obtain ⟨m₂, s₂, d₂, he₂, h₂, hr₂⟩ := run_goes rfl h₁
  obtain ⟨rfl, rfl, rfl⟩ := hS.decoding file hf _ _ _ _ _ (hS.decoded file hf) he₂
  rw [hr₂]
  obtain ⟨m₃, s₃, d₃, he₃, h₃, hr₃⟩ := run_goes rfl h₂
  obtain ⟨rfl, rfl, rfl⟩ := hS.chmod file hf _ _ _ _ he₃
  rw [hr₃]
  rw [stage_eq hS hf] at h₃ ⊢
  exact ⟨h₃, [(S.bash, strictMode, installCommand file), (S.bash, strictMode, S.decodeCommand file),
    (S.bash, strictMode, chmodCommand file)], rfl, rfl⟩

/-- The commands of all files, by induction on those that are still to come. -/
theorem run_files (hS : S.Lawful files) {rest : List EtcdFile} (hrest : ∀ file ∈ rest, file ∈ files)
    (h : (S.run S.bash (rest.flatMap S.fileCommands) strictMode 0 d).2 = .goes m' status' d') :
    m' = strictMode ∧ status' = 0 ∧ d' = S.stageAll d rest ∧
      (S.run S.bash (rest.flatMap S.fileCommands) strictMode 0 d).1.map (fun e => e.2.2) =
        rest.flatMap S.stagingOf := by
  induction rest generalizing d with
  | nil =>
    simp only [List.flatMap_nil, run, Next.goes.injEq] at h
    obtain ⟨rfl, rfl, rfl⟩ := h
    exact ⟨rfl, rfl, rfl, rfl⟩
  | cons file rest ih =>
    rw [List.flatMap_cons] at h
    obtain ⟨hgoes, front, hfront, hlog⟩ := run_file hS (hrest file List.mem_cons_self) h
    obtain ⟨hm, hs, hd, hcommands⟩ := ih (fun f hf => hrest f (List.mem_cons_of_mem file hf)) hgoes
    refine ⟨hm, hs, hd, ?_⟩
    rw [List.flatMap_cons, List.flatMap_cons, hlog, List.map_append, hfront, hcommands]

theorem parse_file (hS : S.Lawful files) {file : EtcdFile} (hmem : file ∈ files) (hf : file.Absolute)
    (rest : List Char) :
    S.parse S.bash ((fileLines S.encode file).flatMap (fun line => line ++ ['\n']) ++ rest) =
      S.fileCommands file ++ S.parse S.bash rest := by
  have htext : (fileLines S.encode file).flatMap (fun line => line ++ ['\n']) ++ rest =
      installLine file ++ '\n' :: (decodeLine S.encode file ++ '\n' :: (chmodLine file ++ '\n' :: rest)) := by
    simp [fileLines]
  rw [htext, hS.installs file hmem hf, hS.decodes file hmem hf, hS.chmods file hmem hf]
  rfl

/-- By induction on the files. -/
theorem parse_files (hS : S.Lawful files) {ahead : List EtcdFile} (hmem : ∀ file ∈ ahead, file ∈ files)
    (hf : ∀ file ∈ files, file.Absolute) (rest : List Char) :
    S.parse S.bash ((ahead.flatMap fun f => (fileLines S.encode f).flatMap (fun line => line ++ ['\n'])) ++ rest) =
      ahead.flatMap S.fileCommands ++ S.parse S.bash rest := by
  induction ahead with
  | nil => rfl
  | cons file ahead ih =>
    have hfile := hmem file List.mem_cons_self
    rw [List.flatMap_cons, List.flatMap_cons, List.append_assoc, parse_file hS hfile (hf file hfile),
      ih fun f h => hmem f (List.mem_cons_of_mem file h), List.append_assoc]

theorem parse_staged (hS : S.Lawful files) (hne : files ≠ []) (hf : ∀ file ∈ files, file.Absolute) :
    S.parse S.bash (stagedBootstrapScript S.encode files payload) =
      .set strictChanges :: (files.flatMap S.fileCommands ++ S.parse S.bash payload) := by
  have hparse := parse_files hS (fun file h => h) hf payload
  cases files with
  | nil => cases hne rfl
  | cons file files => rw [stagedBootstrapScript, hS.comment, hS.strict, certificateScript_eq, hparse]

theorem started_bash (hS : S.Lawful files) (rest : List Char) : S.started (bashLine ++ rest) = (S.bash, noOptions) := by
  have hline : bashLine = '#' :: '!' :: ("/bin/bash".toList ++ ['\n']) := by
    delta bashLine
    simp
  have hall : "/bin/bash".toList.all (fun c => c != '\n') = true := by simp
  have htake : ("/bin/bash".toList ++ '\n' :: rest).takeWhile (fun c => c != '\n') = "/bin/bash".toList := by
    rw [List.takeWhile_append_of_pos (List.all_eq_true.mp hall)]
    simp
  rw [← hS.interpreter, hline]
  rw [List.cons_append, List.cons_append, List.append_assoc, List.singleton_append]
  exact congrArg S.interpreter htake

/-- The staged script is the staging and then the payload, read by bash under strict settings. -/
theorem execute_staged (hS : S.Lawful files) (hne : files ≠ []) (hf : ∀ file ∈ files, file.Absolute)
    (hd : S.Stages files d) (payload : List Char) : ∃ front : Log Program, front.map (fun e => e.2.2) = files.flatMap S.stagingOf ∧
      S.execute (stagedBootstrapScript S.encode files payload) d =
        (front ++ (S.run S.bash (S.parse S.bash payload) strictMode 0 (S.stageAll d files)).1,
          ending (S.run S.bash (S.parse S.bash payload) strictMode 0 (S.stageAll d files)).2) := by
  obtain ⟨m', status', d', h⟩ := hd
  obtain ⟨rfl, rfl, rfl, hcommands⟩ := run_files hS (fun file hf => hf) h
  refine ⟨_, hcommands, ?_⟩
  rw [execute, stagedBootstrapScript, started_bash hS, ← stagedBootstrapScript, parse_staged hS hne hf]
  exact congrArg (fun r => (r.1, ending r.2)) (run_append h)

theorem settle_umask (cs : List ShellCommand) (o₁ o₂ : ShellOption → Bool) (mask : Nat) :
    (settle cs ⟨o₁, mask⟩).umask = (settle cs ⟨o₂, mask⟩).umask := by
  induction cs generalizing o₁ o₂ mask with
  | nil => rfl
  | cons c cs ih =>
    cases c with
    | set changes => exact ih _ _ _
    | umask mask' => exact ih _ _ _
    | install => rfl
    | decode => rfl
    | chmod => rfl
    | other => rfl

theorem settle_options (o : ShellOption) : (settle cs m).options o = (settingOf cs o).getD (m.options o) := by
  induction cs generalizing m with
  | nil => rfl
  | cons c cs ih =>
    cases c with
    | set changes =>
      rw [settle, ih, settingOf, ShellMode.set]
      cases settingOf cs o <;> rfl
    | umask mask => rw [settle, ih, settingOf]
    | install => rfl
    | decode => rfl
    | chmod => rfl
    | other => rfl

/-- The first settings leave no difference just where they make every setting that differs. -/
theorem settle_eq_iff (o₁ o₂ : ShellOption → Bool) (mask : Nat) : settle cs ⟨o₁, mask⟩ = settle cs ⟨o₂, mask⟩ ↔
    ∀ o, settingOf cs o = none → o₁ o = o₂ o := by
  constructor
  · intro h o hn
    have ho := congrFun (congrArg ShellMode.options h) o
    simpa [settle_options, hn] using ho
  · intro h
    have ho : (settle cs ⟨o₁, mask⟩).options = (settle cs ⟨o₂, mask⟩).options := by
      funext o
      rw [settle_options, settle_options]
      cases hs : settingOf cs o with
      | none => exact h o hs
      | some b => rfl
    have hu := settle_umask cs o₁ o₂ mask
    cases h₁ : settle cs ⟨o₁, mask⟩ with
    | mk => cases h₂ : settle cs ⟨o₂, mask⟩ with
      | mk => simp_all

theorem afterSettings_acts (h : afterSettings cs = c :: cs') : c.isSetting = false := by
  induction cs with
  | nil => cases h
  | cons a cs ih =>
    cases a with
    | set => exact ih h
    | umask => exact ih h
    | install | decode | chmod | other =>
      cases h
      rfl

theorem run_settings (h : afterSettings cs = []) :
    (S.run p cs m 0 d).1 = [] ∧ ending (S.run p cs m 0 d).2 = (0, d) := by
  induction cs generalizing m with
  | nil => exact ⟨rfl, rfl⟩
  | cons c cs ih =>
    cases c with
    | set changes => exact ih h
    | umask mask => exact ih h
    | install => cases h
    | decode => cases h
    | chmod => cases h
    | other => cases h

/-- Behind the first settings, the run depends on these only. -/
theorem run_settled (h : afterSettings cs = c :: cs') :
    S.run p cs m 0 d = S.run p (c :: cs') (settle cs m) 0 d := by
  induction cs generalizing m with
  | nil => cases h
  | cons a cs ih =>
    cases a with
    | set changes => exact ih h
    | umask mask => exact ih h
    | install | decode | chmod | other =>
      cases h
      rw [run_acts rfl, run_acts rfl]
      rfl

theorem run_first (cs : List ShellCommand) (hc : c.isSetting = false) :
    (S.run p (c :: cs) m 0 d).1.head? = some (p, m, c) := by
  rw [run_acts hc]
  cases S.effect p m c d <;> rfl

/-- The payload alone, with the commands of bash. -/
theorem execute_bash (h : (S.started payload).1 = S.bash) : S.execute payload d =
    ((S.run S.bash (S.parse S.bash payload) ⟨(S.started payload).2, 0o077⟩ 0 d).1,
      ending (S.run S.bash (S.parse S.bash payload) ⟨(S.started payload).2, 0o077⟩ 0 d).2) := by
  rw [execute, h]

theorem execute_settings (h : afterSettings (S.parse (S.started payload).1 payload) = []) :
    S.execute payload d = ([], (0, d)) := by
  obtain ⟨hlog, hend⟩ := run_settings (S := S) (p := (S.started payload).1) (d := d) h
  exact Prod.ext (hlog ▸ rfl) (hend ▸ rfl)

/-- What the first command of the payload alone runs under. -/
theorem execute_first (h : afterSettings (S.parse (S.started payload).1 payload) = c :: cs) :
    (S.execute payload d).1.head? = some ((S.started payload).1,
      settle (S.parse (S.started payload).1 payload) ⟨(S.started payload).2, 0o077⟩, c) := by
  rw [← run_first (S := S) (d := d) cs (afterSettings_acts h), ← run_settled h]
  rfl

/-- The payload after the staging, which is the payload alone. -/
theorem neutral_transparent (hS : S.Lawful files) (hne : files ≠ []) (hf : ∀ file ∈ files, file.Absolute)
    (h : S.Neutral payload) : S.Transparent files payload := by
  intro d hd
  obtain ⟨front, hfront, hrun⟩ := execute_staged hS hne hf hd payload
  refine ⟨front, hfront, ?_⟩
  rw [hrun]
  by_cases hr : afterSettings (S.parse S.bash payload) = []
  · rw [execute_settings (h.idle hr), (run_settings hr).1, (run_settings hr).2]
  · obtain ⟨c, cs, hc⟩ := List.exists_cons_of_ne_nil hr
    have h := h.set hr
    have hm : settle (S.parse S.bash payload) ⟨(S.started payload).2, 0o077⟩ =
        settle (S.parse S.bash payload) strictMode := (settle_eq_iff _ _ _).mpr h.2
    rw [execute_bash h.1, run_settled hc, run_settled hc, hm]

/-- What ran after the staging shows the settings of the payload alone. -/
theorem transparent_neutral (hS : S.Lawful files) (hne : files ≠ []) (hf : ∀ file ∈ files, file.Absolute)
    (hd : S.Stages files d) (h : S.Transparent files payload) : S.Neutral payload := by
  obtain ⟨front, hfront, hrun⟩ := execute_staged hS hne hf hd payload
  obtain ⟨front', hfront', htransparent⟩ := h d hd
  have hlength : front.length = front'.length := by
    rw [← List.length_map, hfront, ← hfront', List.length_map]
  rw [hrun, Prod.mk.injEq] at htransparent
  have hlog := List.append_inj_right htransparent.1 hlength
  constructor
  · intro hr
    rw [(run_settings hr).1] at hlog
    cases ha : afterSettings (S.parse (S.started payload).1 payload) with
    | nil => rfl
    | cons c cs =>
      have hfirst := execute_first (d := S.stageAll d files) ha
      rw [← hlog] at hfirst
      cases hfirst
  · intro hr
    obtain ⟨c, cs, hc⟩ := List.exists_cons_of_ne_nil hr
    have hfirst := run_first (S := S) (p := S.bash) (d := S.stageAll d files) cs
      (m := settle (S.parse S.bash payload) strictMode) (afterSettings_acts hc)
    rw [← run_settled hc, hlog] at hfirst
    cases ha : afterSettings (S.parse (S.started payload).1 payload) with
    | nil =>
      rw [execute_settings ha] at hfirst
      cases hfirst
    | cons c' cs' =>
      rw [execute_first ha, Option.some.injEq, Prod.mk.injEq, Prod.mk.injEq] at hfirst
      obtain ⟨hp, hm, -⟩ := hfirst
      rw [hp] at hm
      exact ⟨hp, (settle_eq_iff _ _ _).mp hm⟩

/-- A rendered cloud-config begins so. -/
theorem rendered_neutral (hS : S.Lawful files) (rest : List Char) : S.Neutral (bashLine ++ (strictLine ++ rest)) := by
  constructor
  · rw [started_bash hS]
    exact id
  · intro _
    rw [started_bash hS, hS.comment, hS.strict]
    refine ⟨rfl, fun o ho => ?_⟩
    have hlookup : strictChanges.reverse.lookup o = none := (Option.or_eq_none_iff.mp ho).2
    simp [strictMode, ShellMode.set, hlookup]

/-- What the staging does beside its files moves no path to another file. -/
def Standing (S : Interpreters Program τ) (files : List EtcdFile) : Prop :=
  ∀ file ∈ files, ∀ c rest, S.target file.path (S.aside c rest) = S.target file.path rest

theorem standing_stage (hs : S.Standing files) {file f : EtcdFile} (hf : f ∈ files) :
    S.target f.path (S.stage d file).rest = S.target f.path d.rest := by
  have hrest : (S.stage d file).rest =
      S.aside (chmodCommand file) (S.aside (S.decodeCommand file) (S.aside (installCommand file) d.rest)) := rfl
  rw [hrest, hs f hf, hs f hf, hs f hf]

theorem stage_files (d : Disk τ) (file : EtcdFile) (name : List Char) : (S.stage d file).files name =
    if name = S.target file.path (S.aside (installCommand file) d.rest) then some (file.value, octal file.mode)
    else d.files name := rfl

theorem stageAll_other {name : List Char} (hs : S.Standing files)
    (h : ∀ file ∈ files, S.target file.path d.rest ≠ name) : (S.stageAll d files).files name = d.files name := by
  induction files generalizing d with
  | nil => rfl
  | cons file files ih =>
    have hs' : S.Standing files := fun f hf => hs f (List.mem_cons_of_mem file hf)
    have hne : name ≠ S.target file.path (S.aside (installCommand file) d.rest) := by
      rw [hs file List.mem_cons_self]
      exact (h file List.mem_cons_self).symm
    rw [stageAll, List.foldl_cons]
    refine (ih hs' fun f hf => ?_).trans ?_
    · rw [standing_stage hs (List.mem_cons_of_mem file hf)]
      exact h f (List.mem_cons_of_mem file hf)
    · rw [stage_files, if_neg hne]

/-- Files to which different paths lead are all there in the end, with their contents and
modes. -/
theorem stageAll_files (hs : S.Standing files) (hn : (files.map fun f => S.target f.path d.rest).Nodup) :
    ∀ file ∈ files, (S.stageAll d files).files (S.target file.path d.rest) = some (file.value, octal file.mode) := by
  induction files generalizing d with
  | nil => simp
  | cons file files ih =>
    have hs' : S.Standing files := fun f hf => hs f (List.mem_cons_of_mem file hf)
    have hsame : ∀ f ∈ files, S.target f.path (S.stage d file).rest = S.target f.path d.rest :=
      fun f hf => standing_stage hs (List.mem_cons_of_mem file hf)
    rw [List.map_cons, List.nodup_cons] at hn
    intro f hf
    rw [stageAll, List.foldl_cons]
    cases hf with
    | head =>
      have hother : ∀ g ∈ files, S.target g.path (S.stage d file).rest ≠ S.target file.path d.rest := fun g hg he =>
        hn.1 (List.mem_map.mpr ⟨g, hg, (hsame g hg).symm.trans he⟩)
      refine (stageAll_other hs' hother).trans ?_
      rw [stage_files, hs file List.mem_cons_self, if_pos rfl]
    | tail _ hmem =>
      rw [← hsame f hmem]
      refine ih hs' ?_ f hmem
      rw [List.map_congr_left hsame]
      exact hn.2

end Interpreters

/-- What `_normalize_external_etcd` checks of the paths. -/
structure AbsoluteFiles (externalEtcd : NormalizedEtcd) : Prop where
  ca : externalEtcd.caFile.toList.head? = some '/'
  cert : externalEtcd.certFile.toList.head? = some '/'
  key : externalEtcd.keyFile.toList.head? = some '/'

/-- What the check of a configuration has accepted. -/
theorem normalizeExternalEtcd_absolute {config : ExternalEtcd} {etcd : NormalizedEtcd}
    (h : normalizeExternalEtcd config = .ok etcd) : AbsoluteFiles etcd :=
  have ⟨_, hca, hcert, hkey⟩ := normalizeExternalEtcd_ok h
  ⟨hca, hcert, hkey⟩

variable {externalEtcd : NormalizedEtcd} {ca cert key : String}

theorem etcdFiles_absolute (h : AbsoluteFiles externalEtcd) :
    ∀ file ∈ etcdFiles externalEtcd ca cert key, file.Absolute := by
  intro file hf
  simp only [etcdFiles, List.mem_cons, List.not_mem_nil, or_false] at hf
  obtain rfl | rfl | rfl := hf
  · exact h.ca
  · exact h.cert
  · exact h.key

/-- Where the host can hold the three files, staging them changes nothing about a payload exactly
if the payload is neutral to it. -/
theorem staging_transparent (hS : S.Lawful (etcdFiles externalEtcd ca cert key)) (hpaths : AbsoluteFiles externalEtcd)
    (hd : ∃ d, S.Stages (etcdFiles externalEtcd ca cert key) d) :
    S.Transparent (etcdFiles externalEtcd ca cert key) payload ↔ S.Neutral payload := by
  have hne : etcdFiles externalEtcd ca cert key ≠ [] := List.cons_ne_nil _ _
  obtain ⟨d, hd⟩ := hd
  constructor
  · exact Interpreters.transparent_neutral hS hne (etcdFiles_absolute hpaths) hd
  · exact Interpreters.neutral_transparent hS hne (etcdFiles_absolute hpaths)

open Interpreters

/-- Bash and `sh` read the same here, and `false` is the one command that fails. -/
inductive Shell where
  | bash | sh
  deriving DecidableEq, Repr

/-- Readers of the lines of the staging. -/
def lineReaders : List (List Char → Option (List ShellCommand × List Char)) :=
  [fun text => (literal bashLine text).map fun rest => ([], rest),
    fun text => (literal strictLine text).map fun rest => ([.set strictChanges], rest),
    fun text => (literal installText text).map fun rest =>
      ([.install (ShellWords.word .bare rest).1], (ShellWords.word .bare rest).2.tail),
    fun text => (literal chmodText text).map fun rest =>
      let mode := ShellWords.word .bare rest
      let path := ShellWords.word .bare mode.2.tail
      ([.chmod mode.1 path.1], path.2.tail),
    fun text => (literal printText text).bind fun rest =>
      let decoded := ShellWords.word .bare rest
      (literal decodeText decoded.2).map fun rest =>
        let path := ShellWords.word .bare rest
        ([.umask 0o077, .decode decoded.1 path.1], path.2.tail)]

def firstLine (text : List Char) : Line × List Char :=
  (text.takeWhile fun c => c != '\n', (text.dropWhile fun c => c != '\n').tail)

/-- What follows the line that closes a here-document. -/
def behindTag (tag : Line) : Nat → List Char → List Char
  | 0, text => text
  | n + 1, text => if (firstLine text).1 = tag then (firstLine text).2 else behindTag tag n (firstLine text).2

/-- A command with its here-document is one. -/
def otherLine (text : List Char) : List ShellCommand × List Char :=
  ([.other (firstLine text).1],
    match parseHeredocStart (firstLine text).1 with
    | none => (firstLine text).2
    | some (_, tag) => behindTag tag (firstLine text).2.length (firstLine text).2)

/-- The first line, or what quoting makes of it, with what follows. -/
def readLine (text : List Char) : List ShellCommand × List Char :=
  (lineReaders.findSome? fun read => read text).getD (otherLine text)

def readAll : Nat → List Char → List ShellCommand
  | 0, _ => []
  | _ + 1, [] => []
  | n + 1, text => (readLine text).1 ++ readAll n (readLine text).2

def exampleHost : Interpreters Shell Unit where
  bash := .bash
  sh := .sh
  interpreter line := if line = "/bin/bash".toList then (.bash, noOptions) else (.sh, noOptions)
  parse _ text := readAll text.length text
  encode := encodeSecret
  decode text := (Base64.decode text).map String.ofList
  target path _ := path
  aside _ rest := rest
  effect _ m c d :=
    match c with
    | .decode text path =>
      match (Base64.decode text).map String.ofList with
      | some value => .goes m 0 (d.write m.umask path value)
      | none => .exits 1 d
    | .chmod mode path => .goes m 0 (d.chmod (octal mode) path)
    | .other line =>
      if line ≠ "false".toList then .goes m 0 d else if m.options .errexit then .exits 1 d else .goes m 1 d
    | _ => .goes m 0 d

theorem literal_append (p rest : List Char) : literal p (p ++ rest) = some rest := by
  simp [literal]

theorem literal_shorter {p text rest : List Char} (hp : p ≠ []) (h : literal p text = some rest) :
    rest.length < text.length := by
  have hpos := List.length_pos_iff.mpr hp
  rw [literal] at h
  split at h
  · next hprefix =>
    have hle := (List.isPrefixOf_iff_prefix.mp hprefix).length_le
    cases h
    rw [List.length_drop]
    omega
  · cases h

theorem literal_other {p text : List Char} (hp : p ≠ []) (h : text.head? ≠ p.head?) : literal p text = none := by
  cases p with
  | nil => cases hp rfl
  | cons a p =>
    cases text with
    | nil => rfl
    | cons b text =>
      have hne : (a == b) = false := by
        rw [beq_eq_false_iff_ne]
        rintro rfl
        exact h rfl
      simp [literal, List.isPrefixOf, hne]

/-- The first characters of the lines of the staging, which tell them apart. -/
theorem staging_heads : bashLine.head? = some '#' ∧ strictLine.head? = some 's' ∧ installText.head? = some 'i' ∧
    chmodText.head? = some 'c' ∧ printText.head? = some 'u' ∧ decodeText.head? = some ' ' := by
  delta bashLine strictLine installText chmodText printText decodeText
  simp

theorem firstLine_length (text : List Char) : (firstLine text).2.length ≤ text.length - 1 := by
  have hle := List.length_dropWhile_le (fun c => c != '\n') text
  rw [firstLine, List.length_tail]
  omega

theorem behindTag_length (tag : Line) (n : Nat) (text : List Char) : (behindTag tag n text).length ≤ text.length := by
  induction n generalizing text with
  | zero => exact Nat.le_refl _
  | succ n ih =>
    have hfirst := firstLine_length text
    rw [behindTag]
    split
    · omega
    · exact (ih _).trans (by omega)

theorem otherLine_shorter {text : List Char} (h : text ≠ []) : (otherLine text).2.length < text.length := by
  have hpos := List.length_pos_iff.mpr h
  have hfirst := firstLine_length text
  rw [otherLine]
  dsimp only
  split
  · omega
  · next tag _ =>
    have hle := behindTag_length tag (firstLine text).2.length (firstLine text).2
    omega

theorem readLine_shorter {text : List Char} (h : text ≠ []) : (readLine text).2.length < text.length := by
  obtain ⟨hb, hs, hi, hc, hp, hd⟩ := staging_heads
  have hne : ∀ {l : List Char} {c : Char}, l.head? = some c → l ≠ [] := by
    rintro l c hl rfl
    cases hl
  rw [readLine]
  cases hf : lineReaders.findSome? fun read => read text with
  | none => exact otherLine_shorter h
  | some out =>
    obtain ⟨read, hmem, hread⟩ := List.exists_of_findSome?_eq_some hf
    simp only [lineReaders, List.mem_cons, List.not_mem_nil, or_false] at hmem
    obtain rfl | rfl | rfl | rfl | rfl := hmem
    · obtain ⟨rest, hrest, rfl⟩ := Option.map_eq_some_iff.mp hread
      exact literal_shorter (hne hb) hrest
    · obtain ⟨rest, hrest, rfl⟩ := Option.map_eq_some_iff.mp hread
      exact literal_shorter (hne hs) hrest
    · obtain ⟨rest, hrest, rfl⟩ := Option.map_eq_some_iff.mp hread
      have hlt := literal_shorter (hne hi) hrest
      have hword := ShellWords.word_length .bare rest
      simp only [Option.getD_some, List.length_tail]
      omega
    · obtain ⟨rest, hrest, rfl⟩ := Option.map_eq_some_iff.mp hread
      have hlt := literal_shorter (hne hc) hrest
      have hmode := ShellWords.word_length .bare rest
      have hpath := ShellWords.word_length .bare (ShellWords.word .bare rest).2.tail
      simp only [Option.getD_some, List.length_tail] at hpath ⊢
      omega
    · obtain ⟨rest, hrest, hdecode⟩ := Option.bind_eq_some_iff.mp hread
      obtain ⟨rest', hrest', rfl⟩ := Option.map_eq_some_iff.mp hdecode
      have hlt := literal_shorter (hne hp) hrest
      have hlt' := literal_shorter (hne hd) hrest'
      have hdecoded := ShellWords.word_length .bare rest
      have hpath := ShellWords.word_length .bare rest'
      simp only [Option.getD_some, List.length_tail]
      omega

/-- Any fuel that is enough gives the same commands. -/
theorem readAll_enough {text : List Char} {n k : Nat} (hn : text.length ≤ n) (hk : text.length ≤ k) :
    readAll n text = readAll k text := by
  induction n generalizing text k with
  | zero =>
    cases List.length_eq_zero_iff.mp (Nat.le_zero.mp hn)
    cases k <;> rfl
  | succ n ih =>
    cases text with
    | nil => cases k <;> rfl
    | cons c text =>
      cases k with
      | zero => simp at hk
      | succ k =>
        have hlt := readLine_shorter (List.cons_ne_nil c text)
        rw [readAll, readAll, ih (by omega) (by omega : _ ≤ k)]
        · exact List.cons_ne_nil c text
        · exact List.cons_ne_nil c text

theorem parse_line {p : Shell} {text rest : List Char} (cs : List ShellCommand) (h : text ≠ []) (hr : readLine text = (cs, rest)) :
    exampleHost.parse p text = cs ++ exampleHost.parse p rest := by
  have hlt := readLine_shorter h
  change readAll text.length text = cs ++ readAll rest.length rest
  rw [readAll_enough (Nat.le_refl _) (Nat.le_succ_of_le (Nat.le_refl text.length)), readAll,
    readAll_enough (Nat.le_of_lt hlt) (Nat.le_refl _), hr]
  exact h

/-- One of the texts of the staging is read by its own reader only. -/
theorem literal_head {p q rest : List Char} {c : Char} (hp : p ≠ []) (hq : q.head? = some c) (h : p.head? ≠ some c) :
    literal p (q ++ rest) = none := by
  refine literal_other hp ?_
  cases q with
  | nil => cases hq
  | cons a q =>
    rw [List.cons_append, List.head?_cons]
    rw [List.head?_cons] at hq
    rw [hq]
    exact h.symm

theorem exampleHost_lawful (hm : ∀ file ∈ files, file.mode.all isSafe = true) : exampleHost.Lawful files := by
  obtain ⟨hb, hs, hi, hc, hp, hd⟩ := staging_heads
  have hne : ∀ {l : List Char} {c : Char}, l.head? = some c → ∀ rest, l ≠ [] ∧ l ++ rest ≠ [] := by
    rintro l c hl rest
    cases l with
    | nil => cases hl
    | cons a l => exact ⟨List.cons_ne_nil a l, List.cons_ne_nil a _⟩
  have hother : ∀ {p q : List Char} {a c : Char}, p.head? = some a → q.head? = some c → a ≠ c →
      ∀ rest, literal p (q ++ rest) = none := by
    intro p q a c hp hq hac rest
    exact literal_head (hne hp []).1 hq (by rw [hp]; simpa using hac)
  have hblank : endsWord ' ' = true ∧ endsWord '\n' = true := by decide
  have hdecode : ∀ value : String, exampleHost.decode (encodeSecret value) = some value := by
    intro value
    change (Base64.decode (Base64.encode value.toList)).map String.ofList = some value
    rw [Base64.decode_encode, Option.map_some, String.ofList_toList]
  constructor
  · rfl
  · intro rest
    refine parse_line [] (hne hb rest).2 ?_
    simp only [readLine, lineReaders, List.findSome?_cons, literal_append, Option.map_some, Option.getD_some]
  · intro rest
    refine parse_line [.set strictChanges] (hne hs rest).2 ?_
    simp only [readLine, lineReaders, List.findSome?_cons, literal_append, hother hb hs (by decide), Option.map_none,
      Option.map_some, Option.getD_some]
  · intro file _ _ rest
    rw [installLine, List.append_assoc]
    refine parse_line [installCommand file] (hne hi _).2 ?_
    simp only [readLine, lineReaders, List.findSome?_cons, literal_append, hother hb hi (by decide),
      hother hs hi (by decide), Option.map_none, Option.map_some, Option.getD_some,
      word_quote (dirname file.path) hblank.2, List.tail_cons, installCommand]
  · intro file _ _ rest
    have hcut : ∀ l, decodeText ++ l = ' ' :: (decodeText.tail ++ l) := by
      intro l
      rw [← List.cons_append, ← List.eq_cons_of_mem_head? hd]
    simp only [decodeLine, List.append_assoc]
    refine parse_line [.umask 0o077, exampleHost.decodeCommand file] (hne hp _).2 ?_
    have hword : ∀ text l, ShellWords.word .bare (ShellWords.quote text ++ (decodeText ++ l)) = (text, decodeText ++ l) := by
      intro text l
      rw [hcut]
      exact word_quote text hblank.1
    simp only [readLine, lineReaders, List.findSome?_cons, literal_append, hother hb hp (by decide),
      hother hs hp (by decide), hother hi hp (by decide), hother hc hp (by decide), Option.map_none, Option.map_some,
      Option.bind_some, Option.getD_some, hword, word_quote file.path hblank.2, List.tail_cons, decodeCommand]
  · intro file hf _ rest
    simp only [chmodLine, List.append_assoc, List.cons_append]
    refine parse_line [chmodCommand file] (hne hc _).2 ?_
    simp only [readLine, lineReaders, List.findSome?_cons, literal_append, hother hb hc (by decide),
      hother hs hc (by decide), hother hi hc (by decide), Option.map_none, Option.map_some, Option.getD_some,
      word_safe (hm file hf) hblank.1, word_quote file.path hblank.2, List.tail_cons, chmodCommand]
  · intro file _
    exact hdecode file.value
  · intro file _ d m' status d' he
    cases he
    exact ⟨rfl, rfl, rfl⟩
  · intro file _ value d m' status d' hv he
    change (match (Base64.decode (encodeSecret file.value)).map String.ofList with
      | some value => Next.goes strictMode 0 (d.write strictMode.umask file.path value)
      | none => .exits 1 d) = _ at he
    change (Base64.decode (encodeSecret file.value)).map String.ofList = some value at hv
    rw [hv] at he
    cases he
    exact ⟨rfl, rfl, rfl⟩
  · exact fun _ _ _ => rfl
  · intro file _ d m' status d' he
    cases he
    exact ⟨rfl, rfl, rfl⟩

def exampleDisk : Disk Unit := ⟨fun _ => none, ()⟩

def exampleConfig : ExternalEtcd where
  endpoints := joinEtcd.endpoints
  caFile := some joinEtcd.caFile
  certFile := some joinEtcd.certFile
  keyFile := some joinEtcd.keyFile
  caCertRef := ⟨some "etcd-ca", none⟩
  clientCertRef := ⟨some "etcd-client", some "tls.crt"⟩
  clientKeyRef := ⟨some "etcd-client", some "tls.key"⟩

def exampleSpec : MachineSpec :=
  ⟨some "10.0.0.1", none, none, ⟨some "key", none⟩, ⟨some "trust", none⟩, none, none, false, none, none, none, false,
    some exampleConfig⟩

def exampleFiles : List EtcdFile := etcdFiles joinEtcd "ca" "cert" "key"

theorem exampleConfig_normalized : normalizeExternalEtcd exampleConfig = .ok joinEtcd := by decide +kernel

theorem exampleFiles_lawful : exampleHost.Lawful exampleFiles := exampleHost_lawful (by decide)

theorem exampleDisk_stages : exampleHost.Stages exampleFiles exampleDisk := ⟨_, _, _, rfl⟩

/-- The script of a first control plane, with some line before its cluster configuration. -/
def initLines (line : Line) (body : List Line) : List Line :=
  ["#!/bin/bash".toList, line] ++ joinStart :: (body ++ "EOF".toList :: ["kubeadm init".toList])

def initScript (line : Line) (body : List Line) : List Char := join (initLines line body)

def initRest (body : List Line) : List Char := join (joinStart :: (body ++ "EOF".toList :: ["kubeadm init".toList]))

theorem initScript_front (line : Line) (body : List Line) :
    initScript line body = "#!/bin/bash".toList ++ '\n' :: (line ++ '\n' :: initRest body) := by
  rw [initScript, initLines, List.cons_append, List.singleton_append, join_cons, join_cons, initRest]

/-- No cloud-config is read here. -/
def noCloud : CloudConfig.CloudYaml := ⟨fun _ => .error none, fun _ => []⟩

theorem clusterBody_documents : clusterYaml.documents (String.ofList (join clusterBody)) = some [clusterDoc] := by
  have htidy : tidy clusterBody = true := by decide +kernel
  have hfile : clusterFile clusterBody = some 0 := by decide +kernel
  rw [YamlLibrary.documents, clusterYaml_loads htidy hfile]
  rfl

theorem clusterBody_provider : patchProviderIdInKubeadmYaml clusterYaml (String.ofList (join clusterBody)) "ssh://10.0.0.1" =
    .ok (String.ofList (join clusterBody), false, false) := by
  have hrun : patchDocs (patchProviderIdDoc "ssh://10.0.0.1") [clusterDoc] = .ok ([clusterDoc], false, false) := rfl
  rw [patchProviderIdInKubeadmYaml, patchKubeadmYaml_docs clusterBody_documents, hrun]
  rfl

theorem clusterBody_etcd : patchExternalEtcdInKubeadmYaml clusterYaml (String.ofList (join clusterBody)) joinEtcd =
    .ok (String.ofList (join clusterPatchedBody), true, true) := by
  have hrun : patchDocs (patchExternalEtcdDoc joinEtcd) [clusterDoc] = .ok ([clusterPatchedDoc], true, true) := rfl
  have hlines : documentLines [clusterPatchedDoc] = clusterPatchedBody := by decide +kernel
  have htidy : tidy (documentLines [clusterPatchedDoc]) = true := by decide +kernel
  rw [patchExternalEtcdInKubeadmYaml, patchKubeadmYaml_docs clusterBody_documents, hrun]
  simp only [Except.map, if_true, clusterYaml_renders htidy, hlines]

theorem initScript_format (line : Line) {body : List Line} (h : tidy (initLines line body) = true) :
    detectBootstrapFormat (initScript line body) = .shell := by
  have hstrip : stripLine "#!/bin/bash".toList = "#!/bin/bash".toList := by decide
  rw [detectBootstrapFormat, initScript, splitlines_tidy h, initLines, List.cons_append, detectLines, hstrip]
  rfl

/-- The injectors, on a script that has its here-document behind a line of its own. -/
theorem initScript_injected (patch : BodyPatch) {line : Line} {text : String} {saw changed : Bool}
    (hl : parseHeredocStart line = none) (hp : patch (String.ofList (join clusterBody)) = .ok (text, saw, changed)) :
    injectLines patch none (initLines line clusterBody) =
      .ok (initLines line (if saw then splitlines text.toList else clusterBody), saw, changed) := by
  have hpath : isKubeadmYaml joinPath = true := by decide
  have hfirst : parseHeredocStart "#!/bin/bash".toList = none := by decide
  have hpre : ∀ l ∈ ["#!/bin/bash".toList, line], parseHeredocStart l = none := by
    intro l hmem
    simp only [List.mem_cons, List.not_mem_nil, or_false] at hmem
    obtain rfl | rfl := hmem
    · exact hfirst
    · exact hl
  have hbody : ∀ l ∈ clusterBody, stripLine l ≠ "EOF".toList := by decide
  have hpost : ∀ l ∈ ["kubeadm init".toList], parseHeredocStart l = none := by decide
  exact injectLines_document patch joinStart_parsed hpath hpre hbody hpost hp

theorem tidy_last {lines : List Line} (h : tidy lines = true) : (join lines).getLast? ≠ some '\n' := by
  intro hlast
  simp [tidy, hlast] at h

/-- A script that starts with an interpreter line is not empty. -/
theorem stripLine_initScript (line : Line) (body : List Line) : stripLine (initScript line body) ≠ [] := by
  obtain ⟨rest, hrest⟩ : ∃ rest, initScript line body = '#' :: rest := ⟨_, rfl⟩
  have hmem : '#' ∈ (('#' :: rest).dropWhile isSpace).reverse := by simp [isSpace]
  have hkept : ((('#' :: rest).dropWhile isSpace).reverse.dropWhile isSpace) ≠ [] := by
    rw [Ne, List.dropWhile_eq_nil_iff]
    intro h
    cases h '#' hmem
  rw [hrest, stripLine, Ne, List.reverse_eq_nil_iff]
  exact hkept

/-- Both wirings of the script and its preparation. -/
theorem initScript_rendered {line : Line} (hl : parseHeredocStart line = none)
    (ht : tidy (initLines line clusterBody) = true) (ht' : tidy (initLines line clusterPatchedBody) = true) :
    (controllerTools clusterYaml noCloud).render exampleSpec (String.ofList (initScript line clusterBody))
      "ssh://10.0.0.1" = .ok (String.ofList (initScript line clusterPatchedBody)) := by
  have hwired : splitlines (String.ofList (join clusterPatchedBody)).toList = clusterPatchedBody := by
    rw [String.toList_ofList]
    exact splitlines_tidy (by decide +kernel)
  have hname : CloudConfig.injectProviderIdIntoBootstrapData clusterYaml noCloud
      (String.ofList (initScript line clusterBody)) "ssh://10.0.0.1" =
        .ok (String.ofList (initScript line clusterBody), false) := by
    rw [CloudConfig.injectProviderIdIntoBootstrapData, String.toList_ofList, initScript_format line ht]
    dsimp only
    rw [injectProviderIdIntoShellBootstrapData, String.toList_ofList, initScript, splitlines_tidy ht,
      initScript_injected (fun text => patchProviderIdInKubeadmYaml clusterYaml text "ssh://10.0.0.1") hl
        clusterBody_provider]
    rfl
  have hetcd : exampleSpec.externalEtcd.mapM normalizeExternalEtcd = .ok (some joinEtcd) := by
    change (some exampleConfig).mapM normalizeExternalEtcd = _
    rw [Option.mapM_some, exampleConfig_normalized]
    rfl
  have hwire : wireExternalEtcd clusterYaml noCloud (String.ofList (initScript line clusterBody)) (some joinEtcd) =
      .ok (String.ofList (initScript line clusterPatchedBody)) := by
    have hrendered : rendered (String.ofList (initScript line clusterBody)) (initLines line clusterPatchedBody) =
        String.ofList (initScript line clusterPatchedBody) := by
      rw [rendered, String.toList_ofList, initScript, if_neg (tidy_last ht), List.append_nil, initScript]
    rw [wireExternalEtcd, CloudConfig.injectExternalEtcdIntoBootstrapData, String.toList_ofList,
      initScript_format line ht]
    dsimp only
    rw [injectExternalEtcdIntoShellBootstrapData, String.toList_ofList]
    nth_rewrite 1 [initScript]
    rw [splitlines_tidy ht, initScript_injected (fun text => patchExternalEtcdInKubeadmYaml clusterYaml text joinEtcd) hl
      clusterBody_etcd, if_pos rfl, hwired]
    simp only [bind, Except.bind, if_true, hrendered]
    rfl
  have hprepare : CloudConfig.prepareBootstrapScript noCloud.safeLoad
      (String.ofList (initScript line clusterPatchedBody)).toList =
        .ok (initScript line clusterPatchedBody, .shell) := by
    rw [CloudConfig.prepareBootstrapScript, String.toList_ofList, initScript_format line ht']
    exact if_neg (stripLine_initScript line clusterPatchedBody)
  exact renderBootstrapData_ok.mpr ⟨_, _, _, _, _, _, hname, hetcd, hwire, hprepare, rfl⟩

/-- A payload that is strict itself. -/
theorem staging_transparent_join :
    (controllerTools clusterYaml noCloud).render exampleSpec
        (String.ofList (initScript "set -euo pipefail".toList clusterBody)) "ssh://10.0.0.1" =
      .ok (String.ofList (initScript "set -euo pipefail".toList clusterPatchedBody)) ∧
    exampleHost.Transparent exampleFiles (initScript "set -euo pipefail".toList clusterPatchedBody) := by
  have hbash : bashLine = "#!/bin/bash".toList ++ ['\n'] := by decide
  have hstrict : strictLine = "set -euo pipefail".toList ++ ['\n'] := by decide
  have hlines : initScript "set -euo pipefail".toList clusterPatchedBody =
      bashLine ++ (strictLine ++ initRest clusterPatchedBody) := by
    rw [initScript_front, hbash, hstrict, List.append_assoc, List.append_assoc, List.singleton_append,
      List.singleton_append]
  refine ⟨initScript_rendered (by decide) (by decide +kernel) (by decide +kernel),
    (staging_transparent exampleFiles_lawful (normalizeExternalEtcd_absolute exampleConfig_normalized)
      ⟨exampleDisk, exampleDisk_stages⟩).mpr ?_⟩
  rw [hlines]
  exact rendered_neutral exampleFiles_lawful (initRest clusterPatchedBody)

/-- A payload with a command that may fail: alone it goes on after it, staged it ends there. -/
theorem staging_transparent_tolerant :
    exampleHost.Lawful exampleFiles ∧ normalizeExternalEtcd exampleConfig = .ok joinEtcd ∧
    exampleHost.Stages exampleFiles exampleDisk ∧
    (controllerTools clusterYaml noCloud).render exampleSpec (String.ofList (initScript "false".toList clusterBody))
        "ssh://10.0.0.1" = .ok (String.ofList (initScript "false".toList clusterPatchedBody)) ∧
    (exampleHost.execute (initScript "false".toList clusterPatchedBody)
        (exampleHost.stageAll exampleDisk exampleFiles)).2.1 = 0 ∧
    (exampleHost.execute (stagedBootstrapScript exampleHost.encode exampleFiles
        (initScript "false".toList clusterPatchedBody)) exampleDisk).2.1 = 1 ∧
    ¬ exampleHost.Transparent exampleFiles (initScript "false".toList clusterPatchedBody) := by
  have halone : (exampleHost.execute (initScript "false".toList clusterPatchedBody)
      (exampleHost.stageAll exampleDisk exampleFiles)).2.1 = 0 := by
    decide +kernel
  have hstaged : (exampleHost.execute (stagedBootstrapScript exampleHost.encode exampleFiles
      (initScript "false".toList clusterPatchedBody)) exampleDisk).2.1 = 1 := by
    decide +kernel
  refine ⟨exampleFiles_lawful, exampleConfig_normalized, exampleDisk_stages,
    initScript_rendered (by decide) (by decide +kernel) (by decide +kernel), halone, hstaged, ?_⟩
  intro h
  obtain ⟨front, -, heq⟩ := h exampleDisk exampleDisk_stages
  rw [heq, halone] at hstaged
  cases hstaged

end CapiSsh.Staging
