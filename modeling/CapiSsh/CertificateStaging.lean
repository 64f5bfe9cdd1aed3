import CapiSsh.Kubeadm
import CapiSsh.ShellBootstrap
import CapiSsh.Lib.ShellWords
import CapiSsh.Lib.TextLines
import Mathlib.Data.List.DropRight

/-!
# Certificates in front of a bootstrap payload

`_external_etcd_files_script` of `controllers/sshmachine.py`, the script that is uploaded
with it, and what running a script means: an interpreter reads it as commands and runs
these one after the other, under options and a umask that the commands can change.
-/
namespace CapiSsh.Staging

open ShellWords TextLines

/-- `posixpath.dirname` -/
def dirname (path : List Char) : List Char :=
  let head := path.rdropWhile (fun c => c != '/')
  if head.all (fun c => c == '/') then head else head.rdropWhile (fun c => c == '/')

structure EtcdFile where
  path : List Char
  mode : List Char
  value : String
  deriving DecidableEq, Repr

/-- The files of a configuration, with the values of their Secrets. -/
def etcdFiles (externalEtcd : NormalizedEtcd) (ca cert key : String) : List EtcdFile :=
  [⟨externalEtcd.caFile.toList, "0644".toList, ca⟩, ⟨externalEtcd.certFile.toList, "0644".toList, cert⟩,
    ⟨externalEtcd.keyFile.toList, "0600".toList, key⟩]

section Script

variable (encode : String → List Char)

def bashLine : List Char := "#!/bin/bash\n".toList
def strictLine : List Char := "set -euo pipefail\n".toList
def installText : List Char := "install -d -m 0700 ".toList
def printText : List Char := "umask 077; printf '%s' ".toList
def decodeText : List Char := " | base64 -d > ".toList
def chmodText : List Char := "chmod ".toList

def installLine (file : EtcdFile) : Line := installText ++ ShellWords.quote (dirname file.path)

def decodeLine (file : EtcdFile) : Line :=
  printText ++ (ShellWords.quote (encode file.value) ++ (decodeText ++ ShellWords.quote file.path))

def chmodLine (file : EtcdFile) : Line := chmodText ++ (file.mode ++ ' ' :: ShellWords.quote file.path)

def fileLines (file : EtcdFile) : List Line := [installLine file, decodeLine encode file, chmodLine file]

/-- `_external_etcd_files_script`; `encode` is base64. -/
def certificateScript (files : List EtcdFile) : List Char := join (files.flatMap (fileLines encode)) ++ ['\n']

/-- The script that is uploaded when `externalEtcd` is set. -/
def stagedBootstrapScript (files : List EtcdFile) (bootstrapScript : List Char) : List Char :=
  bashLine ++ (strictLine ++ (certificateScript encode files ++ bootstrapScript))

end Script

inductive ShellOption where
  | errexit | nounset | pipefail
  | other : String → ShellOption
  deriving DecidableEq, Repr

structure ShellMode where
  options : ShellOption → Bool
  umask : Nat

/-- The commands of the staging, the settings of a shell, and all others. -/
inductive ShellCommand where
  | set : List (ShellOption × Bool) → ShellCommand
  | umask : Nat → ShellCommand
  | install : List Char → ShellCommand
  | decode : List Char → List Char → ShellCommand
  | chmod : List Char → List Char → ShellCommand
  | other : List Char → ShellCommand
  deriving DecidableEq, Repr

def octal (digits : List Char) : Nat := digits.foldl (fun n c => 8 * n + (c.toNat - 48)) 0

/-- Files with their contents and modes, each under the one name of its own that every path
to it leads to, and all the rest of a host and of a shell. -/
structure Disk (τ : Type) where
  files : List Char → Option (String × Nat)
  rest : τ

section Disk

variable {τ : Type}

def Disk.put (d : Disk τ) (name : List Char) (value : String) (mode : Nat) : Disk τ :=
  { d with files := fun n => if n = name then some (value, mode) else d.files n }

/-- A file that exists keeps its mode. -/
def Disk.write (d : Disk τ) (umask : Nat) (name : List Char) (value : String) : Disk τ :=
  d.put name value (((d.files name).map Prod.snd).getD (0o666 - (0o666 &&& umask)))

def Disk.chmod (d : Disk τ) (mode : Nat) (name : List Char) : Disk τ :=
  match d.files name with
  | some (value, _) => d.put name value mode
  | none => d

end Disk

/-- A script goes on, or it ends with a status. -/
inductive Next (τ : Type) where
  | goes : ShellMode → Int → Disk τ → Next τ
  | exits : Int → Disk τ → Next τ

def noOptions : ShellOption → Bool := fun _ => false

/-- `set -euo pipefail` -/
def strictChanges : List (ShellOption × Bool) := [(.errexit, true), (.nounset, true), (.pipefail, true)]

def ShellMode.set (m : ShellMode) (changes : List (ShellOption × Bool)) : ShellMode :=
  { m with options := fun o => ((changes.reverse.lookup o).getD (m.options o)) }

/-- A host with its interpreters. `interpreter` reads what follows the `#!` of a first line,
and `sh` runs a script without one. `target` is the name of the file that a path leads to,
and `aside` what a command of the staging does to the rest of the host: the directories of
`install -d`, the times and the log of any. -/
structure Interpreters (Program τ : Type) where
  bash : Program
  sh : Program
  interpreter : List Char → Program × (ShellOption → Bool)
  parse : Program → List Char → List ShellCommand
  encode : String → List Char
  decode : List Char → Option String
  target : List Char → τ → List Char
  aside : ShellCommand → τ → τ
  effect : Program → ShellMode → ShellCommand → Disk τ → Next τ

namespace Interpreters

variable {Program τ : Type} (S : Interpreters Program τ)

/-- The commands that ran, each with what it ran under. -/
abbrev Log (Program : Type) := List (Program × ShellMode × ShellCommand)

def run (p : Program) : List ShellCommand → ShellMode → Int → Disk τ → Log Program × Next τ
  | [], m, status, d => ([], .goes m status d)
  | .set changes :: cs, m, _, d => run p cs (m.set changes) 0 d
  | .umask mask :: cs, m, _, d => run p cs { m with umask := mask } 0 d
  | c :: cs, m, _, d =>
    match S.effect p m c d with
    | .exits status d' => ([(p, m, c)], .exits status d')
    | .goes m' status d' => ((p, m, c) :: (run p cs m' status d').1, (run p cs m' status d').2)

/-- The program that runs a script, and the options that it is started with. -/
def started (text : List Char) : Program × (ShellOption → Bool) :=
  match text with
  | '#' :: '!' :: line => S.interpreter (line.takeWhile fun c => c != '\n')
  | _ => (S.sh, noOptions)

def ending : Next τ → Int × Disk τ
  | .goes _ status d => (status, d)
  | .exits status d => (status, d)

/-- The bootstrap job runs the script under `umask 077`. -/
def execute (text : List Char) (d : Disk τ) : Log Program × (Int × Disk τ) :=
  let r := S.run (S.started text).1 (S.parse (S.started text).1 text) ⟨(S.started text).2, 0o077⟩ 0 d
  (r.1, ending r.2)

/-- `strictMode` is in force when the payload is reached. -/
def strictMode : ShellMode := (ShellMode.mk noOptions 0o077).set strictChanges

/-- What a command of the staging does beside its file. -/
def beside (c : ShellCommand) (d : Disk τ) : Disk τ := { d with rest := S.aside c d.rest }

def installCommand (file : EtcdFile) : ShellCommand := .install (dirname file.path)

def decodeCommand (file : EtcdFile) : ShellCommand := .decode (S.encode file.value) file.path

def chmodCommand (file : EtcdFile) : ShellCommand := .chmod file.mode file.path

/-- Bash reads the lines of the staging of these files one after the other, and the commands
of the staging do what they say where the script goes on after them. -/
structure Lawful (files : List EtcdFile) : Prop where
  interpreter : S.interpreter "/bin/bash".toList = (S.bash, noOptions)
  comment : ∀ rest, S.parse S.bash (bashLine ++ rest) = S.parse S.bash rest
  strict : ∀ rest, S.parse S.bash (strictLine ++ rest) = .set strictChanges :: S.parse S.bash rest
  installs : ∀ file ∈ files, file.path.head? = some '/' → ∀ rest,
    S.parse S.bash (installLine file ++ '\n' :: rest) = installCommand file :: S.parse S.bash rest
  decodes : ∀ file ∈ files, file.path.head? = some '/' → ∀ rest,
    S.parse S.bash (decodeLine S.encode file ++ '\n' :: rest) =
      .umask 0o077 :: S.decodeCommand file :: S.parse S.bash rest
  chmods : ∀ file ∈ files, file.path.head? = some '/' → ∀ rest,
    S.parse S.bash (chmodLine file ++ '\n' :: rest) = chmodCommand file :: S.parse S.bash rest
  decoded : ∀ file ∈ files, S.decode (S.encode file.value) = some file.value
  install : ∀ file ∈ files, ∀ d m' status d', S.effect S.bash strictMode (installCommand file) d = .goes m' status d' →
    m' = strictMode ∧ status = 0 ∧ d' = S.beside (installCommand file) d
  decoding : ∀ file ∈ files, ∀ value d m' status d', S.decode (S.encode file.value) = some value →
    S.effect S.bash strictMode (S.decodeCommand file) d = .goes m' status d' →
      m' = strictMode ∧ status = 0 ∧
        d' = S.beside (S.decodeCommand file) (d.write strictMode.umask (S.target file.path d.rest) value)
  standing : ∀ file ∈ files, ∀ rest, S.target file.path (S.aside (S.decodeCommand file) rest) = S.target file.path rest
  chmod : ∀ file ∈ files, ∀ d m' status d', S.effect S.bash strictMode (chmodCommand file) d = .goes m' status d' →
    m' = strictMode ∧ status = 0 ∧
      d' = S.beside (chmodCommand file) (d.chmod (octal file.mode) (S.target file.path d.rest))

/-- What the staging is for: where the path of the file leads when its directory is there,
the file is installed with its value and its mode. -/
def stage (d : Disk τ) (file : EtcdFile) : Disk τ :=
  let ready := S.beside (installCommand file) d
  S.beside (chmodCommand file) (S.beside (S.decodeCommand file)
    (ready.put (S.target file.path ready.rest) file.value (octal file.mode)))

def stageAll (d : Disk τ) (files : List EtcdFile) : Disk τ := files.foldl S.stage d

def fileCommands (file : EtcdFile) : List ShellCommand :=
  [installCommand file, .umask 0o077, S.decodeCommand file, chmodCommand file]

/-- The commands of the staging that are no settings. -/
def stagingOf (file : EtcdFile) : List ShellCommand :=
  [installCommand file, S.decodeCommand file, chmodCommand file]

/-- The certificates can be installed: no command of the staging ends the script. -/
def Stages (files : List EtcdFile) (d : Disk τ) : Prop :=
  ∃ m status d', (S.run S.bash (files.flatMap S.fileCommands) strictMode 0 d).2 = .goes m status d'

/-- The staged script installs the files and then runs the payload as it is run alone: the
same commands by the same interpreter, each under the same options and umask, to the same
end. -/
def Transparent (files : List EtcdFile) (payload : List Char) : Prop :=
  ∀ d, S.Stages files d → ∃ front : Log Program,
    front.map (fun e => e.2.2) = files.flatMap S.stagingOf ∧
      S.execute (stagedBootstrapScript S.encode files payload) d =
        (front ++ (S.execute payload (S.stageAll d files)).1, (S.execute payload (S.stageAll d files)).2)

end Interpreters

/-- The first commands as long as they are settings, and what follows them. -/
def settle : List ShellCommand → ShellMode → ShellMode
  | .set changes :: cs, m => settle cs (m.set changes)
  | .umask mask :: cs, m => settle cs { m with umask := mask }
  | _, m => m

def afterSettings : List ShellCommand → List ShellCommand
  | .set _ :: cs => afterSettings cs
  | .umask _ :: cs => afterSettings cs
  | cs => cs

/-- What the first commands set an option to. -/
def settingOf : List ShellCommand → ShellOption → Option Bool
  | .set changes :: cs, o => (settingOf cs o).or (changes.reverse.lookup o)
  | .umask _ :: cs, o => settingOf cs o
  | _, _ => none

/-- The payload itself begins with the settings in which bash after the staging differs from
what the payload is started with, or it has no commands. -/
structure Interpreters.Neutral (S : Interpreters Program τ) (payload : List Char) : Prop where
  idle : afterSettings (S.parse S.bash payload) = [] → afterSettings (S.parse (S.started payload).1 payload) = []
  set : afterSettings (S.parse S.bash payload) ≠ [] → (S.started payload).1 = S.bash ∧
    ∀ o, settingOf (S.parse S.bash payload) o = none → (S.started payload).2 o = strictMode.options o

inductive BootstrapFormat where
  | shell | cloudConfig | unknown
  deriving DecidableEq, Repr

def detectLines : List Line → BootstrapFormat
  | [] => .unknown
  | line :: rest =>
    let stripped := stripLine line
    if stripped = [] then detectLines rest
    else if "## template:".toList.isPrefixOf stripped then detectLines rest
    else if "#cloud-config".toList.isPrefixOf stripped || "write_files:".toList.isPrefixOf stripped ||
        "runcmd:".toList.isPrefixOf stripped then .cloudConfig
    else .shell

def detectBootstrapFormat (bootstrapData : List Char) : BootstrapFormat := detectLines (splitlines bootstrapData)

end CapiSsh.Staging
