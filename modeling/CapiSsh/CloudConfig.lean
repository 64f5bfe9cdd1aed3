import CapiSsh.CertificateStaging
import CapiSsh.Lib.Base64
import CapiSsh.Lib.ShellScript

/-!
# Cloud-config payloads

`_parse_cloud_config`, the helpers for the fields of a `write_files` entry, and
`_render_cloud_config_to_shell`. The YAML loader is a parameter; it says where it has
stopped.
-/
namespace CapiSsh.CloudConfig

open DataTree TextLines

/-- The scalars besides strings and null. A float is known by its text, as a value of
another type is. -/
inductive CloudScalar where
  | bool (b : Bool)
  | int (n : Int)
  | float (text : List Char)
  | other (text : List Char)
  deriving DecidableEq, Repr

abbrev CloudNode := Node CloudScalar

abbrev CloudEntry := Entries CloudScalar

/-- An entry of `write_files`, with its path. -/
structure CloudFile where
  path : List Char
  named : path ≠ []
  entry : CloudEntry
  standing : DataTree.get "path" entry = some (.scalar (.str (String.ofList path)))

inductive RunCommand where
  | text (command : List Char)
  | argv (parts : List (List Char))
  deriving DecidableEq, Repr

/-- A payload after its checks, and the mapping as it is then. -/
structure CloudPayload where
  config : CloudEntry
  writeFiles : List CloudFile
  runcmd : List RunCommand

/-- A loader that fails may know the line and the column. -/
abbrev SafeLoad := List Char → Except (Option (Nat × Nat)) CloudNode

def zeroFloats : List (List Char) := ["0.0".toList, "-0.0".toList]

/-- No bytes and no members: the values of `!!binary` and `!!set` that count as false. -/
def emptyValues : List (List Char) := [['b', ShellWords.apostrophe, ShellWords.apostrophe], "set()".toList]

/-- What `or` replaces. -/
def isFalsy : CloudNode → Bool
  | .scalar .null => true
  | .scalar (.str s) => s == ""
  | .scalar (.other (.bool b)) => !b
  | .scalar (.other (.int n)) => n == 0
  | .scalar (.other (.float text)) => zeroFloats.contains text
  | .scalar (.other (.other text)) => emptyValues.contains text
  | .list as => as.isEmpty
  | .map es => es.isEmpty

def yamlError : Option (Nat × Nat) → String
  | none => "bootstrap cloud-config YAML is invalid"
  | some (line, column) => s!"bootstrap cloud-config YAML is invalid at line {line + 1}, column {column + 1}"

/-- A list under a key, which may also be missing or null. -/
def listAt (key message : String) (config : CloudEntry) : Except Exc (List CloudNode) :=
  match DataTree.get key config with
  | none | some (.scalar .null) => .ok []
  | some (.list as) => .ok as
  | some _ => .error (.permanent message)

def pathMessage (idx : Nat) : String := s!"bootstrap cloud-config write_files[{idx}].path must be a non-empty string"

def checkFile (idx : Nat) : CloudNode → Except Exc CloudFile
  | .map entry =>
    match hp : DataTree.get "path" entry with
    | some (.scalar (.str path)) =>
      if h : path.toList ≠ [] then .ok ⟨path.toList, h, entry, by rw [hp, String.ofList_toList]⟩
      else .error (.permanent (pathMessage idx))
    | _ => .error (.permanent (pathMessage idx))
  | _ => .error (.permanent s!"bootstrap cloud-config write_files[{idx}] must be an object")

/-- `str` of a string, an integer, a float or a boolean. -/
def partText : CloudNode → Option (List Char)
  | .scalar (.str s) => some s.toList
  | .scalar (.other (.bool b)) => some (if b then "True".toList else "False".toList)
  | .scalar (.other (.int n)) => some (toString n).toList
  | .scalar (.other (.float text)) => some text
  | _ => none

def checkCommand (idx : Nat) : CloudNode → Except Exc RunCommand
  | .scalar (.str s) => .ok (.text s.toList)
  | .list parts =>
    match parts.mapM partText with
    | some texts => .ok (.argv texts)
    | none => .error (.permanent s!"bootstrap cloud-config runcmd[{idx}] list entries must be scalar values")
  | _ => .error (.permanent s!"bootstrap cloud-config runcmd[{idx}] must be string or list")

/-- A loop over `enumerate`, up to the first error. -/
def eachFrom {α β : Type} (f : Nat → α → Except Exc β) : Nat → List α → Except Exc (List β)
  | _, [] => .ok []
  | idx, a :: as => do
    let b ← f idx a
    let bs ← eachFrom f (idx + 1) as
    pure (b :: bs)

def parseCloudConfig (safeLoad : SafeLoad) (bootstrapData : List Char) : Except Exc CloudPayload :=
  match safeLoad bootstrapData with
  | .error mark => .error (.permanent (yamlError mark))
  | .ok loaded => do
    let config ← match if isFalsy loaded then .map [] else loaded with
      | .map config => .ok config
      | _ => .error (Exc.permanent "bootstrap cloud-config must be a mapping")
    let writeFiles ← listAt "write_files" "bootstrap cloud-config write_files must be a list" config
    let files ← eachFrom checkFile 0 writeFiles
    let runcmd ← listAt "runcmd" "bootstrap cloud-config runcmd must be a list" config
    let commands ← eachFrom checkCommand 0 runcmd
    pure ⟨DataTree.assign "runcmd" (.list runcmd) (DataTree.assign "write_files" (.list writeFiles) config), files, commands⟩

/-- `encoding.strip().lower()` -/
def normalizedEncoding (encoding : String) : String := lower (strip encoding)

def isPlainEncoding (normalized : String) : Bool := ["", "text", "plain"].contains normalized

def isBase64 (normalized : String) : Bool := ["b64", "base64"].contains normalized

def contentOf (idx : Nat) (entry : CloudEntry) : Except Exc (List Char) :=
  match DataTree.get "content" entry with
  | none | some (.scalar .null) => .ok []
  | some (.scalar (.str s)) => .ok s.toList
  | some _ => .error (.permanent s!"bootstrap cloud-config write_files[{idx}].content must be a string when set")

def decodeCloudWriteFileContent (entry : CloudEntry) (idx : Nat) : Except Exc (List Char) := do
  let content ← contentOf idx entry
  match DataTree.get "encoding" entry with
  | none | some (.scalar .null) => pure content
  | some (.scalar (.str encoding)) =>
    if isPlainEncoding (normalizedEncoding encoding) then pure content
    else if isBase64 (normalizedEncoding encoding) then
      match Base64.decode (content.filter fun c => !isSpace c) with
      | some text => pure text
      | none => .error (.permanent s!"bootstrap cloud-config write_files[{idx}] has invalid base64 or UTF-8 content")
    else .error (.permanent
      s!"bootstrap cloud-config write_files[{idx}] encoding is unsupported; expected text or base64")
  | some _ => .error (.permanent s!"bootstrap cloud-config write_files[{idx}].encoding must be a string when set")

/-- The content is written back in the encoding that the entry has. -/
def storeCloudWriteFileContent (entry : CloudEntry) (text : List Char) : CloudEntry :=
  match DataTree.get "encoding" entry with
  | some (.scalar (.str encoding)) =>
    if isBase64 (normalizedEncoding encoding) then
      DataTree.assign "content" (.str (String.ofList (Base64.encode text))) entry
    else DataTree.assign "content" (.str (String.ofList text)) entry
  | _ => DataTree.assign "content" (.str (String.ofList text)) entry

/-- `format(mode, "o")` -/
def octalText (n : Int) : List Char :=
  if n < 0 then '-' :: Nat.toDigits 8 n.natAbs else Nat.toDigits 8 n.natAbs

def isQuoteMark (c : Char) : Bool := c == ShellWords.apostrophe || c == ShellWords.doubleQuote

/-- `mode.strip().strip` of both quotes -/
def strippedMode (mode : List Char) : List Char :=
  (((stripLine mode).dropWhile isQuoteMark).reverse.dropWhile isQuoteMark).reverse

def permissionsMessage (idx : Nat) : String :=
  s!"bootstrap cloud-config write_files[{idx}].permissions must be a non-empty string or integer"

def formatCloudFileMode (mode : CloudNode) (idx : Nat) : Except Exc (List Char) :=
  match mode with
  | .scalar (.other (.bool b)) => .ok (octalText (if b then 1 else 0))
  | .scalar (.other (.int n)) => .ok (octalText n)
  | .scalar (.str s) =>
    if strippedMode s.toList ≠ [] then .ok (strippedMode s.toList) else .error (.permanent (permissionsMessage idx))
  | _ => .error (.permanent (permissionsMessage idx))

def permissionsOf (idx : Nat) (entry : CloudEntry) : Except Exc (Option (List Char)) :=
  match DataTree.get "permissions" entry with
  | none | some (.scalar .null) => .ok none
  | some mode => (formatCloudFileMode mode idx).map some

def ownerMessage (idx : Nat) : String := s!"bootstrap cloud-config write_files[{idx}].owner must be a non-empty string"

def ownerOf (idx : Nat) (entry : CloudEntry) : Except Exc (Option (List Char)) :=
  match DataTree.get "owner" entry with
  | none | some (.scalar .null) => .ok none
  | some (.scalar (.str owner)) =>
    if owner.toList ≠ [] then .ok (some owner.toList) else .error (.permanent (ownerMessage idx))
  | some _ => .error (.permanent (ownerMessage idx))

def bashLine : Line := "#!/bin/bash".toList
def strictLine : Line := "set -euo pipefail".toList
def installText : List Char := "install -d -m 0755 ".toList
def markerFront : List Char := "__CAPI_BOOTSTRAP_FILE_".toList
def markerBack : List Char := "__".toList
def catText : List Char := "cat <<".toList
def intoText : List Char := " > ".toList
def chmodText : List Char := "chmod ".toList
def chownText : List Char := "chown ".toList

def marker (idx : Nat) : Line := markerFront ++ (Nat.toDigits 10 idx ++ markerBack)

def directoryOf (path : List Char) : List Char :=
  if Staging.dirname path = [] then ['/'] else Staging.dirname path

def catLine (idx : Nat) (path : List Char) : Line :=
  catText ++ (ShellWords.apostrophe :: (marker idx ++ ShellWords.apostrophe :: (intoText ++ ShellWords.quote path)))

def fileLines (idx : Nat) (file : CloudFile) : Except Exc (List Line) := do
  let content ← decodeCloudWriteFileContent file.entry idx
  let written := [installText ++ ShellWords.quote (directoryOf file.path), catLine idx file.path] ++
    ((if content ≠ [] then splitlines content else []) ++ [marker idx])
  let permissions ← permissionsOf idx file.entry
  let moded := written ++ match permissions with
    | some mode => [chmodText ++ (ShellWords.quote mode ++ ' ' :: ShellWords.quote file.path)]
    | none => []
  let owner ← ownerOf idx file.entry
  pure (moded ++ match owner with
    | some owner => [chownText ++ (ShellWords.quote owner ++ ' ' :: ShellWords.quote file.path)]
    | none => [])

/-- `" ".join` of the quoted parts -/
def joinedParts (parts : List (List Char)) : List Char := [' '].intercalate (parts.map ShellWords.quote)

def commandLines (idx : Nat) : RunCommand → Except Exc (List Line)
  | .text command => .ok [command]
  | .argv [] => .ok []
  | .argv parts =>
    if joinedParts parts = [] then .error (.permanent s!"bootstrap cloud-config runcmd[{idx}] cannot be empty")
    else .ok [joinedParts parts]

/-- `text.rstrip` of line breaks -/
def rstripLines (text : List Char) : List Char := text.rdropWhile (· == '\n')

def renderCloudConfigToShell (safeLoad : SafeLoad) (bootstrapData : List Char) :
    Except Exc (List Char) := do
  let config ← parseCloudConfig safeLoad bootstrapData
  let files ← eachFrom fileLines 0 config.writeFiles
  let commands ← eachFrom commandLines 0 config.runcmd
  pure (rstripLines (join ([bashLine, strictLine] ++ (files.flatten ++ commands.flatten))) ++ ['\n'])

def prepareBootstrapScript (safeLoad : SafeLoad) (bootstrapData : List Char) :
    Except Exc (List Char × Staging.BootstrapFormat) :=
  match Staging.detectBootstrapFormat bootstrapData with
  | .cloudConfig => (renderCloudConfigToShell safeLoad bootstrapData).map fun script => (script, .cloudConfig)
  | .shell =>
    if stripLine bootstrapData = [] then .error (.permanent "bootstrap data is empty")
    else .ok (bootstrapData, .shell)
  | .unknown => .error (.permanent "bootstrap data format is not supported")

end CapiSsh.CloudConfig
