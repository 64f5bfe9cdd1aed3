import CapiSsh.Kubeadm
import CapiSsh.Lib.TextLines

/-!
# Injection into shell bootstrap payloads

`_parse_heredoc_start` and the two shell injectors of `controllers/sshmachine.py`. Both
walk over the lines of a payload and patch the bodies of the kubeadm here-documents; they
differ in the patch and in what they do when nothing was found or changed.
-/
namespace CapiSsh

open TextLines

def literal (p l : List Char) : Option (List Char) :=
  if p.isPrefixOf l then some (l.drop p.length) else none

/-- `\s*` -/
def skipSpaces (l : List Char) : List Char := l.dropWhile isSpace

/-- `\s+` -/
def spaces (l : List Char) : Option (List Char) :=
  if (l.head?.map isSpace).getD false then some (skipSpaces l) else none

/-- `\S+`, with what follows. -/
def word (l : List Char) : Option (List Char × List Char) :=
  let w := l.takeWhile (fun c => !isSpace c)
  if w = [] then none else some (w, l.drop w.length)

def isTagStart (c : Char) : Bool := c.isAlpha || c == '_'

def isTagChar (c : Char) : Bool := c.isAlphanum || c == '_'

/-- An optional single or double quote. -/
def quote : List Char → List Char
  | [] => []
  | c :: l => if c.toNat = 34 ∨ c.toNat = 39 then l else c :: l

/-- A tag between optional quotes, with what follows. -/
def tagOf (l : List Char) : Option (Line × List Char) :=
  if ((quote l).head?.map isTagStart).getD false then
    some ((quote l).takeWhile isTagChar, quote ((quote l).dropWhile isTagChar))
  else none

/-- `cat > path << tag` -/
def directStart (line : Line) : Option (Line × Line) := do
  let l ← literal "cat".toList (skipSpaces line)
  let l ← spaces l
  let l ← literal ['>'] l
  let (path, l) ← word (skipSpaces l)
  let l ← spaces l
  let l ← literal ['<', '<'] l
  let (tag, l) ← tagOf (skipSpaces l)
  if l.all isSpace then some (path, tag) else none

/-- `cat << tag > path` -/
def reverseStart (line : Line) : Option (Line × Line) := do
  let l ← literal "cat".toList (skipSpaces line)
  let l ← spaces l
  let l ← literal ['<', '<'] l
  let (tag, l) ← tagOf (skipSpaces l)
  let l ← spaces l
  let l ← literal ['>'] l
  let (path, l) ← word (skipSpaces l)
  if l.all isSpace then some (path, tag) else none

def parseHeredocStart (line : Line) : Option (Line × Line) := (directStart line).or (reverseStart line)

/-- `line.strip()` -/
def stripLine (line : Line) : Line := (((line.dropWhile isSpace).reverse).dropWhile isSpace).reverse

/-- `"kubeadm" in path and path.endswith((".yaml", ".yml"))` -/
def isKubeadmYaml (path : Line) : Bool :=
  path.tails.any (fun l => "kubeadm".toList.isPrefixOf l) &&
    (".yaml".toList.isSuffixOf path || ".yml".toList.isSuffixOf path)

/-- A patch of the text of a body; it also says whether a relevant document was seen, and
whether it changed. -/
abbrev BodyPatch := String → Except Exc (String × Bool × Bool)

/-- The lines that a terminated here-document has after its patch. -/
def patchBody (patch : BodyPatch) (path : Line) (body : List Line) : Except Exc (List Line × Bool × Bool) :=
  if isKubeadmYaml path then do
    let (text, saw, changed) ← patch (String.ofList (join body))
    pure (if saw then splitlines text.toList else body, saw, changed)
  else .ok (body, false, false)

/-- The loop over the lines, outside of here-documents or in the body of one. Nothing is
patched in a body whose terminator is missing. -/
def injectLines (patch : BodyPatch) : Option (Line × Line × List Line) → List Line →
    Except Exc (List Line × Bool × Bool)
  | none, [] => .ok ([], false, false)
  | none, line :: lines => do
    let (output, saw, changed) ← injectLines patch
      ((parseHeredocStart line).map fun start => (start.1, start.2, [])) lines
    pure (line :: output, saw, changed)
  | some (_, _, body), [] => .ok (body, false, false)
  | some (path, tag, body), line :: lines =>
    if stripLine line = tag then do
      let (patched, saw, changed) ← patchBody patch path body
      let (output, sawMore, changedMore) ← injectLines patch none lines
      pure (patched ++ line :: output, saw || sawMore, changed || changedMore)
    else injectLines patch (some (path, tag, body ++ [line])) lines

/-- `"\n".join(output)`, with the newline that the payload ended with. -/
def rendered (payload : String) (output : List Line) : String :=
  String.ofList (join output ++ if payload.toList.getLast? = some '\n' then ['\n'] else [])

variable {σ : Type} [BEq σ]

def injectExternalEtcdIntoShellBootstrapData (yaml : YamlLibrary σ) (bootstrapData : String)
    (externalEtcd : NormalizedEtcd) : Except Exc (String × Bool) := do
  let (output, sawClusterConfiguration, changedAny) ←
    injectLines (fun text => patchExternalEtcdInKubeadmYaml yaml text externalEtcd) none
      (splitlines bootstrapData.toList)
  if sawClusterConfiguration then pure (rendered bootstrapData output, changedAny)
  else throw (.permanent
    "externalEtcd is configured but bootstrap data has no kubeadm ClusterConfiguration to wire")

def injectProviderIdIntoShellBootstrapData (yaml : YamlLibrary σ) (bootstrapData : String)
    (providerId : String) : Except Exc (String × Bool) := do
  let (output, _, changedAny) ←
    injectLines (fun text => patchProviderIdInKubeadmYaml yaml text providerId) none
      (splitlines bootstrapData.toList)
  if changedAny then pure (rendered bootstrapData output, true) else pure (bootstrapData, false)

end CapiSsh
