import CapiSsh.Api
import CapiSsh.Lib.DataTree

/-!
# Kubeadm documents

`_set_kubeadm_args` and the two patches of kubeadm YAML in `controllers/sshmachine.py`.
The YAML library is a parameter; a parser error is `none`. A patch of one document also
says whether the document is one of its kind and whether it changed.
-/
namespace CapiSsh

open DataTree

variable {σ : Type}

/-- The part of a normalised external etcd configuration that goes into documents. -/
structure NormalizedEtcd where
  endpoints : List String
  servers : String
  caFile : String
  certFile : String
  keyFile : String
  deriving DecidableEq, Repr

/-- `yaml.safe_load_all` and `yaml.safe_dump_all` without sorting of keys. -/
structure YamlLibrary (σ : Type) where
  safeLoadAll : String → Option (List (Node σ))
  safeDumpAll : List (Node σ) → String

def textOf : Node σ → Option String
  | .scalar (.str s) => some s
  | _ => none

def textAt (k : String) (es : Entries σ) : Option String := (DataTree.get k es).bind textOf

/-- The name and the value of an argument of the list form. -/
def nameValue : Node σ → Option (String × String)
  | .map es => do
    let name ← textAt "name" es
    let value ← textAt "value" es
    pure (name, value)
  | _ => none

def argument (d : String × String) : Node σ := .map [(.str "name", .str d.1), (.str "value", .str d.2)]

def ownedArg (desired : List (String × String)) (name : Option String) : Bool :=
  desired.any (fun d => some d.1 == name)

/-- Unrelated repeated arguments stay; all occurrences of owned ones are replaced. -/
def replaceOwned (desired : List (String × String)) (args : List (Node σ)) : List (Node σ) :=
  args.filter (fun a => !ownedArg desired ((nameValue a).map Prod.fst)) ++ desired.map argument

/-- `args.update(desired)` -/
def updateAll (desired : List (String × String)) (args : Entries σ) : Entries σ :=
  desired.foldl (fun es d => assign d.1 (.str d.2) es) args

def kubeadmV4 : String := "kubeadm.k8s.io/v1beta4"
def kubeadmV3 : String := "kubeadm.k8s.io/v1beta3"

/-- The new parent, and whether its field changed. -/
def setKubeadmArgs [BEq σ] (doc parent : Entries σ) (field : String) (desired : List (String × String)) :
    Except Exc (Entries σ × Bool) :=
  let before := DataTree.get field parent
  let store := fun (after : Node σ) => (assign field after parent, !sameOption before (some after))
  if textAt "apiVersion" doc = some kubeadmV4 then
    match before.getD (.list []) with
    | .list args =>
      if args.all (fun a => (nameValue a).isSome) then .ok (store (.list (replaceOwned desired args)))
      else .error (.permanent ("kubeadm v1beta4 " ++ field ++ " must be a list of name/value strings"))
    | _ => .error (.permanent ("kubeadm v1beta4 " ++ field ++ " must be a list of name/value strings"))
  else if textAt "apiVersion" doc = some kubeadmV3 then
    match before.getD (.map []) with
    | .map args => .ok (store (.map (updateAll desired args)))
    | _ => .error (.permanent ("kubeadm v1beta3 " ++ field ++ " must be a mapping"))
  else .error (.permanent "Unsupported kubeadm configuration API; expected v1beta3 or v1beta4")

/-- A test for membership in a set needs a hash, which lists and mappings lack. -/
def unhashable : Option (Node σ) → Bool
  | some (.list _) => true
  | some (.map _) => true
  | _ => false

def unhashableError : Exc := .other "TypeError: unhashable type"

def etcdArgs (etcd : NormalizedEtcd) : List (String × String) :=
  [("etcd-servers", etcd.servers), ("etcd-cafile", etcd.caFile), ("etcd-certfile", etcd.certFile),
    ("etcd-keyfile", etcd.keyFile)]

def desiredEtcd (etcd : NormalizedEtcd) : Node σ :=
  .map [(.str "external", .map [
    (.str "endpoints", .list (etcd.endpoints.map Node.str)),
    (.str "caFile", .str etcd.caFile),
    (.str "certFile", .str etcd.certFile),
    (.str "keyFile", .str etcd.keyFile)])]

/-- kubeadm downloads the ClusterConfiguration of a joining control plane from the API. -/
def joinsControlPlane (doc : Entries σ) : Bool :=
  textAt "kind" doc == some "JoinConfiguration" && (DataTree.get "controlPlane" doc).isSome

/-- The etcd patch of one document: the document, whether it counts, whether it changed. -/
def patchExternalEtcdDoc [BEq σ] (etcd : NormalizedEtcd) : Node σ → Except Exc (Node σ × Bool × Bool)
  | .map doc =>
    if joinsControlPlane doc = true ∧ unhashable (DataTree.get "apiVersion" doc) = true then .error unhashableError
    else if joinsControlPlane doc = true ∧ textAt "apiVersion" doc ≠ some kubeadmV3 ∧
        textAt "apiVersion" doc ≠ some kubeadmV4 then
      .error (.permanent "Unsupported kubeadm configuration API for control-plane join")
    else if textAt "kind" doc ≠ some "ClusterConfiguration" then .ok (.map doc, joinsControlPlane doc, false)
    else
      match (DataTree.get "apiServer" doc).getD (.map []) with
      | .map apiServer => do
        let (apiServer, argsChanged) ← setKubeadmArgs doc apiServer "extraArgs" (etcdArgs etcd)
        let doc := assign "apiServer" (.map apiServer) doc
        if sameOption (DataTree.get "etcd" doc) (some (desiredEtcd etcd)) then pure (.map doc, true, argsChanged)
        else pure (.map (assign "etcd" (desiredEtcd etcd) doc), true, true)
      | _ => .error (.permanent "kubeadm ClusterConfiguration.apiServer must be a mapping")
  | doc => .ok (doc, false, false)

def registersNode (doc : Entries σ) : Bool :=
  textAt "kind" doc == some "InitConfiguration" || textAt "kind" doc == some "JoinConfiguration"

def patchProviderIdDoc [BEq σ] (providerId : String) : Node σ → Except Exc (Node σ × Bool × Bool)
  | .map doc =>
    if unhashable (DataTree.get "kind" doc) = true then .error unhashableError
    else if registersNode doc = false then .ok (.map doc, false, false)
    else
      match (DataTree.get "nodeRegistration" doc).getD (.map []) with
      | .map nodeRegistration => do
        let (nodeRegistration, changed) ←
          setKubeadmArgs doc nodeRegistration "kubeletExtraArgs" [("provider-id", providerId)]
        pure (.map (assign "nodeRegistration" (.map nodeRegistration) doc), true, changed)
      | _ => .error (.permanent ("kubeadm " ++ (textAt "kind" doc).getD "" ++ " nodeRegistration must be a mapping"))
  | doc => .ok (doc, false, false)

/-- The loop over the documents, with what was seen and changed so far added up. -/
def patchDocs (patchDoc : Node σ → Except Exc (Node σ × Bool × Bool)) :
    List (Node σ) → Except Exc (List (Node σ) × Bool × Bool)
  | [] => .ok ([], false, false)
  | doc :: docs => do
    let (doc, saw, changed) ← patchDoc doc
    let (docs, sawMore, changedMore) ← patchDocs patchDoc docs
    pure (doc :: docs, saw || sawMore, changed || changedMore)

def isNull : Node σ → Bool
  | .scalar .null => true
  | _ => false

/-- The documents of a text that are not empty. -/
def YamlLibrary.documents (yaml : YamlLibrary σ) (text : String) : Option (List (Node σ)) :=
  (yaml.safeLoadAll text).map (fun docs => docs.filter (fun d => !isNull d))

/-- `text.rstrip("\n")` -/
def rstripNewlines (text : String) : String :=
  String.ofList (text.toList.reverse.dropWhile (· == '\n')).reverse

def YamlLibrary.render (yaml : YamlLibrary σ) (docs : List (Node σ)) : String :=
  rstripNewlines (yaml.safeDumpAll docs)

/-- What the two patches share; the text is returned as it is unless a document changed. -/
def patchKubeadmYaml (yaml : YamlLibrary σ) (patchDoc : Node σ → Except Exc (Node σ × Bool × Bool)) (text : String) :
    Except Exc (String × Bool × Bool) :=
  match yaml.documents text with
  | none => .ok (text, false, false)
  | some [] => .ok (text, false, false)
  | some (doc :: docs) => do
    let (patched, saw, changed) ← patchDocs patchDoc (doc :: docs)
    if changed then pure (yaml.render patched, saw, true) else pure (text, saw, false)

variable [BEq σ]

def patchExternalEtcdInKubeadmYaml (yaml : YamlLibrary σ) (text : String) (etcd : NormalizedEtcd) :
    Except Exc (String × Bool × Bool) := patchKubeadmYaml yaml (patchExternalEtcdDoc etcd) text

def patchProviderIdInKubeadmYaml (yaml : YamlLibrary σ) (text : String) (providerId : String) :
    Except Exc (String × Bool × Bool) := patchKubeadmYaml yaml (patchProviderIdDoc providerId) text

end CapiSsh
