import CapiSsh.CloudRendering
import CapiSsh.KubeadmPatches
import CapiSsh.ShellBootstrap

/-!
# Injections into cloud-config payloads

The cloud-config injectors and the two functions that choose an injector by the format. A
payload that comes out asks for what the one before asked for, with the patched content in
each kubeadm file, whatever encodings its entries have.
-/
namespace CapiSsh.CloudConfig

open DataTree TextLines

/-- `yaml.safe_load` and `yaml.safe_dump` without sorting of keys. -/
structure CloudYaml where
  safeLoad : SafeLoad
  safeDump : CloudNode → List Char

def CloudFile.store (file : CloudFile) (text : List Char) : CloudFile where
  path := file.path
  named := file.named
  entry := storeCloudWriteFileContent file.entry text
  standing := by
    have hne : "path" ≠ "content" := by decide
    have hkept (v : CloudNode) : DataTree.get "path" (DataTree.assign "content" v file.entry) =
        some (.scalar (.str (String.ofList file.path))) := by
      rw [get_assign_of_ne hne, file.standing]
    rw [storeCloudWriteFileContent]
    split
    · split <;> exact hkept _
    · exact hkept _

def injectFile (patch : BodyPatch) (idx : Nat) (file : CloudFile) : Except Exc (CloudFile × Bool × Bool) :=
  if isKubeadmYaml file.path then do
    let content ← decodeCloudWriteFileContent file.entry idx
    let (patchedText, saw, changed) ← patch (String.ofList content)
    pure (if saw then file.store patchedText.toList else file, saw, changed)
  else .ok (file, false, false)

/-- The loop over `write_files`. The source writes an entry in place; here the entries are trees,
so what follows is about payloads in which no alias lets two keys share one entry. -/
def injectFiles (patch : BodyPatch) : Nat → List CloudFile → Except Exc (List CloudFile × Bool × Bool)
  | _, [] => .ok ([], false, false)
  | idx, file :: files => do
    let (file, saw, changed) ← injectFile patch idx file
    let (files, sawMore, changedMore) ← injectFiles patch (idx + 1) files
    pure (file :: files, saw || sawMore, changed || changedMore)

/-- The payload with the entries after the loop. -/
def CloudPayload.withFiles (payload : CloudPayload) (files : List CloudFile) : CloudPayload where
  config := DataTree.assign "write_files" (.list (files.map fun file => .map file.entry)) payload.config
  writeFiles := files
  runcmd := payload.runcmd

def cloudHeader : List Char := "#cloud-config\n".toList

def renderedConfig (cloud : CloudYaml) (bootstrapData : String) (config : CloudEntry) : String :=
  String.ofList (cloudHeader ++ (rstripLines (cloud.safeDump (.map config)) ++
    if bootstrapData.toList.getLast? = some '\n' then ['\n'] else []))

section injectors

variable {σ : Type} [BEq σ] (yaml : YamlLibrary σ) (cloud : CloudYaml)

def injectExternalEtcdIntoCloudConfigBootstrapData (bootstrapData : String) (externalEtcd : NormalizedEtcd) :
    Except Exc (String × Bool) := do
  let config ← parseCloudConfig cloud.safeLoad bootstrapData.toList
  let (files, sawClusterConfiguration, changedAny) ←
    injectFiles (fun text => patchExternalEtcdInKubeadmYaml yaml text externalEtcd) 0 config.writeFiles
  if sawClusterConfiguration then
    pure (renderedConfig cloud bootstrapData (config.withFiles files).config, changedAny)
  else throw (.permanent
    "externalEtcd is configured but bootstrap data has no kubeadm ClusterConfiguration to wire")

def injectExternalEtcdIntoBootstrapData (bootstrapData : String) (externalEtcd : NormalizedEtcd) :
    Except Exc (String × Bool) :=
  match Staging.detectBootstrapFormat bootstrapData.toList with
  | .cloudConfig => injectExternalEtcdIntoCloudConfigBootstrapData yaml cloud bootstrapData externalEtcd
  | _ => injectExternalEtcdIntoShellBootstrapData yaml bootstrapData externalEtcd

def injectProviderIdIntoCloudConfigBootstrapData (bootstrapData : String) (providerId : String) :
    Except Exc (String × Bool) := do
  let config ← parseCloudConfig cloud.safeLoad bootstrapData.toList
  let (files, _, changedAny) ←
    injectFiles (fun text => patchProviderIdInKubeadmYaml yaml text providerId) 0 config.writeFiles
  if changedAny then pure (renderedConfig cloud bootstrapData (config.withFiles files).config, true)
  else pure (bootstrapData, false)

def injectProviderIdIntoBootstrapData (bootstrapData : String) (providerId : String) : Except Exc (String × Bool) :=
  match Staging.detectBootstrapFormat bootstrapData.toList with
  | .cloudConfig => injectProviderIdIntoCloudConfigBootstrapData yaml cloud bootstrapData providerId
  | _ => injectProviderIdIntoShellBootstrapData yaml bootstrapData providerId

end injectors

theorem encode_unbroken (text : List Char) : ∀ c ∈ Base64.encode text, isSpace c = false := by
  have hdigits : ∀ n : Fin 64, isSpace (Base64.digit n.val) = false := by decide
  have hpad : isSpace Base64.pad = false := by decide
  intro c hc
  obtain rfl | ⟨n, hn, rfl⟩ := Base64.mem_b64encode _ hc
  · exact hpad
  · exact hdigits ⟨n, hn⟩

theorem plain_not_base64 {normalized : String} (h : isPlainEncoding normalized = true) : isBase64 normalized = false := by
  simp only [isPlainEncoding, List.contains_eq_mem, List.mem_cons, List.not_mem_nil, or_false, decide_eq_true_eq] at h
  obtain rfl | rfl | rfl := h <;> decide

theorem get_store {k : String} (hk : k ≠ "content") (entry : CloudEntry) (text : List Char) :
    DataTree.get k (storeCloudWriteFileContent entry text) = DataTree.get k entry := by
  rw [storeCloudWriteFileContent]
  split
  · split <;> exact get_assign_of_ne hk _ _
  · exact get_assign_of_ne hk _ _

theorem others_store (entry : CloudEntry) (text : List Char) :
    DataTree.others "content" (storeCloudWriteFileContent entry text) = DataTree.others "content" entry := by
  rw [storeCloudWriteFileContent]
  split
  · split <;> exact others_assign _ _ _
  · exact others_assign _ _ _

/-- A stored content is read back, in the encoding that its entry has. -/
theorem decode_store {entry : CloudEntry} {idx : Nat} {content : List Char}
    (h : decodeCloudWriteFileContent entry idx = .ok content) (text : List Char) (idx' : Nat) :
    decodeCloudWriteFileContent (storeCloudWriteFileContent entry text) idx' = .ok text := by
  have hne : "encoding" ≠ "content" := by decide
  have hread (stored : List Char) : contentOf idx' (DataTree.assign "content" (.str (String.ofList stored)) entry) = .ok stored := by
    rw [contentOf, get_assign]
    simp [Node.str]
  rw [decodeCloudWriteFileContent] at h ⊢
  rw [get_store hne]
  cases hc : contentOf idx entry with
  | error e =>
    rw [hc] at h
    cases h
  | ok old =>
    rw [hc] at h
    simp only [bind, Except.bind] at h
    rw [storeCloudWriteFileContent]
    split at h
    · next he => simp only [he, hread]; rfl
    · next he => simp only [he, hread]; rfl
    · next encoding he =>
      simp only [he]
      split at h
      · next hplain =>
        simp only [plain_not_base64 hplain, Bool.false_eq_true, if_false, hread, hplain, if_true]
        rfl
      · next hplain =>
        split at h
        · next hb64 =>
          have hfilter : ((Base64.encode text).filter fun c => !isSpace c) = Base64.encode text := by
            rw [List.filter_eq_self]
            intro c hc'
            rw [encode_unbroken text c hc']
            rfl
          simp only [hb64, if_true, hread, hplain, Bool.false_eq_true, if_false, bind, Except.bind, hfilter,
            Base64.decode_encode]
          rfl
        · cases h
    · cases h

/-- What an entry asks for after a patch. -/
def patchedRequest (patch : BodyPatch) (idx : Nat) (file : CloudFile) : Except Exc FileRequest := do
  let request ← requestOf idx file
  if isKubeadmYaml file.path then
    let (patchedText, saw, _) ← patch (String.ofList request.content)
    pure { request with content := if saw then patchedText.toList else request.content }
  else pure request

/-- Only the content of a kubeadm file may differ. -/
structure Keeps (file file' : CloudFile) : Prop where
  path : file'.path = file.path
  others : DataTree.others "content" file'.entry = DataTree.others "content" file.entry
  untouched : isKubeadmYaml file.path = false → file' = file

theorem requestOf_store {idx : Nat} {file : CloudFile} {content : List Char}
    (h : decodeCloudWriteFileContent file.entry idx = .ok content) (text : List Char) :
    requestOf idx (file.store text) = (requestOf idx file).map fun request => { request with content := text } := by
  have hmode : permissionsOf idx (file.store text).entry = permissionsOf idx file.entry := by
    rw [permissionsOf, permissionsOf, CloudFile.store, get_store (by decide)]
  have howner : ownerOf idx (file.store text).entry = ownerOf idx file.entry := by
    rw [ownerOf, ownerOf, CloudFile.store, get_store (by decide)]
  have hcontent : decodeCloudWriteFileContent (file.store text).entry idx = .ok text := decode_store h text idx
  rw [requestOf, requestOf, hcontent, h, hmode, howner]
  cases permissionsOf idx file.entry with
  | error e => rfl
  | ok permissions =>
    cases ownerOf idx file.entry with
    | error e => rfl
    | ok owner => rfl

/-- The content of a request is the decoded one. -/
theorem requestOf_content {idx : Nat} {file : CloudFile} {request : FileRequest} (h : requestOf idx file = .ok request) :
    decodeCloudWriteFileContent file.entry idx = .ok request.content := by
  rw [requestOf] at h
  cases hc : decodeCloudWriteFileContent file.entry idx with
  | error e =>
    rw [hc] at h
    cases h
  | ok content =>
    rw [hc] at h
    cases hp : permissionsOf idx file.entry with
    | error e =>
      rw [hp] at h
      cases h
    | ok permissions =>
      cases ho : ownerOf idx file.entry with
      | error e =>
        rw [hp, ho] at h
        cases h
      | ok owner =>
        rw [hp, ho] at h
        cases h
        rfl

theorem injectFile_ok {patch : BodyPatch} {idx : Nat} {file file' : CloudFile} {saw changed : Bool}
    (h : injectFile patch idx file = .ok (file', saw, changed)) :
    Keeps file file' ∧ requestOf idx file' = patchedRequest patch idx file := by
  rw [injectFile] at h
  rw [patchedRequest]
  split at h
  · next hk =>
    cases hc : decodeCloudWriteFileContent file.entry idx with
    | error e =>
      rw [hc] at h
      cases h
    | ok content =>
      rw [hc] at h
      simp only [bind, Except.bind] at h
      cases hp : patch (String.ofList content) with
      | error e =>
        rw [hp] at h
        cases h
      | ok r =>
        obtain ⟨text, sawHere, changedHere⟩ := r
        rw [hp] at h
        simp only [pure, Except.pure, Except.ok.injEq, Prod.mk.injEq] at h
        obtain ⟨rfl, rfl, rfl⟩ := h
        have hkeeps : Keeps file (if sawHere = true then file.store text.toList else file) := by
          split
          · exact ⟨rfl, others_store _ _, fun hno => absurd (hk.symm.trans hno) (by decide)⟩
          · exact ⟨rfl, rfl, fun _ => rfl⟩
        refine ⟨hkeeps, ?_⟩
        have hstore := requestOf_store hc text.toList
        cases hr : requestOf idx file with
        | error e =>
          rw [hr] at hstore
          cases sawHere
          · exact hr
          · exact hstore
        | ok request =>
          have hcontent := requestOf_content hr
          rw [hc, Except.ok.injEq] at hcontent
          rw [hr] at hstore
          simp only [bind, Except.bind, hk, if_true, ← hcontent, hp]
          cases sawHere
          · rw [if_neg Bool.false_ne_true, hr, if_neg Bool.false_ne_true, hcontent]
            rfl
          · exact hstore
  · next hk =>
    simp only [Except.ok.injEq, Prod.mk.injEq] at h
    obtain ⟨rfl, rfl, rfl⟩ := h
    refine ⟨⟨rfl, rfl, fun _ => rfl⟩, ?_⟩
    cases requestOf idx file with
    | error e => rfl
    | ok request =>
      simp only [bind, Except.bind, hk]
      rfl

/-- By induction on the entries. -/
theorem injectFiles_ok {patch : BodyPatch} {idx : Nat} {files files' : List CloudFile} {saw changed : Bool}
    (h : injectFiles patch idx files = .ok (files', saw, changed)) :
    List.Forall₂ Keeps files files' ∧ eachFrom requestOf idx files' = eachFrom (patchedRequest patch) idx files := by
  induction files generalizing idx files' saw changed with
  | nil =>
    cases h
    exact ⟨.nil, rfl⟩
  | cons file files ih =>
    rw [injectFiles] at h
    cases hf : injectFile patch idx file with
    | error e =>
      rw [hf] at h
      cases h
    | ok r =>
      obtain ⟨first, sawHere, changedHere⟩ := r
      rw [hf] at h
      cases hm : injectFiles patch (idx + 1) files with
      | error e =>
        simp only [bind, Except.bind, hm] at h
        cases h
      | ok r =>
        obtain ⟨rest, sawMore, changedMore⟩ := r
        simp only [bind, Except.bind, hm, pure, Except.pure, Except.ok.injEq, Prod.mk.injEq] at h
        obtain ⟨rfl, -, -⟩ := h
        obtain ⟨hkeeps, hrequest⟩ := injectFile_ok hf
        obtain ⟨hkeepsMore, hrequests⟩ := ih hm
        refine ⟨.cons hkeeps hkeepsMore, ?_⟩
        rw [eachFrom, eachFrom, hrequest, hrequests]

/-- The two lists stand in the mapping as they were checked. -/
structure CloudPayload.Formed (payload : CloudPayload) : Prop where
  writeFiles : DataTree.get "write_files" payload.config = some (.list (payload.writeFiles.map fun file => .map file.entry))
  runcmd : ∃ nodes, DataTree.get "runcmd" payload.config = some (.list nodes) ∧
    eachFrom checkCommand 0 nodes = .ok payload.runcmd

theorem checkFile_entry (idx : Nat) (file : CloudFile) : checkFile idx (.map file.entry) = .ok file := by
  obtain ⟨path, named, entry, standing⟩ := file
  rw [checkFile]
  split
  · next p hp =>
    rw [standing] at hp
    cases hp
    simp only [String.toList_ofList, dif_pos named]
  · next hno => exact absurd standing (hno _)

theorem eachFrom_checkFile (idx : Nat) (files : List CloudFile) :
    eachFrom checkFile idx (files.map fun file => .map file.entry) = .ok files := by
  induction files generalizing idx with
  | nil => rfl
  | cons file files ih =>
    rw [List.map_cons, eachFrom, checkFile_entry, ih]
    rfl

theorem checkFile_ok {idx : Nat} {node : CloudNode} {file : CloudFile} (h : checkFile idx node = .ok file) :
    node = .map file.entry := by
  cases node with
  | map entry =>
    rw [checkFile] at h
    split at h
    · split at h
      · cases h
        rfl
      · cases h
    · cases h
  | scalar s => cases h
  | list as => cases h

theorem eachFrom_ok {idx : Nat} {nodes : List CloudNode} {files : List CloudFile}
    (h : eachFrom checkFile idx nodes = .ok files) : nodes = files.map fun file => .map file.entry := by
  induction nodes generalizing idx files with
  | nil =>
    cases h
    rfl
  | cons node nodes ih =>
    rw [eachFrom] at h
    cases hf : checkFile idx node with
    | error e =>
      rw [hf] at h
      cases h
    | ok file =>
      rw [hf] at h
      cases hm : eachFrom checkFile (idx + 1) nodes with
      | error e =>
        rw [hm] at h
        cases h
      | ok rest =>
        rw [hm] at h
        cases h
        rw [List.map_cons, checkFile_ok hf, ih hm]

theorem runcmd_ne_writeFiles : "write_files" ≠ "runcmd" := by decide

theorem formed_parsed {safeLoad : SafeLoad} {text : List Char} {payload : CloudPayload}
    (h : parseCloudConfig safeLoad text = .ok payload) : payload.Formed := by
  rw [parseCloudConfig] at h
  split at h
  · cases h
  · next loaded hl =>
    simp only [bind, Except.bind] at h
    split at h
    · next config hconfig =>
      cases hw : listAt "write_files" "bootstrap cloud-config write_files must be a list" config with
      | error e =>
        rw [hw] at h
        cases h
      | ok writeFiles =>
        rw [hw] at h
        cases hf : eachFrom checkFile 0 writeFiles with
        | error e =>
          simp only [hf] at h
          cases h
        | ok files =>
          cases hr : listAt "runcmd" "bootstrap cloud-config runcmd must be a list" config with
          | error e =>
            simp only [hf, hr] at h
            cases h
          | ok nodes =>
            cases hc : eachFrom checkCommand 0 nodes with
            | error e =>
              simp only [hf, hr, hc] at h
              cases h
            | ok commands =>
              simp only [hf, hr, hc, pure, Except.pure, Except.ok.injEq] at h
              subst h
              refine ⟨?_, nodes, get_assign _ _ _, hc⟩
              rw [get_assign_of_ne runcmd_ne_writeFiles, get_assign, eachFrom_ok hf]
    · cases h

theorem formed_withFiles {payload : CloudPayload} (h : payload.Formed) (files : List CloudFile) :
    (payload.withFiles files).Formed := by
  obtain ⟨nodes, hnodes, hcommands⟩ := h.runcmd
  refine ⟨get_assign _ _ _, nodes, ?_, hcommands⟩
  rw [CloudPayload.withFiles, get_assign_of_ne runcmd_ne_writeFiles.symm, hnodes]

/-- A checked mapping passes its checks again, unchanged. -/
theorem parse_formed {safeLoad : SafeLoad} {text : List Char} {payload : CloudPayload} (h : payload.Formed)
    (hload : safeLoad text = .ok (.map payload.config)) : parseCloudConfig safeLoad text = .ok payload := by
  obtain ⟨nodes, hnodes, hcommands⟩ := h.runcmd
  have hfull : isFalsy (.map payload.config) = false := by
    cases hc : payload.config with
    | nil =>
      rw [hc] at hnodes
      cases hnodes
    | cons e es => rfl
  have hfiles : listAt "write_files" "bootstrap cloud-config write_files must be a list" payload.config =
      .ok (payload.writeFiles.map fun file => .map file.entry) := by
    rw [listAt, h.writeFiles]
  have hruncmd : listAt "runcmd" "bootstrap cloud-config runcmd must be a list" payload.config = .ok nodes := by
    rw [listAt, hnodes]
  have hsame : DataTree.assign "runcmd" (.list nodes) (DataTree.assign "write_files"
      (.list (payload.writeFiles.map fun file => .map file.entry)) payload.config) = payload.config := by
    rw [assign_get h.writeFiles, assign_get hnodes]
  rw [parseCloudConfig, hload]
  simp only [hfull, Bool.false_eq_true, if_false, bind, Except.bind, hfiles, eachFrom_checkFile, hruncmd, hcommands, pure,
    Except.pure, hsame]

theorem splitlines_front {line : Line} (h : ∀ c ∈ line, isLineBreak c = false) (text : List Char) :
    splitlines (line ++ '\n' :: text) = line :: splitlines text := by
  induction line with
  | nil =>
    rw [List.nil_append, splitlines_cons (by decide), if_pos (by decide)]
  | cons c line ih =>
    have ih := ih fun d hd => h d (List.mem_cons_of_mem c hd)
    have hc := h c List.mem_cons_self
    have hne : c ≠ '\r' := by
      rintro rfl
      revert hc
      decide
    rw [List.cons_append, splitlines_cons hne, hc, if_neg Bool.false_ne_true, ih]
    rfl

/-- A rendered mapping is detected as what it is. -/
theorem detect_rendered (cloud : CloudYaml) (bootstrapData : String) (config : CloudEntry) :
    Staging.detectBootstrapFormat (renderedConfig cloud bootstrapData config).toList = .cloudConfig := by
  have hheader : cloudHeader = "#cloud-config".toList ++ ['\n'] := by decide
  have hall : ("#cloud-config".toList.all fun c => !isLineBreak c) = true := by decide
  have hbreaks : ∀ c ∈ "#cloud-config".toList, isLineBreak c = false := fun c hc =>
    Bool.not_eq_true' _ ▸ List.all_eq_true.mp hall c hc
  have hline : stripLine "#cloud-config".toList = "#cloud-config".toList := by decide
  have hfull : "#cloud-config".toList ≠ [] := by decide
  have htemplate : "## template:".toList.isPrefixOf "#cloud-config".toList = false := by decide
  have hprefix : "#cloud-config".toList.isPrefixOf "#cloud-config".toList = true := by decide
  rw [Staging.detectBootstrapFormat, renderedConfig, String.toList_ofList, hheader, List.append_assoc,
    List.singleton_append, splitlines_front hbreaks, Staging.detectLines]
  simp only [hline, if_neg hfull, htemplate, hprefix, Bool.true_or, Bool.false_eq_true, if_false, if_true]

/-- What the library dumps for the mapping after the loop, it loads as this mapping. -/
def LoadsBack (cloud : CloudYaml) (patch : BodyPatch) (bootstrapData : String) : Prop :=
  ∀ config files saw changed, parseCloudConfig cloud.safeLoad bootstrapData.toList = .ok config →
    injectFiles patch 0 config.writeFiles = .ok (files, saw, changed) →
    cloud.safeLoad (renderedConfig cloud bootstrapData (config.withFiles files).config).toList =
      .ok (.map (config.withFiles files).config)

/-- The result is a cloud-config payload again. It has the other keys and the commands of
the payload before, and asks for the same files with the patched contents. -/
def Injected (cloud : CloudYaml) (patch : BodyPatch) (bootstrapData result : String) : Prop :=
  Staging.detectBootstrapFormat result.toList = .cloudConfig ∧
    ∃ before after, parseCloudConfig cloud.safeLoad bootstrapData.toList = .ok before ∧
      parseCloudConfig cloud.safeLoad result.toList = .ok after ∧
      DataTree.others "write_files" after.config = DataTree.others "write_files" before.config ∧
      after.runcmd = before.runcmd ∧ List.Forall₂ Keeps before.writeFiles after.writeFiles ∧
      eachFrom requestOf 0 after.writeFiles = eachFrom (patchedRequest patch) 0 before.writeFiles

theorem injected_rendered {cloud : CloudYaml} {patch : BodyPatch} {bootstrapData : String}
    (hback : LoadsBack cloud patch bootstrapData) {config : CloudPayload} {files : List CloudFile} {saw changed : Bool}
    (hc : parseCloudConfig cloud.safeLoad bootstrapData.toList = .ok config)
    (hi : injectFiles patch 0 config.writeFiles = .ok (files, saw, changed)) :
    Injected cloud patch bootstrapData (renderedConfig cloud bootstrapData (config.withFiles files).config) := by
  obtain ⟨hkeeps, hrequests⟩ := injectFiles_ok hi
  refine ⟨detect_rendered _ _ _, config, config.withFiles files, hc, ?_, others_assign _ _ _, rfl, hkeeps, hrequests⟩
  exact parse_formed (formed_withFiles (formed_parsed hc) files) (hback config files saw changed hc hi)

section theorems

variable {σ : Type} [BEq σ] (yaml : YamlLibrary σ) (cloud : CloudYaml) {bootstrapData : String} {config : CloudPayload}

theorem injectProviderId_cloud (providerId : String)
    (hcloud : Staging.detectBootstrapFormat bootstrapData.toList = .cloudConfig)
    (hc : parseCloudConfig cloud.safeLoad bootstrapData.toList = .ok config) :
    injectProviderIdIntoBootstrapData yaml cloud bootstrapData providerId =
      (injectFiles (fun text => patchProviderIdInKubeadmYaml yaml text providerId) 0 config.writeFiles).map fun r =>
        if r.2.2 then (renderedConfig cloud bootstrapData (config.withFiles r.1).config, true) else (bootstrapData, false) := by
  rw [injectProviderIdIntoBootstrapData, hcloud]
  simp only [injectProviderIdIntoCloudConfigBootstrapData, hc, bind, Except.bind]
  cases injectFiles (fun text => patchProviderIdInKubeadmYaml yaml text providerId) 0 config.writeFiles with
  | error e => rfl
  | ok r =>
    obtain ⟨files, saw, changed⟩ := r
    cases changed <;> rfl

/-- Both injectors, for every cloud-config payload. -/
theorem cloud_injection (bootstrapData providerId : String) (externalEtcd : NormalizedEtcd)
    (hcloud : Staging.detectBootstrapFormat bootstrapData.toList = .cloudConfig)
    (hback : LoadsBack cloud (fun text => patchProviderIdInKubeadmYaml yaml text providerId) bootstrapData)
    (hback' : LoadsBack cloud (fun text => patchExternalEtcdInKubeadmYaml yaml text externalEtcd) bootstrapData) :
    (∀ result changed, injectProviderIdIntoBootstrapData yaml cloud bootstrapData providerId = .ok (result, changed) →
      if changed then Injected cloud (fun text => patchProviderIdInKubeadmYaml yaml text providerId) bootstrapData result
      else result = bootstrapData) ∧
    ∀ result changed, injectExternalEtcdIntoBootstrapData yaml cloud bootstrapData externalEtcd = .ok (result, changed) →
      Injected cloud (fun text => patchExternalEtcdInKubeadmYaml yaml text externalEtcd) bootstrapData result := by
  constructor
  · intro result changed h
    cases hc : parseCloudConfig cloud.safeLoad bootstrapData.toList with
    | error e =>
      rw [injectProviderIdIntoBootstrapData, hcloud] at h
      simp only [injectProviderIdIntoCloudConfigBootstrapData, hc, bind, Except.bind] at h
      cases h
    | ok config =>
      rw [injectProviderId_cloud yaml cloud providerId hcloud hc] at h
      cases hi : injectFiles (fun text => patchProviderIdInKubeadmYaml yaml text providerId) 0 config.writeFiles with
      | error e =>
        rw [hi] at h
        cases h
      | ok r =>
        obtain ⟨files, saw, changedAny⟩ := r
        rw [hi] at h
        cases changedAny with
        | true =>
          cases h
          exact injected_rendered hback hc hi
        | false =>
          cases h
          rfl
  · intro result changed h
    rw [injectExternalEtcdIntoBootstrapData, hcloud] at h
    simp only [injectExternalEtcdIntoCloudConfigBootstrapData, bind, Except.bind] at h
    cases hc : parseCloudConfig cloud.safeLoad bootstrapData.toList with
    | error e =>
      rw [hc] at h
      cases h
    | ok config =>
      rw [hc] at h
      cases hi : injectFiles (fun text => patchExternalEtcdInKubeadmYaml yaml text externalEtcd) 0 config.writeFiles with
      | error e =>
        simp only [hi] at h
        cases h
      | ok r =>
        obtain ⟨files, saw, changedAny⟩ := r
        simp only [hi] at h
        cases saw with
        | true =>
          cases h
          exact injected_rendered hback' hc hi
        | false => cases h

end theorems

def encoded (content : String) : List Char := Base64.encode content.toList

def workerPath : String := "/run/kubeadm/join.yaml"

def workerEntry (content : String) : CloudEntry :=
  [(.str "path", .str workerPath), (.str "content", .str (String.ofList (encoded content))), (.str "encoding", .str "b64")]

def workerConfig (content : String) : CloudEntry :=
  [(.str "write_files", .list [.map (workerEntry content)]), (.str "runcmd", .list [])]

def workerFront : List Char := "write_files:\n- path: /run/kubeadm/join.yaml\n  content: ".toList
def workerEnd : List Char := "\n  encoding: b64\nruncmd: []".toList

/-- The block under the header, around a content. -/
def workerBlock (written : List Char) : List Char := workerFront ++ (written ++ (workerEnd ++ ['\n']))

def workerYaml : CloudYaml where
  safeLoad text :=
    if text = cloudHeader ++ workerBlock (encoded CapiSsh.joinText) then .ok (.map (workerConfig CapiSsh.joinText))
    else if text = cloudHeader ++ workerBlock (encoded joinPatchedText) then .ok (.map (workerConfig joinPatchedText))
    else .error none
  safeDump
    | .map [(_, .list [.map [_, (_, .scalar (.str content)), _]]), _] => workerBlock content.toList
    | _ => []

def workerPayload : String := String.ofList (cloudHeader ++ workerBlock (encoded CapiSsh.joinText))

def workerFile (content : String) : CloudFile :=
  ⟨workerPath.toList, by decide, workerEntry content, by rw [String.ofList_toList]; rfl⟩

theorem encoded_injective {a b : String} (h : encoded a = encoded b) : a = b := by
  have hd := congrArg Base64.decode h
  rw [encoded, encoded, Base64.decode_encode, Base64.decode_encode, Option.some.injEq] at hd
  exact String.toList_inj.mp hd

theorem workerYaml_loads {content : String} (h : content = CapiSsh.joinText ∨ content = joinPatchedText) :
    workerYaml.safeLoad (cloudHeader ++ workerBlock (encoded content)) = .ok (.map (workerConfig content)) := by
  have hne : workerBlock (encoded joinPatchedText) ≠ workerBlock (encoded CapiSsh.joinText) := by
    intro heq
    have hother : joinPatchedText ≠ CapiSsh.joinText := by decide
    exact hother (encoded_injective (List.append_cancel_right (List.append_cancel_left heq)))
  obtain rfl | rfl := h
  · simp only [workerYaml, if_true]
  · have hheader : cloudHeader ++ workerBlock (encoded joinPatchedText) ≠
        cloudHeader ++ workerBlock (encoded CapiSsh.joinText) := fun heq => hne (List.append_cancel_left heq)
    simp only [workerYaml, if_neg hheader, if_true]

theorem workerPayload_parsed : parseCloudConfig workerYaml.safeLoad workerPayload.toList =
    .ok ⟨workerConfig CapiSsh.joinText, [workerFile CapiSsh.joinText], []⟩ := by
  rw [parseCloudConfig, workerPayload, String.toList_ofList, workerYaml_loads (.inl rfl)]
  rfl

theorem workerFile_decoded (content : String) :
    decodeCloudWriteFileContent (workerFile content).entry 0 = .ok content.toList := by
  have hb64 : isPlainEncoding (normalizedEncoding "b64") = false ∧ isBase64 (normalizedEncoding "b64") = true := by decide
  have hread : contentOf 0 (workerFile content).entry = .ok (String.ofList (encoded content)).toList := rfl
  have hencoding : DataTree.get "encoding" (workerFile content).entry = some (.scalar (.str "b64")) := rfl
  have hfilter : ((encoded content).filter fun c => !isSpace c) = encoded content := by
    rw [List.filter_eq_self]
    intro c hc
    rw [encode_unbroken content.toList c hc]
    rfl
  rw [decodeCloudWriteFileContent, hread, String.toList_ofList]
  simp only [bind, Except.bind, hencoding, hb64.1, hb64.2, hfilter]
  rw [encoded, Base64.decode_encode]
  rfl

theorem workerFile_stored (content content' : String) : (workerFile content).store content'.toList = workerFile content' := by
  have hb64 : isBase64 (normalizedEncoding "b64") = true := by decide
  have hencoding : DataTree.get "encoding" (workerEntry content) = some (.scalar (.str "b64")) := rfl
  have hentry : storeCloudWriteFileContent (workerEntry content) content'.toList = workerEntry content' := by
    rw [storeCloudWriteFileContent, hencoding]
    simp only [hb64, if_true]
    rfl
  simp only [CloudFile.store, workerFile, hentry]

theorem rstripNewlines_line {text : String} (h : Closed text.toList) : rstripNewlines (text ++ "\n") = text := by
  have hline : (text ++ "\n").toList = text.toList ++ ['\n'] := by
    rw [String.toList_append]
    rfl
  have hstrip : rstripNewlines (text ++ "\n") = String.ofList (rstripLines (text ++ "\n").toList) := rfl
  rw [hstrip, hline, rstripLines_break, rstripLines_closed h, String.ofList_toList]

theorem closed_last {l : Line} {c : Char} (h : l.getLast? = some c) (hc : c ≠ '\n') : Closed l :=
  ⟨l.dropLast, c, (List.dropLast_append_getLast? c h).symm, hc⟩

set_option maxRecDepth 2000 in
theorem joinPatchedText_last : joinPatchedText.toList.getLast? = some '1' := by decide

theorem workerFiles_provider :
    injectFiles (fun text => patchProviderIdInKubeadmYaml joinYaml text "ssh://10.0.0.1") 0 [workerFile CapiSsh.joinText] =
      .ok ([workerFile joinPatchedText], true, true) := by
  have hkubeadm : isKubeadmYaml (workerFile CapiSsh.joinText).path = true := by decide
  have hpatch : patchProviderIdInKubeadmYaml joinYaml CapiSsh.joinText "ssh://10.0.0.1" = .ok (joinPatchedText, true, true) := by
    have hdocs : joinYaml.documents CapiSsh.joinText = some [joinDoc] := rfl
    have hrun : patchDocs (patchProviderIdDoc "ssh://10.0.0.1") [joinDoc] = .ok ([joinPatchedDoc], true, true) := rfl
    have hdump : joinYaml.safeDumpAll [joinPatchedDoc] = joinPatchedText ++ "\n" := rfl
    have hrender : joinYaml.render [joinPatchedDoc] = joinPatchedText := by
      rw [YamlLibrary.render, hdump, rstripNewlines_line (closed_last joinPatchedText_last (by decide))]
    rw [patchProviderIdInKubeadmYaml, patchKubeadmYaml_docs hdocs, hrun]
    simp only [Except.map, if_true, hrender]
  rw [injectFiles, injectFile, if_pos hkubeadm, workerFile_decoded]
  simp only [bind, Except.bind, String.ofList_toList, hpatch, workerFile_stored]
  rfl

theorem workerFiles_etcd :
    injectFiles (fun text => patchExternalEtcdInKubeadmYaml joinYaml text joinEtcd) 0 [workerFile CapiSsh.joinText] =
      .ok ([workerFile CapiSsh.joinText], false, false) := by
  have hkubeadm : isKubeadmYaml (workerFile CapiSsh.joinText).path = true := by decide
  have hpatch : patchExternalEtcdInKubeadmYaml joinYaml CapiSsh.joinText joinEtcd = .ok (CapiSsh.joinText, false, false) := by
    have hdocs : joinYaml.documents CapiSsh.joinText = some [joinDoc] := rfl
    have hrun : patchDocs (patchExternalEtcdDoc joinEtcd) [joinDoc] = .ok ([joinDoc], false, false) := rfl
    rw [patchExternalEtcdInKubeadmYaml, patchKubeadmYaml_docs hdocs, hrun]
    rfl
  rw [injectFiles, injectFile, if_pos hkubeadm, workerFile_decoded]
  simp only [bind, Except.bind, String.ofList_toList, hpatch]
  rfl

theorem stripped_end (a b : List Char) {c : Line} (h : Closed c) :
    rstripLines (a ++ (b ++ (c ++ ['\n']))) ++ ['\n'] = a ++ (b ++ (c ++ ['\n'])) := by
  have hclosed := closed_append (closed_append h b) a
  have hassoc : a ++ (b ++ (c ++ ['\n'])) = a ++ (b ++ c) ++ ['\n'] := by simp only [List.append_assoc]
  rw [hassoc, rstripLines_break, rstripLines_closed hclosed]

/-- The block ends with one line break. -/
theorem workerBlock_stripped (written : List Char) : rstripLines (workerBlock written) ++ ['\n'] = workerBlock written := by
  have hclosed : Closed workerEnd := ⟨"\n  encoding: b64\nruncmd: [".toList, ']', by decide, by decide⟩
  exact stripped_end workerFront written hclosed

theorem workerPayload_last : workerPayload.toList.getLast? = some '\n' := by
  rw [workerPayload, String.toList_ofList, workerBlock, ← List.append_assoc, ← List.append_assoc, ← List.append_assoc]
  exact List.getLast?_concat

theorem workerConfig_rendered (content : String) : (renderedConfig workerYaml workerPayload (workerConfig content)).toList =
    cloudHeader ++ workerBlock (encoded content) := by
  have hdump : workerYaml.safeDump (.map (workerConfig content)) = workerBlock (encoded content) := by
    rw [workerConfig, workerEntry]
    simp only [workerYaml, Node.str, String.toList_ofList]
  rw [renderedConfig, String.toList_ofList, workerPayload_last, if_pos rfl, hdump, workerBlock_stripped]

theorem workerConfig_withFiles (content : String) :
    (CloudPayload.withFiles ⟨workerConfig CapiSsh.joinText, [workerFile CapiSsh.joinText], []⟩ [workerFile content]).config =
      workerConfig content := rfl

theorem workerYaml_back {patch : BodyPatch} {content : String} {saw changed : Bool}
    (hcontent : content = CapiSsh.joinText ∨ content = joinPatchedText)
    (hi : injectFiles patch 0 [workerFile CapiSsh.joinText] = .ok ([workerFile content], saw, changed)) :
    LoadsBack workerYaml patch workerPayload := by
  intro config files saw' changed' hc hi'
  rw [workerPayload_parsed] at hc
  cases hc
  rw [hi] at hi'
  cases hi'
  rw [workerConfig_withFiles, workerConfig_rendered]
  exact workerYaml_loads hcontent

theorem workerPayload_detected : Staging.detectBootstrapFormat workerPayload.toList = .cloudConfig := by
  have h := detect_rendered workerYaml workerPayload (workerConfig CapiSsh.joinText)
  rw [workerConfig_rendered] at h
  rw [workerPayload, String.toList_ofList]
  exact h

theorem workerPayload_injected : injectProviderIdIntoBootstrapData joinYaml workerYaml workerPayload "ssh://10.0.0.1" =
    .ok (renderedConfig workerYaml workerPayload (workerConfig joinPatchedText), true) := by
  rw [injectProviderId_cloud joinYaml workerYaml _ workerPayload_detected workerPayload_parsed, workerFiles_provider,
    ← workerConfig_withFiles]
  rfl

/-- The payload of a worker: its kubeadm file is rewritten, and what comes out is read back. -/
theorem cloud_injection_worker : ∃ result,
    injectProviderIdIntoBootstrapData joinYaml workerYaml workerPayload "ssh://10.0.0.1" = .ok (result, true) ∧
    Injected workerYaml (fun text => patchProviderIdInKubeadmYaml joinYaml text "ssh://10.0.0.1") workerPayload result := by
  have hall := cloud_injection joinYaml workerYaml workerPayload "ssh://10.0.0.1" joinEtcd workerPayload_detected
    (workerYaml_back (.inr rfl) workerFiles_provider) (workerYaml_back (.inl rfl) workerFiles_etcd)
  have hinjected := hall.1 _ _ workerPayload_injected
  rw [if_pos rfl] at hinjected
  exact ⟨_, workerPayload_injected, hinjected⟩

end CapiSsh.CloudConfig
