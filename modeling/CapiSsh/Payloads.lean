import CapiSsh.CloudInjection
import CapiSsh.Powers

/-!
# From bootstrap data to the uploaded script

`_normalize_external_etcd`, and the branches of `_sshmachine_reconcile_impl` that wire the
provider ID and the external etcd into a payload, prepare the script and put the
certificates in front of it: the text tools of the controller. What a reconciliation
uploads is one of their scripts.
-/
namespace CapiSsh

open Effect CloudConfig

def defaultExternalEtcdCaFile : String := "/etc/kubernetes/pki/etcd-external/ca.crt"
def defaultExternalEtcdCertFile : String := "/etc/kubernetes/pki/etcd-external/client.crt"
def defaultExternalEtcdKeyFile : String := "/etc/kubernetes/pki/etcd-external/client.key"

def requiredSecretRef (field : String) (ref : SecretRef) : Except Exc (String × String) :=
  match filled ref.name with
  | none => .error (.permanent s!"externalEtcd.{field}.name is required")
  | some name =>
    let key := ref.key.getD "value"
    if key = "" then .error (.permanent s!"externalEtcd.{field}.key must be a non-empty string")
    else .ok (name, key)

def absoluteFile (field path : String) : Except Exc Unit :=
  if path.toList.head? = some '/' then .ok ()
  else .error (.permanent s!"externalEtcd.files.{field} must be an absolute path")

/-- The configuration with its defaults. -/
def ExternalEtcd.normalized (config : ExternalEtcd) : NormalizedEtcd where
  endpoints := config.endpoints
  servers := String.intercalate "," config.endpoints
  caFile := config.caFile.getD defaultExternalEtcdCaFile
  certFile := config.certFile.getD defaultExternalEtcdCertFile
  keyFile := config.keyFile.getD defaultExternalEtcdKeyFile

/-- `_normalize_external_etcd` -/
def normalizeExternalEtcd (config : ExternalEtcd) : Except Exc NormalizedEtcd := do
  if config.endpoints = [] then throw (.permanent "externalEtcd.endpoints must be a non-empty list")
  if config.endpoints.any (fun endpoint => endpoint == "") then
    throw (.permanent "externalEtcd.endpoints entries must be non-empty strings")
  absoluteFile "caFile" config.normalized.caFile
  absoluteFile "certFile" config.normalized.certFile
  absoluteFile "keyFile" config.normalized.keyFile
  let _ ← requiredSecretRef "caCertRef" config.caCertRef
  let _ ← requiredSecretRef "clientCertRef" config.clientCertRef
  let _ ← requiredSecretRef "clientKeyRef" config.clientKeyRef
  return config.normalized

/-- A branch reports a `PermanentError`; nothing handles another. -/
def orRefused (reason bootstrapMessage : String) (result : Except Exc α) : Except PayloadError α :=
  result.mapError fun e => match e with
    | .permanent message => .refused reason message bootstrapMessage
    | e => .raised e

section tools

variable {σ : Type} [BEq σ] (yaml : YamlLibrary σ) (cloud : CloudYaml)

/-- Nothing is wired without a configuration. -/
def wireExternalEtcd (data : String) : Option NormalizedEtcd → Except Exc String
  | none => .ok data
  | some etcd => (injectExternalEtcdIntoBootstrapData yaml cloud data etcd).map Prod.fst

def renderBootstrapData (spec : MachineSpec) (data providerID : String) : Except PayloadError String := do
  let (data, _) ← orRefused "ProviderIDWiringError" "Bootstrap has not started due to providerID wiring error"
    (injectProviderIdIntoBootstrapData yaml cloud data providerID)
  let externalEtcd ← orRefused "ExternalEtcdConfigurationError"
    "Bootstrap has not started due to external etcd configuration error" (spec.externalEtcd.mapM normalizeExternalEtcd)
  let data ← orRefused "ExternalEtcdWiringError" "Bootstrap has not started due to external etcd wiring error"
    (wireExternalEtcd yaml cloud data externalEtcd)
  let (script, _) ← orRefused "BootstrapFormatError"
    "Bootstrap has not started because bootstrap data format is invalid"
    (prepareBootstrapScript cloud.safeLoad data.toList)
  return String.ofList script

def encodeSecret (value : String) : List Char := Base64.encode value.toList

/-- The text tools of the controller. -/
def controllerTools : PayloadTools where
  render := renderBootstrapData yaml cloud
  certificates config ca cert key script := String.ofList
    (Staging.stagedBootstrapScript encodeSecret (Staging.etcdFiles config.normalized ca cert key) script.toList)

end tools

/-- A refusal only changes errors. -/
theorem orRefused_ok {reason bootstrapMessage : String} {result : Except Exc α} {a : α} :
    orRefused reason bootstrapMessage result = .ok a ↔ result = .ok a := by
  cases result <;> simp [orRefused, Except.mapError]

/-- A sequence of checks comes out where each of them does. -/
theorem bind_ok {ε α β : Type} {x : Except ε α} {f : α → Except ε β} {b : β} :
    x >>= f = .ok b ↔ ∃ a, x = .ok a ∧ f a = .ok b := by
  cases x <;> simp [bind, Except.bind]

theorem absoluteFile_ok {field path : String} : absoluteFile field path = .ok () ↔ path.toList.head? = some '/' := by
  rw [absoluteFile]
  split <;> simp [*]

/-- What passes the check names three absolute files. -/
theorem normalizeExternalEtcd_ok {config : ExternalEtcd} {etcd : NormalizedEtcd}
    (h : normalizeExternalEtcd config = .ok etcd) : etcd = config.normalized ∧ etcd.caFile.toList.head? = some '/' ∧
      etcd.certFile.toList.head? = some '/' ∧ etcd.keyFile.toList.head? = some '/' := by
  rw [normalizeExternalEtcd] at h
  split at h
  · cases h
  · split at h
    · cases h
    · simp only [bind_ok] at h
      obtain ⟨_, hca, _, hcert, _, hkey, _, -, _, -, _, -, heq⟩ := h
      cases heq
      exact ⟨rfl, absoluteFile_ok.mp hca, absoluteFile_ok.mp hcert, absoluteFile_ok.mp hkey⟩

section rendering

variable {σ : Type} [BEq σ] {yaml : YamlLibrary σ} {cloud : CloudYaml} {spec : MachineSpec}

/-- A script is rendered where all four steps accept what the one before has made. -/
theorem renderBootstrapData_ok {data providerID script : String} :
    renderBootstrapData yaml cloud spec data providerID = .ok script ↔
      ∃ named changed etcd wired format prepared,
        injectProviderIdIntoBootstrapData yaml cloud data providerID = .ok (named, changed) ∧
        spec.externalEtcd.mapM normalizeExternalEtcd = .ok etcd ∧ wireExternalEtcd yaml cloud named etcd = .ok wired ∧
        prepareBootstrapScript cloud.safeLoad wired.toList = .ok (prepared, format) ∧
        script = String.ofList prepared := by
  simp only [renderBootstrapData, bind_ok, orRefused_ok]
  constructor
  · rintro ⟨⟨named, changed⟩, hname, etcd, hetcd, wired, hwired, ⟨prepared, format⟩, hprepared, hscript⟩
    cases hscript
    exact ⟨named, changed, etcd, wired, format, prepared, hname, hetcd, hwired, hprepared, rfl⟩
  · rintro ⟨named, changed, etcd, wired, format, prepared, hname, hetcd, hwired, hprepared, rfl⟩
    exact ⟨(named, changed), hname, etcd, hetcd, wired, hwired, (prepared, format), hprepared, rfl⟩

/-- The branches that report a refusal, in the order of their steps. -/
def refusals : List (String × String) :=
  [("ProviderIDWiringError", "Bootstrap has not started due to providerID wiring error"),
    ("ExternalEtcdConfigurationError", "Bootstrap has not started due to external etcd configuration error"),
    ("ExternalEtcdWiringError", "Bootstrap has not started due to external etcd wiring error"),
    ("BootstrapFormatError", "Bootstrap has not started because bootstrap data format is invalid")]

/-- A refusal is reported by one of the branches, and no `PermanentError` passes them all. -/
def PayloadError.Reported : PayloadError → Prop
  | .refused reason _ bootstrapMessage => (reason, bootstrapMessage) ∈ refusals
  | .raised e => e.isPermanent = false

theorem orRefused_error {reason bootstrapMessage : String} {result : Except Exc α} {e : PayloadError}
    (hb : (reason, bootstrapMessage) ∈ refusals) (h : orRefused reason bootstrapMessage result = .error e) : e.Reported := by
  cases result with
  | ok a => cases h
  | error e' => cases e' <;> cases h <;> first | exact hb | rfl

theorem bind_error {ε α β : Type} {x : Except ε α} {f : α → Except ε β} {e : ε} :
    x >>= f = .error e ↔ x = .error e ∨ ∃ a, x = .ok a ∧ f a = .error e := by
  cases x <;> simp [bind, Except.bind]

/-- Every payload that is refused is refused with a reason of its own. -/
theorem renderBootstrapData_error {data providerID : String} {e : PayloadError}
    (h : renderBootstrapData yaml cloud spec data providerID = .error e) : e.Reported := by
  simp only [renderBootstrapData, bind_error, orRefused_ok] at h
  obtain h | ⟨_, -, h | ⟨_, -, h | ⟨_, -, h | ⟨_, -, h⟩⟩⟩⟩ := h
  · exact orRefused_error (by simp [refusals]) h
  · exact orRefused_error (by simp [refusals]) h
  · exact orRefused_error (by simp [refusals]) h
  · exact orRefused_error (by simp [refusals]) h
  · cases h

end rendering

/-- What comes out of `_prepare_bootstrap_script`, with the certificates of a configuration
that was accepted in front of it. -/
structure Uploadable (cloud : CloudYaml) (spec : MachineSpec) (text : String) : Prop where
  made : ∃ payload script format, prepareBootstrapScript cloud.safeLoad payload = .ok (script, format) ∧
    match spec.externalEtcd with
    | none => text = String.ofList script
    | some config => ∃ etcd ca cert key, normalizeExternalEtcd config = .ok etcd ∧
      text = String.ofList (Staging.stagedBootstrapScript encodeSecret (Staging.etcdFiles etcd ca cert key) script)

theorem mapM_some_ok {ε α β : Type} {f : α → Except ε β} {a : α} {out : Option β}
    (h : (some a).mapM f = .ok out) : ∃ b, f a = .ok b ∧ out = some b := by
  rw [Option.mapM_some] at h
  cases hf : f a with
  | error e =>
    rw [hf] at h
    cases h
  | ok b =>
    rw [hf] at h
    exact ⟨b, rfl, (Except.ok.inj h).symm⟩

/-- What the controller has prepared is what the injectors and the stager have made. -/
theorem prepared_uploadable {σ : Type} [BEq σ] {yaml : YamlLibrary σ} {cloud : CloudYaml} {spec : MachineSpec}
    {text : String} (h : Prepared (controllerTools yaml cloud) spec text) : Uploadable cloud spec text := by
  obtain ⟨data, address, script, hrender, hstaged⟩ := h
  obtain ⟨named, changed, etcd, wired, format, prepared, -, hetcd, -, hprepared, rfl⟩ := renderBootstrapData_ok.mp hrender
  refine ⟨wired.toList, prepared, format, hprepared, ?_⟩
  cases hconfig : spec.externalEtcd with
  | none =>
    simp only [Staged, hconfig] at hstaged
    exact hstaged
  | some config =>
    simp only [Staged, hconfig] at hstaged
    rw [hconfig] at hetcd
    obtain ⟨ca, cert, key, rfl⟩ := hstaged
    obtain ⟨etcd, hnormal, rfl⟩ := mapM_some_ok hetcd
    obtain ⟨rfl, -⟩ := normalizeExternalEtcd_ok hnormal
    refine ⟨config.normalized, ca, cert, key, hnormal, ?_⟩
    simp only [controllerTools, String.toList_ofList]

/-- An upload carries such a script. -/
def Op.Carries (Text : String → Prop) : Op → Prop
  | .upload _ script _ => Text script
  | _ => True

/-- Every power, with these scripts only. -/
def uploading (Text : String → Prop) : Powers :=
  ⟨True, True, True, True, True, True, True, True, True, True, True, True, True, True, Text⟩

theorem uploading_carries {i : MachineRef} {Text : String → Prop} {op : Op} (h : (uploading Text).allows i op) :
    op.Carries Text := by
  cases op with
  | upload conn script path => exact h.2
  | _ => trivial

/-- Whatever its calls answer, a reconciliation uploads nothing but what the text functions
have made of the bootstrap data that it has read. -/
theorem uploads_prepared (tools : PayloadTools) (spec : MachineSpec) (status : MachineStatus) (metadata : ObjectMeta)
    (timeout : Time) :
    (sshmachineReconcileImpl tools spec status metadata timeout).Only (Op.Carries (Prepared tools spec)) := by
  have h : (sshmachineReconcileImpl tools spec status metadata timeout).Only
      ((uploading (Prepared tools spec)).allows ⟨metadata.key, metadata.uid⟩) :=
    may_sshmachineReconcileImpl trivial rfl rfl trivial trivial trivial trivial trivial trivial
      (fun _ => ⟨trivial, trivial⟩) fun text ht => ht
  exact Prog.only_mono h fun op => uploading_carries

/-- Hence nothing else is ever uploaded. -/
theorem uploads_staged {σ : Type} [BEq σ] (yaml : YamlLibrary σ) (cloud : CloudYaml) (spec : MachineSpec)
    (status : MachineStatus) (metadata : ObjectMeta) (timeout : Time) :
    (sshmachineReconcileImpl (controllerTools yaml cloud) spec status metadata timeout).Only
      (Op.Carries (Uploadable cloud spec)) := by
  refine Prog.only_mono (uploads_prepared _ spec status metadata timeout) fun op h => ?_
  cases op with
  | upload conn script path => exact prepared_uploadable h
  | _ => trivial

end CapiSsh
