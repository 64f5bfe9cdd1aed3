import CapiSsh.Api
import CapiSsh.ShellBootstrap
import CapiSsh.Lib.Substitution

/-!
# Bootstrap diagnostics

What `controllers/sshmachine.py` makes of the output of a failed bootstrap command: the
redaction of kubeadm flags, the excerpt and the failure message of the status. Patterns are
compared without regard to letter case, as `re.IGNORECASE` does it.
-/
namespace CapiSsh

open Substitution

def asciiLower (c : Char) : Char :=
  if 65 ≤ c.toNat ∧ c.toNat ≤ 90 then Char.ofNat (c.toNat + 32) else c

/-- The letter a character is compared as; four characters beyond ASCII stand for letters. -/
def foldCase (c : Char) : Char :=
  if c.toNat = 0x212A then 'k'
  else if c.toNat = 0x17F then 's'
  else if c.toNat = 0x130 ∨ c.toNat = 0x131 then 'i'
  else asciiLower c

/-- A text that spells the name in some letter case, and what follows it. -/
def spelling (name s : List Char) : Option (List Char × List Char) :=
  if (s.take name.length).map foldCase = name then some (s.take name.length, s.drop name.length)
  else none

/-- `[^\W]`, where `wide` is `str.isalnum` of the characters beyond ASCII. -/
def isWordChar (wide : Char → Bool) (c : Char) : Bool :=
  c.isAlphanum || c == '_' || (128 ≤ c.toNat && wide c)

/-- `\b` between two places of a text. -/
def edge (wide : Char → Bool) (a b : Option Char) : Bool :=
  a.any (isWordChar wide) != b.any (isWordChar wide)

def redacted : List Char := "[REDACTED]".toList

/-- `=|\s+` -/
def flagGap (l : List Char) : Option (List Char × List Char) :=
  if l.head? = some '=' then some (['='], l.tail)
  else (spaces l).map fun rest => (l.takeWhile isSpace, rest)

/-- `(flag(?:=|\s+))\S+`, with `\1[REDACTED]` in its place -/
def flagHit (flag : List Char) : Matcher Char := fun _ s => do
  let (name, l) ← spelling flag s
  let (gap, l) ← flagGap l
  let (value, l) ← word l
  some ⟨name ++ gap ++ redacted, value.getLast?, l⟩

def isAssignment (c : Option Char) : Bool := c == some ':' || c == some '='

/-- `\b(name)\b\s*[:=]\s*\S+`, with `\1=[REDACTED]` in its place -/
def settingHit (wide : Char → Bool) (name : List Char) : Matcher Char := fun before s => do
  let (found, l) ← spelling name s
  let (value, rest) ← word (skipSpaces (skipSpaces l).tail)
  if edge wide before s.head? ∧ edge wide found.getLast? l.head? ∧ isAssignment (skipSpaces l).head? then
    some ⟨found ++ '=' :: redacted, value.getLast?, rest⟩
  else none

def settingNames : List (List Char) :=
  ["token".toList, "certificate-key".toList, "discovery-token-ca-cert-hash".toList]

/-- The alternatives of one group, in their order. -/
def settingsHit (wide : Char → Bool) : Matcher Char := fun before s =>
  settingNames.findSome? fun name => settingHit wide name before s

/-- `\s+`, with one blank in its place -/
def gapHit : Matcher Char := fun _ s =>
  (spaces s).map fun rest => ⟨[' '], (s.takeWhile isSpace).getLast?, rest⟩

/-- The flags with a pattern of their own, in the order of the patterns. -/
inductive FlagPattern where
  | token | certificateKey | caCertHash
  deriving DecidableEq, Repr

def FlagPattern.flag : FlagPattern → List Char
  | .token => "--token".toList
  | .certificateKey => "--certificate-key".toList
  | .caCertHash => "--discovery-token-ca-cert-hash".toList

/-- `BOOTSTRAP_DIAGNOSTIC_REDACTIONS` -/
def bootstrapDiagnosticRedactions (wide : Char → Bool) : List (Matcher Char) :=
  [flagHit FlagPattern.token.flag, flagHit FlagPattern.certificateKey.flag,
    flagHit FlagPattern.caCertHash.flag, settingsHit wide]

/-- `_sanitize_bootstrap_diagnostic_text` -/
def sanitizeBootstrapDiagnosticText (wide : Char → Bool) (text : List Char) : List Char :=
  let sanitized := (bootstrapDiagnosticRedactions wide).foldl (fun s m => rewrite m none s) text
  stripLine (rewrite gapHit none sanitized)

def bootstrapDiagnosticMaxExcerpt : Nat := 240

/-- What is left of a sanitized chunk in an excerpt. -/
def shorten (excerpt : List Char) : List Char :=
  if excerpt.length ≤ bootstrapDiagnosticMaxExcerpt then excerpt
  else ((excerpt.take (bootstrapDiagnosticMaxExcerpt - 3)).reverse.dropWhile isSpace).reverse ++ "...".toList

/-- `_excerpt_command_output` -/
def excerptCommandOutput (wide : Char → Bool) (result : SSHResult) : List Char :=
  let chunks := [result.stderr, result.stdout].map fun s => sanitizeBootstrapDiagnosticText wide s.toList
  ((chunks.find? fun excerpt => excerpt ≠ []).map shorten).getD []

inductive BootstrapPhase where
  | reset | init | join | unknown
  deriving DecidableEq, Repr

/-- A piece of a signature: `\b`, `\s+` or a literal text. -/
inductive Piece where
  | edge | gap
  | text (s : List Char)

/-- A gap takes all the whitespace there is: what follows it in a signature is a letter. -/
def signatureAt (wide : Char → Bool) : List Piece → Option Char → List Char → Bool
  | [], _, _ => true
  | .edge :: ps, before, s => edge wide before s.head? && signatureAt wide ps before s
  | .gap :: ps, _, s =>
    match spaces s with
    | some rest => signatureAt wide ps (s.takeWhile isSpace).getLast? rest
    | none => false
  | .text t :: ps, _, s =>
    match spelling t s with
    | some (found, rest) => signatureAt wide ps found.getLast? rest
    | none => false

/-- `re.search` -/
def searchSignature (wide : Char → Bool) (ps : List Piece) : Option Char → List Char → Bool
  | before, [] => signatureAt wide ps before []
  | before, c :: s => signatureAt wide ps before (c :: s) || searchSignature wide ps (some c) s

def phaseSignatures : List (BootstrapPhase × List (List Piece)) :=
  [(.reset, [[.edge, .text "kubeadm".toList, .gap, .text "reset".toList, .edge],
      [.text "[reset]".toList],
      [.edge, .text "failed".toList, .gap, .text "to".toList, .gap, .text "reset".toList, .edge]]),
   (.init, [[.edge, .text "kubeadm".toList, .gap, .text "init".toList, .edge],
      [.text "[init]".toList],
      [.edge, .text "initconfiguration".toList, .edge],
      [.edge, .text "control-plane".toList, .edge]]),
   (.join, [[.edge, .text "kubeadm".toList, .gap, .text "join".toList, .edge],
      [.text "[join]".toList],
      [.edge, .text "discovery-token".toList, .edge],
      [.edge, .text "node".toList, .gap, .text "join".toList, .edge]])]

/-- `str.lower`, as far as the test for an ASCII text goes. -/
def lowerChar (c : Char) : List Char :=
  if c.toNat = 0x212A then ['k']
  else if c.toNat = 0x130 then ['i', Char.ofNat 0x307]
  else [asciiLower c]

/-- `part in text` -/
def contains (text part : List Char) : Bool := text.tails.any fun l => part.isPrefixOf l

/-- `_detect_bootstrap_failure_phase` -/
def detectBootstrapFailurePhase (wide : Char → Bool) (stderr stdout bootstrapScript : List Char) :
    BootstrapPhase :=
  let combinedOutput := ['\n'].intercalate ([stderr, stdout].filter fun part => part ≠ [])
  match phaseSignatures.find? fun p => p.2.any fun ps => searchSignature wide ps none combinedOutput with
  | some p => p.1
  | none =>
    let scriptLower := bootstrapScript.flatMap lowerChar
    let hasInit := contains scriptLower "kubeadm init".toList
    let hasJoin := contains scriptLower "kubeadm join".toList
    let hasReset := contains scriptLower "kubeadm reset".toList
    if hasInit ∧ ¬hasJoin then .init
    else if hasJoin ∧ ¬hasInit then .join
    else if hasReset ∧ ¬(hasInit ∨ hasJoin) then .reset
    else if hasInit then .init
    else if hasJoin then .join
    else if hasReset then .reset
    else .unknown

/-- `BOOTSTRAP_PHASE_REASON_MAP` -/
def BootstrapPhase.reason : BootstrapPhase → String
  | .reset => "BootstrapResetFailed"
  | .init => "BootstrapInitFailed"
  | .join => "BootstrapJoinFailed"
  | .unknown => "BootstrapFailed"

def BootstrapPhase.label : BootstrapPhase → String
  | .reset => "reset phase"
  | .init => "init phase"
  | .join => "join phase"
  | .unknown => "execution"

structure BootstrapFailure where
  reason : String
  phase : BootstrapPhase
  failureMessage : String
  stderrExcerpt : List Char
  deriving DecidableEq, Repr

/-- `_classify_bootstrap_failure` -/
def classifyBootstrapFailure (wide : Char → Bool) (result : SSHResult) (bootstrapScript : List Char) :
    BootstrapFailure :=
  let phase := detectBootstrapFailurePhase wide result.stderr.toList result.stdout.toList bootstrapScript
  let stderrExcerpt := excerptCommandOutput wide result
  let failureMessage := "Bootstrap " ++ phase.label ++ " failed (exit " ++ toString result.exitCode ++ ")"
  { reason := phase.reason
    phase := phase
    failureMessage :=
      if stderrExcerpt = [] then failureMessage ++ ". Inspect kubeadm and cloud-init logs on the host."
      else failureMessage ++ ": " ++ String.ofList stderrExcerpt
    stderrExcerpt := stderrExcerpt }

/-- `_classify_kubelet_not_ready` -/
def classifyKubeletNotReady (wide : Char → Bool) (result : SSHResult) : String × String :=
  let outputExcerpt := excerptCommandOutput wide result
  let failureMessage :=
    "Bootstrap completed, but kubelet is not ready (exit " ++ toString result.exitCode ++ ")"
  ("KubeletNotReady",
    if outputExcerpt = [] then failureMessage ++ ". Waiting for kubelet to become active."
    else failureMessage ++ ": " ++ String.ofList outputExcerpt)

end CapiSsh
