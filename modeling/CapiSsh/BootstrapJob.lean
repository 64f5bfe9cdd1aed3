import CapiSsh.Lib.ByteFiles
import CapiSsh.Operations

/-!
# The detached bootstrap job and the observation of its receipt

The shell side of `durable_bootstrap`: the job writes its files byte by byte and can be
killed between any two writes; `flock` lets one job work at a time. Its Python side reads
what the observation command prints, after a transport that decodes strict UTF-8.
-/
namespace CapiSsh

open ByteFiles

/-- What `int` makes of the characters of other scripts, by Unicode's decimal digits and
spaces. A text in ASCII is read as it is. -/
structure Numerals where
  ascii : Char → Char
  same : ∀ c, c.toNat < 128 → ascii c = c

/-- `Py_ISSPACE`. -/
def isAsciiSpace (c : Char) : Bool := (9 ≤ c.toNat && c.toNat ≤ 13) || c.toNat == 32

/-- Digits, with single underscores between them. -/
def isDecimal : List Char → Bool
  | [] => false
  | [c] => c.isDigit
  | c :: d :: l => c.isDigit && if d = '_' then isDecimal l else isDecimal (d :: l)

/-- More than 4300 digits are refused. -/
def unsigned (text : List Char) : Option Nat :=
  let digits := text.filter Char.isDigit
  if isDecimal text && digits.length ≤ 4300 then some (Nat.ofDigitChars 10 digits 0) else none

def signed (text : List Char) : Option Int :=
  if text.head? = some '-' then (unsigned text.tail).map fun n => -(n : Int)
  else (unsigned (if text.head? = some '+' then text.tail else text)).map fun n => (n : Int)

/-- `int(text)`; `none` is the `ValueError`. -/
def int (N : Numerals) (text : List Char) : Option Int :=
  signed ((((text.map N.ascii).dropWhile isAsciiSpace).reverse.dropWhile isAsciiSpace).reverse)

def exitMark : List Char := "CAPI_EXIT=".toList

def pendingMark : List Char := "CAPI_PENDING".toList

/-- `first, _, log = result.stdout.partition("\n")`, and what `first` is told apart by. -/
def readStdout (N : Numerals) (text : List Char) : Stdout :=
  let first := text.takeWhile (· ≠ '\n')
  let log := String.ofList ((text.dropWhile (· ≠ '\n')).drop 1)
  if exitMark.isPrefixOf first then ⟨.capiExit (int N (first.drop exitMark.length)), log⟩
  else if first = pendingMark then ⟨.capiPending, log⟩
  else ⟨.text (String.ofList first), log⟩

/-- What one observation tells `durable_bootstrap`. -/
inductive Observation where
  | result (r : SSHResult)
  | pending
  | refused (message : String)
  deriving DecidableEq, Repr

/-- The result for an exit code: the log goes to one of the two outputs. -/
def receiptResult (code : Int) (log : String) : SSHResult :=
  ⟨code, if code = 0 then log else "", if code = 0 then "" else log⟩

def Completed.observation (c : Completed) : Observation :=
  if c.success then
    match c.stdout.first with
    | .capiExit (some code) => .result (receiptResult code c.stdout.log)
    | .capiExit none => .refused "Invalid bootstrap receipt; refusing replay"
    | .text _ => .refused "Unrecognized bootstrap state; refusing replay"
    | .capiPending => .pending
  else .refused "Cannot observe the UID-owned bootstrap job"

section round

variable {Calls : Type} {Answer : Calls → Type} {ε : Type}

/-- How the observation loop goes on after an observation. -/
def Observation.goesOn (raise : Exc → ε) (next : Effect.Prog Calls Answer ε SSHResult) :
    Observation → Effect.Prog Calls Answer ε SSHResult
  | .result r => .pure r
  | .pending => next
  | .refused message => .throw (raise (.temporary message 15))

/-- Each round of the loop in `durable_bootstrap` does what its observation says. -/
theorem observeReceipt_round (c : Completed) (time deadline : Time) (h : time < deadline)
    (sleep : Effect.Prog Calls Answer ε Unit) (raise : Exc → ε) (uid : Uid) (rounds : Nat) :
    observeReceipt (fun _ => .pure c) (.pure time) sleep raise uid deadline (rounds + 1) =
      c.observation.goesOn raise (sleep.bind fun _ =>
        observeReceipt (fun _ => .pure c) (.pure time) sleep raise uid deadline rounds) := by
  rw [observeReceipt]
  have hd : ¬ deadline ≤ time := Nat.not_le.mpr h
  simp only [Effect.Prog.bind_eq, Effect.Prog.pure_bind, hd, if_false, Completed.observation]
  cases hs : c.success with
  | false => rfl
  | true =>
    simp only [if_true]
    cases c.stdout.first with
    | text s => rfl
    | capiPending => rfl
    | capiExit code => cases code <;> rfl

end round

/-- The files of `/var/lib/capi-provider-ssh` that the job writes. -/
inductive JobFile where
  | started
  | receiptTmp
  | receipt
  | output
  deriving DecidableEq, Repr

/-- `printf '%s\n' "$result"`. -/
def receiptLine (code : UInt8) : List UInt8 := encode (Nat.toDigits 10 code.toNat ++ ['\n'])

def interruptedMessage : List UInt8 :=
  encode "Bootstrap process interrupted; cleanup/replacement required\n".toList

/-- The job of a Machine that no job has started for: the payload writes `log` and exits
with `code`. -/
def payloadProgram (code : UInt8) (log : List UInt8) : List (ByteFiles.Op JobFile) :=
  ([.touch .started] ++ redirect .output log ++ redirect .receiptTmp (receiptLine code)) ++
    [.rename .receiptTmp .receipt]

/-- The job that finds another one started and without a receipt. -/
def interruptedProgram : List (ByteFiles.Op JobFile) :=
  redirect .output interruptedMessage ++ redirect .receipt (receiptLine 123)

/-- The host of one Machine UID. `todo` is what the job that holds the lock is still to do;
`recorded` is what that job writes when it is let: an exit code and an output. -/
structure JobHost where
  owned : Bool
  files : Files JobFile
  todo : Option (List (ByteFiles.Op JobFile))
  recorded : Option (UInt8 × List UInt8)

/-- A launched job gets the lock, with what its payload would do; the working job makes its
next operation; or it is killed, and the lock is free. -/
inductive JobEvent where
  | start (code : UInt8) (log : List UInt8)
  | act
  | kill
  deriving DecidableEq, Repr

namespace JobHost

/-- Whatever files are there, there is no receipt yet. -/
def new (owned : Bool) (files : Files JobFile) : JobHost :=
  ⟨owned, Function.update files .receipt none, none, none⟩

/-- `owned_command` exits where the host is not owned. -/
def start (h : JobHost) (code : UInt8) (log : List UInt8) : JobHost :=
  match h.todo with
  | some _ => h
  | none =>
    if h.owned then
      if (h.files .receipt).isSome then { h with todo := some [] }
      else if (h.files .started).isSome then
        { h with todo := some interruptedProgram, recorded := some (123, interruptedMessage) }
      else { h with todo := some (payloadProgram code log), recorded := some (code, log) }
    else h

def step (h : JobHost) : JobEvent → JobHost
  | .start code log => h.start code log
  | .act =>
    match h.todo with
    | none => h
    | some [] => { h with todo := none }
    | some (op :: todo) => { h with files := op.apply h.files, todo := some todo }
  | .kill => { h with todo := none }

def after (h : JobHost) (events : List JobEvent) : JobHost := events.foldl step h

end JobHost

/-- Exit status and standard output of a command. -/
structure Printed where
  status : Nat
  stdout : List UInt8
  deriving DecidableEq, Repr

/-- The observation command. Its `test`, `cat` and `tail` read the files at three moments. -/
def observe (owned : Bool) (tested catted tailed : Files JobFile) : Printed :=
  if owned then
    if (tested .receipt).isSome then
      { status := if (tailed .output).isSome then 0 else 1
        stdout := encode exitMark ++ (catted .receipt).getD [] ++ tail 8192 ((tailed .output).getD []) }
    else { status := 0, stdout := encode (pendingMark ++ ['\n']) }
  else { status := 78, stdout := [] }

/-- `SSHConnection.execute` on a transport that fails the command on invalid UTF-8. -/
def Printed.received (N : Numerals) (p : Printed) : Option Completed :=
  (decode p.stdout).map fun text => ⟨some p.status, readStdout N text, ""⟩

/-- What `durable_bootstrap` gets from an observation that begins in one state of the host
and ends in another; `none` where the transport fails. -/
def observation (N : Numerals) (tested catted tailed : JobHost) : Option Observation :=
  ((observe tested.owned tested.files catted.files tailed.files).received N).map Completed.observation

theorem isDecimal_digits {text : List Char} (hn : text ≠ []) (h : ∀ c ∈ text, c.isDigit = true) :
    isDecimal text = true := by
  induction text with
  | nil => exact absurd rfl hn
  | cons c text ih =>
    cases text with
    | nil => simpa [isDecimal] using h
    | cons d text =>
      have hd : d ≠ '_' := by
        intro hd
        have := h d (by simp)
        rw [hd] at this
        cases this
      simp only [isDecimal, hd, if_false, h c (by simp), Bool.true_and]
      exact ih (by simp) fun x hx => h x (List.mem_cons_of_mem _ hx)

variable {n : Nat} {N : Numerals}

theorem digit_of_mem {c : Char} (h : c ∈ Nat.toDigits 10 n) : c.isDigit = true :=
  Nat.isDigit_of_mem_toDigits (by omega) (by omega) h

theorem unsigned_digits (h : (Nat.toDigits 10 n).length ≤ 4300) : unsigned (Nat.toDigits 10 n) = some n := by
  have hf : (Nat.toDigits 10 n).filter Char.isDigit = Nat.toDigits 10 n :=
    List.filter_eq_self.mpr fun c => digit_of_mem
  simp [unsigned, hf, isDecimal_digits Nat.toDigits_ne_nil (fun c => digit_of_mem), h,
    Nat.ofDigitChars_toDigits]

theorem digit_range {c : Char} (h : c.isDigit = true) : 48 ≤ c.toNat ∧ c.toNat ≤ 57 := by
  simp only [Char.isDigit, Bool.and_eq_true, decide_eq_true_eq] at h
  exact ⟨h.1, h.2⟩

theorem map_ascii {text : List Char} (h : ∀ c ∈ text, c.toNat < 128) : text.map N.ascii = text := by
  induction text with
  | nil => rfl
  | cons c text ih =>
    rw [List.map_cons, N.same c (h c (by simp)), ih fun d hd => h d (List.mem_cons_of_mem _ hd)]

theorem dropWhile_none {α : Type} {p : α → Bool} {l : List α} (h : ∀ a ∈ l, p a = false) :
    l.dropWhile p = l := by
  cases l with
  | nil => rfl
  | cons a l => simp [h a (by simp)]

theorem int_numeral (h : (Nat.toDigits 10 n).length ≤ 4300) : int N (Nat.toDigits 10 n) = some (n : Int) := by
  have hr : ∀ c ∈ Nat.toDigits 10 n, 48 ≤ c.toNat ∧ c.toNat ≤ 57 := fun c hc =>
    digit_range (digit_of_mem hc)
  have hs : ∀ c ∈ Nat.toDigits 10 n, isAsciiSpace c = false := by
    intro c hc
    have := hr c hc
    simp only [isAsciiSpace, Bool.or_eq_false_iff, Bool.and_eq_false_iff, decide_eq_false_iff_not,
      beq_eq_false_iff_ne]
    omega
  have hhead : ∀ c, (Nat.toDigits 10 n).head? = some c → 48 ≤ c.toNat := fun c hc =>
    (hr c (List.mem_of_mem_head? hc)).1
  have hplus : (Nat.toDigits 10 n).head? ≠ some '+' := fun hc => by
    have : 48 ≤ '+'.toNat := hhead _ hc
    simp at this
  have hminus : (Nat.toDigits 10 n).head? ≠ some '-' := fun hc => by
    have : 48 ≤ '-'.toNat := hhead _ hc
    simp at this
  rw [int, map_ascii fun c hc => by have := hr c hc; omega, dropWhile_none hs,
    dropWhile_none fun c hc => hs c (List.mem_reverse.mp hc), List.reverse_reverse]
  simp [signed, hplus, hminus, unsigned_digits h]

/-- `int` reads the decimal digits that `printf` wrote. -/
theorem int_digits (h : n < 1000) : int N (Nat.toDigits 10 n) = some (n : Int) := by
  have hl : (Nat.toDigits 10 n).length ≤ 3 :=
    (Nat.length_toDigits_le_iff (by omega) (by omega)).mpr h
  exact int_numeral (by omega)

/-- The output of a complete receipt is split into its code and the log. -/
theorem readStdout_exit {digits log : List Char} (h : '\n' ∉ digits) :
    readStdout N (exitMark ++ (digits ++ '\n' :: log)) =
      ⟨.capiExit (int N digits), String.ofList log⟩ := by
  have hm : ∀ c ∈ exitMark ++ digits, (decide (c ≠ '\n')) = true := by
    intro c hc
    rcases List.mem_append.mp hc with hc | hc
    · have he : exitMark.all (fun c => decide (c ≠ '\n')) = true := by decide
      exact List.all_eq_true.mp he c hc
    · simp only [ne_eq, decide_eq_true_eq]
      rintro rfl
      exact h hc
  have hsplit : exitMark ++ (digits ++ '\n' :: log) = (exitMark ++ digits) ++ '\n' :: log := by simp
  simp only [readStdout, hsplit, List.takeWhile_append_of_pos hm, List.dropWhile_append_of_pos hm]
  simp

/-- The observation of a complete receipt: what the transport can decode is the result. -/
theorem observed_complete {tested catted tailed : JobHost} {code : UInt8} {log : List UInt8}
    (ho : tested.owned = true) (ht : (tested.files .receipt).isSome = true)
    (hc : catted.files .receipt = some (receiptLine code)) (hl : tailed.files .output = some log) :
    observation N tested catted tailed = (decode (tail 8192 log)).map fun text =>
      .result (receiptResult (code.toNat : Int) (String.ofList text)) := by
  have hn : '\n' ∉ Nat.toDigits 10 code.toNat := fun h => by
    have := digit_of_mem h
    simp at this
  have hp : observe tested.owned tested.files catted.files tailed.files =
      ⟨0, encode (exitMark ++ (Nat.toDigits 10 code.toNat ++ ['\n'])) ++ tail 8192 log⟩ := by
    simp [observe, ho, ht, hc, hl, receiptLine, encode_append]
  rw [observation, hp, Printed.received, decode_encode_append]
  cases decode (tail 8192 log) with
  | none => rfl
  | some text =>
    have hs : exitMark ++ (Nat.toDigits 10 code.toNat ++ ['\n']) ++ text =
        exitMark ++ (Nat.toDigits 10 code.toNat ++ '\n' :: text) := by simp
    have hcode : code.toNat < 1000 := Nat.lt_trans code.toNat_lt (by decide)
    simp only [Option.map_some, hs, readStdout_exit hn, int_digits hcode]
    rfl

/-- What the first line says when only `k` digits of the receipt 123 are there. -/
def cutLine (k : Nat) : List Char :=
  "123".toList.take k ++ "Bootstrap process interrupted; cleanup/replacement required".toList

theorem int_cutLine {k : Nat} (hk : k < 4) : int N (cutLine k) = none := by
  have ha : ∀ k < 4, (cutLine k).all (fun c => decide (c.toNat < 128)) = true := by decide
  have ha' : ∀ c ∈ cutLine k, c.toNat < 128 := by
    simpa only [List.all_eq_true, decide_eq_true_eq] using ha k hk
  have hs : ∀ k < 4, signed ((((cutLine k).dropWhile isAsciiSpace).reverse.dropWhile
      isAsciiSpace).reverse) = none := by decide
  rw [int, map_ascii ha', hs k hk]

/-- A receipt that is cut off is followed at once by the text of the message. -/
theorem observed_broken {tested catted tailed : JobHost} {k : Nat} (hk : k < 4)
    (ho : tested.owned = true) (ht : (tested.files .receipt).isSome = true)
    (hc : catted.files .receipt = some ((receiptLine 123).take k))
    (hl : tailed.files .output = some interruptedMessage) :
    observation N tested catted tailed =
      some (.refused "Invalid bootstrap receipt; refusing replay") := by
  have hshort : tail 8192 interruptedMessage = interruptedMessage := tail_short (by decide)
  have hr : ∀ k < 4, (receiptLine 123).take k ++ interruptedMessage = encode (cutLine k ++ ['\n']) := by
    decide
  have hp : observe tested.owned tested.files catted.files tailed.files =
      ⟨0, encode (exitMark ++ (cutLine k ++ ['\n']))⟩ := by
    simp only [observe, ho, ht, hc, hl, if_true, Option.getD_some, Option.isSome_some, hshort]
    rw [List.append_assoc, hr k hk, ← encode_append]
  have hn : ∀ k < 4, '\n' ∉ cutLine k := by decide
  rw [observation, hp, Printed.received, decode_encode]
  simp only [Option.map_some, readStdout_exit (hn k hk), int_cutLine hk]
  rfl

theorem observed_pending {tested catted tailed : JobHost} (ho : tested.owned = true)
    (ht : tested.files .receipt = none) : observation N tested catted tailed = some .pending := by
  simp only [observation, observe, ho, ht, if_true, Option.isSome_none, Bool.false_eq_true, if_false,
    Printed.received, decode_encode]
  rfl

/-- The observation command exits with 78 on a host of another owner. -/
theorem observed_unowned {tested catted tailed : JobHost} (ho : tested.owned = false) :
    observation N tested catted tailed =
      some (.refused "Cannot observe the UID-owned bootstrap job") := by
  have he : decode [] = some [] := decode_encode []
  simp only [observation, observe, ho, Bool.false_eq_true, if_false, Printed.received, he]
  rfl

end CapiSsh
