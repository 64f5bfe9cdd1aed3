import Mathlib.Logic.Function.Basic

/-!
# Files of bytes that a program writes step by step

A program is the list of the operations it makes on its files, down to single bytes, so
that its prefixes are all the states in which it can be observed or killed.
-/
namespace ByteFiles

/-- The bytes of a text. -/
def encode (text : List Char) : List UInt8 := text.flatMap String.utf8EncodeChar

/-- Strict UTF-8. -/
def decode (bytes : List UInt8) : Option (List Char) :=
  bytes.toByteArray.utf8Decode?.map Array.toList

theorem encode_append (a b : List Char) : encode (a ++ b) = encode a ++ encode b := by
  simp [encode]

theorem decode_char_append (c : Char) (bytes : List UInt8) :
    decode (String.utf8EncodeChar c ++ bytes) = (decode bytes).map (c :: ·) := by
  rw [decode, List.toByteArray_append, ← List.utf8Encode_singleton,
    ByteArray.utf8Decode?_utf8Encode_singleton_append]
  simp [decode, Function.comp_def]

/-- A text in front is read back as it was, whatever follows it. -/
theorem decode_encode_append (text : List Char) (bytes : List UInt8) :
    decode (encode text ++ bytes) = (decode bytes).map (text ++ ·) := by
  induction text with
  | nil => simp [encode]
  | cons c text ih =>
    have hc : encode (c :: text) ++ bytes = String.utf8EncodeChar c ++ (encode text ++ bytes) := by
      simp [encode]
    rw [hc, decode_char_append, ih]
    simp [Function.comp_def]

/-- Text survives its bytes. -/
theorem decode_encode (text : List Char) : decode (encode text) = some text := by
  have h := decode_encode_append text []
  have he : decode [] = some [] := by
    rw [decode, List.toByteArray_nil, ByteArray.utf8Decode?_empty]
    rfl
  simpa [he] using h

/-- The last `n` bytes. -/
def tail (n : Nat) (bytes : List UInt8) : List UInt8 := bytes.drop (bytes.length - n)

theorem tail_short {n : Nat} {bytes : List UInt8} (h : bytes.length ≤ n) : tail n bytes = bytes := by
  rw [tail, Nat.sub_eq_zero_of_le h, List.drop_zero]

variable {φ : Type} [DecidableEq φ]

inductive Op (φ : Type) where
  | touch (file : φ)
  | create (file : φ)
  | append (file : φ) (byte : UInt8)
  | rename (source target : φ)
  deriving DecidableEq, Repr

/-- The content of each file that exists. -/
abbrev Files (φ : Type) := φ → Option (List UInt8)

/-- `create` truncates; a rename replaces its target at once. -/
def Op.apply (s : Files φ) : Op φ → Files φ
  | .touch f => Function.update s f (some ((s f).getD []))
  | .create f => Function.update s f (some [])
  | .append f b => Function.update s f ((s f).map (· ++ [b]))
  | .rename a b =>
    match s a with
    | none => s
    | some bytes => Function.update (Function.update s b (some bytes)) a none

def run (ops : List (Op φ)) (s : Files φ) : Files φ := ops.foldl Op.apply s

/-- A redirected output, byte by byte. -/
def writes (f : φ) (bytes : List UInt8) : List (Op φ) := bytes.map (.append f)

/-- `> file`: the file is truncated and then written. -/
def redirect (f : φ) (bytes : List UInt8) : List (Op φ) := .create f :: writes f bytes

/-- The operation can change the file. -/
def Op.touches (f : φ) : Op φ → Bool
  | .touch g => g = f
  | .create g => g = f
  | .append g _ => g = f
  | .rename a b => a = f || b = f

variable {s : Files φ} {f g : φ} {ops ops' : List (Op φ)}

theorem run_append : run (ops ++ ops') s = run ops' (run ops s) := by
  simp [run]

theorem run_cons {op : Op φ} : run (op :: ops) s = run ops (op.apply s) := rfl

theorem apply_untouched {op : Op φ} (h : op.touches f = false) : op.apply s f = s f := by
  cases op with
  | touch g => simp_all [Op.touches, Op.apply, eq_comm]
  | create g => simp_all [Op.touches, Op.apply, eq_comm]
  | append g b => simp_all [Op.touches, Op.apply, eq_comm]
  | rename a b =>
    simp only [Op.touches, Bool.or_eq_false_iff, decide_eq_false_iff_not] at h
    simp only [Op.apply]
    cases s a with
    | none => rfl
    | some bytes => simp [Ne.symm h.1, Ne.symm h.2]

/-- Operations on other files leave a file alone. -/
theorem run_untouched (h : ∀ op ∈ ops, op.touches f = false) : run ops s f = s f := by
  induction ops generalizing s with
  | nil => rfl
  | cons op ops ih =>
    rw [run_cons, ih fun o ho => h o (List.mem_cons_of_mem _ ho), apply_untouched (h op List.mem_cons_self)]

theorem redirect_touches (h : g ≠ f) (bytes : List UInt8) :
    ∀ op ∈ redirect g bytes, op.touches f = false := by
  simp [redirect, writes, Op.touches, h]

theorem run_writes (bytes : List UInt8) : run (writes f bytes) s f = (s f).map (· ++ bytes) := by
  induction bytes generalizing s with
  | nil => cases h : s f <;> simp [writes, run, h]
  | cons b bytes ih =>
    have hw : run (writes f (b :: bytes)) s = run (writes f bytes) (Op.apply s (.append f b)) := rfl
    rw [hw, ih]
    cases h : s f <;> simp [Op.apply, h]

/-- A redirection leaves exactly what was written. -/
theorem run_redirect (bytes : List UInt8) : run (redirect f bytes) s f = some bytes := by
  rw [redirect, run_cons, run_writes]
  simp [Op.apply]

omit [DecidableEq φ] in
/-- Cut off at any point, a redirection has not begun or has written a first part. -/
theorem prefix_redirect {a b : List (Op φ)} {bytes : List UInt8} (h : a ++ b = redirect f bytes) :
    a = [] ∨ ∃ k ≤ bytes.length, a = redirect f (bytes.take k) ∧ b = writes f (bytes.drop k) := by
  cases a with
  | nil => exact .inl rfl
  | cons op a =>
    obtain ⟨hop, hw⟩ := List.cons.inj (show op :: (a ++ b) = .create f :: writes f bytes from h)
    obtain ⟨l, l', hl, ha, hb⟩ := List.map_eq_append_iff.mp hw.symm
    refine .inr ⟨l.length, by simp [hl], ?_, ?_⟩
    · simp [redirect, writes, hop, hl, ha]
    · simp [writes, hl, hb]

/-- A rename replaces its target in one step. -/
theorem apply_rename {source target : φ} {bytes : List UInt8} (h : s source = some bytes) :
    Op.apply s (.rename source target) = Function.update (Function.update s target (some bytes)) source none := by
  simp [Op.apply, h]

end ByteFiles
