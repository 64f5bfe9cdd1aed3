import CapiSsh.Lib.ByteFiles
import Mathlib.Data.List.Basic
import Mathlib.Data.Fintype.Basic

/-!
# Base64

`b64encode` and the validating `b64decode`, on bytes and on texts in UTF-8. The padding is
canonical, and the bits that it stands for may be any.
-/
namespace Base64

def digit (n : Nat) : Char :=
  if n < 26 then Char.ofNat (65 + n)
  else if n < 52 then Char.ofNat (71 + n)
  else if n < 62 then Char.ofNat (n - 4)
  else if n = 62 then '+'
  else '/'

def value (c : Char) : Option Nat :=
  if 65 ≤ c.toNat ∧ c.toNat ≤ 90 then some (c.toNat - 65)
  else if 97 ≤ c.toNat ∧ c.toNat ≤ 122 then some (c.toNat - 71)
  else if 48 ≤ c.toNat ∧ c.toNat ≤ 57 then some (c.toNat + 4)
  else if c = '+' then some 62
  else if c = '/' then some 63
  else none

def pad : Char := '='

def b64encode : List UInt8 → List Char
  | [] => []
  | [a] => [digit (a.toNat / 4), digit (a.toNat % 4 * 16), pad, pad]
  | [a, b] => [digit (a.toNat / 4), digit (a.toNat % 4 * 16 + b.toNat / 16), digit (b.toNat % 16 * 4), pad]
  | a :: b :: c :: rest =>
    digit (a.toNat / 4) :: digit (a.toNat % 4 * 16 + b.toNat / 16) :: digit (b.toNat % 16 * 4 + c.toNat / 64) ::
      digit (c.toNat % 64) :: b64encode rest

/-- The bytes that a group of digits begins. -/
def first (p q : Nat) : UInt8 := UInt8.ofNat (p * 4 + q / 16)
def second (q r : Nat) : UInt8 := UInt8.ofNat (q % 16 * 16 + r / 4)
def third (r s : Nat) : UInt8 := UInt8.ofNat (r % 4 * 64 + s)

def b64decode : List Char → Option (List UInt8)
  | [] => some []
  | c₁ :: c₂ :: c₃ :: c₄ :: rest =>
    if c₄ = pad then
      if rest ≠ [] then none
      else if c₃ = pad then do
        let p ← value c₁
        let q ← value c₂
        some [first p q]
      else do
        let p ← value c₁
        let q ← value c₂
        let r ← value c₃
        some [first p q, second q r]
    else do
      let p ← value c₁
      let q ← value c₂
      let r ← value c₃
      let s ← value c₄
      let bytes ← b64decode rest
      some (first p q :: second q r :: third r s :: bytes)
  | _ => none

/-- `b64encode(text.encode("utf-8"))` -/
def encode (text : List Char) : List Char := b64encode (ByteFiles.encode text)

/-- `b64decode(text, validate=True).decode("utf-8")` -/
def decode (text : List Char) : Option (List Char) := (b64decode text).bind ByteFiles.decode

/-- Digits are read back, and the padding is none of them. -/
theorem value_digit {n : Nat} (h : n < 64) : value (digit n) = some n := by
  have hall : ∀ n : Fin 64, value (digit n) = some n.val := by decide
  exact hall ⟨n, h⟩

theorem value_pad : value pad = none := by decide

theorem digit_ne_pad {n : Nat} (h : n < 64) : digit n ≠ pad := by
  intro heq
  have hv := value_digit h
  rw [heq, value_pad] at hv
  cases hv

theorem first_digits (a x : Nat) (hx : x < 16) : first (a / 4) (a % 4 * 16 + x) = UInt8.ofNat a := by
  have h : a / 4 * 4 + (a % 4 * 16 + x) / 16 = a := by omega
  rw [first, h]

theorem second_digits (b h x : Nat) (hb : b < 256) (hx : x < 4) :
    second (h * 16 + b / 16) (b % 16 * 4 + x) = UInt8.ofNat b := by
  have h : (h * 16 + b / 16) % 16 * 16 + (b % 16 * 4 + x) / 4 = b := by omega
  rw [second, h]

theorem third_digits (c h : Nat) (hc : c < 256) : third (h * 4 + c / 64) (c % 64) = UInt8.ofNat c := by
  have h : (h * 4 + c / 64) % 4 * 64 + c % 64 = c := by omega
  rw [third, h]

/-- Nothing is lost, however the number of bytes is padded. -/
theorem b64decode_b64encode (bytes : List UInt8) : b64decode (b64encode bytes) = some bytes := by
  fun_induction b64encode bytes with
  | case1 => rfl
  | case2 a =>
    have ha : a.toNat < 256 := a.toNat_lt
    have h₁ : value (digit (a.toNat / 4)) = some (a.toNat / 4) := value_digit (by omega)
    have h₂ : value (digit (a.toNat % 4 * 16)) = some (a.toNat % 4 * 16) := value_digit (by omega)
    have hfirst := first_digits a.toNat 0 (by omega)
    rw [Nat.add_zero] at hfirst
    simp [b64decode, h₁, h₂, hfirst]
  | case3 a b =>
    have ha : a.toNat < 256 := a.toNat_lt
    have hb : b.toNat < 256 := b.toNat_lt
    have h₁ : value (digit (a.toNat / 4)) = some (a.toNat / 4) := value_digit (by omega)
    have h₂ : value (digit (a.toNat % 4 * 16 + b.toNat / 16)) = some (a.toNat % 4 * 16 + b.toNat / 16) :=
      value_digit (by omega)
    have h₃ : value (digit (b.toNat % 16 * 4)) = some (b.toNat % 16 * 4) := value_digit (by omega)
    have hpad : digit (b.toNat % 16 * 4) ≠ pad := digit_ne_pad (by omega)
    have hfirst := first_digits a.toNat (b.toNat / 16) (by omega)
    have hsecond := second_digits b.toNat (a.toNat % 4) 0 hb (by omega)
    rw [Nat.add_zero] at hsecond
    simp [b64decode, h₁, h₂, h₃, hpad, hfirst, hsecond]
  | case4 a b c rest ih =>
    have ha : a.toNat < 256 := a.toNat_lt
    have hb : b.toNat < 256 := b.toNat_lt
    have hc : c.toNat < 256 := c.toNat_lt
    have h₁ : value (digit (a.toNat / 4)) = some (a.toNat / 4) := value_digit (by omega)
    have h₂ : value (digit (a.toNat % 4 * 16 + b.toNat / 16)) = some (a.toNat % 4 * 16 + b.toNat / 16) :=
      value_digit (by omega)
    have h₃ : value (digit (b.toNat % 16 * 4 + c.toNat / 64)) = some (b.toNat % 16 * 4 + c.toNat / 64) :=
      value_digit (by omega)
    have h₄ : value (digit (c.toNat % 64)) = some (c.toNat % 64) := value_digit (by omega)
    have hpad : digit (c.toNat % 64) ≠ pad := digit_ne_pad (by omega)
    have hfirst := first_digits a.toNat (b.toNat / 16) (by omega)
    have hsecond := second_digits b.toNat (a.toNat % 4) (c.toNat / 64) hb (by omega)
    have hthird := third_digits c.toNat (b.toNat % 16) hc
    simp [b64decode, h₁, h₂, h₃, h₄, hpad, hfirst, hsecond, hthird, ih]

theorem decode_encode (text : List Char) : decode (encode text) = some text := by
  rw [decode, encode, b64decode_b64encode, Option.bind_some, ByteFiles.decode_encode]

/-- Only digits and padding are written. -/
theorem mem_b64encode (bytes : List UInt8) {ch : Char} (h : ch ∈ b64encode bytes) :
    ch = pad ∨ ∃ n < 64, ch = digit n := by
  fun_induction b64encode bytes with
  | case1 => cases h
  | case2 a =>
    have ha : a.toNat < 256 := a.toNat_lt
    simp only [List.mem_cons, List.not_mem_nil, or_false, or_self] at h
    obtain h | h | h := h
    · exact .inr ⟨_, by omega, h⟩
    · exact .inr ⟨_, by omega, h⟩
    · exact .inl h
  | case3 a b =>
    have ha : a.toNat < 256 := a.toNat_lt
    have hb : b.toNat < 256 := b.toNat_lt
    simp only [List.mem_cons, List.not_mem_nil, or_false] at h
    obtain h | h | h | h := h
    · exact .inr ⟨_, by omega, h⟩
    · exact .inr ⟨_, by omega, h⟩
    · exact .inr ⟨_, by omega, h⟩
    · exact .inl h
  | case4 a b c rest ih =>
    have ha : a.toNat < 256 := a.toNat_lt
    have hb : b.toNat < 256 := b.toNat_lt
    have hc : c.toNat < 256 := c.toNat_lt
    simp only [List.mem_cons] at h
    obtain h | h | h | h | h := h
    · exact .inr ⟨_, by omega, h⟩
    · exact .inr ⟨_, by omega, h⟩
    · exact .inr ⟨_, by omega, h⟩
    · exact .inr ⟨_, by omega, h⟩
    · exact ih h

end Base64
