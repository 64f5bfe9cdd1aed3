import Mathlib.Data.List.Basic

/-!
# Bytes as hexadecimal digits

`bytes.hex` and `bytes.fromhex`, of lower-case digits.
-/
namespace Hexadecimal

def digit (n : Nat) : Char := if n < 10 then Char.ofNat (48 + n) else Char.ofNat (87 + n)

def value (c : Char) : Option Nat :=
  if 48 ≤ c.toNat ∧ c.toNat ≤ 57 then some (c.toNat - 48)
  else if 97 ≤ c.toNat ∧ c.toNat ≤ 102 then some (c.toNat - 87)
  else none

/-- `bytes.hex` -/
def hex (bytes : List UInt8) : List Char :=
  bytes.flatMap fun b => [digit (b.toNat / 16), digit (b.toNat % 16)]

/-- `bytes.fromhex` -/
def unhex : List Char → Option (List UInt8)
  | [] => some []
  | [_] => none
  | c :: d :: s =>
    match value c, value d with
    | some m, some n => (unhex s).map (UInt8.ofNat (16 * m + n) :: ·)
    | _, _ => none

theorem value_digit {n : Nat} (h : n < 16) : value (digit n) = some n := by
  have hall : ∀ n : Fin 16, value (digit n) = some n.val := by decide
  exact hall ⟨n, h⟩

theorem unhex_hex (bytes : List UInt8) : unhex (hex bytes) = some bytes := by
  induction bytes with
  | nil => rfl
  | cons b bytes ih =>
    have hb : b.toNat < 256 := b.toNat_lt
    have hhigh : value (digit (b.toNat / 16)) = some (b.toNat / 16) := value_digit (by omega)
    have hlow : value (digit (b.toNat % 16)) = some (b.toNat % 16) := value_digit (by omega)
    have hbyte : UInt8.ofNat (16 * (b.toNat / 16) + b.toNat % 16) = b := by
      rw [Nat.div_add_mod, UInt8.ofNat_toNat]
    simp only [hex, List.flatMap_cons, List.cons_append, List.nil_append, unhex, hhigh, hlow] at ih ⊢
    rw [ih, hbyte]
    rfl

theorem hex_injective {a b : List UInt8} (h : hex a = hex b) : a = b := by
  have := unhex_hex a
  rw [h, unhex_hex] at this
  exact (Option.some.inj this).symm

end Hexadecimal
