import Mathlib

-- Decimal numerals as texts of ASCII bytes.
namespace Decimal

def isDigit (c : UInt8) : Bool :=
  48 ≤ c && c ≤ 57

def digitValue (c : UInt8) : Nat :=
  c.toNat - 48

def accumulate : List UInt8 → Nat → Nat
  | [], v      => v
  | c :: cs, v => accumulate cs (v * 10 + digitValue c)

def value (cs : List UInt8) : Nat :=
  accumulate cs 0

def decimal (n : Nat) : List UInt8 :=
  (Nat.toDigits 10 n).map fun c => UInt8.ofNat c.toNat

theorem accumulate_append (cs ds : List UInt8) (v : Nat) :
    accumulate (cs ++ ds) v = accumulate ds (accumulate cs v) := by
  induction cs generalizing v
  case nil => rfl
  case cons hi => exact hi _

theorem accumulate_eq (cs : List UInt8) (v : Nat) :
    accumulate cs v = v * 10 ^ cs.length + value cs := by
  induction cs generalizing v
  case nil => simp [accumulate, value]
  case cons c cs hi =>
    have h := hi (0 * 10 + digitValue c)
    rw [value, accumulate, accumulate, hi, h, List.length_cons]
    ring

theorem byte_of_isDigit {c : Char} (h : c.isDigit = true) :
    isDigit (UInt8.ofNat c.toNat) = true ∧ digitValue (UInt8.ofNat c.toNat) = c.toNat - 48 := by
  simp only [Char.isDigit, Bool.and_eq_true, decide_eq_true_eq, UInt32.le_iff_toNat_le] at h
  have h1 : 48 ≤ c.toNat := h.left
  have h2 : c.toNat ≤ 57 := h.right
  have hm : c.toNat % 256 = c.toNat := by omega
  simp [isDigit, digitValue, UInt8.le_iff_toNat_le, hm, h1, h2]

theorem accumulate_map_byte {cs : List Char} (h : ∀ c ∈ cs, c.isDigit = true) (v : Nat) :
    accumulate (cs.map fun c => UInt8.ofNat c.toNat) v = Nat.ofDigitChars 10 cs v := by
  induction cs generalizing v
  case nil => simp [accumulate]
  case cons c cs hi =>
    have hc := (byte_of_isDigit <| h c <| .head _).right
    rw [List.map_cons, accumulate, hc, hi fun c hc => h c <| .tail _ hc, Nat.ofDigitChars_cons]
    simp [Nat.mul_comm]

theorem isDigit_toDigits : ∀ c ∈ Nat.toDigits 10 n, c.isDigit = true :=
  fun _ => Nat.isDigit_of_mem_toDigits (by omega) (by omega)

theorem isDigit_decimal : ∀ c ∈ decimal n, isDigit c = true := by
  intro c hc
  have ⟨d, hd, he⟩ := List.mem_map.mp hc
  exact he ▸ (byte_of_isDigit <| isDigit_toDigits d hd).left

@[simp]
theorem value_decimal (n : Nat) : value (decimal n) = n := by
  rw [value, decimal, accumulate_map_byte isDigit_toDigits, Nat.ofDigitChars_ten_toDigits]

theorem decimal_injective : Function.Injective decimal :=
  Function.LeftInverse.injective value_decimal

theorem length_decimal_le (h : n < 10 ^ k) (hk : 0 < k) : (decimal n).length ≤ k := by
  rw [decimal, List.length_map]
  exact Nat.length_toDigits_le_iff (by omega) hk |>.mpr h

end Decimal
