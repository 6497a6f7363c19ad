import FlowerExchange.Lib.Decimal

-- Numerals with signs, fractions and exponents as texts of ASCII bytes, and what they denote.
namespace Decimal

def isBlank (c : UInt8) : Bool :=
  c = 32 || c = 9

def Digits (cs : List UInt8) : Prop :=
  ∀ c ∈ cs, isDigit c

instance : Decidable (Digits cs) :=
  List.decidableBAll _ cs

def Blanks (cs : List UInt8) : Prop :=
  ∀ c ∈ cs, isBlank c

inductive Sign : List UInt8 → Int → Prop
  | none  : Sign [] 1
  | plus  : Sign [43] 1
  | minus : Sign [45] (-1)

inductive Mantissa : List UInt8 → ℚ → Prop
  | whole : (Digits cs) → (cs ≠ []) → Mantissa cs (value cs)
  | point : (Digits cs) → (Digits ds) → (cs ++ ds ≠ []) →
    Mantissa (cs ++ 46 :: ds) (value (cs ++ ds) / 10 ^ ds.length)

inductive Exponent : List UInt8 → Int → Prop
  | none : Exponent [] 0
  | some : (c = 101 ∨ c = 69) → (Sign s n) → (Digits cs) → (cs ≠ []) →
    Exponent (c :: (s ++ cs)) (n * value cs)

inductive DenotesInt : List UInt8 → Int → Prop
  | mk : (Blanks b) → (Sign s n) → (Digits cs) → (cs ≠ []) → (Blanks b') →
    DenotesInt (b ++ (s ++ (cs ++ b'))) (n * value cs)

inductive Scientific : List UInt8 → ℚ → Int → Prop
  | mk : (Blanks b) → (Sign s n) → (Mantissa ms m) → (Exponent es e) → (Blanks b') →
    Scientific (b ++ (s ++ (ms ++ (es ++ b')))) (n * m) e

def Denotes (cs : List UInt8) (q : ℚ) : Prop :=
  ∃ m e, Scientific cs m e ∧ q = m * 10 ^ e

def clamp (limit : Nat) (n : Int) : Int :=
  max (-limit) (min limit n)

variable {cs ds : List UInt8} {limit : Nat}

theorem value_append (cs ds : List UInt8) :
    value (cs ++ ds) = value cs * 10 ^ ds.length + value ds := by
  rw [value, accumulate_append, accumulate_eq]
  rfl

theorem value_cons (c : UInt8) (cs : List UInt8) :
    value (c :: cs) = digitValue c * 10 ^ cs.length + value cs := by
  rw [value, accumulate, accumulate_eq, Nat.zero_mul, Nat.zero_add]

theorem digitValue_lt (h : isDigit c) : digitValue c < 10 := by
  simp only [isDigit, Bool.and_eq_true, decide_eq_true_eq, UInt8.le_iff_toNat_le] at h
  have : c.toNat ≤ 57 := h.right
  rw [digitValue]
  omega

theorem value_lt (h : Digits cs) : value cs < 10 ^ cs.length := by
  induction cs
  case nil => decide
  case cons c cs hi =>
    have hc := digitValue_lt <| h c <| .head _
    have hcs := hi fun c hc => h c <| .tail _ hc
    rw [value_cons, List.length_cons, pow_succ]
    nlinarith [Nat.mul_le_mul_right (10 ^ cs.length) <| Nat.le_of_lt_succ hc]

namespace Mantissa

variable {m : ℚ}

theorem bounds (h : Mantissa cs m) :
    0 ≤ m ∧ m < 10 ^ cs.length ∧ (0 < m → 1 / 10 ^ cs.length ≤ m) := by
  cases h
  case whole h hn =>
    have hlt : (value cs : ℚ) < 10 ^ cs.length := by exact_mod_cast value_lt h
    refine ⟨Nat.cast_nonneg _, hlt, fun hp => ?_⟩
    have h₁ : (1 : ℚ) ≤ value cs := by exact_mod_cast hp
    have h₂ : (1 : ℚ) ≤ 10 ^ cs.length := one_le_pow₀ (by norm_num)
    exact (div_le_one₀ (by positivity)).mpr h₂ |>.trans h₁
  case point cs ds hc hd _ =>
    have hlt : (value (cs ++ ds) : ℚ) < 10 ^ (cs.length + ds.length) := by
      have := value_lt fun c hm => (List.mem_append.mp hm).elim (hc c) (hd c)
      rw [List.length_append] at this
      exact_mod_cast this
    rw [pow_add] at hlt
    have hp : (0 : ℚ) < 10 ^ ds.length := by positivity
    refine ⟨by positivity, ?_, fun h => ?_⟩
    · calc (value (cs ++ ds) / 10 ^ ds.length : ℚ)
        _ < 10 ^ cs.length := (div_lt_iff₀ hp).mpr hlt
        _ ≤ 10 ^ (cs ++ 46 :: ds).length := pow_le_pow_right₀ (by norm_num) (by simp)
    · have hv : (1 : ℚ) ≤ value (cs ++ ds) := by
        have := (div_pos_iff_of_pos_right hp).mp h
        exact_mod_cast this
      calc (1 / 10 ^ (cs ++ 46 :: ds).length : ℚ)
        _ ≤ 1 / 10 ^ ds.length :=
          one_div_le_one_div_of_le hp <| pow_le_pow_right₀ (by norm_num) (by simp; omega)
        _ ≤ value (cs ++ ds) / 10 ^ ds.length := div_le_div_of_nonneg_right hv hp.le

end Mantissa

theorem Sign.abs (h : Sign s n) : n = 1 ∨ n = -1 := by
  cases h <;> simp

theorem Exponent.bounds (h : Exponent cs e) : |e| < 10 ^ cs.length := by
  cases h
  case none => simp
  case some c s n ds _ hs hd _ =>
    have hv : (value ds : Int) < 10 ^ ds.length := by exact_mod_cast value_lt hd
    have hl : (10 : Int) ^ ds.length ≤ 10 ^ (c :: (s ++ ds)).length :=
      pow_le_pow_right₀ (by norm_num) (by simp; omega)
    rcases hs.abs with rfl | rfl <;>
      simp only [one_mul, neg_mul, abs_neg, Nat.abs_cast] <;> exact hv.trans_le hl

theorem Scientific.bounds (h : Scientific cs m e) (hm : 0 < m) : ∃ k l, k + l ≤ cs.length ∧
    m < 10 ^ k ∧ 1 / 10 ^ k ≤ m ∧ |e| < 10 ^ l := by
  cases h
  case mk b s n ms m es b' _ hs hms _ hes =>
    have ⟨h₀, h₁, h₂⟩ := hms.bounds
    refine ⟨ms.length, es.length, by simp; omega, ?_⟩
    rcases hs.abs with rfl | rfl
    · simp only [Int.cast_one, one_mul] at hm ⊢
      exact ⟨h₁, h₂ hm, hes.bounds⟩
    · simp only [Int.cast_neg, Int.cast_one, neg_mul, one_mul] at hm
      linarith

theorem clamp_of_abs_le {n : Int} (h : |n| ≤ limit) : clamp limit n = n := by
  have ⟨h₁, h₂⟩ := abs_le.mp h
  rw [clamp, min_eq_right h₂, max_eq_right h₁]

-- A text that is not longer than the limit can have an exponent beyond it only if its number is either
-- large or close to zero.
theorem Scientific.clamp_cases (h : Scientific cs m e) (hm : 0 < m) (hl : 10 ^ 9 ≤ limit)
    (hc : cs.length ≤ limit) : clamp limit e = e ∨
      (1000 < m * 10 ^ clamp limit e ∧ 1000 < m * 10 ^ e) ∨
      (m * 10 ^ clamp limit e < 1 / 1000 ∧ m * 10 ^ e < 1 / 1000) := by
  rcases le_or_gt |e| limit with hle | hgt
  case inl => exact .inl <| clamp_of_abs_le hle
  case inr =>
    have ⟨k, l, hkl, hlt, hge, he⟩ := h.bounds hm
    have hl : 10 ≤ l := by
      by_contra hlt
      have : (10 : Int) ^ l ≤ 10 ^ 9 := pow_le_pow_right₀ (by norm_num) (by omega)
      have : ((10 ^ 9 : Nat) : Int) ≤ limit := by exact_mod_cast hl
      push_cast at this
      linarith
    have hk : (10 : ℚ) ^ k * 10 ^ 4 ≤ 10 ^ limit := by
      rw [← pow_add]
      exact pow_le_pow_right₀ (by norm_num) (by omega)
    have hp : (0 : ℚ) < 10 ^ k := by positivity
    rcases le_total 0 e with hpos | hneg
    case inl =>
      have hcl : clamp limit e = limit := by
        rw [abs_of_nonneg hpos] at hgt
        rw [clamp, min_eq_left hgt.le, max_eq_right (by omega)]
      have hle : m * (10 : ℚ) ^ (limit : Int) ≤ m * 10 ^ e := by
        rw [abs_of_nonneg hpos] at hgt
        exact mul_le_mul_of_nonneg_left (zpow_le_zpow_right₀ (by norm_num) hgt.le) hm.le
      have hbig : 1000 < m * (10 : ℚ) ^ (limit : Int) := by
        calc (1000 : ℚ)
          _ < 1 / 10 ^ k * (10 ^ k * 10 ^ 4) := by field_simp; norm_num
          _ ≤ m * 10 ^ limit := mul_le_mul hge hk (by positivity) hm.le
          _ = m * 10 ^ (limit : Int) := by rw [zpow_natCast]
      exact .inr <| .inl ⟨hcl ▸ hbig, hbig.trans_le hle⟩
    case inr =>
      have hcl : clamp limit e = -limit := by
        rw [abs_of_nonpos hneg] at hgt
        rw [clamp, max_eq_left ((min_le_right ..).trans (by omega))]
      have hle : m * (10 : ℚ) ^ e ≤ m * 10 ^ (-limit : Int) := by
        rw [abs_of_nonpos hneg] at hgt
        exact mul_le_mul_of_nonneg_left (zpow_le_zpow_right₀ (by norm_num) (by omega)) hm.le
      have hsmall : m * (10 : ℚ) ^ (-limit : Int) < 1 / 1000 := by
        calc m * (10 : ℚ) ^ (-limit : Int)
          _ = m / 10 ^ limit := by rw [zpow_neg, zpow_natCast, div_eq_mul_inv]
          _ ≤ 10 ^ k / (10 ^ k * 10 ^ 4) := div_le_div₀ (by positivity) hlt.le (by positivity) hk
          _ < 1 / 1000 := by field_simp; norm_num
      exact .inr <| .inr ⟨hcl ▸ hsmall, hle.trans_lt hsmall⟩

end Decimal
