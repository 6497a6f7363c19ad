import FlowerExchange.Lib.Numeral

-- Numerals that are filled up with zeros to a width, and records of them.
namespace Decimal

def padded (width n : Nat) : List UInt8 :=
  (decimal n).leftpad width 48

def record : List (Nat × List UInt8) → List Nat → List UInt8
  | (width, behind) :: format, n :: ns => padded width n ++ (behind ++ record format ns)
  | _, _                               => []

def Fits (format : List (Nat × List UInt8)) (ns : List Nat) : Prop :=
  List.Forall₂ (fun (f : Nat × List UInt8) n => 0 < f.1 ∧ n < 10 ^ f.1) format ns

variable {cs ds : List UInt8} {format : List (Nat × List UInt8)} {ns ms : List Nat}

theorem digits_padded (width n : Nat) : Digits (padded width n) := by
  intro c hc
  rcases List.mem_append.mp hc with hc | hc
  · rw [List.eq_of_mem_replicate hc]
    decide
  · exact isDigit_decimal c hc

theorem length_padded (hw : 0 < width) (h : n < 10 ^ width) : (padded width n).length = width := by
  rw [padded, List.length_leftpad, max_eq_left <| length_decimal_le h hw]

theorem value_padded (width n : Nat) : value (padded width n) = n := by
  have zeros (k : Nat) : value (List.replicate k 48) = 0 := by
    induction k
    case zero      => rfl
    case succ k hi => rw [List.replicate_succ, value_cons, hi]; simp [digitValue]
  rw [padded, List.leftpad, value_append, zeros, value_decimal, Nat.zero_mul, Nat.zero_add]

theorem digitValue_lt_iff (hc : isDigit c) (hd : isDigit d) : c < d ↔ digitValue c < digitValue d := by
  simp only [isDigit, Bool.and_eq_true, decide_eq_true_eq, UInt8.le_iff_toNat_le] at hc hd
  have : 48 ≤ c.toNat := hc.left
  have : 48 ≤ d.toNat := hd.left
  rw [UInt8.lt_iff_toNat_lt, digitValue, digitValue]
  omega

theorem digitValue_inj (hc : isDigit c) (hd : isDigit d) (h : digitValue c = digitValue d) : c = d := by
  simp only [isDigit, Bool.and_eq_true, decide_eq_true_eq, UInt8.le_iff_toNat_le] at hc hd
  have : 48 ≤ c.toNat := hc.left
  have : 48 ≤ d.toNat := hd.left
  rw [digitValue, digitValue] at h
  exact UInt8.toNat_inj.mp (by omega)

theorem mul_add_lt_iff {a b p x y : Nat} (hx : x < p) (hy : y < p) :
    a * p + x < b * p + y ↔ a < b ∨ a = b ∧ x < y := by
  rcases lt_trichotomy a b with h | rfl | h
  · have := Nat.mul_le_mul_right p h
    rw [Nat.succ_mul] at this
    omega
  · simp
  · have := Nat.mul_le_mul_right p h
    rw [Nat.succ_mul] at this
    omega

-- Texts of as many digits are in the order of what they denote.
theorem lt_iff_value_lt (hc : Digits cs) (hd : Digits ds) (hl : cs.length = ds.length) :
    cs < ds ↔ value cs < value ds := by
  induction cs generalizing ds
  case nil =>
    cases ds
    case nil  => simp
    case cons => contradiction
  case cons c cs hi =>
    cases ds
    case nil => contradiction
    case cons d ds =>
      have ⟨hc, hcs⟩ := List.forall_mem_cons.mp hc
      have ⟨hd, hds⟩ := List.forall_mem_cons.mp hd
      have hl : cs.length = ds.length := Nat.succ_injective hl
      have h₁ := value_lt hcs
      have h₂ := value_lt hds
      rw [hl] at h₁
      rw [List.cons_lt_cons_iff, hi hcs hds hl, value_cons, value_cons, hl, mul_add_lt_iff h₁ h₂,
        digitValue_lt_iff hc hd]
      exact or_congr_right <| and_congr_left fun _ => ⟨congrArg digitValue, digitValue_inj hc hd⟩

theorem padded_lt_iff (hw : 0 < width) (hn : n < 10 ^ width) (hm : m < 10 ^ width) :
    padded width n < padded width m ↔ n < m := by
  have hl : (padded width n).length = (padded width m).length := by
    rw [length_padded hw hn, length_padded hw hm]
  rw [lt_iff_value_lt (digits_padded width n) (digits_padded width m) hl, value_padded, value_padded]

theorem padded_injective (width : Nat) : Function.Injective (padded width) := by
  intro n m h
  rw [← value_padded width n, h, value_padded]

theorem append_lt_append_iff {a b c d : List UInt8} (hl : a.length = b.length) :
    a ++ c < b ++ d ↔ a < b ∨ a = b ∧ c < d := by
  induction a generalizing b
  case nil =>
    cases b
    case nil  => simp
    case cons => contradiction
  case cons x a hi =>
    cases b
    case nil => contradiction
    case cons y b =>
      have hl : a.length = b.length := Nat.succ_injective hl
      simp only [List.cons_append, List.cons_lt_cons_iff, hi hl, List.cons.injEq]
      tauto

-- Records are in the order of their fields, the first one first.
theorem record_lt_iff (hn : Fits format ns) (hm : Fits format ms) :
    record format ns < record format ms ↔ ns < ms := by
  induction hn generalizing ms
  case nil =>
    cases hm
    simp [record]
  case cons f n format ns hf _ hi =>
    cases hm
    case cons m ms hf' hm =>
      have hl : (padded f.1 n).length = (padded f.1 m).length := by
        rw [length_padded hf.left hf.right, length_padded hf'.left hf'.right]
      rw [record, record, append_lt_append_iff hl, append_lt_append_iff rfl, hi hm,
        padded_lt_iff hf.left hf.right hf'.right, List.cons_lt_cons_iff, (padded_injective f.1).eq_iff]
      simp [List.lt_irrefl]

theorem record_le_iff (hn : Fits format ns) (hm : Fits format ms) :
    record format ns ≤ record format ms ↔ ns ≤ ms := by
  rw [← List.not_lt, record_lt_iff hm hn, not_lt]

theorem record_injective (hn : Fits format ns) (hm : Fits format ms)
    (h : record format ns = record format ms) : ns = ms := by
  induction hn generalizing ms
  case nil =>
    cases hm
    rfl
  case cons f n format ns hf _ hi =>
    cases hm
    case cons m ms hf' hm =>
      have hl : (padded f.1 n).length = (padded f.1 m).length := by
        rw [length_padded hf.left hf.right, length_padded hf'.left hf'.right]
      have ⟨hp, h⟩ := List.append_inj h hl
      rw [padded_injective f.1 hp, hi hm <| List.append_cancel_left h]

theorem length_record (h : Fits format ns) :
    (record format ns).length = (format.map fun f => f.1 + f.2.length).sum := by
  induction h
  case nil => rfl
  case cons f n _ _ hf _ hi =>
    rw [record, List.length_append, List.length_append, length_padded hf.left hf.right, hi, List.map_cons,
      List.sum_cons, Nat.add_assoc]

theorem mem_record (h : c ∈ record format ns) : isDigit c ∨ ∃ f ∈ format, c ∈ f.2 := by
  induction format generalizing ns
  case nil => contradiction
  case cons f format hi =>
    cases ns
    case nil => contradiction
    case cons n ns =>
      rcases List.mem_append.mp h with h | h
      · exact .inl <| digits_padded _ _ c h
      · rcases List.mem_append.mp h with h | h
        · exact .inr ⟨f, .head _, h⟩
        · exact (hi h).imp_right fun ⟨f, hf, hc⟩ => ⟨f, .tail _ hf, hc⟩

end Decimal
