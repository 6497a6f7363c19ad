import FlowerExchange.Common.Timestamp

open Decimal

theorem length_formatInt_of_nonneg {i : Int} (hw : 0 < width) (h₀ : 0 ≤ i) (h : i < 10 ^ width) :
    (formatInt width i).length = width := by
  rw [formatInt, if_neg h₀.not_gt]
  exact length_padded hw (by zify; rwa [abs_of_nonneg h₀])

theorem length_formatInt_le_iff {i : Int} (hw : 1 < w) :
    (w ≤ (formatInt w i).length) ∧
      ((formatInt w i).length ≤ w ↔ -(10 ^ (w - 1)) < i ∧ i < 10 ^ w) := by
  have hl (k : Nat) (hk : 0 < k) : (padded k i.natAbs).length ≤ k ↔ i.natAbs < 10 ^ k := by
    rw [padded, List.length_leftpad, max_le_iff, and_iff_right le_rfl, decimal, List.length_map]
    exact Nat.length_toDigits_le_iff (by omega) hk
  have hp (k : Nat) : k ≤ (padded k i.natAbs).length := by
    rw [padded, List.length_leftpad]
    exact le_max_left ..
  have h₁ : (10 : Int) ^ (w - 1) = ((10 ^ (w - 1) : Nat) : Int) := by push_cast; rfl
  have h₂ : (10 : Int) ^ w = ((10 ^ w : Nat) : Int) := by push_cast; rfl
  have : 0 < 10 ^ (w - 1) := by positivity
  have : 0 < 10 ^ w := by positivity
  rw [formatInt, h₁, h₂]
  split
  case isTrue h =>
    have := hp (w - 1)
    have hl := hl (w - 1) (by omega)
    rw [List.length_cons]
    refine ⟨by omega, ?_⟩
    rw [show (padded (w - 1) i.natAbs).length + 1 ≤ w ↔
      (padded (w - 1) i.natAbs).length ≤ w - 1 by omega, hl]
    omega
  case isFalse h =>
    refine ⟨hp w, ?_⟩
    rw [hl w (by omega)]
    omega

namespace ClockReading

variable {r r₁ r₂ : ClockReading}

def Regular (r : ClockReading) : Prop :=
  (-1000 < r.tmLocal.year + 1900 ∧ r.tmLocal.year + 1900 < 10000) ∧ -100 < r.millis

instance : Decidable r.Regular :=
  inferInstanceAs <| Decidable (_ ∧ _)

theorem millis_lt (r : ClockReading) : r.millis < 1000 := by
  rw [millis]
  exact Int.tmod_lt_of_pos _ (by decide)

theorem length_timestampText (r : ClockReading) :
    19 ≤ r.timestampText.length ∧ (r.timestampText.length ≤ 19 ↔ r.Regular) := by
  have := r.millis_lt
  have := r.tmLocal.monLe
  have := r.tmLocal.mdayLe
  have := r.tmLocal.hourLe
  have := r.tmLocal.minLe
  have := r.tmLocal.secLe
  have two {i : Int} (h₀ : 0 ≤ i) (h : i < 100) : (formatInt 2 i).length = 2 :=
    length_formatInt_of_nonneg (by decide) h₀ h
  have ⟨hy, hy'⟩ := length_formatInt_le_iff (w := 4) (i := r.tmLocal.year + 1900) (by decide)
  have ⟨hm, hm'⟩ := length_formatInt_le_iff (w := 3) (i := r.millis) (by decide)
  simp only [timestampText, List.length_append, show (ascii "-").length = 1 from rfl,
    show (ascii ".").length = 1 from rfl, two (i := (r.tmLocal.mon : Int) + 1) (by omega) (by omega),
    two (i := r.tmLocal.mday) (by omega) (by omega), two (i := r.tmLocal.hour) (by omega) (by omega),
    two (i := r.tmLocal.min) (by omega) (by omega), two (i := r.tmLocal.sec) (by omega) (by omega), Regular]
  rw [show (-1000 : Int) = -(10 ^ (4 - 1)) by rfl, show (10000 : Int) = 10 ^ 4 by rfl,
    show (-100 : Int) = -(10 ^ (3 - 1)) by rfl, ← hy']
  rw [and_iff_left (show r.millis < 10 ^ 3 by omega)] at hm'
  rw [← hm']
  omega

-- The times that a text can tell apart: those after the epoch, in years of four digits.
structure CommonEra (r : ClockReading) : Prop where
  yearNonneg : 0 ≤ r.tmLocal.year + 1900
  yearLt     : r.tmLocal.year + 1900 < 10000
  afterEpoch : 0 ≤ r.epochMs

def fields (r : ClockReading) : List Nat :=
  [(r.tmLocal.year + 1900).toNat, r.tmLocal.mon + 1, r.tmLocal.mday, r.tmLocal.hour, r.tmLocal.min,
    r.tmLocal.sec, r.millis.toNat]

theorem CommonEra.millis_nonneg (h : r.CommonEra) : 0 ≤ r.millis :=
  Int.tmod_nonneg _ h.afterEpoch

theorem CommonEra.regular (h : r.CommonEra) : r.Regular := by
  have := h.yearNonneg
  have := h.millis_nonneg
  exact ⟨⟨by omega, h.yearLt⟩, by omega⟩

def format : List (Nat × Bytes) :=
  [(4, []), (2, []), (2, ascii "-"), (2, []), (2, []), (2, ascii "."), (3, [])]

theorem CommonEra.fits (h : r.CommonEra) : Fits format r.fields := by
  have := h.yearNonneg
  have := h.yearLt
  have := r.millis_lt
  have := r.tmLocal.monLe
  have := r.tmLocal.mdayLe
  have := r.tmLocal.hourLe
  have := r.tmLocal.minLe
  have := r.tmLocal.secLe
  simp only [Fits, format, fields, List.forall₂_cons, List.forall₂_nil_right_iff, and_true]
  omega

theorem CommonEra.timestampText_eq (h : r.CommonEra) : r.timestampText = record format r.fields := by
  have := h.yearNonneg
  have := h.millis_nonneg
  have pos {width : Nat} {i : Int} (h : 0 ≤ i) : formatInt width i = padded width i.toNat := by
    rw [formatInt, if_neg h.not_gt, show i.natAbs = i.toNat by omega]
  have nat (width n : Nat) : formatInt width n = padded width n := pos n.cast_nonneg
  rw [timestampText, pos h.yearNonneg, pos h.millis_nonneg, nat 2, nat 2, nat 2, nat 2,
    show (r.tmLocal.mon : Int) + 1 = (r.tmLocal.mon + 1 : Nat) by simp, nat 2]
  simp [record, format, fields]

theorem mem_timestampText (h : c ∈ r.timestampText) : isDigit c ∨ c = 45 ∨ c = 46 := by
  have num {width : Nat} {i : Int} (h : c ∈ formatInt width i) : isDigit c ∨ c = 45 := by
    rw [formatInt] at h
    split at h
    · exact (List.mem_cons.mp h).symm.imp_left (digits_padded _ _ c)
    · exact .inl <| digits_padded _ _ c h
  simp only [timestampText, List.mem_append, show ascii "-" = [45] from rfl, show ascii "." = [46] from rfl,
    List.mem_singleton] at h
  rcases h with (((((((h | h) | h) | h) | h) | h) | h) | h) | h
  case inl.inl.inl.inl.inl.inr => exact .inr <| .inl h
  case inl.inr                 => exact .inr <| .inr h
  all_goals exact (num h).imp_right .inl

end ClockReading

theorem cText_append_zero (h : 0 ∉ text) (rest : Bytes) : cText (text ++ 0 :: rest) = text := by
  rw [cText, List.takeWhile_append_of_pos, List.takeWhile_cons_of_neg (by simp), List.append_nil]
  intro c hc
  exact decide_eq_true fun h0 => h <| h0 ▸ hc

theorem cText_set_zero (out : Bytes) : cText (out.set 0 0) = [] := by
  cases out <;> simp [cText]

theorem cText_set (h : (cText out).length ≤ i) : cText (out.set i 0) = cText out := by
  induction out generalizing i
  case nil => rfl
  case cons c out hi =>
    by_cases hc : c = 0
    · cases i <;> simp [cText, hc]
    · have : cText (c :: out) = c :: cText out := List.takeWhile_cons_of_pos (decide_eq_true hc)
      rw [this, List.length_cons] at h
      cases i
      case zero => omega
      case succ i =>
        rw [this, ← hi (i := i) (by omega), List.set_cons_succ]
        exact List.takeWhile_cons_of_pos (decide_eq_true hc)

theorem fillCurrentTimestamp_spec (now : ClockReading) (out : Bytes) :
    (fillCurrentTimestamp now out).length = out.length ∧
      (out ≠ [] → cText (fillCurrentTimestamp now out) =
        if now.timestampText.length < out.length then now.timestampText else []) := by
  have : 19 ≤ now.timestampText.length := now.length_timestampText.left
  have hz : 0 ∉ now.timestampText := fun h => by
    rcases ClockReading.mem_timestampText h with h | h | h
    all_goals exact absurd h (by decide)
  simp only [fillCurrentTimestamp, snprintf]
  split
  case isTrue h =>
    exact ⟨rfl, fun hn => absurd (List.length_eq_zero_iff.mp h) hn⟩
  case isFalse h =>
    split
    case isTrue =>
      exact ⟨List.length_set, fun _ => by rw [cText_set_zero, if_neg (by omega)]⟩
    case isFalse =>
      by_cases hle : now.timestampText.length ≥ out.length
      · simp only [hle, if_true]
        exact ⟨by simp; omega, fun _ => by rw [cText_set_zero, if_neg (by omega)]⟩
      · simp only [hle, if_false]
        rw [List.take_of_length_le (by omega)]
        exact ⟨by simp; omega, fun _ => by rw [cText_append_zero hz, if_pos (by omega)]⟩

theorem ClockReading.CommonEra.filled {now : ClockReading} {out : Bytes} (h : now.CommonEra)
    (hl : 20 ≤ out.length) : cText (fillCurrentTimestamp now out) = record format now.fields := by
  have := now.length_timestampText.right.mpr h.regular
  have hne : out ≠ [] := fun h => by simp [h] at hl
  rw [(fillCurrentTimestamp_spec now out).right hne, if_pos (by omega), h.timestampText_eq]

-- The texts are in the order of the times, whatever the arrays that they are written to had in them.
theorem fillCurrentTimestamp_chronological {now₁ now₂ : ClockReading} {out₁ out₂ : Bytes}
    (h₁ : now₁.CommonEra) (h₂ : now₂.CommonEra) (hl₁ : 20 ≤ out₁.length) (hl₂ : 20 ≤ out₂.length) :
    let text₁ := cText (fillCurrentTimestamp now₁ out₁)
    let text₂ := cText (fillCurrentTimestamp now₂ out₂)
    (text₁ < text₂ ↔ now₁.fields < now₂.fields) ∧ (text₁ = text₂ ↔ now₁.fields = now₂.fields) := by
  simp only [h₁.filled hl₁, h₂.filled hl₂]
  exact ⟨record_lt_iff h₁.fits h₂.fits, record_injective h₁.fits h₂.fits, congrArg _⟩

theorem fillCurrentTimestamp_chronological_newYear :
    cText (fillCurrentTimestamp
      ⟨⟨124, 11, 31, 23, 59, 59, by decide, by decide, by decide, by decide, by decide⟩, 1735689599000⟩
      (List.replicate 20 0)) <
    cText (fillCurrentTimestamp
      ⟨⟨125, 0, 1, 0, 0, 0, by decide, by decide, by decide, by decide, by decide⟩, 1735689600001⟩
      (List.replicate 20 0)) :=
  (fillCurrentTimestamp_chronological ⟨by decide, by decide, by decide⟩ ⟨by decide, by decide, by decide⟩
    (by decide) (by decide)).left.mpr (by decide)
