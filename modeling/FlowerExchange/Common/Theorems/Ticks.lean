import FlowerExchange.Common.Theorems.Formatting

open RuntimeConfig

def nearestTick : Double → PriceTick
  | .finite price =>
    if price ≤ 0 then 0
    else if price / tickSize ≥ 2 ^ 64 then maxTick
    else (roundHalfAway (100 * price)).toNat
  | _ => maxTick

-- The prices for which there is no result of `llround`, although they are not saturated.
def InGap (price : ℚ) : Prop :=
  2 ^ 63 - 1 / 2 ≤ 100 * price ∧ 100 * price < 2 ^ 64

structure TicksRight (unspecified : ℚ → Int64) (prices : Set Double) : Prop where
  ticks     : ∀ p ∈ prices, doubleToTicks unspecified p = nearestTick p
  fits      : ∀ q, .finite q ∈ prices → 0 < q → q / tickSize < 2 ^ 64 →
    -2 ^ 63 ≤ roundHalfAway (q / tickSize) ∧ roundHalfAway (q / tickSize) < 2 ^ 63
  monotone  : ∀ p q, .finite p ∈ prices → .finite q ∈ prices → p ≤ q →
    doubleToTicks unspecified (.finite p) ≤ doubleToTicks unspecified (.finite q)
  roundTrip : ∀ tick : PriceTick, tick < 2 ^ 64 → .finite (ticksToDouble tick) ∈ prices →
    doubleToTicks unspecified (.finite (ticksToDouble tick)) = tick

variable {unspecified : ℚ → Int64} {p q : ℚ}

theorem price_cases (q : ℚ) : q ≤ 0 ∨ (0 < q ∧ q * 100 < 2 ^ 63 - 1 / 2) ∨ InGap q ∨
    (0 < q ∧ 2 ^ 64 ≤ q * 100) := by
  rcases le_or_gt q 0 with h₀ | h₀
  case inl => exact .inl h₀
  case inr =>
    rcases lt_or_ge (q * 100) (2 ^ 63 - 1 / 2) with h₁ | h₁
    case inl => exact .inr <| .inl ⟨h₀, h₁⟩
    case inr =>
      rcases lt_or_ge (q * 100) (2 ^ 64) with h₂ | h₂
      case inl => exact .inr <| .inr <| .inl ⟨by linarith, by linarith⟩
      case inr => exact .inr <| .inr <| .inr ⟨h₀, h₂⟩

theorem InGap.pos (h : InGap q) : 0 < q := by
  have := h.left
  norm_num at this
  linarith

theorem doubleToTicks_nonpos (h : q ≤ 0) : doubleToTicks unspecified (.finite q) = 0 :=
  if_pos h

theorem doubleToTicks_saturated (h : 0 < q) (hs : 2 ^ 64 ≤ q * 100) :
    doubleToTicks unspecified (.finite q) = maxTick := by
  rw [doubleToTicks, if_neg (not_le.mpr h)]
  simp only [scaled_eq, ge_iff_le, if_pos hs]

theorem nearestTick_of_fits (h : 0 < q) (hr : q * 100 < 2 ^ 63 - 1 / 2) :
    nearestTick (.finite q) = (roundHalfAway (q * 100)).toNat := by
  have hlt : ¬q * 100 ≥ 2 ^ 64 := not_le.mpr <| hr.trans (by norm_num)
  rw [nearestTick, if_neg (not_le.mpr h), scaled_eq, if_neg hlt, mul_comm]

theorem doubleToTicks_eq_nearestTick (h : ¬InGap q) :
    doubleToTicks unspecified (.finite q) = nearestTick (.finite q) := by
  rcases price_cases q with h₀ | ⟨h₀, hr⟩ | hg | ⟨h₀, hs⟩
  · rw [doubleToTicks_nonpos h₀, nearestTick, if_pos h₀]
  · rw [doubleToTicks_of_fits h₀ hr, nearestTick_of_fits h₀ hr]
  · exact absurd hg h
  · rw [doubleToTicks_saturated h₀ hs, nearestTick, if_neg (not_le.mpr h₀), scaled_eq, if_pos hs]

theorem doubleToTicks_le_maxTick (price : Double) : doubleToTicks unspecified price ≤ maxTick := by
  rw [doubleToTicks.eq_def]
  split
  case h_1 q =>
    split
    case isTrue => exact Nat.zero_le _
    case isFalse =>
      dsimp only
      split
      case isTrue  => exact le_rfl
      case isFalse => exact Nat.le_pred_of_lt <| UInt64.toNat_lt _
  case h_2 => exact le_rfl

theorem doubleToTicks_mono (hp : ¬InGap p) (hq : ¬InGap q) (hle : p ≤ q) :
    doubleToTicks unspecified (.finite p) ≤ doubleToTicks unspecified (.finite q) := by
  rcases price_cases p with h₀ | ⟨h₀, hr⟩ | hg | ⟨h₀, hs⟩
  · rw [doubleToTicks_nonpos h₀]
    exact Nat.zero_le _
  · rcases price_cases q with h₀' | ⟨h₀', hr'⟩ | hg | ⟨h₀', hs'⟩
    · linarith
    · rw [doubleToTicks_of_fits h₀ hr, doubleToTicks_of_fits h₀' hr']
      exact Int.toNat_le_toNat <| roundHalfAway_mono (by linarith) (by linarith)
    · exact absurd hg hq
    · rw [doubleToTicks_saturated h₀' hs']
      exact doubleToTicks_le_maxTick _
  · exact absurd hg hp
  · rw [doubleToTicks_saturated h₀ hs, doubleToTicks_saturated (h₀.trans_le hle) (by linarith)]

theorem doubleToTicks_ticksToDouble {tick : Nat} (h : tick < 2 ^ 63) :
    doubleToTicks unspecified (.finite (ticksToDouble tick)) = tick := by
  have hs : ticksToDouble tick * 100 = (tick : Int) := by
    rw [ticksToDouble, tickSize]
    push_cast
    ring
  rcases Nat.eq_zero_or_pos tick with rfl | hpos
  · exact doubleToTicks_nonpos (by simp [ticksToDouble])
  · have hp : (0 : ℚ) < tick := by exact_mod_cast hpos
    have hlt : (tick : ℚ) ≤ 2 ^ 63 - 1 := by
      have : tick + 1 ≤ 2 ^ 63 := h
      have : (tick : ℚ) + 1 ≤ 2 ^ 63 := by exact_mod_cast this
      linarith
    push_cast at hs
    rw [doubleToTicks_of_fits (by linarith) (by linarith), hs]
    exact congrArg Int.toNat <| roundHalfAway_intCast (n := tick) (by omega)

theorem InGap.not_fits (h : InGap q) : ¬roundHalfAway (q * 100) < 2 ^ 63 := by
  rw [roundHalfAway_lt_iff (by linarith [h.pos])]
  push_cast
  linarith [h.left]

theorem InGap.doubleToTicks_unspecified (h : InGap q) (unspecified : ℚ → Int64) :
    doubleToTicks unspecified (.finite q) = (unspecified (q * 100)).toUInt64.toNat := by
  have hlt : ¬q * 100 ≥ 2 ^ 64 := not_le.mpr <| by linarith [h.right]
  have hfits : ¬(-2 ^ 63 ≤ roundHalfAway (q * 100) ∧ roundHalfAway (q * 100) < 2 ^ 63) :=
    fun hr => h.not_fits hr.right
  rw [doubleToTicks, if_neg (not_le.mpr h.pos)]
  simp only [scaled_eq, if_neg hlt, llround, if_neg hfits]

theorem InGap.nearestTick_pos (h : InGap q) : 0 < nearestTick (.finite q) := by
  have hlt : ¬q * 100 ≥ 2 ^ 64 := not_le.mpr <| by linarith [h.right]
  have : 0 < (roundHalfAway (q * 100)).toNat := by
    have := h.not_fits
    omega
  rwa [nearestTick, if_neg (not_le.mpr h.pos), scaled_eq, if_neg hlt, mul_comm]

theorem TicksRight.not_inGap {prices : Set Double} (h : TicksRight unspecified prices)
    (hq : .finite q ∈ prices) : ¬InGap q := by
  intro hg
  have hlt := h.fits q hq hg.pos (by rw [scaled_eq]; linarith [hg.right]) |>.right
  rw [scaled_eq] at hlt
  exact hg.not_fits hlt

theorem ticksRight_iff {prices : Set Double} :
    TicksRight unspecified prices ↔ ∀ q, .finite q ∈ prices → ¬InGap q := by
  constructor
  case mp => exact fun h q hq => h.not_inGap hq
  case mpr =>
    refine fun h => ⟨fun p hp => ?_, fun q hq hpos hlt => ?_, fun p q hp hq => ?_, fun t ht hm => ?_⟩
    · cases p
      case finite q => exact doubleToTicks_eq_nearestTick <| h q hp
      all_goals rfl
    · have h₀ : 0 ≤ q / tickSize := by rw [scaled_eq]; linarith
      refine ⟨(by norm_num : (-2 ^ 63 : Int) ≤ 0).trans <| roundHalfAway_nonneg h₀, ?_⟩
      refine roundHalfAway_lt_iff h₀ |>.mpr ?_
      by_contra hc
      rw [scaled_eq] at hc hlt
      push_cast at hc
      exact h q hq ⟨by linarith, by linarith⟩
    · exact doubleToTicks_mono (h p hp) (h q hq)
    · refine doubleToTicks_ticksToDouble <| by_contra fun hge => h _ hm ?_
      have h₁ : (2 ^ 63 : ℚ) ≤ t := by exact_mod_cast Nat.le_of_not_lt hge
      have h₂ : (t : ℚ) < 2 ^ 64 := by exact_mod_cast ht
      rw [InGap, ticksToDouble, tickSize]
      constructor <;> linarith

-- The conversion is right exactly for those prices that are not in the gap. For these alone the tick does
-- not depend on what `llround` answers when its result does not fit.
theorem doubleToTicks_right_iff (unspecified : ℚ → Int64) (prices : Set Double) :
    (TicksRight unspecified prices ↔ ∀ q, .finite q ∈ prices → ¬InGap q) ∧
    ((∀ unspecified', ∀ p ∈ prices, doubleToTicks unspecified' p = nearestTick p) ↔
      ∀ q, .finite q ∈ prices → ¬InGap q) := by
  refine ⟨ticksRight_iff, fun h q hq hg => ?_, fun h unspecified' => (ticksRight_iff.mpr h).ticks⟩
  have hzero : doubleToTicks (fun _ => 0) (.finite q) = 0 := hg.doubleToTicks_unspecified fun _ => 0
  have hpos := hg.nearestTick_pos
  rw [← h _ _ hq, hzero] at hpos
  exact absurd hpos (Nat.lt_irrefl 0)

-- The price 1e17 is in the gap. Where `llround` answers as on x86-64, its tick is 2 ^ 63.
theorem doubleToTicks_wrong :
    (∀ unspecified, ¬TicksRight unspecified {.finite (10 ^ 17)}) ∧
    (doubleToTicks (fun _ => Int64.minValue) (.finite (10 ^ 17)) = 2 ^ 63) ∧
    nearestTick (.finite (10 ^ 17)) = 10 ^ 19 := by
  have hg : InGap (10 ^ 17) := by
    constructor <;> norm_num
  have hround : roundHalfAway (10 ^ 17 * 100) = 10 ^ 19 := by
    have : (10 ^ 17 * 100 : ℚ) = ((10 ^ 19 : Int) : ℚ) := by norm_num
    rw [this]
    exact roundHalfAway_intCast (by norm_num)
  refine ⟨fun unspecified h => h.not_inGap rfl hg, ?_, ?_⟩
  · rw [hg.doubleToTicks_unspecified]
    rfl
  · rw [nearestTick, if_neg (by norm_num), scaled_eq, if_neg (by norm_num), mul_comm, hround]
    rfl
