import FlowerExchange.Common.Formatting

variable {q : ℚ} {unspecified : ℚ → Int64}

theorem roundHalfAway_of_nonneg (h : 0 ≤ q) : roundHalfAway q = ⌊q + 1 / 2⌋ :=
  if_pos h

theorem roundHalfAway_nonneg (h : 0 ≤ q) : 0 ≤ roundHalfAway q := by
  rw [roundHalfAway_of_nonneg h]
  exact Int.floor_nonneg.mpr (by linarith)

theorem roundHalfAway_le {n : Int} (h : 0 ≤ q) (hn : q ≤ n) : roundHalfAway q ≤ n := by
  rw [roundHalfAway_of_nonneg h]
  refine Int.lt_add_one_iff.mp <| Int.floor_lt.mpr ?_
  push_cast
  linarith

theorem roundHalfAway_intCast {n : Int} (h : 0 ≤ n) : roundHalfAway n = n := by
  rw [roundHalfAway_of_nonneg (by exact_mod_cast h)]
  refine Int.floor_eq_iff.mpr ⟨?_, ?_⟩ <;> linarith

theorem roundHalfAway_le_iff (h : 0 ≤ q) : (roundHalfAway q : ℚ) ≤ q ↔ Int.fract q < 1 / 2 := by
  rw [roundHalfAway_of_nonneg h, Int.fract]
  refine ⟨fun hr => ?_, fun hf => ?_⟩
  · have := Int.lt_floor_add_one (q + 1 / 2)
    have : ⌊q + 1 / 2⌋ ≤ ⌊q⌋ := Int.le_floor.mpr hr
    have : ((⌊q + 1 / 2⌋ : Int) : ℚ) ≤ ⌊q⌋ := by exact_mod_cast this
    linarith
  · have : ⌊q + 1 / 2⌋ < ⌊q⌋ + 1 := by
      refine Int.floor_lt.mpr ?_
      push_cast
      linarith
    have : ((⌊q + 1 / 2⌋ : Int) : ℚ) ≤ ⌊q⌋ := by exact_mod_cast Int.lt_add_one_iff.mp this
    linarith [Int.floor_le q]

theorem le_roundHalfAway_iff (h : 0 ≤ q) :
    q ≤ roundHalfAway q ↔ Int.fract q = 0 ∨ 1 / 2 ≤ Int.fract q := by
  rw [roundHalfAway_of_nonneg h]
  refine ⟨fun hr => ?_, ?_⟩
  · by_contra hf
    have ⟨hz, hlt⟩ := not_or.mp hf
    have hle := roundHalfAway_le_iff h |>.mpr (not_le.mp hlt)
    rw [roundHalfAway_of_nonneg h] at hle
    exact hz <| Int.fract_eq_zero_iff.mpr ⟨_, le_antisymm hle hr⟩
  · rintro (hz | hf)
    · have ⟨n, hn⟩ := Int.fract_eq_zero_iff.mp hz
      have : ⌊q⌋ ≤ ⌊q + 1 / 2⌋ := Int.floor_mono (by linarith)
      have : ((⌊q⌋ : Int) : ℚ) ≤ ⌊q + 1 / 2⌋ := by exact_mod_cast this
      rwa [← hn, Int.floor_intCast, hn] at this
    · have : ⌊q⌋ + 1 ≤ ⌊q + 1 / 2⌋ := by
        refine Int.le_floor.mpr ?_
        push_cast
        linarith [Int.self_sub_floor q]
      have : ((⌊q⌋ + 1 : Int) : ℚ) ≤ ⌊q + 1 / 2⌋ := by exact_mod_cast this
      push_cast at this
      linarith [Int.lt_floor_add_one q]

theorem roundHalfAway_lt_iff {n : Int} (h : 0 ≤ q) : roundHalfAway q < n ↔ q < n - 1 / 2 := by
  rw [roundHalfAway_of_nonneg h, Int.floor_lt]
  constructor <;> intro <;> linarith

theorem roundHalfAway_mono {p : ℚ} (h : 0 ≤ p) (hq : p ≤ q) : roundHalfAway p ≤ roundHalfAway q := by
  rw [roundHalfAway_of_nonneg h, roundHalfAway_of_nonneg (h.trans hq)]
  exact Int.floor_mono (by linarith)

theorem llround_of_fits (h : 0 ≤ q) (hr : roundHalfAway q < 2 ^ 63) :
    (llround unspecified q).toUInt64.toNat = (roundHalfAway q).toNat := by
  have h₀ := roundHalfAway_nonneg h
  obtain ⟨n, hn⟩ := Int.eq_ofNat_of_zero_le h₀
  have hlt : n < 2 ^ 64 := by omega
  rw [llround, if_pos ⟨by omega, hr⟩, hn, Int64.ofInt_eq_ofNat, Int64.toUInt64_ofNat']
  simpa using hlt

theorem llround_toInt (h : -2 ^ 63 ≤ roundHalfAway q) (hr : roundHalfAway q < 2 ^ 63) :
    (llround unspecified q).toInt = roundHalfAway q := by
  rw [llround, if_pos ⟨h, hr⟩]
  exact Int64.toInt_ofInt_of_le h hr

theorem roundHalfAway_neg {n : Nat} (h : q < 0) (hn : -n ≤ q) :
    -n ≤ roundHalfAway q ∧ roundHalfAway q ≤ 0 := by
  rw [roundHalfAway, if_neg (not_le.mpr h)]
  have h₀ : 0 ≤ ⌊-q + 1 / 2⌋ := Int.floor_nonneg.mpr (by linarith)
  have h₁ : ⌊-q + 1 / 2⌋ ≤ n := by
    refine Int.lt_add_one_iff.mp <| Int.floor_lt.mpr ?_
    push_cast
    linarith
  omega

theorem scaled_eq (q : ℚ) : q / RuntimeConfig.tickSize = q * 100 := by
  rw [RuntimeConfig.tickSize]
  ring

theorem doubleToTicks_of_fits (h : 0 < q) (hr : q * 100 < 2 ^ 63 - 1 / 2) :
    doubleToTicks unspecified (.finite q) = (roundHalfAway (q * 100)).toNat := by
  have h₀ : 0 ≤ q * 100 := by linarith
  have hlt : ¬q * 100 ≥ 2 ^ 64 := by
    rw [not_le]
    exact hr.trans (by norm_num)
  rw [doubleToTicks, if_neg (not_le.mpr h)]
  simp only [scaled_eq, if_neg hlt]
  refine llround_of_fits h₀ <| roundHalfAway_lt_iff h₀ |>.mpr ?_
  push_cast
  exact hr

theorem doubleToTicks_finite (h : 0 < q) (hq : q ≤ 1000) :
    doubleToTicks unspecified (.finite q) = (roundHalfAway (q * 100)).toNat := by
  refine doubleToTicks_of_fits h ?_
  norm_num
  linarith
