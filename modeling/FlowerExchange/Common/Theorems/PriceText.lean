import FlowerExchange.Common.Theorems.Parsing
import FlowerExchange.Common.Theorems.TextBuffer
import FlowerExchange.Common.Theorems.Ticks

open Decimal
open TextBuffer hiding formatTicksToBuffer formatCentsToBuffer formatPriceToBuffer

theorem digits_fraction (h : f < 100) :
    let ds : Bytes := [.ofNat (48 + f / 10), .ofNat (48 + f % 10)]
    Digits ds ∧ value ds = f := by
  have digit : ∀ d < 10, isDigit (.ofNat (48 + d)) ∧ digitValue (.ofNat (48 + d)) = d := by decide
  obtain ⟨h₁, v₁⟩ := digit (f / 10) (by omega)
  obtain ⟨h₂, v₂⟩ := digit (f % 10) (by omega)
  refine ⟨fun c hc => ?_, ?_⟩
  · simp only [List.mem_cons, List.not_mem_nil, or_false] at hc
    rcases hc with rfl | rfl
    · exact h₁
    · exact h₂
  · simp only [value, accumulate, v₁, v₂]
    omega

theorem stringViewToDouble_centsText (cents : Int) :
    stringViewToDouble (centsText cents) = .ok (.finite (cents / 100)) := by
  obtain ⟨hd, hv⟩ := digits_fraction (f := cents.natAbs % 100) (by omega)
  have hm := Mantissa.point (isDigit_decimal (n := cents.natAbs / 100)) hd (by simp)
  rw [value_append, value_decimal, hv] at hm
  have hb : Blanks [] := List.forall_mem_nil _
  have habs : (cents.natAbs / 100 * 10 ^ 2 + cents.natAbs % 100 : Nat) = cents.natAbs := by omega
  have hsign : ∃ s n, Sign s n ∧ (s = if cents < 0 then [45] else []) ∧ n * cents.natAbs = cents := by
    by_cases hc : cents < 0
    case pos => exact ⟨[45], -1, .minus, by rw [if_pos hc], by omega⟩
    case neg => exact ⟨[], 1, .none, by rw [if_neg hc], by omega⟩
  obtain ⟨s, n, hs, hse, hn⟩ := hsign
  have h := stringViewToDouble_of_scientific <| .mk hb hs hm .none hb
  have ht : [] ++ (s ++ (decimal (cents.natAbs / 100) ++ fractionText (cents.natAbs % 100) ++ ([] ++ []))) =
      centsText cents := by
    simp [centsText, hse]
  have hq : (n : ℚ) * ((cents.natAbs : Nat) / 10 ^ 2) = cents / 100 := by
    have : (n : ℚ) * (cents.natAbs : Nat) = cents := by
      rw [← Int.cast_natCast, ← Int.cast_mul, hn]
    rw [← this]
    ring
  rw [← ht]
  refine h.trans ?_
  simp only [List.length_cons, List.length_nil, Nat.zero_add, Nat.reduceAdd, habs, hq, clamp_zero, zpow_zero,
    mul_one]

theorem centsText_injective : Function.Injective centsText := by
  intro c d h
  have h := congrArg stringViewToDouble h
  rw [stringViewToDouble_centsText, stringViewToDouble_centsText] at h
  have h := Double.finite.inj <| Except.ok.inj h
  have : (c : ℚ) = d := by linarith
  exact_mod_cast this

-- Ticks are written as decimal numbers with two digits behind the point, if these have room, and are read
-- back from them.
theorem tickText_roundTrip (unspecified : ℚ → Int64) :
    (∀ tick : PriceTick, tickText tick = decimal (tick / 100) ++ fractionText (tick % 100)) ∧
    (∀ (tick : PriceTick) (buffer : Bytes), 5 ≤ buffer.length →
      ∃ r, (TextBuffer.formatTicksToBuffer tick buffer = .ok r) ∧
        Written buffer.length (if (tickText tick).length + 1 ≤ buffer.length then tickText tick else []) r) ∧
    Function.Injective tickText ∧
    (∀ tick : PriceTick, tick < 2 ^ 63 → ∃ price, (stringViewToDouble (tickText tick) = .ok price) ∧
      doubleToTicks unspecified price = tick) := by
  refine ⟨tickText_eq, fun tick buffer h => formatTicksToBuffer_spec tick h,
    fun t u h => Int.ofNat.inj (centsText_injective h), fun tick h => ?_⟩
  refine ⟨_, stringViewToDouble_centsText tick, ?_⟩
  have hq : ((tick : Int) / 100 : ℚ) = ticksToDouble tick := by
    rw [ticksToDouble, RuntimeConfig.tickSize]
    push_cast
    ring
  rw [hq]
  exact doubleToTicks_ticksToDouble h

-- No text, or that of the rounded price, whose amount fits into the integers.
def Faithful (price : Double) (text : Bytes) : Prop :=
  text = [] ∨ ∃ q, price = .finite q ∧ -2 ^ 63 ≤ roundHalfAway (100 * q) ∧
    roundHalfAway (100 * q) < 2 ^ 64 ∧ text = centsText (roundHalfAway (100 * q))

def Printable (price : Double) (n : Nat) : Prop :=
  match price with
  | .posInf   => n < 22
  | .finite q => 100 * q < 2 ^ 63 - 1 / 2 ∨ n < 5 ∨ (2 ^ 64 ≤ 100 * q ∧ n < 22)
  | _         => True

variable {unspecified : ℚ → Int64} {price : Double} {q : ℚ} {n : Nat}

theorem fitted_cases (n : Nat) (text : Bytes) : fitted n text = [] ∨ fitted n text = text := by
  rw [fitted]
  split
  · exact .inr rfl
  · exact .inl rfl

theorem length_maxTickText : (tickText maxTick).length = 21 := by
  decide +kernel

theorem fitted_maxTick_nil (h : n < 22) : fitted n (tickText maxTick) = [] :=
  fitted_of_lt <| by rw [length_maxTickText]; exact h

theorem fitted_maxTick (h : ¬n < 22) : fitted n (tickText maxTick) = tickText maxTick :=
  if_pos <| by rw [length_maxTickText]; omega

theorem faithful_cents (h : -2 ^ 63 ≤ roundHalfAway (q * 100)) (hr : roundHalfAway (q * 100) < 2 ^ 63) :
    Faithful (.finite q) (if q * 100 > 2 ^ 63 ∨ q * 100 < -2 ^ 63 then []
      else fitted n (centsText (llround unspecified (q * 100)).toInt)) := by
  split
  case isTrue  => exact .inl rfl
  case isFalse =>
    rw [llround_toInt h hr]
    rcases fitted_cases n (centsText (roundHalfAway (q * 100))) with he | he
    · exact .inl he
    · rw [mul_comm] at h hr he ⊢
      exact .inr ⟨q, rfl, h, hr.trans (by norm_num), he⟩

theorem faithful_of_fits (h : 100 * q < 2 ^ 63 - 1 / 2) :
    Faithful (.finite q) (formatPriceToBuffer unspecified (.finite q) n) := by
  rw [formatPriceToBuffer_finite]
  rw [mul_comm] at h
  by_cases h₀ : 0 ≤ q
  case pos =>
    have hs : 0 ≤ q * 100 := by linarith
    have hr₀ := roundHalfAway_nonneg hs
    have hr : roundHalfAway (q * 100) < 2 ^ 63 := roundHalfAway_lt_iff hs |>.mpr (by push_cast; exact h)
    have ht : tickText (doubleToTicks unspecified (.finite q)) = centsText (roundHalfAway (q * 100)) := by
      rcases h₀.eq_or_lt with rfl | hpos
      · rw [doubleToTicks_nonpos le_rfl, zero_mul]
        exact congrArg centsText (roundHalfAway_intCast (n := 0) le_rfl).symm
      · rw [doubleToTicks_of_fits hpos h, tickText, Int.toNat_of_nonneg hr₀]
    rw [ht]
    split
    case isTrue hc =>
      have he := fitted_cases n (centsText (roundHalfAway (q * 100))) |>.resolve_left hc.right
      rw [he, mul_comm]
      rw [mul_comm] at hr₀ hr
      exact .inr ⟨q, rfl, by omega, by omega, rfl⟩
    case isFalse => exact faithful_cents (by omega) hr
  case neg =>
    have hq : q < 0 := not_le.mp h₀
    rw [if_neg fun hc => h₀ hc.left]
    by_cases hlow : q * 100 < -2 ^ 63
    case pos =>
      rw [if_pos (.inr hlow)]
      exact .inl rfl
    case neg =>
      obtain ⟨h₁, h₂⟩ := roundHalfAway_neg (q := q * 100) (n := 2 ^ 63) (by linarith)
        (by push_cast; exact not_lt.mp hlow)
      push_cast at h₁
      exact faithful_cents h₁ (by omega)

theorem formatPriceToBuffer_saturated (h : 2 ^ 64 ≤ 100 * q) :
    formatPriceToBuffer unspecified (.finite q) n = fitted n (tickText maxTick) := by
  have hs : 2 ^ 64 ≤ q * 100 := by rwa [mul_comm] at h
  have hpos : 0 < q := by
    norm_num at h
    linarith
  have hbig : q * 100 > 2 ^ 63 := lt_of_lt_of_le (by norm_num) hs
  rw [formatPriceToBuffer_finite, doubleToTicks_saturated hpos hs]
  by_cases hne : fitted n (tickText maxTick) ≠ []
  case pos => rw [if_pos ⟨hpos.le, hne⟩]
  case neg => rw [if_neg fun hc => hne hc.right, if_pos (.inl hbig), not_not.mp hne]

theorem formatPriceToBuffer_short (h : n < 5) : formatPriceToBuffer unspecified price n = [] := by
  cases price
  case posInf   => rw [formatPriceToBuffer_posInf, tickText, fitted_centsText_nil h]
  case finite q =>
    rw [formatPriceToBuffer_finite, tickText, fitted_centsText_nil h, fitted_centsText_nil h,
      if_neg fun hc => hc.right rfl, ite_self]
  all_goals simp [formatPriceToBuffer, Double.isFinite]

theorem faithful_of_printable (h : Printable price n) :
    Faithful price (formatPriceToBuffer unspecified price n) := by
  cases price
  case posInf =>
    rw [formatPriceToBuffer_posInf, fitted_maxTick_nil h]
    exact .inl rfl
  case finite q =>
    rcases h with h | h | ⟨h, hn⟩
    · exact faithful_of_fits h
    · exact .inl <| formatPriceToBuffer_short h
    · rw [formatPriceToBuffer_saturated h, fitted_maxTick_nil hn]
      exact .inl rfl
  all_goals exact .inl <| by simp [formatPriceToBuffer, Double.isFinite]

theorem tickText_ne_nil (tick : PriceTick) : tickText tick ≠ [] := by
  have := length_centsText_ge tick
  exact List.ne_nil_of_length_pos (by rw [tickText]; omega)

theorem not_faithful (h : ¬Printable price n) :
    ∃ unspecified, ¬Faithful price (formatPriceToBuffer unspecified price n) := by
  cases price
  case posInf =>
    refine ⟨fun _ => 0, ?_⟩
    rw [formatPriceToBuffer_posInf, fitted_maxTick h]
    rintro (he | ⟨_, hp, _⟩)
    · exact tickText_ne_nil _ he
    · contradiction
  case finite q =>
    obtain ⟨hbig, h⟩ := not_or.mp h
    obtain ⟨hn, h⟩ := not_or.mp h
    have hround : 2 ^ 63 ≤ roundHalfAway (100 * q) := by
      by_contra hc
      refine hbig ?_
      have := roundHalfAway_lt_iff (q := 100 * q) (n := 2 ^ 63) (by norm_num at hbig; linarith) |>.mp
        (by omega)
      exact_mod_cast this
    rcases lt_or_ge (100 * q) (2 ^ 64) with hlt | hge
    case inl =>
      have hg : InGap q := ⟨not_lt.mp hbig, hlt⟩
      have hs : ¬q * 100 ≥ 2 ^ 64 := by rw [mul_comm, not_le]; exact hlt
      have hl : llround (fun _ => 0) (q * 100) = 0 := by
        rw [llround, mul_comm, if_neg (by omega)]
      have ht : doubleToTicks (fun _ => 0) (.finite q) = 0 := by
        rw [doubleToTicks, if_neg (not_le.mpr hg.pos)]
        simp only [scaled_eq, if_neg hs, hl]
        rfl
      have hf : fitted n (tickText 0) = tickText 0 := if_pos <| by
        have : (tickText 0).length = 4 := by decide +kernel
        omega
      refine ⟨fun _ => 0, ?_⟩
      rw [formatPriceToBuffer_finite, ht, hf, if_pos ⟨hg.pos.le, tickText_ne_nil 0⟩]
      rintro (he | ⟨_, hp, _, _, he⟩)
      · exact tickText_ne_nil 0 he
      · cases hp
        have := centsText_injective he
        omega
    case inr =>
      refine ⟨fun _ => 0, ?_⟩
      rw [formatPriceToBuffer_saturated hge, fitted_maxTick fun hn => h ⟨hge, hn⟩]
      rintro (he | ⟨_, hp, _, hlt, _⟩)
      · exact tickText_ne_nil _ he
      · cases hp
        have := roundHalfAway_lt_iff (q := 100 * q) (n := 2 ^ 64) (by linarith) |>.mp hlt
        push_cast at this
        linarith
  all_goals exact absurd trivial h

theorem TextBuffer.Written.unique {r : Bytes × Nat} (h : Written n text r) (h' : Written n text' r) :
    text = text' := by
  have hlen : text.length = text'.length := h.len.symm.trans h'.len
  obtain ⟨post, hp⟩ := h.holds
  obtain ⟨post', hp'⟩ := h'.holds
  rw [← hp', List.append_assoc, List.append_assoc] at hp
  exact (List.append_inj hp hlen).left

theorem written_faithful_iff (unspecified : ℚ → Int64) (price : Double) (buffer : Bytes)
    (h : 0 < buffer.length) :
    (∃ r text, (TextBuffer.formatPriceToBuffer unspecified price buffer = .ok r) ∧
      Written buffer.length text r ∧ Faithful price text) ↔
    Faithful price (formatPriceToBuffer unspecified price buffer.length) := by
  obtain ⟨r, hr, hw⟩ := textBuffer_formatPrice unspecified price buffer h
  constructor
  case mp =>
    rintro ⟨r', text, hr', hw', hf⟩
    obtain rfl := Except.ok.inj <| hr'.symm.trans hr
    exact hw'.unique hw ▸ hf
  case mpr => exact fun hf => ⟨r, _, hr, hw, hf⟩

-- Whatever `llround` answers where it has no result, what is written of a price is faithful and lies in
-- the buffer: this is so exactly for the printable ones.
theorem formatPrice_faithful_iff (price : Double) (buffer : Bytes) (h : 0 < buffer.length) :
    (∀ unspecified, ∃ r text, (TextBuffer.formatPriceToBuffer unspecified price buffer = .ok r) ∧
      Written buffer.length text r ∧ Faithful price text) ↔ Printable price buffer.length := by
  simp only [written_faithful_iff _ price buffer h]
  constructor
  case mp =>
    intro hall
    by_contra hp
    obtain ⟨unspecified, hn⟩ := not_faithful hp
    exact hn (hall unspecified)
  case mpr => exact fun hp unspecified => faithful_of_printable hp

theorem formatPrice_faithful_rounded :
    Printable (.finite (-5 / 1000)) 6 ∧
    (∀ unspecified, ∃ r text,
      (TextBuffer.formatPriceToBuffer unspecified (.finite (-5 / 1000)) (.replicate 6 0) = .ok r) ∧
      Written 6 text r ∧ Faithful (.finite (-5 / 1000)) text) := by
  have hp : Printable (.finite (-5 / 1000)) 6 := .inl (by norm_num)
  exact ⟨hp, formatPrice_faithful_iff (.finite (-5 / 1000)) (.replicate 6 0) (by decide) |>.mpr hp⟩

-- In a buffer of 24 bytes, as the source has it, infinity becomes the price of the largest tick.
theorem formatPrice_infinite :
    (¬∀ unspecified, ∃ r text,
      (TextBuffer.formatPriceToBuffer unspecified .posInf (.replicate 24 0) = .ok r) ∧
      Written 24 text r ∧ Faithful .posInf text) ∧
    (formatPriceToBuffer (fun _ => 0) .posInf 24 = ascii "184467440737095516.15") := by
  have ht : formatPriceToBuffer (fun _ => 0) .posInf 24 = ascii "184467440737095516.15" := by
    decide +kernel
  refine ⟨fun hall => ?_, ht⟩
  have hf := written_faithful_iff (fun _ => 0) .posInf (.replicate 24 0) (by decide) |>.mp (hall _)
  have hf : Faithful .posInf (ascii "184467440737095516.15") := ht ▸ hf
  rcases hf with he | ⟨_, hp, _⟩
  · exact absurd he (by decide)
  · contradiction
