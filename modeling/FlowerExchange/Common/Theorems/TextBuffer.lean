import FlowerExchange.Common.TextBuffer

open Decimal

def centsText (cents : Int) : Bytes :=
  (if cents < 0 then [45] else []) ++ decimal (cents.natAbs / 100) ++ fractionText (cents.natAbs % 100)

def tickText (tick : PriceTick) : Bytes :=
  centsText tick

def fitted (n : Nat) (text : Bytes) : Bytes :=
  if text.length + 1 ≤ n then text else []

theorem length_fractionText (n : Nat) : (fractionText n).length = 3 :=
  rfl

theorem decimal_ne_nil (n : Nat) : decimal n ≠ [] := by
  intro h
  have := List.map_eq_nil_iff.mp h
  exact Nat.toDigits_ne_nil this

theorem length_decimal_pos (n : Nat) : 0 < (decimal n).length :=
  List.length_pos_iff.mpr <| decimal_ne_nil n

theorem tickText_eq (tick : PriceTick) :
    tickText tick = decimal (tick / 100) ++ fractionText (tick % 100) := by
  simp [tickText, centsText]

theorem length_tickText (tick : PriceTick) :
    (tickText tick).length = (decimal (tick / 100)).length + 3 := by
  rw [tickText_eq, List.length_append, length_fractionText]

def AmountText (text : Bytes) : Prop :=
  ∀ c ∈ text, isDigit c ∨ c = 45 ∨ c = 46

namespace AmountText

theorem not_mem (h : AmountText text) (hc : ¬isDigit c ∧ c ≠ 45 ∧ c ≠ 46) : c ∉ text := by
  intro hm
  rcases h c hm with h | h | h
  · exact hc.left h
  · exact hc.right.left h
  · exact hc.right.right h

theorem append (h₁ : AmountText t₁) (h₂ : AmountText t₂) : AmountText (t₁ ++ t₂) := by
  intro c hc
  rcases List.mem_append.mp hc with hc | hc
  · exact h₁ c hc
  · exact h₂ c hc

end AmountText

theorem amountText_decimal (n : Nat) : AmountText (decimal n) :=
  fun c hc => .inl <| isDigit_decimal c hc

theorem amountText_fractionText (h : n < 100) : AmountText (fractionText n) := by
  have digit : ∀ d < 10, isDigit (.ofNat (48 + d)) := by decide
  intro c hc
  simp only [fractionText, List.mem_cons, List.not_mem_nil, or_false] at hc
  rcases hc with rfl | rfl | rfl
  · exact .inr (.inr rfl)
  · exact .inl <| digit _ (by omega)
  · exact .inl <| digit _ (by omega)

theorem amountText_centsText (cents : Int) : AmountText (centsText cents) := by
  have hs : AmountText (if cents < 0 then [45] else []) := by
    split
    · simp [AmountText]
    · nofun
  exact hs.append (amountText_decimal _) |>.append <| amountText_fractionText (by omega)

theorem formatTicksToBuffer_eq (ticks : PriceTick) (n : Nat) :
    formatTicksToBuffer ticks n = fitted n (tickText ticks) := by
  have hpos := length_decimal_pos (ticks / 100)
  rw [fitted, length_tickText]
  simp only [formatTicksToBuffer, tickText_eq]
  repeat' split
  all_goals first | rfl | omega

theorem copy_formatTicksToBuffer {tick : PriceTick} (h : tick < RuntimeConfig.orderBookTickCapacity) :
    formatTicksToBuffer tick 24 = tickText tick ∧
      (CStr.copy (formatTicksToBuffer tick 24) : CStr 24).text = tickText tick := by
  have hwhole : tick / 100 < 10 ^ 4 := Nat.div_lt_of_lt_mul <| h.trans_le <| by decide
  have hl : (tickText tick).length < 24 := by
    have := length_decimal_le hwhole (by decide)
    rw [length_tickText]
    omega
  have hf : formatTicksToBuffer tick 24 = tickText tick := by
    rw [formatTicksToBuffer_eq]
    exact if_pos hl
  exact ⟨hf, by rw [hf, CStr.copy_of_fits hl <| (amountText_centsText tick).not_mem (by decide)]⟩

theorem formatCentsToBuffer_eq (unspecified : ℚ → Int64) (q : ℚ) (n : Nat) :
    formatCentsToBuffer unspecified q n =
      if q * 100 > 2 ^ 63 ∨ q * 100 < -2 ^ 63 then []
      else fitted n (centsText (llround unspecified (q * 100)).toInt) := by
  simp only [formatCentsToBuffer, fitted, centsText]
  generalize (llround unspecified (q * 100)).toInt = cents
  have hpos := length_decimal_pos (cents.natAbs / 100)
  split
  case isTrue  => rfl
  case isFalse =>
    simp only [List.length_append, length_fractionText]
    by_cases hc : cents < 0
    case pos =>
      simp only [hc, true_and, if_true, List.length_singleton]
      repeat' split
      all_goals first | rfl | omega
    case neg =>
      simp only [hc, false_and, if_false, List.length_nil]
      repeat' split
      all_goals first | rfl | omega

namespace TextBuffer

structure Written (n : Nat) (text : Bytes) (r : Bytes × Nat) : Prop where
  size  : r.1.length = n
  holds : text ++ [0] <+: r.1
  len   : r.2 = text.length

variable {buffer sign post : Bytes} {n value fracPart : Nat}

theorem setElementAt_append (pre post : List α) (x y : α) :
    setElementAt (pre ++ x :: post) pre.length y = .ok (pre ++ y :: post) := by
  rw [setElementAt_eq (by simp), List.set_append_right _ _ le_rfl]
  simp

theorem clear_spec (h : 0 < buffer.length) :
    ∃ r, (clear buffer = .ok r) ∧ Written buffer.length [] r := by
  obtain ⟨c, post, rfl⟩ := List.exists_cons_of_length_pos h
  have hs : setElementAt (c :: post) 0 0 = .ok (0 :: post) := setElementAt_append [] post c 0
  exact ⟨(0 :: post, 0), by simp [clear, hs], rfl, ⟨post, rfl⟩, rfl⟩

theorem putFraction_spec (pre post : Bytes) (h : 4 ≤ post.length) :
    ∃ r, (putFraction (pre ++ post) pre.length fracPart = .ok r) ∧
      Written (pre ++ post).length (pre ++ fractionText fracPart) r := by
  obtain ⟨a, post, rfl⟩ := List.exists_cons_of_length_pos (by omega : 0 < post.length)
  obtain ⟨b, post, rfl⟩ := List.exists_cons_of_length_pos (by simp at h; omega : 0 < post.length)
  obtain ⟨c, post, rfl⟩ := List.exists_cons_of_length_pos (by simp at h; omega : 0 < post.length)
  obtain ⟨d, post, rfl⟩ := List.exists_cons_of_length_pos (by simp at h; omega : 0 < post.length)
  have h₀ := setElementAt_append pre (b :: c :: d :: post) a 46
  have h₁ := setElementAt_append (pre ++ [46]) (c :: d :: post) b (.ofNat (48 + fracPart / 10))
  have h₂ := setElementAt_append (pre ++ [46, .ofNat (48 + fracPart / 10)]) (d :: post) c
    (.ofNat (48 + fracPart % 10))
  have h₃ := setElementAt_append (pre ++ fractionText fracPart) post d 0
  simp only [fractionText, List.length_append, List.length_cons, List.length_nil, List.append_assoc,
    List.cons_append, List.nil_append, Nat.zero_add, Nat.reduceAdd] at h₁ h₂ h₃
  refine ⟨(pre ++ fractionText fracPart ++ 0 :: post, pre.length + 3), ?_, ?_, ?_, ?_⟩
  · simp only [putFraction, h₀, h₁, h₂, h₃, Except.ok_bind, Except.pure_eq_ok, fractionText,
      List.append_assoc, List.cons_append, List.nil_append]
  · simp [fractionText]
  · exact ⟨post, by simp⟩
  · simp [fractionText]

theorem toChars_append (sign post : Bytes) (value : Nat) :
    toChars (sign ++ post) sign.length value =
      if post.length < (decimal value).length then none
      else some (sign ++ decimal value ++ post.drop (decimal value).length,
        (sign ++ decimal value).length) := by
  simp only [toChars, List.length_append]
  split
  case isTrue  => rw [if_pos (by omega)]
  case isFalse => rw [if_neg (by omega)]; simp

theorem putAmount_spec (hs : sign <+: buffer) (h : 0 < buffer.length) (value fracPart : Nat) :
    ∃ r, (putAmount buffer sign.length value fracPart = .ok r) ∧
      Written buffer.length (fitted buffer.length (sign ++ decimal value ++ fractionText fracPart)) r := by
  obtain ⟨post, rfl⟩ := hs
  have hall : (sign ++ decimal value ++ fractionText fracPart).length = (sign ++ decimal value).length + 3 :=
    List.length_append
  rw [fitted, hall, putAmount, toChars_append]
  have hlen : (sign ++ post).length = sign.length + post.length := List.length_append
  have hlen' : (sign ++ decimal value).length = sign.length + (decimal value).length :=
    List.length_append
  by_cases hroom : post.length < (decimal value).length
  case pos =>
    rw [if_pos hroom, if_neg (by omega)]
    exact clear_spec h
  case neg =>
    have hsize : (sign ++ decimal value ++ post.drop (decimal value).length).length =
        (sign ++ post).length := by
      simp only [List.length_append, List.length_drop]
      omega
    rw [if_neg hroom, ← hsize]
    simp only
    by_cases hout : (sign ++ decimal value).length + 4 >
        (sign ++ decimal value ++ post.drop (decimal value).length).length
    case pos =>
      rw [if_pos hout, if_neg (by omega)]
      exact clear_spec (hsize ▸ h)
    case neg =>
      rw [if_neg hout, if_pos (by omega)]
      refine putFraction_spec _ _ ?_
      have : (sign ++ decimal value ++ post.drop (decimal value).length).length =
          (sign ++ decimal value).length + (post.drop (decimal value).length).length :=
        List.length_append
      omega

theorem formatTicksToBuffer_spec (ticks : PriceTick) (h : 5 ≤ buffer.length) :
    ∃ r, (formatTicksToBuffer ticks buffer = .ok r) ∧
      Written buffer.length (fitted buffer.length (tickText ticks)) r := by
  rw [formatTicksToBuffer, if_neg (by omega), tickText_eq]
  exact putAmount_spec List.nil_prefix (by omega) _ _

theorem formatCentsToBuffer_spec (unspecified : ℚ → Int64) (q : ℚ) (h : 0 < buffer.length) :
    ∃ r, (formatCentsToBuffer unspecified q buffer = .ok r) ∧
      Written buffer.length (if q * 100 > 2 ^ 63 ∨ q * 100 < -2 ^ 63 then []
        else fitted buffer.length (centsText (llround unspecified (q * 100)).toInt)) r := by
  simp only [formatCentsToBuffer]
  split
  case isTrue  => exact clear_spec h
  case isFalse =>
    generalize (llround unspecified (q * 100)).toInt = cents
    by_cases hc : cents < 0
    case neg =>
      rw [if_neg hc, centsText, if_neg hc]
      exact putAmount_spec List.nil_prefix h _ _
    case pos =>
      rw [if_pos hc, centsText, if_pos hc]
      split
      case isTrue hn =>
        have hnone : fitted buffer.length ([45] ++ decimal (cents.natAbs / 100) ++
            fractionText (cents.natAbs % 100)) = [] := by
          refine if_neg ?_
          simp only [List.length_append, List.length_singleton]
          omega
        rw [hnone]
        exact clear_spec h
      case isFalse =>
        obtain ⟨c, post, rfl⟩ := List.exists_cons_of_length_pos h
        have hs : setElementAt (c :: post) 0 45 = .ok (45 :: post) := setElementAt_append [] post c 45
        have hsign : [45] <+: 45 :: post := ⟨post, rfl⟩
        rw [hs, Except.ok_bind]
        exact putAmount_spec hsign h _ _

end TextBuffer

theorem fitted_of_lt {text : Bytes} (h : n < text.length + 1) : fitted n text = [] :=
  if_neg (Nat.not_le.mpr h)

theorem length_centsText_ge (cents : Int) : 4 ≤ (centsText cents).length := by
  have := length_decimal_pos (cents.natAbs / 100)
  simp only [centsText, List.length_append, length_fractionText]
  omega

theorem fitted_centsText_nil (h : n < 5) (cents : Int) : fitted n (centsText cents) = [] := by
  have := length_centsText_ge cents
  exact fitted_of_lt (by omega)

namespace TextBuffer

variable {buffer : Bytes}

theorem formatTicksToBuffer_attempt (ticks : PriceTick) (buffer : Bytes) :
    ∃ r, (formatTicksToBuffer ticks buffer = .ok r) ∧ (r.1.length = buffer.length) ∧
      ((r.2 = 0 ∧ fitted buffer.length (tickText ticks) = []) ∨
        (0 < r.2 ∧ Written buffer.length (fitted buffer.length (tickText ticks)) r)) := by
  by_cases h : buffer.length < 5
  case pos =>
    exact ⟨(buffer, 0), by rw [formatTicksToBuffer, if_pos h]; rfl, rfl,
      .inl ⟨rfl, fitted_centsText_nil h _⟩⟩
  case neg =>
    obtain ⟨r, hr, hw⟩ := formatTicksToBuffer_spec ticks (Nat.le_of_not_lt h)
    refine ⟨r, hr, hw.size, ?_⟩
    rcases Nat.eq_zero_or_pos r.2 with hz | hpos
    · exact .inl ⟨hz, List.length_eq_zero_iff.mp (hw.len ▸ hz)⟩
    · exact .inr ⟨hpos, hw⟩

theorem formatCentsToBuffer_attempt (unspecified : ℚ → Int64) (q : ℚ) (h : 0 < buffer.length) :
    ∃ r, ((if buffer.length < 5 then clear buffer else formatCentsToBuffer unspecified q buffer) = .ok r) ∧
      Written buffer.length (if q * 100 > 2 ^ 63 ∨ q * 100 < -2 ^ 63 then []
        else fitted buffer.length (centsText (llround unspecified (q * 100)).toInt)) r := by
  by_cases hn : buffer.length < 5
  case pos =>
    rw [if_pos hn, fitted_centsText_nil hn, ite_self]
    exact clear_spec h
  case neg =>
    rw [if_neg hn]
    exact formatCentsToBuffer_spec unspecified q h

end TextBuffer

open TextBuffer hiding formatTicksToBuffer formatCentsToBuffer formatPriceToBuffer

theorem formatPriceToBuffer_posInf (unspecified : ℚ → Int64) (n : Nat) :
    formatPriceToBuffer unspecified .posInf n = fitted n (tickText maxTick) := by
  have ht : doubleToTicks unspecified .posInf = maxTick := rfl
  simp only [formatPriceToBuffer, formatTicksToBuffer_eq, ht, Double.isFinite, Bool.not_false, true_or, if_true]
  split
  case isTrue h => rw [h, fitted_of_lt (Nat.succ_pos _)]
  case isFalse  =>
    split
    case isTrue    => rfl
    case isFalse h => exact (not_not.mp h).symm

theorem formatPriceToBuffer_finite (unspecified : ℚ → Int64) (q : ℚ) (n : Nat) :
    formatPriceToBuffer unspecified (.finite q) n =
      if 0 ≤ q ∧ fitted n (tickText (doubleToTicks unspecified (.finite q))) ≠ []
      then fitted n (tickText (doubleToTicks unspecified (.finite q)))
      else if q * 100 > 2 ^ 63 ∨ q * 100 < -2 ^ 63 then []
      else fitted n (centsText (llround unspecified (q * 100)).toInt) := by
  simp only [formatPriceToBuffer, formatTicksToBuffer_eq, formatCentsToBuffer_eq, Double.isFinite,
    Bool.not_true, Bool.false_eq_true, false_or]
  by_cases hn : n < 5
  case pos =>
    have ht : fitted n (tickText (doubleToTicks unspecified (.finite q))) = [] := fitted_centsText_nil hn _
    have hc := fitted_centsText_nil hn (llround unspecified (q * 100)).toInt
    simp [ht, hc, hn]
  case neg =>
    have hz : n ≠ 0 := by omega
    by_cases hq : 0 ≤ q
    case pos => simp [hn, hz, hq]
    case neg => simp [hn, hz, hq]

theorem textBuffer_formatPrice (unspecified : ℚ → Int64) (price : Double) (buffer : Bytes)
    (h : 0 < buffer.length) :
    ∃ r, (TextBuffer.formatPriceToBuffer unspecified price buffer = .ok r) ∧
      Written buffer.length (formatPriceToBuffer unspecified price buffer.length) r := by
  have hz : buffer.length ≠ 0 := by omega
  obtain ⟨r, ht, hsize, hr⟩ := formatTicksToBuffer_attempt (doubleToTicks unspecified price) buffer
  rw [TextBuffer.formatPriceToBuffer, if_neg hz]
  cases price
  case nan    => simpa [formatNonnegToBuffer, formatPriceToBuffer, Double.isFinite, hz] using clear_spec h
  case negInf => simpa [formatNonnegToBuffer, formatPriceToBuffer, Double.isFinite, hz] using clear_spec h
  case posInf =>
    rw [formatPriceToBuffer_posInf]
    simp only [formatNonnegToBuffer, ht, Except.ok_bind]
    rcases hr with ⟨hlen, hf⟩ | ⟨hlen, hw⟩
    · have hf : fitted buffer.length (tickText maxTick) = [] := hf
      rw [hlen, if_neg (by omega), hf, ← hsize]
      exact clear_spec (hsize ▸ h)
    · rw [if_pos hlen]
      exact ⟨r, rfl, hw⟩
  case finite q =>
    rw [formatPriceToBuffer_finite]
    by_cases hq : 0 ≤ q
    case pos =>
      simp only [formatNonnegToBuffer, ge_iff_le, if_pos hq, ht, Except.ok_bind]
      rcases hr with ⟨hlen, hf⟩ | ⟨hlen, hw⟩
      · have hno : ¬(0 ≤ q ∧ fitted buffer.length (tickText (doubleToTicks unspecified (.finite q))) ≠ []) :=
          fun hc => hc.right hf
        rw [hlen, if_neg (by omega), if_neg hno, ← hsize]
        exact formatCentsToBuffer_attempt unspecified q (hsize ▸ h)
      · have hne : fitted buffer.length (tickText (doubleToTicks unspecified (.finite q))) ≠ [] :=
          List.ne_nil_of_length_pos (hw.len ▸ hlen)
        rw [if_pos hlen, if_pos ⟨hq, hne⟩]
        exact ⟨r, rfl, hw⟩
    case neg =>
      simp only [formatNonnegToBuffer, ge_iff_le, if_neg hq, Except.pure_eq_ok, Except.ok_bind,
        Nat.lt_irrefl, if_false]
      have hno : ¬(0 ≤ q ∧ fitted buffer.length (tickText (doubleToTicks unspecified (.finite q))) ≠ []) :=
        fun hc => hq hc.left
      rw [if_neg hno]
      exact formatCentsToBuffer_attempt unspecified q h
