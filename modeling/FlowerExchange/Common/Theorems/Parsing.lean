import FlowerExchange.Common.Parsing

open Decimal

variable {sv cs rest b s ds : Bytes}

theorem le_accumulate (cs : Bytes) (v : Nat) : v ≤ accumulate cs v := by
  rw [accumulate_eq]
  exact Nat.le_add_right_of_le <| Nat.le_mul_of_pos_right v <| by positivity

theorem intDigits_eq (sv : Bytes) (v : Nat) (h : v ≤ intMax) :
    intDigits v sv = (min intMax (accumulate (sv.takeWhile isDigit) v), sv.dropWhile isDigit) := by
  induction sv generalizing v
  case nil => simp [intDigits, accumulate, h]
  case cons c sv hi =>
    by_cases hc : isDigit c
    case neg => simp [intDigits, hc, accumulate, h]
    case pos =>
      simp only [intDigits, hc, if_true, List.takeWhile_cons, List.dropWhile_cons, accumulate]
      have hle := le_accumulate (sv.takeWhile isDigit) (v * 10 + digitValue c)
      split
      case isTrue hgt =>
        have : intMax ≤ (v * 10 + digitValue c : Nat) := by omega
        rw [min_eq_left (by omega)]
      case isFalse hgt =>
        have := hi (v * 10 + digitValue c) (by omega)
        push_cast at this
        rw [this]

theorem exponentDigits_eq (sv : Bytes) (v : Nat) (h : v ≤ intMax) :
    exponentDigits v sv = (min intMax (accumulate (sv.takeWhile isDigit) v), sv.dropWhile isDigit) := by
  have max (sv : Bytes) : exponentDigits intMax sv = (intMax, sv.dropWhile isDigit) := by
    induction sv
    case nil => rfl
    case cons c sv hi =>
      by_cases hc : isDigit c
      case neg => simp [exponentDigits, hc]
      case pos =>
        have : ¬intMax ≤ (intMax - digitValue c) / 10 := by
          simp only [intMax]
          omega
        simp only [exponentDigits, hc, if_true, if_neg this, hi, List.dropWhile_cons]
  induction sv generalizing v
  case nil => simp [exponentDigits, accumulate, h]
  case cons c sv hi =>
    by_cases hc : isDigit c
    case neg => simp [exponentDigits, hc, accumulate, h]
    case pos =>
      simp only [exponentDigits, hc, if_true, List.takeWhile_cons, List.dropWhile_cons, accumulate]
      have hle := le_accumulate (sv.takeWhile isDigit) (v * 10 + digitValue c)
      split
      case isTrue hle =>
        have := hi (v * 10 + digitValue c) (by omega)
        push_cast at this
        rw [this]
      case isFalse hgt =>
        have : intMax ≤ (v * 10 + digitValue c : Nat) := by omega
        rw [max, min_eq_left (by omega)]

theorem wholeDigits_eq (sv : Bytes) (v : Nat) :
    wholeDigits v sv = (↑(accumulate (sv.takeWhile isDigit) v), sv.dropWhile isDigit) := by
  induction sv generalizing v
  case nil => simp [wholeDigits, accumulate]
  case cons c sv hi =>
    by_cases hc : isDigit c
    case neg => simp [wholeDigits, hc, accumulate]
    case pos =>
      have := hi (v * 10 + digitValue c)
      push_cast at this
      simp [wholeDigits, hc, accumulate, this]

theorem fractionDigits_eq (sv : Bytes) (v place : ℚ) :
    fractionDigits v place sv =
      (v + place * 10 * value (sv.takeWhile isDigit) / 10 ^ (sv.takeWhile isDigit).length,
        sv.dropWhile isDigit) := by
  induction sv generalizing v place
  case nil => simp [fractionDigits, value, accumulate]
  case cons c sv hi =>
    by_cases hc : isDigit c
    case neg => simp [fractionDigits, hc, value, accumulate]
    case pos =>
      simp only [fractionDigits, hc, if_true, hi, List.takeWhile_cons, List.dropWhile_cons, value_cons,
        List.length_cons, Prod.mk.injEq, and_true]
      push_cast
      field_simp
      ring

def Stops (p : UInt8 → Bool) (rest : Bytes) : Prop :=
  ∀ c ∈ rest.head?, p c = false

theorem takeWhile_append {p : UInt8 → Bool} (h : ∀ c ∈ cs, p c) (hr : Stops p rest) :
    (cs ++ rest).takeWhile p = cs ∧ (cs ++ rest).dropWhile p = rest := by
  have hrest : rest.takeWhile p = [] ∧ rest.dropWhile p = rest := by
    cases rest
    case nil       => simp
    case cons c cs => simp [hr c rfl]
  rw [List.takeWhile_append_of_pos h, List.dropWhile_append_of_pos h, hrest.left, hrest.right]
  exact ⟨List.append_nil _, rfl⟩

theorem Decimal.Blanks.skip (h : Blanks b) : skipBlanks b = [] :=
  List.dropWhile_eq_nil_iff.mpr h

theorem Decimal.Blanks.skip_append (h : Blanks b) (hr : Stops isBlank rest) :
    skipBlanks (b ++ rest) = rest :=
  takeWhile_append h hr |>.right

theorem skipBlanks_split (sv : Bytes) : ∃ b, Blanks b ∧ sv = b ++ skipBlanks sv :=
  ⟨sv.takeWhile isBlank, fun _ => List.mem_takeWhile_imp, List.takeWhile_append_dropWhile.symm⟩

theorem takeSign_append {n : Int} (h : Sign s n) (hr : Stops (fun c => c = 43 || c = 45) rest) :
    takeSign (s ++ rest) = (decide (n = -1), rest) := by
  cases h
  case plus  => rfl
  case minus => rfl
  case none  =>
    cases rest
    case nil => rfl
    case cons c rest =>
      have hc := hr c rfl
      simp only [Bool.or_eq_false_iff, decide_eq_false_iff_not] at hc
      simp only [List.nil_append]
      rw [takeSign]
      · rfl
      · rintro _ ⟨⟩
        simp at hc
      · rintro _ ⟨⟩
        simp at hc

theorem takeSign_split (sv : Bytes) : ∃ s n, Sign s n ∧ sv = s ++ (takeSign sv).2 ∧
    (takeSign sv).1 = decide (n = -1) := by
  unfold takeSign
  split
  case h_1 sv => exact ⟨[45], -1, .minus, rfl, rfl⟩
  case h_2 sv => exact ⟨[43], 1, .plus, rfl, rfl⟩
  case h_3 => exact ⟨[], 1, .none, rfl, rfl⟩

theorem Decimal.Sign.apply {n : Int} (h : Sign s n) (x : Int) : (if n = -1 then -x else x) = n * x := by
  cases h <;> simp

theorem Decimal.Sign.clamp {n : Int} (h : Sign s n) (limit v : Nat) :
    n * min (limit : Int) v = clamp limit (n * v) := by
  have : (0 : Int) ≤ limit := Int.natCast_nonneg _
  cases h <;> simp only [Decimal.clamp] <;> omega

theorem Stops.of_digits (h : Digits cs) (hn : cs ≠ []) (hp : ∀ c, isDigit c → p c = false) :
    Stops p (cs ++ rest) := by
  have ⟨c, cs, hc⟩ := List.exists_cons_of_ne_nil hn
  rintro d hd
  rw [hc, List.cons_append, List.head?_cons, Option.mem_some] at hd
  exact hp d <| h d <| hd ▸ hc ▸ .head _

theorem not_sign_of_isDigit (h : isDigit c) : (c = 43 || c = 45) = false := by
  by_contra hc
  simp only [Bool.not_eq_false, Bool.or_eq_true, decide_eq_true_eq] at hc
  rcases hc with rfl | rfl <;> contradiction

theorem not_blank_of_isDigit (h : isDigit c) : isBlank c = false := by
  by_contra hc
  simp only [isBlank, Bool.not_eq_false, Bool.or_eq_true, decide_eq_true_eq] at hc
  rcases hc with rfl | rfl <;> contradiction

theorem not_digit_of_isBlank (h : isBlank c) : isDigit c = false :=
  Bool.eq_false_iff.mpr fun hd => by simp [not_blank_of_isDigit hd] at h

theorem Decimal.Sign.stops {n : Int} (h : Sign s n) (hr : Stops isBlank rest) :
    Stops isBlank (s ++ rest) := by
  cases h
  case none => exact hr
  all_goals
    rintro c ⟨⟩
    decide

theorem Decimal.Blanks.stops (h : Blanks b) (hp : ∀ c, isBlank c → p c = false) : Stops p b := by
  cases b
  case nil => nofun
  case cons c b =>
    rintro _ ⟨⟩
    exact hp c <| h c <| .head _

theorem startsWithDigit_append (h : Digits cs) (hn : cs ≠ []) (rest : Bytes) :
    startsWithDigit (cs ++ rest) := by
  have ⟨c, cs, hc⟩ := List.exists_cons_of_ne_nil hn
  simpa [startsWithDigit, hc] using h c <| hc ▸ .head _

theorem takeWhile_digits_ne_nil (h : startsWithDigit sv) : sv.takeWhile isDigit ≠ [] := by
  cases sv
  case nil => contradiction
  case cons c sv =>
    have hc : isDigit c := by simpa [startsWithDigit] using h
    simp [hc]

def intLimit : Nat :=
  2147483647

theorem intMax_eq : intMax = intLimit :=
  rfl

theorem stringViewToInt_of_denotes (h : DenotesInt sv n) :
    stringViewToInt sv = .ok (clamp intLimit n) := by
  cases h
  case mk b s n cs b' hb hs hc hn hb' =>
    have hstart := startsWithDigit_append hc hn b'
    have hskip : skipBlanks (b ++ (s ++ (cs ++ b'))) = s ++ (cs ++ b') :=
      hb.skip_append <| hs.stops <| .of_digits hc hn fun _ => not_blank_of_isDigit
    have hne : (s ++ (cs ++ b')).isEmpty = false := by simp [hn]
    have hsign : takeSign (s ++ (cs ++ b')) = (decide (n = -1), cs ++ b') :=
      takeSign_append hs <| .of_digits hc hn fun _ => not_sign_of_isDigit
    have ⟨htake, hdrop⟩ := takeWhile_append hc <| hb'.stops fun _ => not_digit_of_isBlank
    have hint : intDigits 0 (cs ++ b') = (min intMax (value cs), b') := by
      have := intDigits_eq (cs ++ b') 0 (by decide)
      rwa [htake, hdrop] at this
    have hend : (skipBlanks b').isEmpty = true := by rw [hb'.skip]; rfl
    simp only [stringViewToInt, hskip, hne, hsign, hstart, hint, hend, Bool.not_true, if_false,
      decide_eq_true_eq, Bool.false_eq_true, hs.apply, intMax_eq, hs.clamp, Except.pure_eq_ok]

theorem denotes_of_stringViewToInt (h : stringViewToInt sv = .ok v) : ∃ n, DenotesInt sv n := by
  have ⟨b, hb, hsv⟩ := skipBlanks_split sv
  have ⟨s, n, hs, hsign, _⟩ := takeSign_split (skipBlanks sv)
  have ⟨b', hb', hrest⟩ := skipBlanks_split ((takeSign (skipBlanks sv)).2.dropWhile isDigit)
  have hint := intDigits_eq (takeSign (skipBlanks sv)).2 0 (by decide)
  simp only [stringViewToInt] at h
  split at h
  case isTrue => contradiction
  case isFalse =>
    split at h
    case isTrue => contradiction
    case isFalse hstart =>
      split at h
      case isTrue => contradiction
      case isFalse hend =>
        rw [Nat.cast_zero] at hint
        simp only [hint, Bool.not_eq_true', Bool.not_eq_false, List.isEmpty_iff] at hend hstart
        have hn := takeWhile_digits_ne_nil hstart
        have htake := List.takeWhile_append_dropWhile (p := isDigit) (l := (takeSign (skipBlanks sv)).2)
        rw [hend, List.append_nil] at hrest
        rw [hrest] at htake
        have hd := DenotesInt.mk hb hs (fun _ => List.mem_takeWhile_imp) hn hb'
        rw [htake, ← hsign, ← hsv] at hd
        exact ⟨_, hd⟩

theorem value_point (cs ds : Bytes) : (value cs + 1 / 10 * 10 * value ds / 10 ^ ds.length : ℚ) =
    value (cs ++ ds) / 10 ^ ds.length := by
  rw [value_append]
  push_cast
  field_simp

theorem mantissa_append (h : Mantissa cs m) (hr : Stops (fun c => isDigit c || c = 46) rest) :
    mantissa (cs ++ rest) = (m, true, rest) := by
  have hdig : Stops isDigit rest := fun c hc => (Bool.or_eq_false_iff.mp <| hr c hc).left
  cases h
  case whole h hn =>
    have ⟨htake, hdrop⟩ := takeWhile_append h hdig
    have hw := wholeDigits_eq (cs ++ rest) 0
    rw [htake, hdrop, Nat.cast_zero] at hw
    have hstart := startsWithDigit_append h hn rest
    simp only [mantissa, hw, hstart]
    split
    case h_1 => simpa using hr 46 rfl
    case h_2 => rfl
  case point cs ds hc hd hn =>
    have ⟨htake, hdrop⟩ := takeWhile_append (p := isDigit) hc <| show Stops isDigit (46 :: (ds ++ rest)) by
      rintro _ ⟨⟩
      decide
    have ⟨htake', hdrop'⟩ := takeWhile_append hd hdig
    have hw := wholeDigits_eq (cs ++ 46 :: (ds ++ rest)) 0
    have hf := fractionDigits_eq (ds ++ rest) (value cs) (1 / 10)
    rw [htake, hdrop, Nat.cast_zero] at hw
    rw [htake', hdrop'] at hf
    have hstart : (startsWithDigit (cs ++ 46 :: (ds ++ rest)) || startsWithDigit (ds ++ rest)) = true := by
      by_cases hcs : cs = []
      · rw [startsWithDigit_append hd (by simpa [hcs] using hn), Bool.or_true]
      · rw [startsWithDigit_append hc hcs, Bool.true_or]
    have hw : wholeDigits 0 (cs ++ 46 :: (ds ++ rest)) = (↑(value cs), 46 :: (ds ++ rest)) := hw
    rw [List.append_assoc, List.cons_append, mantissa, hw]
    simp only [hf, hstart, value_point]

theorem mantissa_split (h : mantissa sv = (m, true, rest)) : ∃ cs, Mantissa cs m ∧ sv = cs ++ rest := by
  have hc : Digits (sv.takeWhile isDigit) := fun _ => List.mem_takeWhile_imp
  have hsplit := List.takeWhile_append_dropWhile (p := isDigit) (l := sv)
  have hw := wholeDigits_eq sv 0
  rw [Nat.cast_zero] at hw
  simp only [mantissa, hw] at h
  split at h
  case h_1 rest' hdrop =>
    rw [fractionDigits_eq] at h
    simp only [Prod.mk.injEq] at h
    obtain ⟨rfl, hstart, rfl⟩ := h
    have hd : Digits (rest'.takeWhile isDigit) := fun _ => List.mem_takeWhile_imp
    have hn : sv.takeWhile isDigit ++ rest'.takeWhile isDigit ≠ [] := by
      rcases Bool.or_eq_true .. |>.mp hstart with h | h
      · simp [takeWhile_digits_ne_nil h]
      · simp [takeWhile_digits_ne_nil h]
    have hm := Mantissa.point hc hd hn
    rw [← value_point] at hm
    refine ⟨_, hm, ?_⟩
    rw [List.append_assoc, List.cons_append, List.takeWhile_append_dropWhile, ← hdrop, hsplit]
  case h_2 =>
    simp only [Prod.mk.injEq] at h
    obtain ⟨rfl, hstart, rfl⟩ := h
    exact ⟨_, .whole hc (takeWhile_digits_ne_nil hstart), hsplit.symm⟩

theorem Decimal.Mantissa.ne_nil (h : Mantissa cs m) : cs ≠ [] := by
  cases h
  case whole h => exact h
  case point => simp

theorem Decimal.Mantissa.stops (h : Mantissa cs m)
    (hp : ∀ c, isDigit c ∨ c = 46 → p c = false) : Stops p (cs ++ rest) := by
  cases h
  case whole h hn => exact .of_digits h hn fun c hc => hp c <| .inl hc
  case point cs ds hc hd hn =>
    rintro c hmem
    cases cs
    case nil       => exact hp c <| .inr <| Option.mem_some.mp hmem |>.symm
    case cons d cs => exact hp c <| .inl <| Option.mem_some.mp hmem ▸ hc d <| .head _

theorem clamp_zero (limit : Nat) : clamp limit 0 = 0 :=
  clamp_of_abs_le (by simp)

theorem applyExponent_append (v : ℚ) (h : Exponent cs e) (hb : Blanks b) :
    applyExponent v (cs ++ b) = .ok (v * 10 ^ clamp intLimit e, b) := by
  cases h
  case none =>
    rw [clamp_zero, zpow_zero, mul_one]
    cases b
    case nil => rfl
    case cons c b =>
      have hc : ¬(c = 101 ∨ c = 69) := fun h => by
        have := hb c <| .head _
        rcases h with rfl | rfl <;> contradiction
      simp only [List.nil_append, applyExponent, if_neg hc]
      rfl
  case some c s n ds hc hs hd hn =>
    have hstart := startsWithDigit_append hd hn b
    have hsign : takeSign (s ++ (ds ++ b)) = (decide (n = -1), ds ++ b) :=
      takeSign_append hs <| .of_digits hd hn fun _ => not_sign_of_isDigit
    have ⟨htake, hdrop⟩ := takeWhile_append hd <| hb.stops (p := isDigit) fun _ => not_digit_of_isBlank
    have hexp : exponentDigits 0 (ds ++ b) = (min intMax (value ds), b) := by
      have := exponentDigits_eq (ds ++ b) 0 (by decide)
      rwa [htake, hdrop] at this
    rw [List.cons_append, List.append_assoc]
    simp only [applyExponent, if_pos hc, hsign, hstart, hexp, Bool.not_true, Bool.false_eq_true,
      if_false, decide_eq_true_eq, hs.apply, intMax_eq, hs.clamp, Except.pure_eq_ok]

theorem applyExponent_split {v v' : ℚ} (h : applyExponent v sv = .ok (v', rest)) :
    ∃ cs e, Exponent cs e ∧ sv = cs ++ rest := by
  cases sv
  case nil =>
    cases h
    exact ⟨[], 0, .none, rfl⟩
  case cons c sv =>
    simp only [applyExponent] at h
    split at h
    case isFalse =>
      cases h
      exact ⟨[], 0, .none, rfl⟩
    case isTrue hc =>
      have ⟨s, n, hs, hsign, _⟩ := takeSign_split sv
      have hexp := exponentDigits_eq (takeSign sv).2 0 (by decide)
      split at h
      case isTrue => contradiction
      case isFalse hstart =>
        rw [Nat.cast_zero] at hexp
        rw [hexp, Except.pure_eq_ok] at h
        cases h
        simp only [Bool.not_eq_true', Bool.not_eq_false] at hstart
        refine ⟨_, _, .some hc hs (fun _ => List.mem_takeWhile_imp) (takeWhile_digits_ne_nil hstart), ?_⟩
        rw [List.cons_append, List.append_assoc, List.takeWhile_append_dropWhile, ← hsign]

theorem Decimal.Exponent.stops (h : Exponent cs e) (hb : Blanks b) :
    Stops (fun c => isDigit c || c = 46) (cs ++ b) := by
  cases h
  case none =>
    refine hb.stops fun c hc => ?_
    rw [not_digit_of_isBlank hc, Bool.false_or, decide_eq_false_iff_not]
    rintro rfl
    contradiction
  case some hc _ _ _ =>
    rintro c hmem
    cases Option.mem_some.mp hmem
    rcases hc with rfl | rfl <;> decide

theorem stringViewToDouble_of_scientific (h : Scientific sv m e) :
    stringViewToDouble sv = .ok (.finite (m * 10 ^ clamp intLimit e)) := by
  cases h
  case mk b s n ms m es b' hb hs hm hb' he =>
    have hskip : skipBlanks (b ++ (s ++ (ms ++ (es ++ b')))) = s ++ (ms ++ (es ++ b')) :=
      hb.skip_append <| hs.stops <| hm.stops fun c hc =>
        hc.elim not_blank_of_isDigit (by rintro rfl; decide)
    have hne : (s ++ (ms ++ (es ++ b'))).isEmpty = false := by simp [hm.ne_nil]
    have hsign : takeSign (s ++ (ms ++ (es ++ b'))) = (decide (n = -1), ms ++ (es ++ b')) :=
      takeSign_append hs <| hm.stops fun c hc =>
        hc.elim not_sign_of_isDigit (by rintro rfl; decide)
    have hmant := mantissa_append hm <| he.stops hb'
    have hexp := applyExponent_append m he hb'
    have hend : (skipBlanks b').isEmpty = true := by rw [hb'.skip]; rfl
    have hn (x : ℚ) : (if n = -1 then -x else x) = n * x := by
      rcases hs.abs with rfl | rfl <;> simp
    simp only [stringViewToDouble, hskip, hne, hsign, hmant, hexp, hend, Bool.not_true,
      Bool.false_eq_true, if_false, decide_eq_true_eq, hn, Except.ok_bind, Except.pure_eq_ok, mul_assoc]

theorem scientific_of_stringViewToDouble (h : stringViewToDouble sv = .ok d) :
    ∃ m e, Scientific sv m e := by
  have ⟨b, hb, hsv⟩ := skipBlanks_split sv
  have ⟨s, n, hs, hsign, _⟩ := takeSign_split (skipBlanks sv)
  simp only [stringViewToDouble] at h
  split at h
  case isTrue => contradiction
  case isFalse =>
    split at h
    case isTrue => contradiction
    case isFalse hdigit =>
      rcases hmant : mantissa (takeSign (skipBlanks sv)).2 with ⟨v, hasDigit, rest⟩
      simp only [hmant, Bool.not_eq_true', Bool.not_eq_false] at h hdigit
      have ⟨ms, hm, hms⟩ := mantissa_split (hdigit ▸ hmant)
      cases hexp : applyExponent v rest
      case error => simp [hexp, bind, Except.bind] at h
      case ok r =>
        rw [hexp, Except.ok_bind] at h
        split at h
        case isTrue => contradiction
        case isFalse hend =>
          have ⟨es, e, he, hes⟩ := applyExponent_split hexp
          have ⟨b', hb', hrest⟩ := skipBlanks_split r.2
          simp only [Bool.not_eq_false, List.isEmpty_iff] at hend
          rw [hend, List.append_nil] at hrest
          have hd := Scientific.mk hb hs hm he hb'
          rw [← hrest, ← hes, ← hms, ← hsign, ← hsv] at hd
          exact ⟨_, _, hd⟩
