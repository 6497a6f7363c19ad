import FlowerExchange.Common.ParsingCursor
import FlowerExchange.Common.Theorems.Parsing

open Decimal

namespace Cursor

structure At (sv : Bytes) (i : Nat) (rest : Bytes) : Prop where
  le   : i ≤ sv.length
  drop : sv.drop i = rest

variable {sv rest : Bytes} {i j : Nat} {c : UInt8} {p : UInt8 → Bool}

namespace At

theorem zero (sv : Bytes) : At sv 0 sv :=
  ⟨Nat.zero_le _, rfl⟩

theorem end_iff (h : At sv i rest) : i = sv.length ↔ rest = [] := by
  rw [← h.drop, List.drop_eq_nil_iff]
  have := h.le
  omega

theorem not_lt (h : At sv i []) : ¬i < sv.length := by
  have := h.end_iff.mpr rfl
  omega

theorem lt (h : At sv i (c :: rest)) : i < sv.length := by
  have := h.end_iff.not.mpr (List.cons_ne_nil c rest)
  have := h.le
  omega

theorem getElem (h : At sv i (c :: rest)) (hi : i < sv.length) : sv[i] = c := by
  have := h.drop
  rw [List.drop_eq_getElem_cons hi] at this
  exact (List.cons.inj this).left

theorem succ (h : At sv i (c :: rest)) : At sv (i + 1) rest := by
  have := h.drop
  rw [List.drop_eq_getElem_cons h.lt] at this
  exact ⟨h.lt, (List.cons.inj this).right⟩

theorem exists_cons (h : At sv i rest) (hi : i < sv.length) : ∃ c rest', rest = c :: rest' := by
  refine List.exists_cons_of_ne_nil fun hr => ?_
  have := h.end_iff.mpr hr
  omega

theorem isAt_eq (h : At sv i rest) : isAt p sv i = rest.head?.any p := by
  cases rest
  case nil         => simp [isAt, h.not_lt]
  case cons c rest => simp [isAt, h.lt, h.getElem]

end At

theorem skipWhile_at (h : At sv i rest) : At sv (skipWhile p sv i) (rest.dropWhile p) := by
  induction rest generalizing i
  case nil =>
    rw [skipWhile, dif_neg h.not_lt]
    exact h
  case cons c rest hi =>
    rw [skipWhile, dif_pos h.lt, h.getElem]
    by_cases hc : p c
    case pos => simpa [hc] using hi h.succ
    case neg => simpa [hc] using h

theorem lastDigit_at (h : At sv (i + 1) rest) :
    At sv (lastDigit sv i + 1) (rest.dropWhile isDigit) := by
  induction rest generalizing i
  case nil =>
    rw [lastDigit, dif_neg h.not_lt]
    exact h
  case cons c rest hi =>
    rw [lastDigit, dif_pos h.lt, h.getElem]
    by_cases hc : isDigit c
    case pos => simpa [hc] using hi h.succ
    case neg => simpa [hc] using h

theorem signAt_at (h : At sv i rest) (hi : i < sv.length) :
    ∃ j, (signAt sv i hi = ((takeSign rest).1, j)) ∧ At sv j (takeSign rest).2 := by
  obtain ⟨c, rest, rfl⟩ := h.exists_cons hi
  simp only [signAt, h.getElem]
  by_cases hm : c = 45
  case pos =>
    subst hm
    exact ⟨i + 1, rfl, h.succ⟩
  case neg =>
    by_cases hp : c = 43
    case pos =>
      subst hp
      exact ⟨i + 1, rfl, h.succ⟩
    case neg =>
      have ht : takeSign (c :: rest) = (false, c :: rest) := by
        rw [takeSign]
        · rintro _ ⟨⟩
          contradiction
        · rintro _ ⟨⟩
          contradiction
      exact ⟨i, by simp [ht, hm, hp], ht ▸ h⟩

theorem toInt_eq {n : Int} (h₁ : -intMax - 1 ≤ n) (h₂ : n ≤ intMax) : toInt n = .ok n :=
  if_pos ⟨h₁, h₂⟩

theorem digit_eq (h : isDigit c) : ((c.toNat : Int) - 48 = digitValue c) ∧ digitValue c < 10 := by
  have hlt := digitValue_lt h
  simp only [isDigit, Bool.and_eq_true, decide_eq_true_eq, UInt8.le_iff_toNat_le] at h
  have : 48 ≤ c.toNat := h.left
  exact ⟨by rw [digitValue]; omega, hlt⟩

theorem toInt_digit (h : isDigit c) : toInt ((c.toNat : Int) - 48) = .ok (digitValue c : Int) := by
  obtain ⟨he, hlt⟩ := digit_eq h
  rw [he, toInt_eq (by simp only [intMax]; omega) (by simp only [intMax]; omega)]

theorem toInt_room (h : isDigit c) : toInt (intMax - digitValue c) = .ok (intMax - digitValue c) := by
  have := digitValue_lt h
  exact toInt_eq (by simp only [intMax]; omega) (by omega)

theorem toInt_shift {v : Int} (h₀ : 0 ≤ v) (h : v ≤ (intMax - digitValue c) / 10) :
    (toInt (v * 10) = .ok (v * 10)) ∧ (toInt (v * 10 + digitValue c) = .ok (v * 10 + digitValue c)) ∧
      v * 10 + digitValue c ≤ intMax :=
  ⟨toInt_eq (by simp only [intMax]; omega) (by omega), toInt_eq (by simp only [intMax]; omega) (by omega),
    by omega⟩

theorem intLoop_at {v : Int} (h : At sv i rest) (h₀ : 0 ≤ v) (h₁ : v ≤ intMax) :
    ∃ j, (intLoop sv i v = .ok (j, (intDigits v rest).1)) ∧ At sv j (intDigits v rest).2 := by
  induction rest generalizing i v
  case nil =>
    rw [intLoop, dif_neg h.not_lt]
    exact ⟨i, rfl, h⟩
  case cons c rest hi =>
    rw [intLoop, dif_pos h.lt, h.getElem, intDigits]
    by_cases hc : isDigit c
    case neg =>
      rw [if_neg hc, if_neg hc]
      exact ⟨i, rfl, h⟩
    case pos =>
      simp only [if_pos hc, toInt_digit hc, toInt_room hc, Except.ok_bind]
      by_cases hgt : v > (intMax - digitValue c) / 10
      case pos =>
        rw [if_pos hgt, if_pos hgt]
        exact ⟨_, rfl, lastDigit_at h.succ⟩
      case neg =>
        obtain ⟨hp, hs, hle⟩ := toInt_shift h₀ (Int.not_lt.mp hgt)
        rw [if_neg hgt, if_neg hgt, hp, Except.ok_bind, hs, Except.ok_bind]
        exact hi h.succ (by omega) hle

theorem exponentLoop_at {v : Int} (h : At sv i rest) (h₀ : 0 ≤ v) (h₁ : v ≤ intMax) :
    ∃ j, (exponentLoop sv i v = .ok (j, (exponentDigits v rest).1)) ∧
      At sv j (exponentDigits v rest).2 := by
  induction rest generalizing i v
  case nil =>
    rw [exponentLoop, dif_neg h.not_lt]
    exact ⟨i, rfl, h⟩
  case cons c rest hi =>
    rw [exponentLoop, dif_pos h.lt, h.getElem, exponentDigits]
    by_cases hc : isDigit c
    case neg =>
      rw [if_neg hc, if_neg hc]
      exact ⟨i, rfl, h⟩
    case pos =>
      simp only [if_pos hc, toInt_digit hc, toInt_room hc, Except.ok_bind]
      by_cases hle : v ≤ (intMax - digitValue c) / 10
      case pos =>
        obtain ⟨hp, hs, hmax⟩ := toInt_shift h₀ hle
        rw [if_pos hle, if_pos hle, hp, Except.ok_bind, hs, Except.ok_bind]
        exact hi h.succ (by omega) hmax
      case neg =>
        rw [if_neg hle, if_neg hle]
        exact hi h.succ (by decide) le_rfl

theorem bounds_of_min (v : Nat) : 0 ≤ min intMax v ∧ min intMax v ≤ intMax :=
  ⟨by simp only [intMax]; omega, min_le_left ..⟩

theorem toInt_neg {v : Int} (h₀ : 0 ≤ v) (h₁ : v ≤ intMax) : toInt (-v) = .ok (-v) :=
  toInt_eq (by omega) (by simp only [intMax]; omega)

theorem intDigits_bounds (rest : Bytes) : 0 ≤ (intDigits 0 rest).1 ∧ (intDigits 0 rest).1 ≤ intMax := by
  have := intDigits_eq rest 0 (by decide)
  rw [Nat.cast_zero] at this
  rw [this]
  exact bounds_of_min _

theorem exponentDigits_bounds (rest : Bytes) :
    0 ≤ (exponentDigits 0 rest).1 ∧ (exponentDigits 0 rest).1 ≤ intMax := by
  have := exponentDigits_eq rest 0 (by decide)
  rw [Nat.cast_zero] at this
  rw [this]
  exact bounds_of_min _

theorem skipWhile_end_iff (h : At sv i rest) :
    skipWhile isBlank sv i = sv.length ↔ (skipBlanks rest).isEmpty = true := by
  rw [(skipWhile_at h).end_iff, List.isEmpty_iff]
  rfl

theorem skipBlanks_at (sv : Bytes) : At sv (skipWhile isBlank sv 0) (skipBlanks sv) :=
  skipWhile_at (.zero sv)

theorem skipWhile_lt_iff (sv : Bytes) :
    skipWhile isBlank sv 0 < sv.length ↔ ¬(skipBlanks sv).isEmpty = true := by
  rw [← skipWhile_end_iff (.zero sv)]
  have := (skipBlanks_at sv).le
  omega

theorem not_isEmpty_of_skipBlanks (h : ¬(skipBlanks sv).isEmpty) : ¬sv.isEmpty :=
  fun he => h <| by simp [List.isEmpty_iff.mp he, skipBlanks]

theorem wholeLoop_at {b : Bool} {v : ℚ} (h : At sv i rest) : ∃ j,
    (wholeLoop sv i b v = (j, b || startsWithDigit rest, (wholeDigits v rest).1)) ∧
      At sv j (wholeDigits v rest).2 := by
  induction rest generalizing i b v
  case nil =>
    rw [wholeLoop, dif_neg h.not_lt]
    exact ⟨i, by simp [startsWithDigit, wholeDigits], h⟩
  case cons c rest hi =>
    rw [wholeLoop, dif_pos h.lt, h.getElem, wholeDigits]
    by_cases hc : isDigit c
    case neg =>
      rw [if_neg hc, if_neg hc]
      exact ⟨i, by simp [startsWithDigit, hc], h⟩
    case pos =>
      rw [if_pos hc, if_pos hc]
      obtain ⟨j, he, hj⟩ := hi (b := true) h.succ
      exact ⟨j, by simp [he, startsWithDigit, hc], hj⟩

theorem fractionLoop_at {b : Bool} {v : ℚ} (place : ℚ) (h : At sv i rest) : ∃ j,
    (fractionLoop sv i b v place = (j, b || startsWithDigit rest, (fractionDigits v place rest).1)) ∧
      At sv j (fractionDigits v place rest).2 := by
  induction rest generalizing i b v place
  case nil =>
    rw [fractionLoop, dif_neg h.not_lt]
    exact ⟨i, by simp [startsWithDigit, fractionDigits], h⟩
  case cons c rest hi =>
    rw [fractionLoop, dif_pos h.lt, h.getElem, fractionDigits]
    by_cases hc : isDigit c
    case neg =>
      rw [if_neg hc, if_neg hc]
      exact ⟨i, by simp [startsWithDigit, hc], h⟩
    case pos =>
      rw [if_pos hc, if_pos hc]
      obtain ⟨j, he, hj⟩ := hi (b := true) _ h.succ
      exact ⟨j, by rw [he]; simp [startsWithDigit, hc], hj⟩

end Cursor

open Cursor hiding stringViewToInt mantissa applyExponent stringViewToDouble

theorem cursor_stringViewToInt (sv : Bytes) :
    Cursor.stringViewToInt sv = (stringViewToInt sv).mapError .fault := by
  by_cases hb : (skipBlanks sv).isEmpty
  case pos =>
    have hlt : ¬skipWhile isBlank sv 0 < sv.length := fun h => skipWhile_lt_iff sv |>.mp h hb
    rw [Cursor.stringViewToInt, dif_neg hlt, stringViewToInt, if_pos hb, ite_self]
    rfl
  case neg =>
    have hlt := skipWhile_lt_iff sv |>.mpr hb
    have hne := not_isEmpty_of_skipBlanks hb
    obtain ⟨i, hs, hi⟩ := signAt_at (skipBlanks_at sv) hlt
    have hd : isAt isDigit sv i = startsWithDigit (takeSign (skipBlanks sv)).2 := hi.isAt_eq
    obtain ⟨j, hloop, hj⟩ := intLoop_at hi le_rfl (by decide)
    have hend := skipWhile_end_iff hj
    obtain ⟨h₀, h₁⟩ := intDigits_bounds (takeSign (skipBlanks sv)).2
    simp only [Cursor.stringViewToInt, stringViewToInt, if_neg hne, dif_pos hlt, if_neg hb, hs, hd]
    by_cases hstart : startsWithDigit (takeSign (skipBlanks sv)).2
    case neg =>
      simp only [hstart, Bool.not_false, if_true]
      rfl
    case pos =>
      simp only [hstart, hloop, Bool.not_true, Bool.false_eq_true, if_false, Except.ok_bind]
      by_cases he : (skipBlanks (intDigits 0 (takeSign (skipBlanks sv)).2).2).isEmpty
      case neg =>
        simp only [he, ne_eq, hend.not.mpr he, not_false_eq_true, Bool.not_false, if_true]
        rfl
      case pos =>
        simp only [he, ne_eq, hend.mpr he, not_true_eq_false, Bool.not_true, Bool.false_eq_true, if_false]
        cases (takeSign (skipBlanks sv)).1
        case false => rfl
        case true  => exact toInt_neg h₀ h₁

theorem cursor_exponentPart (h : At sv i (c :: rest)) (hc : c = 101 ∨ c = 69) (v : ℚ) :
    match applyExponent v (c :: rest) with
    | .error f       => exponentPart sv (i + 1) v = .error (.fault f)
    | .ok (v', rest) => ∃ j, (exponentPart sv (i + 1) v = .ok (j, v')) ∧ At sv j rest := by
  obtain ⟨j, hs, hj⟩ : ∃ j, ((if h : i + 1 < sv.length then signAt sv (i + 1) h else (false, i + 1)) =
      ((takeSign rest).1, j)) ∧ At sv j (takeSign rest).2 := by
    by_cases hlt : i + 1 < sv.length
    case pos =>
      rw [dif_pos hlt]
      exact signAt_at h.succ hlt
    case neg =>
      obtain rfl : rest = [] := h.succ.end_iff.mp <| Nat.le_antisymm h.succ.le (Nat.le_of_not_lt hlt)
      rw [dif_neg hlt]
      exact ⟨i + 1, rfl, h.succ⟩
  have hd : isAt isDigit sv j = startsWithDigit (takeSign rest).2 := hj.isAt_eq
  obtain ⟨k, hloop, hk⟩ := exponentLoop_at hj le_rfl (by decide)
  obtain ⟨h₀, h₁⟩ := exponentDigits_bounds (takeSign rest).2
  rw [applyExponent, if_pos hc, exponentPart, hs]
  by_cases hstart : startsWithDigit (takeSign rest).2
  case neg => simp only [hstart, hd, Bool.not_false, if_true]; rfl
  case pos =>
    simp only [hstart, hd, hloop, Bool.not_true, Bool.false_eq_true, if_false, Except.ok_bind,
      Except.pure_eq_ok]
    refine ⟨k, ?_, hk⟩
    cases (takeSign rest).1
    case false => rfl
    case true  => simp only [if_true, toInt_neg h₀ h₁, Except.ok_bind]

theorem cursor_mantissa (h : At sv i rest) :
    ∃ j, (Cursor.mantissa sv i = (j, (mantissa rest).2.1, (mantissa rest).1)) ∧
      At sv j (mantissa rest).2.2 := by
  obtain ⟨j, hw, hj⟩ := wholeLoop_at (b := false) (v := 0) h
  have hp : isAt (· = 46) sv j = (wholeDigits 0 rest).2.head?.any (· = 46) := hj.isAt_eq
  cases hr : (wholeDigits 0 rest).2
  case nil =>
    simp only [Cursor.mantissa, mantissa, hw, hp, hr] at hj ⊢
    exact ⟨j, by simp, hj⟩
  case cons c rest' =>
    rw [hr] at hj
    by_cases hc : c = 46
    case pos =>
      subst hc
      obtain ⟨k, hf, hk⟩ :=
        fractionLoop_at (b := startsWithDigit rest) (v := (wholeDigits 0 rest).1) (1 / 10) hj.succ
      simp only [Cursor.mantissa, mantissa, hw, hp, hr, Bool.false_or]
      exact ⟨k, by simpa using hf, hk⟩
    case neg =>
      have hm : mantissa rest = ((wholeDigits 0 rest).1, startsWithDigit rest, c :: rest') := by
        simp only [mantissa, hr]
        split
        case h_1 he => exact absurd (List.cons.inj he).left hc
        case h_2    => rfl
      simp only [Cursor.mantissa, hw, hp, hr, hm]
      exact ⟨j, by simp [hc], hj⟩

theorem cursor_applyExponent (h : At sv i rest) (v : ℚ) :
    match applyExponent v rest with
    | .error f       => Cursor.applyExponent sv i v = .error (.fault f)
    | .ok (v', rest) => ∃ j, (Cursor.applyExponent sv i v = .ok (j, v')) ∧ At sv j rest := by
  rw [Cursor.applyExponent, h.isAt_eq]
  cases rest
  case nil => exact ⟨i, rfl, h⟩
  case cons c rest =>
    by_cases hc : c = 101 ∨ c = 69
    case pos =>
      have he : (decide (c = 101) || decide (c = 69)) = true := by simpa using hc
      simp only [List.head?_cons, Option.any_some, he, if_true]
      exact cursor_exponentPart h hc v
    case neg =>
      have he : (decide (c = 101) || decide (c = 69)) = false := by simpa using hc
      simp only [List.head?_cons, Option.any_some, he, Bool.false_eq_true, if_false, applyExponent, if_neg hc]
      exact ⟨i, rfl, h⟩

theorem cursor_stringViewToDouble (sv : Bytes) :
    Cursor.stringViewToDouble sv = (stringViewToDouble sv).mapError .fault := by
  by_cases hb : (skipBlanks sv).isEmpty
  case pos =>
    have hlt : ¬skipWhile isBlank sv 0 < sv.length := fun h => skipWhile_lt_iff sv |>.mp h hb
    rw [Cursor.stringViewToDouble, dif_neg hlt, stringViewToDouble, if_pos hb, ite_self]
    rfl
  case neg =>
    have hlt := skipWhile_lt_iff sv |>.mpr hb
    have hne := not_isEmpty_of_skipBlanks hb
    obtain ⟨i, hs, hi⟩ := signAt_at (skipBlanks_at sv) hlt
    obtain ⟨j, hm, hj⟩ := cursor_mantissa hi
    simp only [Cursor.stringViewToDouble, stringViewToDouble, if_neg hne, dif_pos hlt, if_neg hb, hs, hm]
    generalize mantissa (takeSign (skipBlanks sv)).2 = m at hj
    cases hdigit : m.2.1
    case false =>
      simp only [Bool.not_false, if_true]
      rfl
    case true =>
      have hexp := cursor_applyExponent hj m.1
      simp only [Bool.not_true, Bool.false_eq_true, if_false]
      cases he : applyExponent m.1 m.2.2
      case error f =>
        simp only [he] at hexp
        rw [hexp]
        rfl
      case ok r =>
        simp only [he] at hexp
        obtain ⟨k, hexp, hk⟩ := hexp
        have hend := skipWhile_end_iff hk
        rw [hexp, Except.ok_bind, Except.ok_bind]
        by_cases hr : (skipBlanks r.2).isEmpty
        case neg =>
          simp only [hr, ne_eq, hend.not.mpr hr, not_false_eq_true, Bool.not_false, if_true]
          rfl
        case pos =>
          simp only [hr, ne_eq, hend.mpr hr, not_true_eq_false, Bool.not_true, Bool.false_eq_true, if_false]
          rfl

theorem stringViewToInt_error (h : stringViewToInt sv = .error f) : f = .invalidArgument := by
  simp only [stringViewToInt] at h
  split at h
  case isTrue => exact (Except.error.inj h).symm
  case isFalse =>
    split at h
    case isTrue => exact (Except.error.inj h).symm
    case isFalse =>
      split at h
      case isTrue  => exact (Except.error.inj h).symm
      case isFalse => contradiction

theorem applyExponent_error {v : ℚ} (h : applyExponent v rest = .error f) : f = .invalidArgument := by
  cases rest
  case nil => contradiction
  case cons c rest =>
    simp only [applyExponent] at h
    split at h
    case isFalse => contradiction
    case isTrue =>
      split at h
      case isTrue  => exact (Except.error.inj h).symm
      case isFalse => contradiction

theorem stringViewToDouble_error (h : stringViewToDouble sv = .error f) : f = .invalidArgument := by
  simp only [stringViewToDouble] at h
  split at h
  case isTrue => exact (Except.error.inj h).symm
  case isFalse =>
    split at h
    case isTrue => exact (Except.error.inj h).symm
    case isFalse =>
      cases hexp : applyExponent (mantissa (takeSign (skipBlanks sv)).2).1
        (mantissa (takeSign (skipBlanks sv)).2).2.2
      case error =>
        rw [hexp] at h
        exact Except.error.inj h ▸ applyExponent_error hexp
      case ok =>
        rw [hexp, Except.ok_bind] at h
        split at h
        case isTrue  => exact (Except.error.inj h).symm
        case isFalse => contradiction

theorem Cursor.At.of_append {pre : Bytes} (h : sv = pre ++ rest) : At sv pre.length rest :=
  ⟨by simp [h], by simp [h]⟩

theorem Cursor.At.behind (h : At sv i (cs ++ rest)) (hj : At sv j rest) : j = i + cs.length := by
  have h₁ := congrArg List.length h.drop
  have h₂ := congrArg List.length hj.drop
  have := h.le
  have := hj.le
  simp only [List.length_drop, List.length_append] at h₁ h₂
  omega

section

variable {pre : Bytes} (hsv : sv = pre ++ (cs ++ rest)) (hc : Digits cs) (hr : Stops isDigit rest)

include hsv hc hr

theorem intLoop_digits :
    intLoop sv pre.length 0 = .ok (pre.length + cs.length, min intMax (value cs)) := by
  have h := At.of_append hsv
  obtain ⟨htake, hdrop⟩ := takeWhile_append hc hr
  obtain ⟨j, hloop, hj⟩ := intLoop_at h le_rfl (by decide)
  have heq := intDigits_eq (cs ++ rest) 0 (by decide)
  rw [Nat.cast_zero, htake, hdrop] at heq
  rw [heq] at hloop hj
  rw [hloop, h.behind hj]
  rfl

theorem exponentLoop_digits {v : Nat} (hv : v ≤ intMax) :
    exponentLoop sv pre.length v = .ok (pre.length + cs.length, min intMax (accumulate cs v)) := by
  have h := At.of_append hsv
  obtain ⟨htake, hdrop⟩ := takeWhile_append hc hr
  obtain ⟨j, hloop, hj⟩ := exponentLoop_at h (Int.natCast_nonneg v) hv
  have heq := exponentDigits_eq (cs ++ rest) v hv
  rw [htake, hdrop] at heq
  rw [heq] at hloop hj
  rw [hloop, h.behind hj]

end

theorem Except.mapError_ok_iff {x : Except ε α} {g : ε → ε'} : x.mapError g = .ok y ↔ x = .ok y := by
  cases x <;> simp [Except.mapError]

-- An integer is read off exactly those texts that denote one. What the loop over its digits has got is right
-- up to the limit, and the cursor is behind the digits then.
theorem stringViewToInt_accepts (sv : Bytes) :
    (∀ r, Cursor.stringViewToInt sv = .ok r ↔
      ∃ b s n cs b', Blanks b ∧ Sign s n ∧ Digits cs ∧ cs ≠ [] ∧ Blanks b' ∧
        (sv = b ++ (s ++ (cs ++ b'))) ∧ (r = n * min (value cs : Int) intMax)) ∧
    ((¬∃ n, DenotesInt sv n) → Cursor.stringViewToInt sv = .error (.fault .invalidArgument)) ∧
    (∀ pre cs rest, sv = pre ++ (cs ++ rest) → Digits cs → Stops isDigit rest →
      intLoop sv pre.length 0 = .ok (pre.length + cs.length, min intMax (value cs))) := by
  rw [cursor_stringViewToInt]
  refine ⟨fun r => ?_, fun hn => ?_, fun pre cs rest => intLoop_digits⟩
  · rw [Except.mapError_ok_iff]
    constructor
    case mp =>
      intro h
      obtain ⟨_, hd⟩ := denotes_of_stringViewToInt h
      have hr := Except.ok.inj <| h.symm.trans <| stringViewToInt_of_denotes hd
      cases hd
      case mk b s n cs b' hb hs hc hne hb' =>
        exact ⟨b, s, n, cs, b', hb, hs, hc, hne, hb', rfl, by
          rw [hr, ← hs.clamp, intMax_eq, min_comm]⟩
    case mpr =>
      rintro ⟨b, s, n, cs, b', hb, hs, hc, hne, hb', rfl, rfl⟩
      rw [stringViewToInt_of_denotes (.mk hb hs hc hne hb'), ← hs.clamp, intMax_eq, min_comm]
  · cases h : stringViewToInt sv
    case error => rw [stringViewToInt_error h]; rfl
    case ok    => exact absurd (denotes_of_stringViewToInt h) hn

-- A number is read off exactly those texts that have a mantissa and perhaps an exponent.
theorem stringViewToDouble_accepts (sv : Bytes) :
    ((∃ d, Cursor.stringViewToDouble sv = .ok d) ↔ ∃ m e, Scientific sv m e) ∧
    (∀ m e, Scientific sv m e → |e| ≤ intMax →
      Cursor.stringViewToDouble sv = .ok (.finite (m * 10 ^ e))) ∧
    ((¬∃ m e, Scientific sv m e) →
      Cursor.stringViewToDouble sv = .error (.fault .invalidArgument)) ∧
    (∀ pre cs rest, sv = pre ++ (cs ++ rest) → Digits cs → Stops isDigit rest →
      (exponentLoop sv pre.length 0 = .ok (pre.length + cs.length, min intMax (value cs))) ∧
      (exponentLoop sv pre.length intMax = .ok (pre.length + cs.length, intMax))) := by
  rw [cursor_stringViewToDouble]
  refine ⟨?_, fun m e h he => ?_, fun hn => ?_, fun pre cs rest hsv hc hr => ⟨?_, ?_⟩⟩
  · simp only [Except.mapError_ok_iff]
    exact ⟨fun ⟨_, h⟩ => scientific_of_stringViewToDouble h,
      fun ⟨_, _, h⟩ => ⟨_, stringViewToDouble_of_scientific h⟩⟩
  · rw [stringViewToDouble_of_scientific h, clamp_of_abs_le (intMax_eq ▸ he)]
    rfl
  · cases h : stringViewToDouble sv
    case error => rw [stringViewToDouble_error h]; rfl
    case ok    => exact absurd (scientific_of_stringViewToDouble h) hn
  · exact exponentLoop_digits hsv hc hr (v := 0) (by decide)
  · have hmax := exponentLoop_digits hsv hc hr (v := intLimit) (by decide)
    have hle := le_accumulate cs intLimit
    rw [min_eq_left (by rw [intMax_eq]; omega)] at hmax
    exact hmax
