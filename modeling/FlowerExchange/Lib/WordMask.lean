import Mathlib

namespace BitVec

variable {w : Nat} {x : BitVec w} {i k : Nat}

theorem getLsbD_ones (h : k < w) : ((1#w <<< k) - 1#w).getLsbD i = decide (i < k) := by
  have hp : 1 ≤ 2 ^ k := Nat.one_le_two_pow
  have hw : 2 ^ k < 2 ^ w := Nat.pow_lt_pow_right (by omega) h
  have h1 : 1 < 2 ^ w := Nat.one_lt_two_pow (by omega)
  have he : ((1#w <<< k) - 1#w).toNat = 2 ^ k - 1 := by
    simp only [toNat_sub, toNat_shiftLeft, toNat_ofNat, Nat.shiftLeft_eq]
    rw [Nat.mod_eq_of_lt h1, one_mul, Nat.mod_eq_of_lt hw,
      show 2 ^ w - 1 + 2 ^ k = (2 ^ k - 1) + 2 ^ w by omega, Nat.add_mod_right]
    exact Nat.mod_eq_of_lt (by omega)
  rw [getLsbD, he, Nat.testBit_two_pow_sub_one]

theorem getLsbD_keep_below (h : k < w) :
    (x &&& ((1#w <<< k) - 1#w)).getLsbD i = (x.getLsbD i && decide (i < k)) := by
  rw [getLsbD_and, getLsbD_ones h]

theorem getLsbD_keep_above (h : k + 1 < w) :
    (x &&& ~~~((1#w <<< (k + 1)) - 1#w)).getLsbD i = (x.getLsbD i && decide (k < i)) := by
  rw [getLsbD_and, getLsbD_not, getLsbD_ones h]
  by_cases hi : i < w
  case pos =>
    have : decide (k < i) = !decide (i < k + 1) := by grind
    simp [hi, this]
  case neg => simp [x.getLsbD_of_ge i (by omega)]

theorem isLeast_ctz (h : x ≠ 0#w) : IsLeast { i | x.getLsbD i = true } x.ctz.toNat where
  left := getLsbD_true_ctz_of_ne_zero h
  right i hi := by
    by_contra hc
    simp [getLsbD_false_of_lt_ctz (by omega : i < x.ctz.toNat)] at hi

theorem isGreatest_clz (h : x ≠ 0#w) :
    IsGreatest { i | x.getLsbD i = true } (w - 1 - x.clz.toNat) where
  left := getLsbD_true_clz_of_ne_zero (by rcases w with _ | w; exact absurd x.eq_nil h; omega) h
  right i hi := by
    have hl := x.toNat_lt_two_pow_sub_clz
    have hg := Nat.ge_two_pow_of_testBit hi
    have := Nat.pow_lt_pow_iff_right (by omega : 1 < 2) |>.mp <| lt_of_le_of_lt hg hl
    omega

end BitVec

-- A set of natural numbers, stored as a list of `w`-bit words.
namespace WordMask

variable {w : Nat} {ws : List (BitVec w)} {x b : BitVec w} {t u i j : Nat}

def Mem (ws : List (BitVec w)) (t : Nat) : Prop :=
  ∃ x, ws[t / w]? = some x ∧ x.getLsbD (t % w) = true

theorem not_mem_replicate_zero : ¬Mem (List.replicate n 0#w) t := by
  rintro ⟨x, hx, hb⟩
  simp [List.getElem?_replicate] at hx
  simp [← hx.right] at hb

theorem eq_of_div_eq_of_mod_eq (hd : u / w = t / w) (hm : u % w = t % w) : u = t := by
  rw [← Nat.div_add_mod u w, ← Nat.div_add_mod t w, hd, hm]

theorem mem_insert (hw : 0 < w) (h : ws[t / w]? = some x) :
    Mem (ws.set (t / w) (x ||| 1#w <<< (t % w))) u ↔ (u = t ∨ Mem ws u) := by
  have ht : t % w < w := Nat.mod_lt _ hw
  have hu : u % w < w := Nat.mod_lt _ hw
  have hl : t / w < ws.length := (List.getElem?_eq_some_iff.mp h).choose
  by_cases hd : u / w = t / w
  case neg =>
    have hne : u ≠ t := fun h => hd (h ▸ rfl)
    simp [Mem, List.getElem?_set_ne (Ne.symm hd), hne]
  case pos =>
    have hb : (1#w <<< (t % w)).getLsbD (u % w) = true ↔ u = t := by
      constructor
      · intro h
        simp at h
        exact eq_of_div_eq_of_mod_eq hd (by omega)
      · rintro rfl
        simp [hu]
    simp only [Mem, hd, List.getElem?_set_self hl, h, Option.some.injEq, exists_eq_left',
      BitVec.getLsbD_or, Bool.or_eq_true, hb]
    tauto

theorem mem_erase (hw : 0 < w) (h : ws[t / w]? = some x) :
    Mem (ws.set (t / w) (x &&& ~~~(1#w <<< (t % w)))) u ↔ (u ≠ t ∧ Mem ws u) := by
  have ht : t % w < w := Nat.mod_lt _ hw
  have hu : u % w < w := Nat.mod_lt _ hw
  have hl : t / w < ws.length := (List.getElem?_eq_some_iff.mp h).choose
  by_cases hd : u / w = t / w
  case neg =>
    have hne : u ≠ t := fun h => hd (h ▸ rfl)
    simp [Mem, List.getElem?_set_ne (Ne.symm hd), hne]
  case pos =>
    have hb : (~~~(1#w <<< (t % w))).getLsbD (u % w) = true ↔ u ≠ t := by
      constructor
      · rintro h rfl
        simp [hu] at h
      · intro hne
        have : u % w ≠ t % w := fun hm => hne <| eq_of_div_eq_of_mod_eq hd hm
        simp [hu]
        omega
    simp only [Mem, hd, List.getElem?_set_self hl, h, Option.some.injEq, exists_eq_left',
      BitVec.getLsbD_and, Bool.and_eq_true, hb]
    tauto

theorem div_of_word (hj : j < w) : (i * w + j) / w = i := by
  rw [Nat.add_comm, Nat.add_mul_div_right _ _ (by omega), Nat.div_eq_of_lt hj, Nat.zero_add]

theorem mod_of_word (hj : j < w) : (i * w + j) % w = j := by
  rw [Nat.add_comm, Nat.add_mul_mod_self_right, Nat.mod_eq_of_lt hj]

theorem mem_word (h : ws[i]? = some x) (hj : j < w) :
    Mem ws (i * w + j) ↔ (x.getLsbD j = true) := by
  simp [Mem, div_of_word hj, mod_of_word hj, h]

theorem not_mem_of_zero_word (h : ws[u / w]? = some 0#w) : ¬Mem ws u := by
  rintro ⟨x, hx, hb⟩
  cases h ▸ hx
  simp at hb

theorem Mem.div_lt (h : Mem ws t) : t / w < ws.length :=
  have ⟨_, hx, _⟩ := h
  (List.getElem?_eq_some_iff.mp hx).choose

-- An upward search that ends in word `i` has found the least member above `t`, if there are no such
-- members in the words below `i`, and `b` holds those that lie in word `i`.
theorem isLeast_word (hb : ∀ j < w, b.getLsbD j = true ↔ (t < i * w + j ∧ Mem ws (i * w + j)))
    (hl : ∀ u, t < u → Mem ws u → i ≤ u / w) (hz : b ≠ 0#w) :
    IsLeast { u | t < u ∧ Mem ws u } (i * w + b.ctz.toNat) := by
  have ⟨hc, hm⟩ := BitVec.isLeast_ctz hz
  have hj : b.ctz.toNat < w := BitVec.lt_of_getLsbD hc
  refine ⟨hb _ hj |>.mp hc, fun u ⟨ht, hu⟩ => ?_⟩
  have hw : 0 < w := by omega
  have hd := Nat.div_add_mod' u w
  rcases lt_or_eq_of_le <| hl u ht hu with h | h
  · calc i * w + b.ctz.toNat ≤ (i + 1) * w := by rw [Nat.add_mul, one_mul]; omega
      _ ≤ u / w * w := Nat.mul_le_mul_right _ h
      _ ≤ u := by omega
  · have hr := Nat.mod_lt u hw
    have := hm <| hb (u % w) hr |>.mpr ⟨by rw [h, hd]; exact ht, by rw [h, hd]; exact hu⟩
    rw [h]
    omega

theorem isGreatest_word (hb : ∀ j < w, b.getLsbD j = true ↔ (i * w + j < t ∧ Mem ws (i * w + j)))
    (hl : ∀ u, u < t → Mem ws u → u / w ≤ i) (hz : b ≠ 0#w) :
    IsGreatest { u | u < t ∧ Mem ws u } (i * w + (w - 1 - b.clz.toNat)) := by
  have ⟨hc, hm⟩ := BitVec.isGreatest_clz hz
  have hj : w - 1 - b.clz.toNat < w := BitVec.lt_of_getLsbD hc
  refine ⟨hb _ hj |>.mp hc, fun u ⟨ht, hu⟩ => ?_⟩
  have hw : 0 < w := by omega
  have hd := Nat.div_add_mod' u w
  have hr := Nat.mod_lt u hw
  rcases lt_or_eq_of_le <| hl u ht hu with h | h
  · have : (u / w + 1) * w ≤ i * w := Nat.mul_le_mul_right _ h
    rw [Nat.add_mul, one_mul] at this
    omega
  · have := hm <| hb (u % w) hr |>.mpr ⟨by rw [← h, hd]; exact ht, by rw [← h, hd]; exact hu⟩
    rw [← h]
    omega

end WordMask
