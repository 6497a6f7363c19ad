import FlowerExchange.Lib.PriceTime

-- How much is offered and traded at each price, and what becomes of it when a quantity is asked for in parts.
namespace Resting

variable {P D : Type _} [DecidableEq P] {l : List (Resting P D)} {r : Resting P D} {p : P} {q : Nat}

def depth (p : P) (l : List (Resting P D)) : Nat :=
  total (level p l)

def tradedAt (p : P) (trades : List (Resting P D × Nat)) : Nat :=
  trades.filter (·.1.price = p) |>.map Prod.snd |>.sum

@[simp]
theorem depth_nil : depth p ([] : List (Resting P D)) = 0 :=
  rfl

theorem depth_cons : depth p (r :: l) = (if r.price = p then r.quantity else 0) + depth p l := by
  rw [depth, level_cons]
  split <;> simp [depth]

@[simp]
theorem tradedAt_nil : tradedAt p ([] : List (Resting P D × Nat)) = 0 :=
  rfl

theorem tradedAt_cons {t : Resting P D × Nat} {trades : List (Resting P D × Nat)} :
    tradedAt p (t :: trades) = (if t.1.price = p then t.2 else 0) + tradedAt p trades := by
  simp only [tradedAt, List.filter_cons, decide_eq_true_eq]
  split <;> simp

theorem tradedAt_fill (h : ∀ r ∈ l, 0 < r.quantity) (q : Nat) :
    tradedAt p (fill q l) + depth p (residual q l) = depth p l := by
  induction l generalizing q
  case nil => rfl
  case cons r l hi =>
    obtain ⟨hr, hl⟩ := List.forall_mem_cons.mp h
    rcases Nat.eq_zero_or_pos q with rfl | hq
    · rw [fill_zero, residual_zero h, tradedAt_nil, Nat.zero_add]
    · rw [fill_cons hq, tradedAt_cons, depth_cons]
      rcases Nat.lt_or_ge q r.quantity with hlt | hle
      · rw [residual_cons_lt hlt, Nat.sub_eq_zero_of_le hlt.le, fill_zero, tradedAt_nil, depth_cons]
        simp only
        split <;> omega
      · rw [residual_cons_le hle, ← hi hl (q - r.quantity), Nat.min_eq_right hle]
        simp only
        omega

theorem depth_enqueue {better : P → P → Prop} [DecidableRel better] [IsStrictTotalOrder P better]
    (h : Sorted better l) :
    depth p (enqueue better r l) = depth p l + if r.price = p then r.quantity else 0 := by
  rw [depth, level_enqueue h]
  split <;> simp [depth, total]

omit [DecidableEq P] in
theorem total_residual (q : Nat) (l : List (Resting P D)) : total (residual q l) = total l - q := by
  induction l generalizing q
  case nil => simp
  case cons r l hi =>
    rcases Nat.lt_or_ge q r.quantity with h | h
    · simp only [residual_cons_lt h, total_cons]
      omega
    · rw [residual_cons_le h, hi, total_cons]
      omega

omit [DecidableEq P] in
theorem residual_add (q₁ q₂ : Nat) (l : List (Resting P D)) :
    residual (q₁ + q₂) l = residual q₂ (residual q₁ l) := by
  induction l generalizing q₁ q₂
  case nil => rfl
  case cons r l hi =>
    rcases Nat.lt_or_ge q₁ r.quantity with h₁ | h₁
    case inr =>
      rw [residual_cons_le h₁, residual_cons_le (by omega), Nat.sub_add_comm h₁, hi]
    case inl =>
      rw [residual_cons_lt h₁]
      rcases Nat.lt_or_ge (q₁ + q₂) r.quantity with h₂ | h₂
      · rw [residual_cons_lt h₂, residual_cons_lt (by simp only; omega)]
        simp only [Nat.sub_sub]
      · rw [residual_cons_le h₂, residual_cons_le (by simp only; omega)]
        congr 1
        simp only
        omega

section

variable {better : P → P → Prop} [DecidableRel better] {limit : P}

omit [DecidableEq P] in
theorem matching_residual (h : ∀ r ∈ l, ¬better limit r.price) (q : Nat) :
    matching better limit (residual q l) = residual q l ∧ rest better limit (residual q l) = [] := by
  have hr : ∀ r ∈ residual q l, ¬better limit r.price := by
    intro r hr
    obtain ⟨r', hm, hk, _⟩ := mem_residual hr
    have hp : r.price = r'.price := congrArg Prod.fst hk
    exact hp ▸ h r' hm
  exact ⟨List.filter_eq_self.mpr fun r hm => by simpa using hr r hm,
    List.filter_eq_nil_iff.mpr fun r hm => by simpa using hr r hm⟩

omit [DecidableEq P] in
theorem matching_after_fill (limit : P) (q : Nat) (l : List (Resting P D)) :
    let left := residual q (matching better limit l) ++ rest better limit l
    matching better limit left = residual q (matching better limit l) ∧
      rest better limit left = rest better limit l := by
  have hl : ∀ r ∈ matching better limit l, ¬better limit r.price := fun r hr => (mem_matching.mp hr).right
  obtain ⟨hm, hr⟩ := matching_residual hl q
  have hm' : matching better limit (rest better limit l) = [] :=
    List.filter_eq_nil_iff.mpr fun r hr => by simpa using (mem_rest.mp hr).right
  have hr' : rest better limit (rest better limit l) = rest better limit l :=
    List.filter_eq_self.mpr fun r hr => by simpa using (mem_rest.mp hr).right
  simp only [matching, rest, List.filter_append] at hm hr hm' hr' ⊢
  exact ⟨by rw [hm, hm', List.append_nil], by rw [hr, hr', List.nil_append]⟩

end

end Resting
