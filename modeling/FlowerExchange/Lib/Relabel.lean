import FlowerExchange.Lib.PriceTime

-- Offers that differ in their prices and names only are served alike.
namespace Resting

variable {P D P' D' : Type _}

def relabel (price : P → P') (tag : Nat → D → Nat × D') (r : Resting P D) : Resting P' D' where
  price    := price r.price
  stamp    := (tag r.stamp r.data).1
  quantity := r.quantity
  data     := (tag r.stamp r.data).2

variable {price : P → P'} {tag : Nat → D → Nat × D'} {l : List (Resting P D)} {r : Resting P D}

@[simp]
theorem relabel_quantity : (relabel price tag r).quantity = r.quantity :=
  rfl

@[simp]
theorem relabel_price : (relabel price tag r).price = price r.price :=
  rfl

theorem total_relabel : total (l.map <| relabel price tag) = total l := by
  simp [total, Function.comp_def]

theorem fill_relabel (q : Nat) :
    fill q (l.map <| relabel price tag) = (fill q l).map (Prod.map (relabel price tag) id) := by
  induction l generalizing q
  case nil => rfl
  case cons hi =>
    rcases Nat.eq_zero_or_pos q with rfl | h
    · simp
    · simp [fill_cons h, hi]

theorem residual_relabel (q : Nat) :
    residual q (l.map <| relabel price tag) = (residual q l).map (relabel price tag) := by
  induction l generalizing q
  case nil => rfl
  case cons r _ hi =>
    rcases Nat.lt_or_ge q r.quantity with h | h
    · rw [List.map_cons, residual_cons_lt h, residual_cons_lt (by exact h)]
      rfl
    · rw [List.map_cons, residual_cons_le h, residual_cons_le (by exact h), ← hi]
      rfl

section

variable {better : P → P → Prop} {better' : P' → P' → Prop} [DecidableRel better]
variable [DecidableRel better'] {limit : P} {x : Resting P D}

theorem matching_relabel (h : ∀ r ∈ l, better' (price limit) (price r.price) ↔ better limit r.price) :
    matching better' (price limit) (l.map <| relabel price tag) =
      (matching better limit l).map (relabel price tag) := by
  rw [matching, matching, List.filter_map]
  refine congrArg _ <| List.filter_congr fun r hr => ?_
  simp [h r hr]

theorem rest_relabel (h : ∀ r ∈ l, better' (price limit) (price r.price) ↔ better limit r.price) :
    rest better' (price limit) (l.map <| relabel price tag) =
      (rest better limit l).map (relabel price tag) := by
  rw [rest, rest, List.filter_map]
  refine congrArg _ <| List.filter_congr fun r hr => ?_
  simp [h r hr]

theorem enqueue_relabel (h : ∀ r ∈ l, better' (price x.price) (price r.price) ↔ better x.price r.price) :
    enqueue better' (relabel price tag x) (l.map <| relabel price tag) =
      (enqueue better x l).map (relabel price tag) := by
  induction l
  case nil => rfl
  case cons r _ hi =>
    have hr := h r <| .head _
    have hi := hi fun r hr => h r <| .tail _ hr
    simp only [enqueue] at hi
    by_cases hb : better x.price r.price
    · simp [enqueue, hr, hb]
    · simp [enqueue, hr, hb, hi]

end

theorem level_relabel [DecidableEq P] [DecidableEq P'] {p : P}
    (h : ∀ r ∈ l, price r.price = price p ↔ r.price = p) :
    level (price p) (l.map <| relabel price tag) = (level p l).map (relabel price tag) := by
  rw [level, level, List.filter_map]
  refine congrArg _ <| List.filter_congr fun r hr => ?_
  simp [h r hr]

end Resting
