import FlowerExchange.Common.Types

open RuntimeConfig

-- `none` says that the order is valid, and otherwise there is a reason why it is not.
def validateOrder (instrument : InstrumentType) (side : Int) (price : Double) (quantity : Int) :
    Option Bytes :=
  if instrument = .count then
    some <| ascii "Invalid instrument"
  else if side ≠ Side.buy.toInt ∧ side ≠ Side.sell.toInt then
    some <| ascii "Invalid side"
  else if quantity.tmod quantityMultiple ≠ 0 ∨ quantity < minQuantity ∨ quantity > maxQuantity then
    some <| ascii "Invalid size"
  else
    match price with
    | .finite q =>
      if q ≤ minValidPrice ∨ q > maxValidPrice then some <| ascii "Invalid price" else none
    | _ => some <| ascii "Invalid price"

theorem validateOrder_eq_none_iff :
    (validateOrder instrument side price quantity = none) ↔
      (instrument ≠ .count) ∧ (∃ s : Side, side = s.toInt) ∧
      (10 ∣ quantity ∧ 10 ≤ quantity ∧ quantity ≤ 1000) ∧ (∃ q, price = .finite q ∧ 0 < q ∧ q ≤ 1000) := by
  have hs : (¬(side ≠ Side.buy.toInt ∧ side ≠ Side.sell.toInt)) ↔ ∃ s : Side, side = s.toInt := by
    refine ⟨fun h => ?_, ?_⟩
    · by_cases hb : side = Side.buy.toInt
      · exact ⟨.buy, hb⟩
      · exact ⟨.sell, by_contra fun hn => h ⟨hb, hn⟩⟩
    · rintro ⟨s, rfl⟩
      cases s <;> simp [Side.toInt]
  have hq : (¬(quantity.tmod quantityMultiple ≠ 0 ∨ quantity < minQuantity ∨ quantity > maxQuantity)) ↔
      (10 ∣ quantity ∧ 10 ≤ quantity ∧ quantity ≤ 1000) := by
    simp only [quantityMultiple, minQuantity, maxQuantity, not_or, not_not, not_lt, gt_iff_lt,
      Int.dvd_iff_tmod_eq_zero]
  have hp : maxValidPrice = 1000 := by norm_num [maxValidPrice, maxValidTick, orderBookTickCapacity, tickSize]
  rw [← hs, ← hq]
  simp only [validateOrder]
  split
  case isTrue h => simp [h]
  case isFalse h =>
    split
    case isTrue hside => simp [hside]
    case isFalse hside =>
      split
      case isTrue hquantity => simp [hquantity]
      case isFalse hquantity =>
        cases price <;> simp [h, hside, hquantity, hp, minValidPrice]

def rejectReasons : List Bytes :=
  [ascii "Invalid instrument", ascii "Invalid side", ascii "Invalid size", ascii "Invalid price"]

theorem validateOrder_reason_mem (h : validateOrder instrument side price quantity = some reason) :
    reason ∈ rejectReasons := by
  simp only [validateOrder] at h
  repeat' split at h
  all_goals first | contradiction | (cases h; decide)
