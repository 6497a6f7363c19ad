import FlowerExchange.Lib.Relabel
import FlowerExchange.Matching.Market

open Resting

structure Relabeling (P P' : Type) [LinearOrder P] [LinearOrder P'] where
  side     : Side → Side
  price    : P → P'
  proper   : P → Prop
  opposite : ∀ s, side s.opposite = (side s).opposite
  better   : ∀ {s p q}, proper p → proper q → ((side s).better (price p) (price q) ↔ s.better p q)

namespace Market

variable {I P P' D D' : Type} [LinearOrder P] [LinearOrder P'] {e : Relabeling P P'}
variable {tag : Nat → D → Nat × D'}

structure Relabeled (e : Relabeling P P') (tag : Nat → D → Nat × D') (i : I) (m : Market I P D)
    (m' : Market I P' D') : Prop where
  proper  : ∀ side, ∀ r ∈ m.resting side i, e.proper r.price
  resting : ∀ side, m'.resting (e.side side) i = (m.resting side i).map (relabel e.price tag)

namespace Relabeled

variable {m : Market I P D} {m' : Market I P' D'} {i : I} {price : P} {side : Side} {data : D}
variable {data' : D'}

theorem opposite (h : Relabeled e tag i m m') (side : Side) :
    m'.resting (e.side side).opposite i = (m.resting side.opposite i).map (relabel e.price tag) := by
  rw [← e.opposite, h.resting]

theorem better_iff (h : Relabeled e tag i m m') (hp : e.proper price) (side : Side) :
    ∀ r ∈ m.resting side i,
      (e.side side).better (e.price price) (e.price r.price) ↔ side.better price r.price :=
  fun r hr => e.better hp (h.proper side r hr)

theorem opposite_better_iff (h : Relabeled e tag i m m') (hp : e.proper price) (side : Side) :
    ∀ r ∈ m.resting side.opposite i, (e.side side).opposite.better (e.price price) (e.price r.price) ↔
      side.opposite.better price r.price := by
  rw [← e.opposite]
  exact h.better_iff hp side.opposite

theorem matched (h : Relabeled e tag i m m') (hp : e.proper price) (side : Side) :
    m'.matched (e.side side) i (e.price price) =
      (m.matched side i price).map (relabel e.price tag) := by
  rw [Market.matched, h.opposite]
  exact matching_relabel (h.opposite_better_iff hp side)

theorem unmatched (h : Relabeled e tag i m m') (hp : e.proper price) (side : Side) :
    m'.unmatched (e.side side) i (e.price price) =
      (m.unmatched side i price).map (relabel e.price tag) := by
  rw [Market.unmatched, h.opposite]
  exact rest_relabel (h.opposite_better_iff hp side)

theorem trades (h : Relabeled e tag i m m') (hp : e.proper price) (side : Side) (quantity : Nat) :
    m'.trades (e.side side) i (e.price price) quantity =
      (m.trades side i price quantity).map (Prod.map (relabel e.price tag) id) := by
  rw [Market.trades, h.matched hp, fill_relabel, Market.trades]

theorem opposing (h : Relabeled e tag i m m') (hp : e.proper price) (side : Side) (quantity : Nat) :
    m'.opposing (e.side side) i (e.price price) quantity =
      (m.opposing side i price quantity).map (relabel e.price tag) := by
  rw [Market.opposing, h.matched hp, h.unmatched hp, residual_relabel, ← List.map_append,
    Market.opposing]

theorem remainder (h : Relabeled e tag i m m') (hp : e.proper price) (side : Side) (quantity : Nat) :
    m'.remainder (e.side side) i (e.price price) quantity = m.remainder side i price quantity := by
  rw [Market.remainder, h.matched hp, total_relabel, Market.remainder]

theorem joined (h : Relabeled e tag i m m') (hp : e.proper price) (ht : tag m.now data = (m'.now, data'))
    (side : Side) (quantity : Nat) :
    m'.joined (e.side side) i (e.price price) quantity data' =
      (m.joined side i price quantity data).map (relabel e.price tag) := by
  let x : Resting P D := ⟨price, m.now, m.remainder side i price quantity, data⟩
  have hx : (⟨e.price price, m'.now, m.remainder side i price quantity, data'⟩ : Resting P' D') =
      relabel e.price tag x := by
    simp [relabel, x, ht]
  simp only [Market.joined, h.remainder hp, h.resting, hx]
  split
  · exact enqueue_relabel (h.better_iff hp side)
  · rfl

variable [DecidableEq I]

theorem submit (h : Relabeled e tag i m m') (hp : e.proper price)
    (ht : tag m.now data = (m'.now, data')) (side : Side) (quantity : Nat) :
    Relabeled e tag i (m.submit side i price quantity data)
      (m'.submit (e.side side) i (e.price price) quantity data') where
  proper s r hr := by
    rcases side.eq_or_eq_opposite s with rfl | rfl
    · simp only [Market.submit, restingAfter_self] at hr
      rcases mem_joined hr with ⟨rfl, _⟩ | hr
      · exact hp
      · exact h.proper _ r hr
    · simp only [Market.submit, restingAfter_opposite] at hr
      obtain ⟨r', hr', hk, _⟩ := mem_opposing hr
      have he : r.price = r'.price := congrArg Prod.fst hk
      exact he ▸ h.proper _ r' hr'
  resting s := by
    rcases side.eq_or_eq_opposite s with rfl | rfl
    · simp only [Market.submit, restingAfter_self]
      exact h.joined hp ht _ quantity
    · simp only [Market.submit, e.opposite, restingAfter_opposite]
      exact h.opposing hp _ quantity

theorem submit_ne {i' : I} {quantity : Nat} (h : Relabeled e tag i m m') (hi : i ≠ i') :
    Relabeled e tag i (m.submit side i' price quantity data) m' where
  proper s r hr := by
    simp only [Market.submit, restingAfter_ne hi] at hr
    exact h.proper s r hr
  resting s := by
    simp only [Market.submit, restingAfter_ne hi]
    exact h.resting s

theorem submit_ne' {i' : I} {price' : P'} {quantity : Nat} (h : Relabeled e tag i m m')
    (hi : i ≠ i') :
    Relabeled e tag i m (m'.submit side i' price' quantity data') where
  proper := h.proper
  resting s := by
    simp only [Market.submit, restingAfter_ne hi]
    exact h.resting s

end Relabeled

end Market
