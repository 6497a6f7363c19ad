import FlowerExchange.Lib.PriceTime
import FlowerExchange.Common.Types

open Resting

-- What the exchange is for: a market keeps the orders of each side of each instrument in the order in
-- which they are to be served, and never holds two orders that could trade with each other.
structure Market (I P D : Type) [LinearOrder P] where
  now       : Nat
  resting   : Side → I → List (Resting P D)
  sorted    : ∀ side i, Sorted side.better (resting side i)
  past      : ∀ side i, ∀ r ∈ resting side i, r.stamp < now
  positive  : ∀ side i, ∀ r ∈ resting side i, 0 < r.quantity
  uncrossed : ∀ i, ∀ b ∈ resting .buy i, ∀ a ∈ resting .sell i, b.price < a.price

namespace Market

variable {I P D : Type} [LinearOrder P]

def empty : Market I P D where
  now       := 0
  resting   := fun _ _ => []
  sorted    := by simp
  past      := by simp
  positive  := by simp
  uncrossed := by simp

def skip (m : Market I P D) : Market I P D :=
  { m with
    now  := m.now + 1
    past := fun side i r hr => Nat.lt_succ_of_lt <| m.past side i r hr }

def matched (m : Market I P D) (side : Side) (i : I) (price : P) : List (Resting P D) :=
  matching side.opposite.better price (m.resting side.opposite i)

def unmatched (m : Market I P D) (side : Side) (i : I) (price : P) : List (Resting P D) :=
  rest side.opposite.better price (m.resting side.opposite i)

def trades (m : Market I P D) (side : Side) (i : I) (price : P) (quantity : Nat) :
    List (Resting P D × Nat) :=
  fill quantity <| m.matched side i price

def opposing (m : Market I P D) (side : Side) (i : I) (price : P) (quantity : Nat) :
    List (Resting P D) :=
  residual quantity (m.matched side i price) ++ m.unmatched side i price

def remainder (m : Market I P D) (side : Side) (i : I) (price : P) (quantity : Nat) : Nat :=
  quantity - total (m.matched side i price)

def joined (m : Market I P D) (side : Side) (i : I) (price : P) (quantity : Nat) (data : D) :
    List (Resting P D) :=
  if 0 < m.remainder side i price quantity
  then enqueue side.better ⟨price, m.now, m.remainder side i price quantity, data⟩ (m.resting side i)
  else m.resting side i

variable [DecidableEq I]

def restingAfter (m : Market I P D) (side : Side) (i : I) (price : P) (quantity : Nat) (data : D)
    (side' : Side) (i' : I) : List (Resting P D) :=
  if i' = i then
    if side' = side
    then m.joined side i price quantity data
    else m.opposing side i price quantity
  else
    m.resting side' i'

variable {m : Market I P D} {side side' : Side} {i i' : I} {price : P} {quantity : Nat} {data : D}
variable {r : Resting P D}

omit [DecidableEq I] in
theorem mem_opposing (h : r ∈ m.opposing side i price quantity) :
    ∃ r' ∈ m.resting side.opposite i, (r.key = r'.key) ∧ (r.quantity ≤ r'.quantity) := by
  rcases List.mem_append.mp h with h | h
  · have ⟨r', hr, hk⟩ := mem_residual h
    exact ⟨r', (mem_matching.mp hr).left, hk⟩
  · exact ⟨r, (mem_rest.mp h).left, rfl, le_rfl⟩

omit [DecidableEq I] in
theorem mem_joined (h : r ∈ m.joined side i price quantity data) :
    (r = ⟨price, m.now, m.remainder side i price quantity, data⟩ ∧
      0 < m.remainder side i price quantity) ∨ r ∈ m.resting side i := by
  rw [joined] at h
  split at h
  case isTrue hq  => exact mem_enqueue.mp h |>.imp_left (⟨·, hq⟩)
  case isFalse hq => exact .inr h

omit [DecidableEq I] in
theorem opposing_of_remainder (h : 0 < m.remainder side i price quantity) :
    m.opposing side i price quantity = m.unmatched side i price := by
  have : total (m.matched side i price) < quantity := by
    rw [remainder] at h
    omega
  rw [opposing, residual_of_total_le this.le, List.nil_append]

omit [DecidableEq I] in
theorem opposing_worse (m : Market I P D) (hx : x ∈ m.joined side i price quantity data)
    (hy : y ∈ m.opposing side i price quantity) : side.opposite.better x.price y.price := by
  have old {x y} (hx : x ∈ m.resting side i) (hy : y ∈ m.resting side.opposite i) :
      side.opposite.better x.price y.price := by
    cases side
    case buy  => exact m.uncrossed i x hx y hy
    case sell => exact m.uncrossed i y hy x hx
  rcases mem_joined hx with ⟨rfl, hq⟩ | hx
  · exact (mem_rest.mp <| opposing_of_remainder hq ▸ hy).right
  · have ⟨y', hy', hk, _⟩ := mem_opposing hy
    have hp : y.price = y'.price := congrArg Prod.fst hk
    exact hp ▸ old hx hy'

theorem restingAfter_self :
    m.restingAfter side i price quantity data side i = m.joined side i price quantity data := by
  simp [restingAfter]

theorem restingAfter_opposite :
    m.restingAfter side i price quantity data side.opposite i = m.opposing side i price quantity := by
  simp [restingAfter]

theorem restingAfter_ne (h : i' ≠ i) :
    m.restingAfter side i price quantity data side' i' = m.resting side' i' := by
  simp [restingAfter, h]

theorem restingAfter_cases {p : Side → I → List (Resting P D) → Prop}
    (own : p side i (m.joined side i price quantity data))
    (opp : p side.opposite i (m.opposing side i price quantity))
    (other : ∀ side' i', i' ≠ i → p side' i' (m.resting side' i')) (side' : Side) (i' : I) :
    p side' i' (m.restingAfter side i price quantity data side' i') := by
  by_cases hi : i' = i
  case neg =>
    rw [restingAfter_ne hi]
    exact other side' i' hi
  case pos =>
    subst hi
    rcases side.eq_or_eq_opposite side' with rfl | rfl
    · rwa [restingAfter_self]
    · rwa [restingAfter_opposite]

theorem mem_restingAfter (hr : r ∈ m.resting side' i')
    (hm : r ∈ m.matched side i price → ¬(side' = side.opposite ∧ i' = i)) :
    r ∈ m.restingAfter side i price quantity data side' i' := by
  by_cases hi : i' = i
  case neg => rwa [restingAfter_ne hi]
  case pos =>
    subst hi
    rcases side.eq_or_eq_opposite side' with rfl | rfl
    · rw [restingAfter_self, joined]
      split
      · exact mem_enqueue.mpr <| .inr hr
      · exact hr
    · rw [restingAfter_opposite]
      refine List.mem_append_right _ <| mem_rest.mpr ⟨hr, by_contra fun hb => ?_⟩
      exact hm (mem_matching.mpr ⟨hr, hb⟩) ⟨rfl, rfl⟩

def submit (m : Market I P D) (side : Side) (i : I) (price : P) (quantity : Nat) (data : D) :
    Market I P D where
  now     := m.now + 1
  resting := m.restingAfter side i price quantity data
  sorted  := by
    refine restingAfter_cases (p := fun side _ => Sorted side.better) ?_ ?_ fun s j _ => m.sorted s j
    · rw [joined]
      split
      · exact sorted_enqueue (m.sorted side i) (m.past side i)
      · exact m.sorted side i
    · exact m.sorted _ i |>.after_fill quantity price
  past    := by
    refine restingAfter_cases (p := fun _ _ l => ∀ r ∈ l, r.stamp < m.now + 1) ?_ ?_ ?_
    · intro r hr
      rcases mem_joined hr with ⟨rfl, _⟩ | hr
      · exact Nat.lt_succ_self _
      · exact Nat.lt_succ_of_lt <| m.past side i r hr
    · intro r hr
      have ⟨r', hr', hk, _⟩ := mem_opposing hr
      have hs : r.stamp = r'.stamp := congrArg (·.2.1) hk
      exact hs ▸ Nat.lt_succ_of_lt (m.past _ i r' hr')
    · exact fun s j _ r hr => Nat.lt_succ_of_lt <| m.past s j r hr
  positive := by
    refine restingAfter_cases (p := fun _ _ l => ∀ r ∈ l, 0 < r.quantity) ?_ ?_ ?_
    · intro r hr
      rcases mem_joined hr with ⟨rfl, hq⟩ | hr
      · exact hq
      · exact m.positive side i r hr
    · intro r hr
      have hpos := m.positive side.opposite i
      rcases List.mem_append.mp hr with hr | hr
      · exact residual_pos (fun r hr => hpos r (mem_matching.mp hr).left) r hr
      · exact hpos r (mem_rest.mp hr).left
    · exact fun s j _ => m.positive s j
  uncrossed i' b hb a ha := by
    by_cases hi : i' = i
    case neg =>
      rw [restingAfter_ne hi] at ha hb
      exact m.uncrossed i' b hb a ha
    case pos =>
      subst hi
      cases side
      case buy =>
        have ha : a ∈ m.opposing .buy i' price quantity := by simpa [restingAfter] using ha
        have hb : b ∈ m.joined .buy i' price quantity data := by simpa [restingAfter] using hb
        exact m.opposing_worse hb ha
      case sell =>
        have ha : a ∈ m.joined .sell i' price quantity data := by simpa [restingAfter] using ha
        have hb : b ∈ m.opposing .sell i' price quantity := by simpa [restingAfter] using hb
        exact m.opposing_worse ha hb

theorem submit_zero : (m.submit side i price 0 data).resting = m.resting := by
  funext side' i'
  change m.restingAfter side i price 0 data side' i' = m.resting side' i'
  refine restingAfter_cases (p := fun side i l => l = m.resting side i) ?_ ?_ (fun _ _ _ => rfl) side' i'
  · simp [joined, remainder]
  · have hpos : ∀ r ∈ m.matched side i price, 0 < r.quantity :=
      fun r hr => m.positive _ _ r (mem_matching.mp hr).left
    rw [opposing, residual_zero hpos]
    exact (m.sorted _ _).matching_append_rest price

end Market
