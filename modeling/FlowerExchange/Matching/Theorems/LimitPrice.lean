import FlowerExchange.Matching.Theorems.Conservation

open Resting

def Placement.Protected (p : Placement) (ticks : PriceTick) : Prop :=
  match p.side with
  | .buy  => ticksToDouble ticks ≤ p.price
  | .sell => p.price ≤ ticksToDouble ticks

-- The price of the order is not rounded to a worse one: of a buy order it is not rounded up, and of a
-- sell order not down.
def Placement.RoundsFairly (p : Placement) : Prop :=
  match p.side with
  | .buy  => Int.fract (p.price * 100) < 1 / 2
  | .sell => Int.fract (p.price * 100) = 0 ∨ 1 / 2 ≤ Int.fract (p.price * 100)

theorem Placement.tick_eq (p : Placement) : (p.tick : ℚ) = roundHalfAway (p.price * 100) := by
  have h := roundHalfAway_nonneg (q := p.price * 100) (by linarith [p.pricePos])
  rw [tick]
  exact_mod_cast Int.toNat_of_nonneg h

theorem ticksToDouble_eq (ticks : PriceTick) : ticksToDouble ticks = (ticks : ℚ) / 100 := by
  rw [ticksToDouble, RuntimeConfig.tickSize]
  ring

theorem Placement.protected_tick_iff (p : Placement) : p.Protected p.tick ↔ p.RoundsFairly := by
  have h : 0 ≤ p.price * 100 := by linarith [p.pricePos]
  simp only [Protected, RoundsFairly, ticksToDouble_eq, p.tick_eq]
  cases p.side
  case buy =>
    rw [← roundHalfAway_le_iff h]
    constructor <;> intro hp <;> linarith
  case sell =>
    rw [← le_roundHalfAway_iff h]
    constructor <;> intro hp <;> linarith

theorem Placement.Protected.mono {p : Placement} (h : p.Protected p.tick)
    (ht : ¬p.side.opposite.better p.tick ticks) : p.Protected ticks := by
  simp only [Protected, ticksToDouble_eq] at h ⊢
  cases hs : p.side <;> simp only [hs, Side.opposite, Side.better, not_lt, gt_iff_lt] at h ht ⊢
  all_goals
    have := Nat.cast_le (α := ℚ) |>.mpr ht
    linarith

theorem PlacedBy.of_take (h : PlacedBy (arrivals.take n) j a p) : PlacedBy arrivals j a p := by
  have hj := h.lt
  rw [List.length_take] at hj
  exact ⟨by rw [← h.left, List.getElem?_take_of_lt (by omega)], h.right⟩

theorem mem_ownedReports_resting (k : Nat) (ids : OrderIds) (i : Instrument) (side : Side)
    (timestamp : CStr 20) (q : Nat) (h : (r, n) ∈ l) : ∃ left,
    (r.stamp, r.data.report i side.opposite r.price n (tradeStatus left) timestamp) ∈
      ownedReports k ids i side timestamp q l := by
  induction l generalizing q
  case nil => contradiction
  case cons t _ hi =>
    rcases List.mem_cons.mp h with rfl | h
    · exact ⟨_, .tail _ <| .head _⟩
    · have ⟨left, h⟩ := hi (q - t.2) h
      exact ⟨left, .tail _ <| .tail _ h⟩

namespace Exchange

variable {arrivals : List Arrival} {x : Exchange} {left : Nat → Nat} {a : Arrival} {r : Record}

theorem records_limit (h : Backed arrivals x left) (hr : r ∈ x.records unspecified a)
    (ht : r.emission.report.isTrade) : ∃ b p, PlacedBy (arrivals ++ [a]) r.owner b p ∧
      ¬p.side.opposite.better p.tick r.emission.report.price := by
  cases hm : a.message.placement
  case error reason =>
    rw [records_reject hm, List.mem_singleton] at hr
    subst hr
    contradiction
  case ok p =>
    rw [records_accept hm] at hr
    obtain ⟨⟨j, report⟩, hj, rfl⟩ := List.mem_map.mp hr
    rcases List.mem_append.mp hj with hj | hj
    · have ⟨r, n, _, hmem, hcase⟩ := mem_ownedReports hj
      have ⟨hrests, hb⟩ := mem_matching.mp (mem_fill hmem).left
      rcases hcase with ⟨rfl, rfl⟩ | ⟨rfl, rfl⟩
      · exact ⟨a, p, h.now ▸ .last hm, hb⟩
      · -- The order that rests trades at its own tick.
        have ⟨b, p', hp, _, _, he⟩ := h.offers _ _ r hrests
        have hprice : r.price = p'.tick := congrArg Resting.price he
        exact ⟨b, p', hp.snoc, hprice ▸ irrefl r.price⟩
    · split at hj
      case isTrue =>
        rw [List.mem_singleton, Prod.mk.injEq] at hj
        obtain ⟨rfl, rfl⟩ := hj
        contradiction
      case isFalse => contradiction

theorem history_limit (hr : r ∈ (history unspecified arrivals).2.flatten)
    (ht : r.emission.report.isTrade) : ∃ a p, PlacedBy arrivals r.owner a p ∧
      ¬p.side.opposite.better p.tick r.emission.report.price := by
  have ⟨k, a, ha, hr⟩ := mem_history hr
  have ⟨_, _, backed⟩ := history_backed unspecified (arrivals.take k)
  have ⟨b, p, hp, hb⟩ := records_limit backed hr ht
  exact ⟨b, p, (take_append_of_getElem? ha ▸ hp).of_take, hb⟩

end Exchange

def Placement.counter (p : Placement) : Placement where
  instrument  := p.instrument
  side        := p.side.opposite
  price       := max p.tick 1 / 100
  quantity    := p.quantity
  pricePos    := by positivity
  priceLe     := by
    have ht : p.tick < 100001 := p.tick_lt
    have : ((max p.tick 1 : Nat) : ℚ) ≤ (100000 : Nat) := Nat.cast_le.mpr (by omega)
    rw [Nat.cast_ofNat] at this
    linarith
  quantityDvd := p.quantityDvd
  quantityPos := p.quantityPos
  quantityLe  := p.quantityLe

theorem Placement.counter_tick (p : Placement) : p.counter.tick = max p.tick 1 := by
  have h : p.counter.price * 100 = ((max p.tick 1 : Nat) : Int) := by
    simp only [counter]
    push_cast
    ring
  rw [tick, h, roundHalfAway_intCast (Int.natCast_nonneg _), Int.toNat_natCast]

def Arrival.counter (a : Arrival) (p : Placement) : Arrival :=
  { a with message := { a.message with
      side  := p.counter.side.toInt
      price := .finite p.counter.price } }

theorem Arrival.counter_placement {a : Arrival} (h : a.message.placement = .ok p) :
    (a.counter p).message.placement = .ok p.counter := by
  have ⟨hi, _, _, hq⟩ := InboundOrderMsg.placement_eq_ok h
  exact InboundOrderMsg.placement_eq_ok_iff.mpr ⟨hi, rfl, rfl, hq⟩

namespace Exchange

variable {a : Arrival} {p : Placement}

theorem history_counter (unspecified : ℚ → Int64) (h : a.message.placement = .ok p)
    (hp : ¬p.Protected p.tick) :
    ∃ r ∈ (history unspecified [a, a.counter p]).2.flatten,
      (r.owner = 0) ∧ (r.emission.report.isTrade) ∧ (r.emission.report.price = p.tick) := by
  let x : Exchange := Exchange.place .empty a.message p
  let r : Resting Nat OrderIds := ⟨p.tick, 0, p.quantity, a.message.ids 0⟩
  have hx : x.resting p.side p.instrument = [r] := by
    simp only [x, place_resting, Market.restingAfter_self]
    simp [Market.joined, Market.remainder, Market.matched, Market.empty, matching, enqueue,
      p.quantityPos, r]
  have hb : ¬p.side.better p.counter.tick p.tick := by
    rw [p.counter_tick]
    cases hs : p.side
    case buy =>
      have : p.tick ≠ 0 := fun hz => by
        simp only [Placement.Protected, hs, hz, ticksToDouble_eq] at hp
        exact hp (by simpa using p.pricePos.le)
      simp only [Side.better]
      omega
    case sell => simp [Side.better]
  have ht : x.placeTrades p.counter = [(r, p.quantity)] := by
    have hs : p.counter.side.opposite = p.side := p.side.opposite_opposite
    have hi : p.counter.instrument = p.instrument := rfl
    have hq : p.counter.quantity = p.quantity := rfl
    rw [placeTrades, Market.trades, Market.matched, hs, hi, hq, hx, matching_cons hb]
    simp [matching, fill, p.quantityPos.ne', r]
  have ht : (r, p.quantity) ∈ x.placeTrades p.counter := ht ▸ .head _
  obtain ⟨left, hm⟩ := mem_ownedReports_resting x.now ((a.counter p).message.ids x.now)
    p.counter.instrument p.counter.side (a.counter p).time p.counter.quantity ht
  refine ⟨⟨0, (a.counter p).message.reportEmission <|
    r.data.report p.counter.instrument p.counter.side.opposite r.price p.quantity (tradeStatus left)
      (a.counter p).time⟩, ?_, rfl, tradeStatus_isTrade .., rfl⟩
  refine List.mem_flatten.mpr ⟨x.records unspecified (a.counter p), ?_, ?_⟩
  · simp [history, recordStep, step_accept h, x]
  · rw [records_accept (Arrival.counter_placement h)]
    exact List.mem_map.mpr ⟨_, List.mem_append_left _ hm, rfl⟩

end Exchange

-- Limit prices protect the orders that are rounded fairly, in each run, and no others. Any other order
-- is executed at a worse price when the right order follows.
theorem OrderProcessor.limit_price_protected (unspecified : ℚ → Int64) (before : List Event) : ∃ s₀,
    Reached unspecified (before ++ [.reset]) s₀ ∧
    (∀ arrivals, ∃ s, ∃ records : List (List Record),
      (Machine.run (step unspecified) (arrivals.map .consume) s₀ =
        .ok (s, records.map (·.map Record.emission))) ∧
      ∀ r ∈ records.flatten, (∃ a, arrivals[r.owner]? = some a ∧ r.About a) ∧
        (r.emission.report.isTrade → ∃ a p, PlacedBy arrivals r.owner a p ∧
          (p.RoundsFairly → p.Protected r.emission.report.price))) ∧
    ∀ a p, a.message.placement = .ok p → ¬p.RoundsFairly → ∃ b s, ∃ records : List (List Record),
      (Machine.run (step unspecified) [.consume a, .consume b] s₀ =
        .ok (s, records.map (·.map Record.emission))) ∧
      ∃ r ∈ records.flatten, (r.owner = 0 ∧ r.About a) ∧ r.emission.report.isTrade ∧
        ¬p.Protected r.emission.report.price := by
  have ⟨s₀, hs₀, hrun⟩ := run_history unspecified before
  have about {arrivals r} (hr : r ∈ (Exchange.history unspecified arrivals).2.flatten) : ∃ a,
      arrivals[r.owner]? = some a ∧ r.About a :=
    Exchange.history_conserved unspecified arrivals |>.about r hr
  refine ⟨s₀, hs₀, fun arrivals => ?_, fun a p hp hf => ?_⟩
  · have ⟨s, _, _, hrun, _⟩ := hrun arrivals
    refine ⟨s, _, hrun, fun r hr => ⟨about hr, fun ht => ?_⟩⟩
    have ⟨a, p, hp, hb⟩ := Exchange.history_limit hr ht
    exact ⟨a, p, hp, fun hf => (p.protected_tick_iff.mpr hf).mono hb⟩
  · have hf := mt p.protected_tick_iff.mp hf
    have ⟨s, _, _, hrun, _⟩ := hrun [a, a.counter p]
    have ⟨r, hr, ho, ht, hprice⟩ := Exchange.history_counter unspecified hp hf
    have ⟨a', ha, hab⟩ := about hr
    rw [ho] at ha
    cases ha
    exact ⟨a.counter p, s, _, hrun, r, hr, ⟨ho, hab⟩, ht, hprice ▸ hf⟩

-- A buy order at 0.996 is executed at 1.00.
theorem OrderProcessor.limit_price_violated :
    let buy  : InboundOrderMsg :=
      ⟨.copy (ascii "c1"), .copy (ascii "Rose"), 1, 10, .finite (996 / 1000), 1⟩
    let sell : InboundOrderMsg := ⟨.copy (ascii "c2"), .copy (ascii "Rose"), 2, 10, .finite 1, 2⟩
    let arrivals : List Arrival := [⟨buy, default, default⟩, ⟨sell, default, default⟩]
    ∃ s₀ s, ∃ records : List (List Record), Reached (fun _ => 0) [.reset] s₀ ∧
      (Machine.run (step fun _ => 0) (arrivals.map .consume) s₀ =
        .ok (s, records.map (·.map Record.emission))) ∧
      ∃ r ∈ records.flatten, (r.owner = 0 ∧ r.emission.report.isTrade) ∧
        (996 / 1000 : ℚ) < ticksToDouble r.emission.report.price := by
  intro buy sell arrivals
  have ⟨s₀, hs₀, hrun⟩ := run_history (fun _ => 0) []
  have ⟨s, _, _, hrun, _⟩ := hrun arrivals
  exact ⟨s₀, s, _, hs₀, hrun, by decide +kernel⟩
