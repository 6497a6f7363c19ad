import FlowerExchange.Matching.OrderBook

instance : NodeSize ExecutionReport where
  sizeofNode     := 208
  sizeofNode_pos := by decide

structure MatchingEngine (B : Type) where
  orderPool  : MemPool Order
  reportPool : MemPool ExecutionReport
  buyBooks   : Instrument → B
  sellBooks  : Instrument → B

namespace MatchingEngine

variable {B : Type}

def book (s : MatchingEngine B) : Side → Instrument → B
  | .buy  => s.buyBooks
  | .sell => s.sellBooks

def setBook (s : MatchingEngine B) : Side → Instrument → B → MatchingEngine B
  | .buy, i, b  => { s with buyBooks := Function.update s.buyBooks i b }
  | .sell, i, b => { s with sellBooks := Function.update s.sellBooks i b }

-- Converts instrument enum to book array index. The arrays have no element for `count`.
def instrumentIndex (instrument : InstrumentType) : Except Fault Instrument :=
  if h : instrument ≠ .count then .ok ⟨instrument, h⟩ else .error .indexOutOfBounds

-- What the caller does with each report. It has the effect `ω`.
abbrev Emit (ω : Type) := MemPool ExecutionReport → Addr → Except Fault (MemPool ExecutionReport × ω)

def emitReport (emit : Emit ω) (pool : MemPool ExecutionReport) (report : ExecutionReport) :
    Except Fault (MemPool ExecutionReport × ω) := do
  let (pool, ptr) ← pool.allocate report
  emit pool ptr

def releasing (view : ExecutionReport → ω) : Emit ω := fun pool ptr => do
  let report ← pool.read ptr
  let pool ← pool.deallocate (some ptr)
  return (pool, view report)

-- A pass of the loop that trades with the order at `resting`. If it pops an order, `consumed` is the
-- result of that.
structure Trade (ω : Type) where
  resting        : Addr
  incomingReport : ω
  restingReport  : ω
  consumed       : Option (Option Addr)

inductive Pass (ω : Type)
  | stop
  | skip
  | trade (t : Trade ω)

structure Outcome (ω : Type) where
  trades : List (Trade ω)
  added  : Option ω

def Outcome.emitted (out : Outcome ω) : List ω :=
  out.trades.flatMap (fun t => [t.incomingReport, t.restingReport]) ++ out.added.toList

variable [OrderBook B]

def bestLevel (oppBook : B) : Side → Int
  | .buy  => OrderBook.findFirst oppBook
  | .sell => OrderBook.findLast oppBook

def crosses (bestPrice limit : PriceTick) : Side → Bool
  | .buy  => bestPrice ≤ limit
  | .sell => bestPrice ≥ limit

section

-- `opp` and `i` say which is the book of the opposite side, `now` is the current time as text.
variable (emit : Emit ω) (eventTimestamp : Option Bytes) (now : CStr 20) (incoming : Addr)
variable (opp : Side) (i : Instrument)

def matchPass (s : MatchingEngine B) : Except Fault (MatchingEngine B × Pass ω) := do
  let order ← s.orderPool.read incoming
  if order.quantity = 0 then
    return (s, .stop)
  let oppBook := s.book opp i
  let best := bestLevel oppBook order.side
  if best < 0 then
    return (s, .stop)
  let bestPrice : PriceTick := best.toNat
  if !crosses bestPrice order.price order.side then
    return (s, .stop)
  match ← OrderBook.peekOrderKnownValid oppBook bestPrice with
  | none => return (s, .skip)
  | some resting =>
    let tradeQty := min order.quantity (← s.orderPool.read resting).quantity
    let pool ← s.orderPool.modify incoming fun o => { o with quantity := o.quantity - tradeQty }
    let pool ← pool.modify resting fun o => { o with quantity := o.quantity - tradeQty }
    let order ← pool.read incoming
    let other ← pool.read resting
    let incomingStatus : ExecStatus := if order.quantity = 0 then .fill else .pfill
    let restingStatus : ExecStatus := if other.quantity = 0 then .fill else .pfill
    let (reportPool, incomingReport) ← emitReport emit s.reportPool <|
      .new order.oid.text order.coid.text order.instrument order.side bestPrice tradeQty
        incomingStatus [] eventTimestamp now
    let (reportPool, restingReport) ← emitReport emit reportPool <|
      .new other.oid.text other.coid.text other.instrument other.side bestPrice tradeQty
        restingStatus [] eventTimestamp now
    if other.quantity = 0 then
      let (oppBook, pool, consumed) ← OrderBook.popOrderKnownValid oppBook pool bestPrice
      let pool ← pool.deallocate (some resting)
      let s := { s.setBook opp i oppBook with orderPool := pool, reportPool := reportPool }
      return (s, .trade ⟨resting, incomingReport, restingReport, some consumed⟩)
    else
      let s := { s with orderPool := pool, reportPool := reportPool }
      return (s, .trade ⟨resting, incomingReport, restingReport, none⟩)

def matchLoop : Nat → MatchingEngine B → Except Fault (MatchingEngine B × List (Trade ω))
  | 0, _ => throw .diverges
  | fuel + 1, s => do
    match ← matchPass emit eventTimestamp now incoming opp i s with
    | (s, .stop) => return (s, [])
    | (s, .skip) => matchLoop fuel s
    | (s, .trade t) =>
      let (s, ts) ← matchLoop fuel s
      return (s, t :: ts)

end

def settle (s : MatchingEngine B) (emit : Emit ω) (eventTimestamp : Option Bytes) (now : CStr 20)
    (incoming : Addr) (i : Instrument) (trades : List (Trade ω)) :
    Except Fault (MatchingEngine B × Outcome ω) := do
  let order ← s.orderPool.read incoming
  if order.quantity > 0 then
    let (ownBook, pool) ←
      OrderBook.addOrderKnownValid (s.book order.side i) s.orderPool order.price (some incoming)
    let s := { s.setBook order.side i ownBook with orderPool := pool }
    if trades.isEmpty then
      let order ← s.orderPool.read incoming
      let (reportPool, added) ← emitReport emit s.reportPool <|
        .new order.oid.text order.coid.text order.instrument order.side order.price order.quantity
          .new [] eventTimestamp now
      return ({ s with reportPool := reportPool }, ⟨trades, some added⟩)
    else
      return (s, ⟨trades, none⟩)
  else
    let pool ← s.orderPool.deallocate (some incoming)
    return ({ s with orderPool := pool }, ⟨trades, none⟩)

-- Matches an incoming order using price-time priority and emits reports. Each pass of the loop but the
-- last takes something off the order's quantity or takes an order off the pool, so that the loop has
-- ended before its passes are used up, unless it never ends.
def processOrder (s : MatchingEngine B) (emit : Emit ω) (incoming : Addr)
    (eventTimestamp : Option Bytes) (now : CStr 20) : Except Fault (MatchingEngine B × Outcome ω) := do
  let order ← s.orderPool.read incoming
  let i ← instrumentIndex order.instrument
  let passes := order.quantity.toNat + s.orderPool.totalCapacity + 1
  let (s, trades) ← matchLoop emit eventTimestamp now incoming order.side.opposite i passes s
  s.settle emit eventTimestamp now incoming i trades

end MatchingEngine
