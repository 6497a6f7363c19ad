import FlowerExchange.Lib.Guard
import FlowerExchange.Matching.OrderProcessor

open RuntimeConfig

-- What can go wrong where the source relies on something that it does not check.
inductive Hazard
  | fault (fault : Fault)
  | instrumentIndex
  | tick
  | word
  | shift
  | noBits
  | narrowing
  | underflow
deriving DecidableEq

instance : MonadLift (Except Fault) (Except Hazard) where
  monadLift := Except.mapError .fault

-- The functions of the program once more, with assertions where the source checks nothing.
namespace Guarded

def shiftLeft (bits : BitVec 64) (n : Nat) : Except Hazard (BitVec 64) := do
  ensure (n < 64) .shift
  return bits <<< n

def ctz (bits : BitVec 64) : Except Hazard Nat := do
  ensure (bits ≠ 0#64) .noBits
  return bits.ctz.toNat

def clz (bits : BitVec 64) : Except Hazard Nat := do
  ensure (bits ≠ 0#64) .noBits
  return bits.clz.toNat

def keepFromNext (bits : BitVec 64) (bitInWord : Nat) : Except Hazard (BitVec 64) :=
  if bitInWord < 63 then do
    let bit ← shiftLeft 1#64 (bitInWord + 1)
    return bits &&& ~~~(bit - 1#64)
  else
    return 0#64

def keepBelow (bits : BitVec 64) (bitInWord : Nat) : Except Hazard (BitVec 64) :=
  if bitInWord > 0 then do
    let bit ← shiftLeft 1#64 bitInWord
    return bits &&& (bit - 1#64)
  else
    return 0#64

def findNextFrom (book : BitmaskOrderBook) (tick : PriceTick) : Except Hazard Int := do
  let word : Nat := tick / 64
  let bitInWord : Nat := tick % 64
  if word ≥ book.mask.length then
    return -1
  let bits ← keepFromNext (← elementAt book.mask word) bitInWord
  if bits ≠ 0#64 then
    return word * 64 + (← ctz bits)
  ensure (word + 1 ≤ book.mask.length) .word
  match (book.mask.drop (word + 1)).findIdx? (· ≠ 0#64) with
  | none => return -1
  | some k =>
    let bits ← elementAt book.mask (word + 1 + k)
    return (word + 1 + k : Nat) * 64 + (← ctz bits)

def findPrevWord (mask : List (BitVec 64)) : Nat → Except Hazard Int
  | 0     => return -1
  | i + 1 => do
    let bits ← elementAt mask i
    if bits ≠ 0#64 then
      return i * 64 + (63 - (← clz bits) : Nat)
    else
      findPrevWord mask i

def findPrevFrom (book : BitmaskOrderBook) (tick : PriceTick) : Except Hazard Int := do
  if book.mask.isEmpty then
    return -1
  let word : Nat := if tick / 64 ≥ book.mask.length then book.mask.length - 1 else tick / 64
  let bitInWord : Nat := tick % 64
  let bits ← keepBelow (← elementAt book.mask word) bitInWord
  if bits ≠ 0#64 then
    return word * 64 + (63 - (← clz bits) : Nat)
  findPrevWord book.mask word

section

variable (book : BitmaskOrderBook) (pool : MemPool Order) (tick : PriceTick)

def addOrderKnownValid (order : Option Addr) :
    Except Hazard (BitmaskOrderBook × MemPool Order) := do
  ensure (tick < orderBookTickCapacity) .tick
  match order with
  | none => return (book, pool)
  | some order =>
    let pool ← pool.modify order fun o => { o with next := none }
    match ← elementAt book.priceLevels tick with
    | none =>
      let levels ← setElementAt book.priceLevels tick (some order)
      let tails ← setElementAt book.priceLevelTails tick (some order)
      let word : Nat := tick / 64
      let bit ← shiftLeft 1#64 (tick % 64)
      let bits ← elementAt book.mask word
      let mask ← setElementAt book.mask word (bits ||| bit)
      let book' : BitmaskOrderBook := {
        priceLevels     := levels
        priceLevelTails := tails
        mask            := mask
        bestFirst       :=
          if book.bestFirst < 0 ∨ (tick : Int) < book.bestFirst then (tick : Int) else book.bestFirst
        bestLast        :=
          if book.bestLast < 0 ∨ (tick : Int) > book.bestLast then (tick : Int) else book.bestLast
      }
      return (book', pool)
    | some _ =>
      match ← elementAt book.priceLevelTails tick with
      | none => throw <| .fault .nullPointer
      | some tail =>
        let pool ← pool.modify tail fun o => { o with next := some order }
        let tails ← setElementAt book.priceLevelTails tick (some order)
        return ({ book with priceLevelTails := tails }, pool)

def peekOrderKnownValid : Except Hazard (Option Addr) := do
  ensure (tick < orderBookTickCapacity) .tick
  elementAt book.priceLevels tick

def moveBestFirst : Except Hazard BitmaskOrderBook :=
  if book.bestFirst = (tick : Int) then do
    let best ← findNextFrom book tick
    return { book with bestFirst := best }
  else
    return book

def moveBestLast : Except Hazard BitmaskOrderBook :=
  if book.bestLast = (tick : Int) then do
    let best ← findPrevFrom book tick
    return { book with bestLast := best }
  else
    return book

def popOrderKnownValid : Except Hazard (BitmaskOrderBook × MemPool Order × Option Addr) := do
  ensure (tick < orderBookTickCapacity) .tick
  match ← elementAt book.priceLevels tick with
  | none => return (book, pool, none)
  | some head =>
    let next := (← pool.read head).next
    let levels ← setElementAt book.priceLevels tick next
    let pool ← pool.modify head fun o => { o with next := none }
    let book := { book with priceLevels := levels }
    match next with
    | some _ => return (book, pool, some head)
    | none =>
      let tails ← setElementAt book.priceLevelTails tick none
      let word : Nat := tick / 64
      let bit ← shiftLeft 1#64 (tick % 64)
      let bits ← elementAt book.mask word
      let mask ← setElementAt book.mask word (bits &&& ~~~bit)
      let book := { book with priceLevelTails := tails, mask := mask }
      let book ← moveBestFirst book tick
      let book ← moveBestLast book tick
      return (book, pool, some head)

end

section

open MatchingEngine

variable (emit : Emit ω) (eventTimestamp : Option Bytes) (now : CStr 20) (incoming : Addr)
variable (opp : Side) (i : Instrument)

-- The quantities are read again where something is taken off them.
def matchPass (s : MatchingEngine BitmaskOrderBook) :
    Except Hazard (MatchingEngine BitmaskOrderBook × Pass ω) := do
  let order ← s.orderPool.read incoming
  if order.quantity = 0 then
    return (s, .stop)
  let oppBook := s.book opp i
  let best := bestLevel oppBook order.side
  if best < 0 then
    return (s, .stop)
  let bestPrice : PriceTick := best.toNat
  if !crosses bestPrice order.price order.side then
    return (s, .stop)
  match ← peekOrderKnownValid oppBook bestPrice with
  | none => return (s, .skip)
  | some resting =>
    let tradeQty := min order.quantity (← s.orderPool.read resting).quantity
    ensure (tradeQty ≤ (← s.orderPool.read incoming).quantity) .underflow
    let pool ← s.orderPool.modify incoming fun o => { o with quantity := o.quantity - tradeQty }
    ensure (tradeQty ≤ (← pool.read resting).quantity) .underflow
    let pool ← pool.modify resting fun o => { o with quantity := o.quantity - tradeQty }
    let order ← pool.read incoming
    let other ← pool.read resting
    let incomingStatus : ExecStatus := if order.quantity = 0 then .fill else .pfill
    let restingStatus : ExecStatus := if other.quantity = 0 then .fill else .pfill
    let (reportPool, incomingReport) ← emitReport emit s.reportPool <|
      .new order.oid.text order.coid.text order.instrument order.side bestPrice tradeQty
        incomingStatus [] eventTimestamp now
    let (reportPool, restingReport) ← emitReport emit reportPool <|
      .new other.oid.text other.coid.text other.instrument other.side bestPrice tradeQty
        restingStatus [] eventTimestamp now
    if other.quantity = 0 then
      let (oppBook, pool, consumed) ← popOrderKnownValid oppBook pool bestPrice
      let pool ← pool.deallocate (some resting)
      let s := { s.setBook opp i oppBook with orderPool := pool, reportPool := reportPool }
      return (s, .trade ⟨resting, incomingReport, restingReport, some consumed⟩)
    else
      let s := { s with orderPool := pool, reportPool := reportPool }
      return (s, .trade ⟨resting, incomingReport, restingReport, none⟩)

def matchLoop : Nat → MatchingEngine BitmaskOrderBook →
    Except Hazard (MatchingEngine BitmaskOrderBook × List (Trade ω))
  | 0, _ => throw <| .fault .diverges
  | fuel + 1, s => do
    match ← matchPass emit eventTimestamp now incoming opp i s with
    | (s, .stop) => return (s, [])
    | (s, .skip) => matchLoop fuel s
    | (s, .trade t) =>
      let (s, ts) ← matchLoop fuel s
      return (s, t :: ts)

end

section

open MatchingEngine

def settle (s : MatchingEngine BitmaskOrderBook) (emit : Emit ω) (eventTimestamp : Option Bytes)
    (now : CStr 20) (incoming : Addr) (i : Instrument) (trades : List (Trade ω)) :
    Except Hazard (MatchingEngine BitmaskOrderBook × Outcome ω) := do
  let order ← s.orderPool.read incoming
  if order.quantity > 0 then
    let (ownBook, pool) ←
      addOrderKnownValid (s.book order.side i) s.orderPool order.price (some incoming)
    let s := { s.setBook order.side i ownBook with orderPool := pool }
    if trades.isEmpty then
      let order ← s.orderPool.read incoming
      let (reportPool, added) ← emitReport emit s.reportPool <|
        .new order.oid.text order.coid.text order.instrument order.side order.price order.quantity
          .new [] eventTimestamp now
      return ({ s with reportPool := reportPool }, ⟨trades, some added⟩)
    else
      return (s, ⟨trades, none⟩)
  else
    let pool ← s.orderPool.deallocate (some incoming)
    return ({ s with orderPool := pool }, ⟨trades, none⟩)

def processOrder (s : MatchingEngine BitmaskOrderBook) (emit : Emit ω) (incoming : Addr)
    (eventTimestamp : Option Bytes) (now : CStr 20) :
    Except Hazard (MatchingEngine BitmaskOrderBook × Outcome ω) := do
  let order ← s.orderPool.read incoming
  ensure (order.instrument.toNat < 5) .instrumentIndex
  let i ← instrumentIndex order.instrument
  let passes := order.quantity.toNat + s.orderPool.totalCapacity + 1
  let (s, trades) ← matchLoop emit eventTimestamp now incoming order.side.opposite i passes s
  settle s emit eventTimestamp now incoming i trades

end

section

open OrderProcessor

def consumeMessage (unspecified : ℚ → Int64) (s : OrderProcessor) (message : InboundOrderMsg)
    (timestamp now : CStr 20) : Except Hazard (OrderProcessor × List Emission) := do
  let nextOid := s.nextOid + 1
  let instrument := (parseInstrument message.instrument.text).getD .count
  match validateOrder instrument message.side message.price message.quantity with
  | some reason =>
    let (reportPool, emission) ← MatchingEngine.emitReport
      (MatchingEngine.releasing <| message.rejectEmission unspecified) s.matcher.reportPool
      (s.newReject message reason timestamp now)
    return (⟨nextOid, { s.matcher with reportPool := reportPool }⟩, [emission])
  | none =>
    let order := s.newOrder unspecified message
    ensure ((order.quantity.toNat : Int) = message.quantity) .narrowing
    let (orderPool, order) ← s.matcher.orderPool.allocate order
    let matcher := { s.matcher with orderPool := orderPool }
    let (matcher, outcome) ←
      processOrder matcher (MatchingEngine.releasing message.reportEmission) order
        (some timestamp.text) now
    return (⟨nextOid, matcher⟩, outcome.emitted)

def step (unspecified : ℚ → Int64) (s : OrderProcessor) :
    Event → Except Hazard (OrderProcessor × List Emission)
  | .consume arrival => consumeMessage unspecified s arrival.message arrival.timestamp arrival.now
  | .reset           => return (s.reset, [])

end

end Guarded
