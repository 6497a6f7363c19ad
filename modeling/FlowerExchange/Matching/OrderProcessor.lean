import FlowerExchange.Common.Formatting
import FlowerExchange.Common.Validator
import FlowerExchange.Matching.BitmaskOrderBook
import FlowerExchange.Matching.MatchingEngine

open RuntimeConfig

-- A message from the producer that is not its end of stream.
structure InboundOrderMsg where
  coid       : CStr 64
  instrument : CStr 32
  side       : Int
  quantity   : Int
  price      : Double
  seq        : UInt64
deriving DecidableEq

structure OutboundReportMsg where
  oid           : CStr 32
  oidLen        : UInt8
  coid          : CStr 64
  coidLen       : UInt8
  instrument    : CStr 32
  instrumentLen : UInt8
  side          : Int
  execStatus    : CStr 16
  execStatusLen : UInt8
  quantity      : Int
  priceText     : CStr 24
  priceTextLen  : UInt8
  reason        : CStr 64
  reasonLen     : UInt8
  timestamp     : CStr 20
  timestampLen  : UInt8
  seq           : UInt64
deriving DecidableEq

def copyText {n : Nat} (source : Bytes) : CStr (n + 1) × UInt8 :=
  let destination : CStr (n + 1) := .copy source
  (destination, .ofNat destination.text.length)

-- The id that is written to an array. It is empty when the array is too small.
def formatOrderId (orderIdSize : Nat) (id : UInt64) : Bytes :=
  if orderIdSize < 5 then
    []
  else
    let digits := Decimal.decimal id.toNat
    if 3 + digits.length ≤ orderIdSize - 1 then ascii "ord" ++ digits else []

-- `priceText` and `seq` are written later by the callers, but are arguments here.
def fillOutboundFields (report : ExecutionReport) (instrumentText : Bytes) (side : Int)
    (priceText : Bytes) (seq : UInt64) : OutboundReportMsg :=
  let (oid, oidLen) := copyText report.oid.text
  let (coid, coidLen) := copyText report.coid.text
  let (instrument, instrumentLen) := copyText instrumentText
  let (execStatus, execStatusLen) := copyText (execStatusToString report.status)
  let (reason, reasonLen) := copyText report.reason.text
  let (timestamp, timestampLen) := copyText report.timestamp.text
  let priceTextLen := .ofNat priceText.length
  let priceText := .copy priceText
  let quantity := report.quantity.toNat
  { oid, oidLen, coid, coidLen, instrument, instrumentLen, side, execStatus, execStatusLen, quantity,
    priceText, priceTextLen, reason, reasonLen, timestamp, timestampLen, seq }

structure Arrival where
  message   : InboundOrderMsg
  timestamp : CStr 20
  now       : CStr 20

def Arrival.time (a : Arrival) : CStr 20 :=
  ExecutionReport.timestampField (some a.timestamp.text) a.now

structure Emission where
  report : ExecutionReport
  output : OutboundReportMsg
deriving DecidableEq

def InboundOrderMsg.reportEmission (message : InboundOrderMsg) (report : ExecutionReport) : Emission where
  report := report
  output := fillOutboundFields report (instrumentToString report.instrument) report.side.toInt
    (formatTicksToBuffer report.price 24) message.seq

def InboundOrderMsg.rejectEmission (unspecified : ℚ → Int64) (message : InboundOrderMsg)
    (reject : ExecutionReport) : Emission where
  report := reject
  output := fillOutboundFields reject message.instrument.text message.side
    (formatPriceToBuffer unspecified message.price 24) message.seq

structure OrderProcessor where
  nextOid : UInt64
  matcher : MatchingEngine BitmaskOrderBook

namespace OrderProcessor

def newBooks (_ : Instrument) : BitmaskOrderBook :=
  .new orderBookTickCapacity

def new : OrderProcessor where
  nextOid := 1
  matcher := {
    orderPool  := .new orderPoolInitialCapacity
    reportPool := .new reportPoolInitialCapacity
    buyBooks   := newBooks
    sellBooks  := newBooks
  }

def reset (s : OrderProcessor) : OrderProcessor where
  nextOid := 1
  matcher := { s.matcher with buyBooks := newBooks, sellBooks := newBooks }

def newOrder (unspecified : ℚ → Int64) (s : OrderProcessor) (message : InboundOrderMsg) : Order :=
  .new (formatOrderId 32 s.nextOid) message.coid.text
    ((parseInstrument message.instrument.text).getD .count)
    (if message.side = Side.buy.toInt then .buy else .sell)
    (doubleToTicks unspecified message.price) (.ofNat message.quantity.toNat)

def newReject (s : OrderProcessor) (message : InboundOrderMsg) (reason : Bytes)
    (timestamp now : CStr 20) : ExecutionReport :=
  .new (formatOrderId 32 s.nextOid) message.coid.text .count
    (if message.side = Side.sell.toInt then .sell else .buy) 0
    (.ofNat (if message.quantity > 0 then message.quantity else 0).toNat) .rejected reason
    (some timestamp.text) now

-- What the loop of `consume` does with a message that is not the end of the stream. `timestamp` is the
-- snapshot of the timestamp cache, and `now` the current time as text.
def consumeMessage (unspecified : ℚ → Int64) (s : OrderProcessor) (message : InboundOrderMsg)
    (timestamp now : CStr 20) : Except Fault (OrderProcessor × List Emission) := do
  let nextOid := s.nextOid + 1
  let instrument := (parseInstrument message.instrument.text).getD .count
  match validateOrder instrument message.side message.price message.quantity with
  | some reason =>
    let (reportPool, emission) ← MatchingEngine.emitReport
      (MatchingEngine.releasing <| message.rejectEmission unspecified) s.matcher.reportPool
      (s.newReject message reason timestamp now)
    return (⟨nextOid, { s.matcher with reportPool := reportPool }⟩, [emission])
  | none =>
    let (orderPool, order) ← s.matcher.orderPool.allocate <| s.newOrder unspecified message
    let matcher := { s.matcher with orderPool := orderPool }
    let (matcher, outcome) ←
      matcher.processOrder (MatchingEngine.releasing message.reportEmission) order
        (some timestamp.text) now
    return (⟨nextOid, matcher⟩, outcome.emitted)

inductive Event
  | consume (arrival : Arrival)
  | reset

def step (unspecified : ℚ → Int64) (s : OrderProcessor) :
    Event → Except Fault (OrderProcessor × List Emission)
  | .consume arrival => s.consumeMessage unspecified arrival.message arrival.timestamp arrival.now
  | .reset           => return (s.reset, [])

end OrderProcessor
