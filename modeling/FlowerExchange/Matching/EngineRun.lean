import FlowerExchange.Lib.Machine
import FlowerExchange.Matching.Theorems.MatchingEngine

structure NewOrder (maxTicks : Nat) where
  oid        : Bytes
  coid       : Bytes
  instrument : Instrument
  side       : Side
  price      : PriceTick
  quantity   : UInt16
  inBook     : price < maxTicks

def NewOrder.order (new : NewOrder maxTicks) : Order :=
  .new new.oid new.coid new.instrument new.side new.price new.quantity

-- What a caller does with an engine. It allocates orders, and has them processed in any order.
inductive Command (maxTicks : Nat)
  | allocate (new : NewOrder maxTicks)
  | process (n : Nat) (eventTimestamp : Option Bytes) (now : CStr 20)

structure Caller (B : Type) where
  engine  : MatchingEngine B
  pending : List Addr

namespace Caller

variable {B : Type} [OrderBook B]

def new (maxTicks capacity : Nat) (reportPool : MemPool ExecutionReport) : Caller B where
  engine := {
    orderPool  := .new capacity
    reportPool := reportPool
    buyBooks   := fun _ => OrderBook.new maxTicks
    sellBooks  := fun _ => OrderBook.new maxTicks
  }
  pending := []

def step (emit : MatchingEngine.Emit ω) (s : Caller B) :
    Command maxTicks → Except Fault (Caller B × Option (List ω))
  | .allocate new => do
    let (pool, ptr) ← s.engine.orderPool.allocate new.order
    return (⟨{ s.engine with orderPool := pool }, s.pending ++ [ptr]⟩, none)
  | .process n eventTimestamp now =>
    match s.pending[n]? with
    | none => return (s, none)
    | some ptr => do
      let (engine, out) ← s.engine.processOrder emit ptr eventTimestamp now
      return (⟨engine, s.pending.eraseIdx n⟩, some out.emitted)

end Caller

structure Session (maxTicks : Nat) where
  market  : Market Instrument Nat OrderIds
  pending : List (NewOrder maxTicks)

namespace Session

def empty : Session maxTicks where
  market  := .empty
  pending := []

def submit (m : Market Instrument Nat OrderIds) (new : NewOrder maxTicks) :
    Market Instrument Nat OrderIds :=
  m.submit new.side new.instrument new.price new.quantity.toNat new.order.ids

-- An order without quantity is released without a report.
def reports (m : Market Instrument Nat OrderIds) (new : NewOrder maxTicks) (timestamp : CStr 20) :
    List ExecutionReport :=
  if new.quantity = 0 then []
  else m.reports new.side new.instrument new.price new.quantity.toNat new.order.ids timestamp

def step (s : Session maxTicks) :
    Command maxTicks → Session maxTicks × Option (List ExecutionReport)
  | .allocate new => (⟨s.market, s.pending ++ [new]⟩, none)
  | .process n eventTimestamp now =>
    match s.pending[n]? with
    | none => (s, none)
    | some new =>
      (⟨submit s.market new, s.pending.eraseIdx n⟩,
        some <| reports s.market new (ExecutionReport.timestampField eventTimestamp now))

def after (commands : List (Command maxTicks)) : Session maxTicks :=
  Machine.exec step commands empty |>.1

def queues (commands : List (Command maxTicks)) : Side → Instrument → List (Resting Nat OrderIds) :=
  (after commands).market.resting

end Session
