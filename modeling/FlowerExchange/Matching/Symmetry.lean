import FlowerExchange.Matching.EngineRun

-- The mirror image of an order, a command and a report, where `M` is the highest tick.

def NewOrder.mirror (new : NewOrder (M + 1)) : NewOrder (M + 1) :=
  { new with
    side   := new.side.opposite
    price  := M - new.price
    inBook := Nat.lt_succ_of_le <| Nat.sub_le .. }

def Command.mirror : Command (M + 1) → Command (M + 1)
  | .allocate new                 => .allocate new.mirror
  | .process n eventTimestamp now => .process n eventTimestamp now

def ExecutionReport.mirror (M : Nat) (report : ExecutionReport) : ExecutionReport :=
  { report with
    side  := report.side.opposite
    price := M - report.price }

def Order.mirror (M : Nat) (o : Order) : Order :=
  { o with
    side  := o.side.opposite
    price := M - o.price }

-- The mirror image of the best tick of a book, which is -1 if there is none.
def mirrorTick (M : Nat) (tick : Int) : Int :=
  if tick < 0 then -1 else M - tick
