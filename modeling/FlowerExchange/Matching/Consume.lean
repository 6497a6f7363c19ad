import FlowerExchange.App.PipelineTypes

inductive Matcher.Location
  | check
  | pop
  | push (reports : List OutboundReportMsg)
  | storeConsumed
  | storeDone
  | ended

structure Matcher where
  processor      : OrderProcessor
  consumed       : UInt64 := 0
  gotEndOfStream : Bool := false
  location       : Matcher.Location := .check

namespace Matcher

variable {m n : Nat}

abbrev Times := UInt64 → CStr 20 × CStr 20

def Times.arrival (times : Times) (message : InboundOrderMsg) : Arrival where
  message   := message
  timestamp := (times message.seq).1
  now       := (times message.seq).2

-- The next step of the thread. The reports of a message are pushed one after the other. Nobody else
-- uses the processor, so that it does not matter when they are made.
def step (unspecified : ℚ → Int64) (times : Times) (shared : Shared m n) (t : Matcher) :
    Option (Matcher × Shared m n) :=
  match t.location with
  | .check =>
    if !t.gotEndOfStream || !shared.state.producerDone
    then some ({ t with location := .pop }, shared)
    else some ({ t with location := .storeConsumed }, shared)
  | .pop =>
    match shared.inbound.pop with
    | none                         => some ({ t with location := .check }, shared)
    | some (none, inbound)         =>
      some ({ t with gotEndOfStream := true, location := .check }, { shared with inbound })
    | some (some message, inbound) =>
      match t.processor.step unspecified (.consume <| times.arrival message) with
      | .ok (processor, emitted) =>
        some ({ t with
          processor
          consumed := t.consumed + 1
          location := .push (emitted.map Emission.output) }, { shared with inbound })
      | .error _ => none
  | .push [] => some ({ t with location := .check }, shared)
  | .push (report :: reports) => do
    let outbound ← shared.outbound.push report
    return ({ t with location := .push reports }, { shared with outbound })
  | .storeConsumed =>
    some ({ t with location := .storeDone },
      { shared with state := { shared.state with consumedOrders := t.consumed } })
  | .storeDone =>
    some ({ t with location := .ended },
      { shared with state := { shared.state with matcherDone := true } })
  | .ended => none

end Matcher
