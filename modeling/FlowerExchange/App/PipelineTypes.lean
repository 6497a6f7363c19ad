import FlowerExchange.Lib.Fifo
import FlowerExchange.Matching.OrderProcessor

-- `none` is the message for the end of the stream.
abbrev InboundOrderQueue := Fifo (Option InboundOrderMsg)

abbrev OutboundReportQueue := Fifo OutboundReportMsg

structure PipelineState where
  producerDone   : Bool := false
  matcherDone    : Bool := false
  producedOrders : UInt64 := 0
  consumedOrders : UInt64 := 0

structure Shared (m n : Nat) where
  inbound  : InboundOrderQueue m
  outbound : OutboundReportQueue n
  state    : PipelineState
