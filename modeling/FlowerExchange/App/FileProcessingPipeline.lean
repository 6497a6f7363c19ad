import FlowerExchange.Io.CsvOrderProducer
import FlowerExchange.Io.CsvReportWriter
import FlowerExchange.Lib.Machine
import FlowerExchange.Matching.Consume

structure Environment where
  unspecified : ℚ → Int64
  times       : Matcher.Times
  threshold   : Nat

inductive Thread
  | producer
  | matcher
  | main

structure FileProcessingPipeline (m n : Nat) where
  shared   : Shared m n
  producer : CsvOrderProducer
  matcher  : Matcher
  writer   : CsvReportWriter

namespace FileProcessingPipeline

variable {m n : Nat}

def start (inbound : InboundOrderQueue m) (outbound : OutboundReportQueue n)
    (processor : OrderProcessor) (file : Option InputFile) : FileProcessingPipeline m n where
  shared   := ⟨inbound.clear, outbound.clear, {}⟩
  producer := .start file
  matcher  := { processor := processor.reset }
  writer   := {}

def producerEnded (p : FileProcessingPipeline m n) : Bool :=
  match p.producer with
  | .ended => true
  | _      => false

def matcherEnded (p : FileProcessingPipeline m n) : Bool :=
  match p.matcher.location with
  | .ended => true
  | _      => false

def ended (p : FileProcessingPipeline m n) : Bool :=
  match p.writer.location with
  | .ended => p.producerEnded && p.matcherEnded
  | _      => false

def stepMain (e : Environment) (p : FileProcessingPipeline m n) : Option (FileProcessingPipeline m n) :=
  match p.writer.location with
  | .joinProducer =>
    if p.producerEnded then
      some { p with
        shared.state.producerDone := true
        writer.location := .joinMatcher }
    else
      none
  | .joinMatcher =>
    if p.matcherEnded then
      some { p with
        shared.state.matcherDone := true
        writer.location := .ended }
    else
      none
  | _ => do
    let (writer, shared) ← p.writer.step e.threshold p.shared
    return { p with writer, shared }

def step (e : Environment) (p : FileProcessingPipeline m n) : Thread → Option (FileProcessingPipeline m n)
  | .producer => do
    let (producer, shared) ← p.producer.step p.shared
    return { p with producer, shared }
  | .matcher => do
    let (matcher, shared) ← p.matcher.step e.unspecified e.times p.shared
    return { p with matcher, shared }
  | .main => p.stepMain e

-- A run in which the threads take turns in some order. A thread that cannot take a step loses its turn.
def run (e : Environment) (schedule : List Thread) (p : FileProcessingPipeline m n) :
    FileProcessingPipeline m n :=
  (Machine.exec (fun p t => ((p.step e t).getD p, ())) schedule p).1

end FileProcessingPipeline
