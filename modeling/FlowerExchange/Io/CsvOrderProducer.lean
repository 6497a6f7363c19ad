import FlowerExchange.App.PipelineTypes
import FlowerExchange.Common.Parsing
import FlowerExchange.Io.CsvReader

namespace CsvOrderProducer

-- The copy of bytes in an array of `n + 1` chars, read as a text. The bytes can contain a terminator.
def copyText {n : Nat} (source : Bytes) : CStr (n + 1) where
  text  := (source.take n).takeWhile (· ≠ 0)
  fits  := by
    have := (List.takeWhile_sublist (l := source.take n) (· ≠ 0)).length_le
    rw [List.length_take] at this
    omega
  noNul h := by simpa using List.mem_takeWhile_imp h

def message (row : CSVRow) (sequence : UInt64) : Except Fault InboundOrderMsg := do
  let coid := copyText (← row.field 0)
  let instrument := copyText (← row.field 1)
  let side ← stringViewToInt (← row.field 2)
  let quantity ← stringViewToInt (← row.field 3)
  let price ← stringViewToDouble (← row.field 4)
  return ⟨coid, instrument, side, quantity, price, sequence⟩

end CsvOrderProducer

-- The size of a file is an `off_t`.
structure InputFile where
  bytes : Bytes
  fits  : bytes.length < 2 ^ 63

-- Where the thread of the producer is in `produce`, with its local variables. There is no number of
-- produced orders when the file could not be opened.
inductive CsvOrderProducer
  | start (file : Option InputFile)
  | read (rows : List CSVRow) (sequence produced : UInt64)
  | push (message : InboundOrderMsg) (rows : List CSVRow) (sequence produced : UInt64)
  | publishEndOfStream (produced : Option UInt64)
  | storeProduced (produced : UInt64)
  | storeDone
  | ended

namespace CsvOrderProducer

variable {m n : Nat}

-- The next step of the thread. There is none when it has ended, when it waits for a place in the queue,
-- and when a number cannot be parsed.
def step (shared : Shared m n) : CsvOrderProducer → Option (CsvOrderProducer × Shared m n)
  | start none        => some (publishEndOfStream none, shared)
  | start (some file) => some (read (csvRange file.bytes).tail 1 0, shared)
  | read [] _ produced => some (publishEndOfStream (some produced), shared)
  | read (row :: rows) sequence produced =>
    if row.size < 5 then
      some (read rows sequence produced, shared)
    else
      match message row sequence with
      | .ok message => some (push message rows (sequence + 1) (produced + 1), shared)
      | .error _    => none
  | push message rows sequence produced => do
    let inbound ← shared.inbound.push (some message)
    return (read rows sequence produced, { shared with inbound })
  | publishEndOfStream produced => do
    let inbound ← shared.inbound.push none
    return (produced.elim storeDone storeProduced, { shared with inbound })
  | storeProduced produced =>
    some (storeDone, { shared with state := { shared.state with producedOrders := produced } })
  | storeDone =>
    some (ended, { shared with state := { shared.state with producerDone := true } })
  | ended => none

end CsvOrderProducer
