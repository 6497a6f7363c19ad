import FlowerExchange.App.PipelineTypes

open Decimal

def toChars (i : Int) : Bytes :=
  if i < 0 then 45 :: decimal i.natAbs else decimal i.natAbs

namespace CsvReportWriter

def kQuantityText (i : Nat) : Bytes :=
  if (decimal i).length ≤ 4 then decimal i else ascii "0"

def writeSideToBuffer (side : Int) : Bytes :=
  if side = Side.buy.toInt then ascii "1"
  else if side = Side.sell.toInt then ascii "2"
  else toChars side

def writeQuantityToBuffer (quantity : Int) : Bytes :=
  if 0 ≤ quantity ∧ quantity ≤ RuntimeConfig.maxQuantity
  then kQuantityText quantity.toNat
  else toChars quantity

-- The first bytes of an array, in which a text is followed by NUL bytes.
def span {n : Nat} (source : CStr n) (length : UInt8) : Bytes :=
  (source.text ++ List.replicate (n - source.text.length) 0).take length.toNat

-- The row that `append_csv_row` appends.
def csvRow (message : OutboundReportMsg) : Bytes :=
  span message.oid message.oidLen ++ ascii "," ++
  span message.coid message.coidLen ++ ascii "," ++
  span message.instrument message.instrumentLen ++ ascii "," ++
  writeSideToBuffer message.side ++ ascii "," ++
  span message.execStatus message.execStatusLen ++ ascii "," ++
  writeQuantityToBuffer message.quantity ++ ascii "," ++
  span message.priceText message.priceTextLen ++ ascii "," ++
  span message.reason message.reasonLen ++ ascii "," ++
  span message.timestamp message.timestampLen ++ [10]

def rowParts (message : OutboundReportMsg) : List Bytes :=
  [span message.oid message.oidLen, ascii ",",
    span message.coid message.coidLen, ascii ",",
    span message.instrument message.instrumentLen, ascii ",",
    writeSideToBuffer message.side, ascii ",",
    span message.execStatus message.execStatusLen, ascii ",",
    writeQuantityToBuffer message.quantity, ascii ",",
    span message.priceText message.priceTextLen, ascii ",",
    span message.reason message.reasonLen, ascii ",",
    span message.timestamp message.timestampLen, [10]]

-- Writes behind what has been written to the row, which is an array of 320 chars. The source does not check
-- that there is a place.
def writeToRow (row source : Bytes) : Except Fault Bytes :=
  if row.length + source.length ≤ 320 then .ok (row ++ source) else .error .indexOutOfBounds

def appendCsvRow (destination : Bytes) (message : OutboundReportMsg) : Except Fault Bytes := do
  let row ← (rowParts message).foldlM writeToRow []
  return destination ++ row

def header : Bytes :=
  ascii "Order ID,Client Order Id,Instrument,Side,Exec Status,Quantity,Price,Reason,Timestamp" ++ [10]

inductive Location
  | checkDone
  | checkEmpty
  | pop
  | append (message : OutboundReportMsg)
  | flush
  | joinProducer
  | joinMatcher
  | ended

end CsvReportWriter

structure CsvReportWriter where
  writeBatch : Bytes := CsvReportWriter.header
  outputFile : Bytes := []
  location   : CsvReportWriter.Location := .checkDone

namespace CsvReportWriter

variable {m n : Nat}

-- The batch is written to the file when it has reached the threshold.
def append (threshold : Nat) (w : CsvReportWriter) (message : OutboundReportMsg) : CsvReportWriter :=
  let batch := w.writeBatch ++ csvRow message
  if batch.length ≥ threshold
  then { w with writeBatch := [], outputFile := w.outputFile ++ batch }
  else { w with writeBatch := batch }

def step (threshold : Nat) (shared : Shared m n) (w : CsvReportWriter) :
    Option (CsvReportWriter × Shared m n) :=
  match w.location with
  | .checkDone =>
    some ({ w with location := if shared.state.matcherDone then .checkEmpty else .pop }, shared)
  | .checkEmpty =>
    some ({ w with location := if shared.outbound.isEmpty then .flush else .pop }, shared)
  | .pop =>
    match shared.outbound.pop with
    | none                     => some ({ w with location := .checkDone }, shared)
    | some (message, outbound) => some ({ w with location := .append message }, { shared with outbound })
  | .append message => some ({ w.append threshold message with location := .checkDone }, shared)
  | .flush =>
    some ({ writeBatch := [], outputFile := w.outputFile ++ w.writeBatch, location := .joinProducer },
      shared)
  | _ => none

def returned (w : CsvReportWriter) : Bool :=
  match w.location with
  | .joinProducer | .joinMatcher | .ended => true
  | _                                     => false

end CsvReportWriter
