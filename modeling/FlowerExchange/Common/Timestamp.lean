import FlowerExchange.Common.Types
import FlowerExchange.Lib.FixedWidth

open Decimal

structure Tm where
  year   : Int
  mon    : Nat
  mday   : Nat
  hour   : Nat
  min    : Nat
  sec    : Nat
  monLe  : mon ≤ 11
  mdayLe : mday ≤ 31
  hourLe : hour ≤ 23
  minLe  : min ≤ 59
  secLe  : sec ≤ 60

structure ClockReading where
  tmLocal : Tm
  epochMs : Int

-- What `snprintf` writes for `%0wd`, where the sign is part of the width.
def formatInt (width : Nat) (i : Int) : Bytes :=
  if i < 0 then 45 :: padded (width - 1) i.natAbs else padded width i.natAbs

-- Writes a text to an array, as far as it fits with its terminator. The result has the length of the text.
def snprintf (out text : Bytes) : Bytes × Nat :=
  let n := out.length - 1
  (text.take n ++ 0 :: out.drop (min n text.length + 1), text.length)

def cText (array : Bytes) : Bytes :=
  array.takeWhile (· ≠ 0)

namespace ClockReading

def millis (r : ClockReading) : Int :=
  r.epochMs.tmod 1000

def timestampText (r : ClockReading) : Bytes :=
  formatInt 4 (r.tmLocal.year + 1900) ++ formatInt 2 (r.tmLocal.mon + 1) ++ formatInt 2 r.tmLocal.mday ++
  ascii "-" ++
  formatInt 2 r.tmLocal.hour ++ formatInt 2 r.tmLocal.min ++ formatInt 2 r.tmLocal.sec ++ ascii "." ++
  formatInt 3 r.millis

end ClockReading

def fillCurrentTimestamp (now : ClockReading) (out : Bytes) : Bytes :=
  if out.length = 0 then
    out
  else if out.length < 20 then
    out.set 0 0
  else
    let (out', written) := snprintf out now.timestampText
    if written ≥ out.length then out'.set 0 0 else out'
