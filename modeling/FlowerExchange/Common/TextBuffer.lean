import FlowerExchange.Common.Formatting

open Decimal

-- The functions that format amounts once more, with the buffer that they write to. They give what the
-- buffer holds then, and the length that is returned. Each write has to lie in the buffer.
namespace TextBuffer

def toChars (buffer : Bytes) (first value : Nat) : Option (Bytes × Nat) :=
  let digits := decimal value
  if first + digits.length > buffer.length then
    none
  else
    some (buffer.take first ++ digits ++ buffer.drop (first + digits.length), first + digits.length)

def clear (buffer : Bytes) : Except Fault (Bytes × Nat) := do
  let buffer ← setElementAt buffer 0 0
  return (buffer, 0)

def putFraction (buffer : Bytes) (out fracPart : Nat) : Except Fault (Bytes × Nat) := do
  let buffer ← setElementAt buffer out 46
  let buffer ← setElementAt buffer (out + 1) (.ofNat (48 + fracPart / 10))
  let buffer ← setElementAt buffer (out + 2) (.ofNat (48 + fracPart % 10))
  let buffer ← setElementAt buffer (out + 3) 0
  return (buffer, out + 3)

def putAmount (buffer : Bytes) (out integerPart fracPart : Nat) : Except Fault (Bytes × Nat) :=
  match toChars buffer out integerPart with
  | none => clear buffer
  | some (buffer, out) =>
    if out + 4 > buffer.length then clear buffer else putFraction buffer out fracPart

def formatTicksToBuffer (ticks : PriceTick) (buffer : Bytes) : Except Fault (Bytes × Nat) :=
  if buffer.length < 5 then
    return (buffer, 0)
  else
    putAmount buffer 0 (ticks / 100) (ticks % 100)

def formatCentsToBuffer (unspecified : ℚ → Int64) (price : ℚ) (buffer : Bytes) :
    Except Fault (Bytes × Nat) :=
  let scaled := price * 100
  if scaled > 2 ^ 63 ∨ scaled < -2 ^ 63 then
    clear buffer
  else
    let cents := (llround unspecified scaled).toInt
    if cents < 0 then
      if 1 ≥ buffer.length then
        clear buffer
      else do
        let buffer ← setElementAt buffer 0 45
        putAmount buffer 1 (cents.natAbs / 100) (cents.natAbs % 100)
    else
      putAmount buffer 0 (cents.natAbs / 100) (cents.natAbs % 100)

def formatNonnegToBuffer (unspecified : ℚ → Int64) (price : Double) (buffer : Bytes) :
    Except Fault (Bytes × Nat) :=
  match price with
  | .posInf   => formatTicksToBuffer (doubleToTicks unspecified price) buffer
  | .finite q =>
    if q ≥ 0 then formatTicksToBuffer (doubleToTicks unspecified price) buffer else return (buffer, 0)
  | _         => return (buffer, 0)

def formatPriceToBuffer (unspecified : ℚ → Int64) (price : Double) (buffer : Bytes) :
    Except Fault (Bytes × Nat) :=
  if buffer.length = 0 then
    return (buffer, 0)
  else do
    let (buffer, len) ← formatNonnegToBuffer unspecified price buffer
    if len > 0 then
      return (buffer, len)
    else
      match price with
      | .finite q =>
        if buffer.length < 5 then clear buffer else formatCentsToBuffer unspecified q buffer
      | _ => clear buffer

end TextBuffer
