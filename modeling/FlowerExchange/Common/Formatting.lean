import FlowerExchange.Lib.Decimal
import FlowerExchange.Common.Types

open Decimal

def maxTick : Nat := 2 ^ 64 - 1

-- Rounds to the nearest integer, and halfway cases away from zero.
def roundHalfAway (q : ℚ) : Int :=
  if 0 ≤ q then ⌊q + 1 / 2⌋ else -⌊-q + 1 / 2⌋

-- `unspecified` is the result of `llround` when the rounded value does not fit into a `long long`.
def llround (unspecified : ℚ → Int64) (q : ℚ) : Int64 :=
  if -2 ^ 63 ≤ roundHalfAway q ∧ roundHalfAway q < 2 ^ 63
  then .ofInt (roundHalfAway q)
  else unspecified q

def doubleToTicks (unspecified : ℚ → Int64) : Double → PriceTick
  | .finite price =>
    if price ≤ 0 then
      0
    else
      let scaled := price / RuntimeConfig.tickSize
      if scaled ≥ 2 ^ 64 then maxTick else (llround unspecified scaled).toUInt64.toNat
  | _ => maxTick

def ticksToDouble (ticks : PriceTick) : ℚ :=
  ticks * RuntimeConfig.tickSize

def fractionText (fracPart : Nat) : Bytes :=
  [46, .ofNat (48 + fracPart / 10), .ofNat (48 + fracPart % 10)]

-- The text that is written to a buffer. It is empty on error.
def formatTicksToBuffer (ticks : PriceTick) (bufferSize : Nat) : Bytes :=
  if bufferSize < 5 then
    []
  else
    let integerPart := decimal (ticks / 100)
    if integerPart.length > bufferSize then []
    else if integerPart.length + 4 > bufferSize then []
    else integerPart ++ fractionText (ticks % 100)

def formatCentsToBuffer (unspecified : ℚ → Int64) (price : ℚ) (bufferSize : Nat) : Bytes :=
  let scaled := price * 100
  if scaled > 2 ^ 63 ∨ scaled < -2 ^ 63 then
    []
  else
    let cents := (llround unspecified scaled).toInt
    let sign : Bytes := if cents < 0 then [45] else []
    let integerPart := decimal (cents.natAbs / 100)
    if cents < 0 ∧ 1 ≥ bufferSize then []
    else if sign.length + integerPart.length > bufferSize then []
    else if sign.length + integerPart.length + 4 > bufferSize then []
    else sign ++ integerPart ++ fractionText (cents.natAbs % 100)

def formatPriceToBuffer (unspecified : ℚ → Int64) (price : Double) (bufferSize : Nat) : Bytes :=
  if bufferSize = 0 then
    []
  else
    let text :=
      match price with
      | .posInf   => formatTicksToBuffer (doubleToTicks unspecified price) bufferSize
      | .finite q =>
        if q ≥ 0 then formatTicksToBuffer (doubleToTicks unspecified price) bufferSize else []
      | _         => []
    if text ≠ [] then
      text
    else if !price.isFinite ∨ bufferSize < 5 then
      []
    else
      match price with
      | .finite q => formatCentsToBuffer unspecified q bufferSize
      | _         => []
