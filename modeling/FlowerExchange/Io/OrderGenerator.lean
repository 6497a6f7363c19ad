import FlowerExchange.Common.Memory
import FlowerExchange.Lib.Decimal

open Decimal

namespace OrderGenerator

def flowers : List Bytes :=
  ["Rose", "Lavender", "Lotus", "Tulip", "Orchid"].map ascii

-- What is chosen at random for a row. The price is rounded to cents, and the quantity is counted in tens.
structure Choice where
  flower     : Bytes
  side       : Nat
  quantity   : Nat
  cents      : Nat
  flowerMem  : flower ∈ flowers
  sideMem    : side ∈ [1, 2]
  quantityIn : 1 ≤ quantity ∧ quantity ≤ 100
  centsIn    : 100 ≤ cents ∧ cents ≤ 100000

-- The text of a `float` that is rounded to cents: it has one digit behind the point if that suffices.
def priceText (cents : Nat) : Bytes :=
  let fraction := cents % 100
  decimal (cents / 100) ++ 46 ::
    if fraction % 10 = 0 then decimal (fraction / 10) else decimal (fraction / 10) ++ decimal (fraction % 10)

-- The method of `csv.writer`, for fields that need no quotes.
def writerow (fields : List Bytes) : Bytes :=
  [44].intercalate fields ++ [13, 10]

def fields (i : Nat) (c : Choice) : List Bytes :=
  [decimal i, c.flower, decimal c.side, decimal (c.quantity * 10), priceText c.cents]

def writeRows (i : Nat) : List Choice → Bytes
  | []      => []
  | c :: cs => writerow (fields i c) ++ writeRows (i + 1) cs

def generateOrderAndAppendToCsv (choices : List Choice) : Bytes :=
  writerow (["id", "flower", "side", "quantity", "price"].map ascii) ++ writeRows 1 choices

end OrderGenerator
