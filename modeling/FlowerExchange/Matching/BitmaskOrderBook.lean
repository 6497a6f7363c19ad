import FlowerExchange.Matching.OrderBook

structure BitmaskOrderBook where
  priceLevels     : List (Option Addr)
  priceLevelTails : List (Option Addr)
  mask            : List (BitVec 64)
  bestFirst       : Int
  bestLast        : Int

namespace BitmaskOrderBook

def new (maxTicks : Nat) : BitmaskOrderBook where
  priceLevels     := .replicate maxTicks none
  priceLevelTails := .replicate maxTicks none
  mask            := .replicate ((maxTicks + 63) / 64) 0#64
  bestFirst       := -1
  bestLast        := -1

def findNextFrom (book : BitmaskOrderBook) (tick : PriceTick) : Int :=
  let word : Nat := tick / 64
  let bitInWord : Nat := tick % 64
  match book.mask[word]? with
  | none => -1
  | some bits =>
    let bits :=
      if bitInWord < 63
      then bits &&& ~~~((1#64 <<< (bitInWord + 1)) - 1#64)
      else 0#64
    if bits ≠ 0#64 then
      word * 64 + bits.ctz.toNat
    else
      match (book.mask.drop (word + 1)).findIdx? (· ≠ 0#64) with
      | none   => -1
      | some k => (word + 1 + k : Nat) * 64 + (book.mask.getD (word + 1 + k) 0#64).ctz.toNat

def findPrevWord (mask : List (BitVec 64)) : Nat → Int
  | 0     => -1
  | i + 1 =>
    let bits := mask.getD i 0#64
    if bits ≠ 0#64 then i * 64 + (63 - bits.clz.toNat : Nat) else findPrevWord mask i

def findPrevFrom (book : BitmaskOrderBook) (tick : PriceTick) : Int :=
  if book.mask.isEmpty then
    -1
  else
    let word : Nat := if tick / 64 ≥ book.mask.length then book.mask.length - 1 else tick / 64
    let bitInWord : Nat := tick % 64
    let bits := book.mask.getD word 0#64
    let bits := if bitInWord > 0 then bits &&& ((1#64 <<< bitInWord) - 1#64) else 0#64
    if bits ≠ 0#64 then
      word * 64 + (63 - bits.clz.toNat : Nat)
    else
      findPrevWord book.mask word

def addOrderKnownValid (book : BitmaskOrderBook) (pool : MemPool Order) (tick : PriceTick) :
    Option Addr → Except Fault (BitmaskOrderBook × MemPool Order)
  | none => return (book, pool)
  | some order => do
    let pool ← pool.modify order fun o => { o with next := none }
    match ← elementAt book.priceLevels tick with
    | none =>
      let levels ← setElementAt book.priceLevels tick (some order)
      let tails ← setElementAt book.priceLevelTails tick (some order)
      let word : Nat := tick / 64
      let bit := 1#64 <<< (tick % 64)
      let bits ← elementAt book.mask word
      let mask ← setElementAt book.mask word (bits ||| bit)
      let book' : BitmaskOrderBook := {
        priceLevels     := levels
        priceLevelTails := tails
        mask            := mask
        bestFirst       :=
          if book.bestFirst < 0 ∨ (tick : Int) < book.bestFirst then (tick : Int) else book.bestFirst
        bestLast        :=
          if book.bestLast < 0 ∨ (tick : Int) > book.bestLast then (tick : Int) else book.bestLast
      }
      return (book', pool)
    | some _ =>
      match ← elementAt book.priceLevelTails tick with
      | none => throw .nullPointer
      | some tail =>
        let pool ← pool.modify tail fun o => { o with next := some order }
        let tails ← setElementAt book.priceLevelTails tick (some order)
        return ({ book with priceLevelTails := tails }, pool)

def peekOrderKnownValid (book : BitmaskOrderBook) (tick : PriceTick) : Except Fault (Option Addr) :=
  elementAt book.priceLevels tick

def popOrderKnownValid (book : BitmaskOrderBook) (pool : MemPool Order) (tick : PriceTick) :
    Except Fault (BitmaskOrderBook × MemPool Order × Option Addr) := do
  match ← elementAt book.priceLevels tick with
  | none => return (book, pool, none)
  | some head =>
    let next := (← pool.read head).next
    let levels ← setElementAt book.priceLevels tick next
    let pool ← pool.modify head fun o => { o with next := none }
    let book := { book with priceLevels := levels }
    match next with
    | some _ => return (book, pool, some head)
    | none =>
      let tails ← setElementAt book.priceLevelTails tick none
      let word : Nat := tick / 64
      let bit := 1#64 <<< (tick % 64)
      let bits ← elementAt book.mask word
      let mask ← setElementAt book.mask word (bits &&& ~~~bit)
      let book := { book with priceLevelTails := tails, mask := mask }
      let book :=
        if book.bestFirst = (tick : Int)
        then { book with bestFirst := book.findNextFrom tick }
        else book
      let book :=
        if book.bestLast = (tick : Int)
        then { book with bestLast := book.findPrevFrom tick }
        else book
      return (book, pool, some head)

def findFirst (book : BitmaskOrderBook) : Int :=
  book.bestFirst

def findLast (book : BitmaskOrderBook) : Int :=
  book.bestLast

instance : OrderBook BitmaskOrderBook where
  new                := new
  addOrderKnownValid  := addOrderKnownValid
  peekOrderKnownValid := peekOrderKnownValid
  popOrderKnownValid  := popOrderKnownValid
  findFirst           := findFirst
  findLast            := findLast

end BitmaskOrderBook
