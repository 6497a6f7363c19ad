import FlowerExchange.Matching.OrderBook

structure MapOrderBook where
  priceLevels : Std.TreeMap PriceTick (List Addr)

namespace MapOrderBook

def new (_maxTicks : Nat) : MapOrderBook where
  priceLevels := ∅

def addOrderKnownValid (book : MapOrderBook) (pool : MemPool Order) (tick : PriceTick) :
    Option Addr → Except Fault (MapOrderBook × MemPool Order)
  | none => return (book, pool)
  | some order => do
    let pool ← pool.modify order fun o => { o with next := none }
    let level := book.priceLevels[tick]?.getD []
    return (⟨book.priceLevels.insert tick (level ++ [order])⟩, pool)

def peekOrderKnownValid (book : MapOrderBook) (tick : PriceTick) : Except Fault (Option Addr) :=
  match book.priceLevels[tick]? with
  | none | some []     => return none
  | some (head :: _) => return some head

def popOrderKnownValid (book : MapOrderBook) (pool : MemPool Order) (tick : PriceTick) :
    Except Fault (MapOrderBook × MemPool Order × Option Addr) :=
  match book.priceLevels[tick]? with
  | none | some [] => return (book, pool, none)
  | some (head :: level) => do
    let pool ← pool.modify head fun o => { o with next := none }
    if level.isEmpty then
      return (⟨book.priceLevels.erase tick⟩, pool, some head)
    else
      return (⟨book.priceLevels.insert tick level⟩, pool, some head)

def findFirst (book : MapOrderBook) : Int :=
  match book.priceLevels.minKey? with
  | none      => -1
  | some tick => tick

def findLast (book : MapOrderBook) : Int :=
  match book.priceLevels.maxKey? with
  | none      => -1
  | some tick => tick

instance : OrderBook MapOrderBook where
  new                := new
  addOrderKnownValid  := addOrderKnownValid
  peekOrderKnownValid := peekOrderKnownValid
  popOrderKnownValid  := popOrderKnownValid
  findFirst           := findFirst
  findLast            := findLast

end MapOrderBook
