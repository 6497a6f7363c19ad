import FlowerExchange.Matching.OrderBook

inductive BookCall
  | add (tick : PriceTick) (order : Option Addr)
  | peek (tick : PriceTick)
  | pop (tick : PriceTick)
  | findFirst
  | findLast

inductive BookResult
  | done
  | order (ptr : Option Addr)
  | tick (t : Int)
deriving DecidableEq

def BookCall.step [OrderBook B] (s : B × MemPool Order) :
    BookCall → Except Fault ((B × MemPool Order) × BookResult)
  | .add tick order => do
    let s ← OrderBook.addOrderKnownValid s.1 s.2 tick order
    return (s, .done)
  | .peek tick => do
    let ptr ← OrderBook.peekOrderKnownValid s.1 tick
    return (s, .order ptr)
  | .pop tick => do
    let (book, pool, ptr) ← OrderBook.popOrderKnownValid s.1 s.2 tick
    return ((book, pool), .order ptr)
  | .findFirst => return (s, .tick (OrderBook.findFirst s.1))
  | .findLast  => return (s, .tick (OrderBook.findLast s.1))

namespace Levels

def after (lv : Levels) : BookCall → Levels
  | .add tick (some order) => Function.update lv tick (lv tick ++ [order])
  | .pop tick              => Function.update lv tick (lv tick).tail
  | _                      => lv

-- What a caller has to respect: ticks are below `maxTicks`, and only an order that is live and rests
-- in no queue is added.
def Admits (maxTicks : Nat) (live : Addr → Prop) (lv : Levels) : BookCall → Prop
  | .add tick order       => tick < maxTicks ∧ ∀ a ∈ order, live a ∧ ∀ t, a ∉ lv t
  | .peek tick | .pop tick => tick < maxTicks
  | .findFirst | .findLast => True

def AdmitsAll (maxTicks : Nat) (live : Addr → Prop) : List BookCall → Levels → Prop
  | [], _             => True
  | call :: calls, lv => lv.Admits maxTicks live call ∧ AdmitsAll maxTicks live calls (lv.after call)

def Answers (lv : Levels) : BookCall → BookResult → Prop
  | .add .., r                         => r = .done
  | .peek tick, r | .pop tick, r        => r = .order (lv tick).head?
  | .findFirst, r                      => ∃ i, r = .tick i ∧ IsBest (· < ·) lv.active i
  | .findLast, r                       => ∃ i, r = .tick i ∧ IsBest (· > ·) lv.active i

theorem Answers.unique {lv : Levels} : (call : BookCall) → lv.Answers call r → lv.Answers call r' → r = r'
  | .add .., h, h' | .peek _, h, h' | .pop _, h, h' => h.trans h'.symm
  | .findFirst, ⟨_, h, hb⟩, ⟨_, h', hb'⟩ => by rw [h, h', hb.unique hb']
  | .findLast, ⟨_, h, hb⟩, ⟨_, h', hb'⟩ => by rw [h, h', hb.unique hb']

end Levels
