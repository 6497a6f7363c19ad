import FlowerExchange.Matching.Theorems.BitmaskOrderBook
import FlowerExchange.Matching.Theorems.Represents

open Resting

namespace MatchingEngine

-- The links that are stored in the nodes of a pool, whether or not the nodes are allocated.
def storedLinks (pool : MemPool Order) (a : Addr) : Option (Option Addr) :=
  (pool.node? a).map (·.obj.next)

def Walk (s : MatchingEngine BitmaskOrderBook) (side : Side) (i : Instrument) (t : Nat)
    (l : List Addr) : Prop :=
  Linked (storedLinks s.orderPool) ((s.book side i).priceLevels[t]?.getD none) l

def Shows (s : MatchingEngine BitmaskOrderBook)
    (queues : Side → Instrument → List (Resting Nat OrderIds)) : Prop :=
  ∀ side i t, ∃ l, s.Walk side i t l ∧
    List.Forall₂ (Holds s.orderPool.heap side i) l (level t (queues side i))

def InBook (s : MatchingEngine BitmaskOrderBook) (a : Addr) : Prop :=
  ∃ side i t l, s.Walk side i t l ∧ a ∈ l

end MatchingEngine

theorem storedLinks_eq {pool : MemPool Order} (h : pool.heap a = some o) :
    MatchingEngine.storedLinks pool a = some o.next := by
  have ⟨n, hn, _, ho⟩ := MemPool.heap_eq_some_iff.mp h
  simp [MatchingEngine.storedLinks, hn, ho]

namespace Represents

variable {s : MatchingEngine BitmaskOrderBook} {lv : Side → Instrument → Levels} {a : Addr}
variable {m : Side → Instrument → List (Resting Nat OrderIds)} {loose : Addr → Option Order}

theorem walk_self (h : Represents maxTicks s.orderPool s.book lv m loose) (side : Side)
    (i : Instrument) (t : Nat) : s.Walk side i t (lv side i t) := by
  have rep : BitmaskOrderBook.Rep maxTicks (s.book side i) s.orderPool.heap (lv side i) := h.rep side i
  have hl : Linked (MatchingEngine.storedLinks s.orderPool) (lv side i t).head? (lv side i t) := by
    refine (rep.linked t).congr fun a ha => ?_
    have ⟨o, ho⟩ := Option.isSome_iff_exists.mp <| rep.live ha
    rw [storedLinks_eq ho, orderLinks, ho, Option.map_some]
  rw [MatchingEngine.Walk, rep.heads t]
  split
  case isTrue => exact hl
  case isFalse ht =>
    have : lv side i t = [] := by_contra fun hn => ht <| rep.bound t hn
    simpa [this] using hl

theorem walk_iff (h : Represents maxTicks s.orderPool s.book lv m loose) :
    s.Walk side i t l ↔ l = lv side i t :=
  ⟨fun hw => hw.unique <| h.walk_self side i t, fun hl => hl ▸ h.walk_self side i t⟩

theorem inBook_iff (h : Represents maxTicks s.orderPool s.book lv m loose) :
    s.InBook a ↔ Placed lv a where
  mp  := fun ⟨side, i, t, _, hw, ha⟩ => ⟨side, i, t, h.walk_iff.mp hw ▸ ha⟩
  mpr := fun ⟨side, i, t, ha⟩ => ⟨side, i, t, _, h.walk_self side i t, ha⟩

theorem shows (h : Represents maxTicks s.orderPool s.book lv m loose) : s.Shows m :=
  fun side i t => ⟨_, h.walk_self side i t, h.holds side i t⟩

theorem level_nil_iff (h : Represents maxTicks s.orderPool s.book lv m loose) :
    (s.book side i).priceLevels[t]?.getD none = none ↔ lv side i t = [] := by
  have hw := h.walk_self side i t
  rw [MatchingEngine.Walk] at hw
  rw [hw.head_eq, List.head?_eq_none_iff]

end Represents
