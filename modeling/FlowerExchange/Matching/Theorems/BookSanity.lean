import FlowerExchange.Matching.Theorems.OrderProcessor
import FlowerExchange.Matching.Theorems.Walk

open Resting RuntimeConfig

namespace Exchange

def Admissible (x : Exchange) : Prop :=
  ∀ side i, ∀ r ∈ x.resting side i, 10 ∣ r.quantity ∧ r.quantity ≤ 1000

theorem Admissible.place {x : Exchange} (h : x.Admissible) (message : InboundOrderMsg) (p : Placement) :
    (x.place message p).Admissible := by
  have opposite : ∀ r ∈ x.matched p.side p.instrument p.tick, 10 ∣ r.quantity := fun r hr =>
    (h _ _ r (mem_matching.mp hr).left).left
  refine Market.restingAfter_cases (p := fun _ _ l => ∀ r ∈ l, 10 ∣ r.quantity ∧ r.quantity ≤ 1000)
    (fun r hr => ?_) (fun r hr => ⟨?_, ?_⟩) fun side i _ => h side i
  · rcases Market.mem_joined hr with ⟨rfl, _⟩ | hr
    · exact ⟨Nat.dvd_sub p.quantityDvd (dvd_total opposite), (Nat.sub_le ..).trans p.quantityLe⟩
    · exact h _ _ r hr
  · rcases List.mem_append.mp hr with hr | hr
    · exact residual_dvd p.quantityDvd opposite r hr
    · exact (h _ _ r (mem_rest.mp hr).left).left
  · have ⟨r', hr', _, hle⟩ := Market.mem_opposing hr
    exact hle.trans (h _ _ r' hr').right

theorem step_admissible {x : Exchange} (h : x.Admissible) (event : OrderProcessor.Event) :
    (x.step unspecified event).1.Admissible := by
  cases event
  case reset => exact fun _ _ _ hr => nomatch hr
  case consume a =>
    cases hm : a.message.placement
    case error => exact step_reject hm ▸ h
    case ok p  => exact step_accept hm ▸ h.place a.message p

end Exchange

namespace OrderProcessor

structure Sane.Linked (side : Side) (i : Instrument) (t : Nat) (l : List Addr) (o : Order) : Prop where
  side       : o.side = side
  instrument : o.instrument = i
  price      : o.price = t
  next       : ∀ a, o.next = some a → a ∈ l
  multiple   : 10 ∣ o.quantity.toNat
  positive   : 0 < o.quantity.toNat
  bounded    : o.quantity.toNat ≤ 1000

structure Sane (s : OrderProcessor) : Prop where
  uncrossed : ∀ i : Instrument,
    (∃ (t : Nat) (a : Addr), (s.matcher.buyBooks i).priceLevels[t]? = some (some a)) →
    (∃ (t : Nat) (a : Addr), (s.matcher.sellBooks i).priceLevels[t]? = some (some a)) →
    (s.matcher.sellBooks i).findFirst > (s.matcher.buyBooks i).findLast
  levels    : ∀ side i t, ∃ l, s.matcher.Walk side i t l ∧
    ∀ a ∈ l, ∃ o, s.matcher.orderPool.heap a = some o ∧ Sane.Linked side i t l o

variable {s : OrderProcessor} {x : Exchange} {lv : Side → Instrument → Levels}
variable {loose : Addr → Option Order} {side : Side} {i : Instrument} {t u : Nat} {a b : Addr}

theorem Models.linked (h : Models s lv x loose) (hx : x.Admissible) (ha : a ∈ lv side i t) :
    ∃ o, s.matcher.orderPool.heap a = some o ∧ Sane.Linked side i t (lv side i t) o := by
  have ⟨r, hr, hp, o, ho, hs, hi, hor⟩ := h.represents.holds_mem ha
  have ⟨hd, hle⟩ := hx side i r hr
  have hq : o.quantity.toNat = r.quantity := congrArg Resting.quantity hor
  have rep : BitmaskOrderBook.Rep orderBookTickCapacity (s.matcher.book side i)
      s.matcher.orderPool.heap (lv side i) := h.represents.rep side i
  refine ⟨o, ho, hs, hi, (congrArg Resting.price hor).trans hp, fun b hb => ?_, hq ▸ hd,
    hq ▸ x.positive side i r hr, hq ▸ hle⟩
  exact (rep.linked t).next_mem ha (by simp [orderLinks, ho, hb])

theorem Models.uncrossed (h : Models s lv x loose)
    (hb : (s.matcher.buyBooks i).priceLevels[t]? = some (some a))
    (hs : (s.matcher.sellBooks i).priceLevels[u]? = some (some b)) :
    (s.matcher.sellBooks i).findFirst > (s.matcher.buyBooks i).findLast := by
  have first : IsBest (· < ·) (lv .sell i).active (s.matcher.sellBooks i).findFirst :=
    LawfulOrderBook.first_spec (h.represents.rep .sell i)
  have last : IsBest (· > ·) (lv .buy i).active (s.matcher.buyBooks i).findLast :=
    LawfulOrderBook.last_spec (h.represents.rep .buy i)
  have active (side) {t : Nat} {a : Addr} (ha : (s.matcher.book side i).priceLevels[t]? = some (some a)) :
      (lv side i).active ≠ ∅ := by
    refine Set.Nonempty.ne_empty ⟨t, fun hl => ?_⟩
    simpa [ha] using h.represents.level_nil_iff.mpr hl
  rcases first with ⟨he, _⟩ | ⟨f, hf, _, hfe⟩
  · exact absurd he <| active .sell hs
  · rcases last with ⟨he, _⟩ | ⟨l, hl, _, hle⟩
    · exact absurd he <| active .buy hb
    · have ⟨r, hr, hrp⟩ := h.represents.mem_active_iff.mp hf
      have ⟨r', hr', hrp'⟩ := h.represents.mem_active_iff.mp hl
      have := x.uncrossed i r' hr' r hr
      omega

-- Whatever messages and resets there are, the books stay sane.
theorem books_sane (unspecified : ℚ → Int64) (events : List Event) :
    ∃ s, Reached unspecified events s ∧ s.Sane := by
  have ⟨s, hs, lv, loose, h⟩ := reached_agrees unspecified events
  have hx : (Machine.exec (Exchange.step unspecified) events .empty).1.Admissible :=
    Machine.exec_invariant (fun event hx => Exchange.step_admissible hx event) fun _ _ _ hr => nomatch hr
  refine ⟨s, hs, fun i ⟨_, _, hb⟩ ⟨_, _, hs⟩ => h.uncrossed hb hs, fun side i t => ?_⟩
  exact ⟨lv side i t, h.represents.walk_self side i t, fun _ ha => h.linked hx ha⟩

end OrderProcessor
