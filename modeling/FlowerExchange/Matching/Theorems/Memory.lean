import FlowerExchange.Common.Theorems.PoolCapacity
import FlowerExchange.Matching.Theorems.Ownership
import FlowerExchange.Matching.Theorems.Work

open Function MemPool

namespace BitmaskOrderBook

variable {book book' : BitmaskOrderBook} {pool pool' : MemPool Order} {tick : PriceTick}

theorem add_sameSlots {order : Option Addr} (h : book.addOrderKnownValid pool tick order = .ok (book', pool')) :
    SameSlots pool pool' := by
  cases order
  case none =>
    cases h
    exact .refl _
  case some a =>
    obtain ⟨pool₁, h₁, h⟩ := Except.bind_eq_ok h
    obtain ⟨head, _, h⟩ := Except.bind_eq_ok h
    have k₁ := SameSlots.modify h₁
    cases head
    case none =>
      obtain ⟨_, _, h⟩ := Except.bind_eq_ok h
      obtain ⟨_, _, h⟩ := Except.bind_eq_ok h
      obtain ⟨_, _, h⟩ := Except.bind_eq_ok h
      obtain ⟨_, _, h⟩ := Except.bind_eq_ok h
      cases h
      exact k₁
    case some =>
      obtain ⟨tail, _, h⟩ := Except.bind_eq_ok h
      cases tail
      case none => contradiction
      case some =>
        obtain ⟨pool₂, h₂, h⟩ := Except.bind_eq_ok h
        obtain ⟨_, _, h⟩ := Except.bind_eq_ok h
        cases h
        exact k₁.trans <| .modify h₂

theorem pop_sameSlots {popped : Option Addr}
    (h : book.popOrderKnownValid pool tick = .ok (book', pool', popped)) : SameSlots pool pool' := by
  obtain ⟨head, _, h⟩ := Except.bind_eq_ok h
  cases head
  case none =>
    cases h
    exact .refl _
  case some =>
    obtain ⟨order, _, h⟩ := Except.bind_eq_ok h
    obtain ⟨_, _, h⟩ := Except.bind_eq_ok h
    obtain ⟨pool₁, h₁, h⟩ := Except.bind_eq_ok h
    have k₁ := SameSlots.modify h₁
    cases hn : order.next
    case some =>
      simp only [hn] at h
      cases h
      exact k₁
    case none =>
      simp only [hn] at h
      obtain ⟨_, _, h⟩ := Except.bind_eq_ok h
      obtain ⟨_, _, h⟩ := Except.bind_eq_ok h
      obtain ⟨_, _, h⟩ := Except.bind_eq_ok h
      cases h
      exact k₁

end BitmaskOrderBook

namespace MatchingEngine

variable {s s' : MatchingEngine BitmaskOrderBook} {emit : Emit ω} {ts : Option Bytes} {now : CStr 20}
variable {incoming : Addr} {opp : Side} {i : Instrument}

theorem matchPass_sameSlots {pass : Pass ω} (h : matchPass emit ts now incoming opp i s = .ok (s', pass)) :
    SameSlots s.orderPool s'.orderPool := by
  obtain ⟨order, _, h⟩ := Except.bind_eq_ok h
  split at h
  · cases h
    exact .refl _
  simp only at h
  split at h
  · cases h
    exact .refl _
  split at h
  · cases h
    exact .refl _
  obtain ⟨resting, _, h⟩ := Except.bind_eq_ok h
  cases resting
  case none =>
    cases h
    exact .refl _
  case some =>
    obtain ⟨_, _, h⟩ := Except.bind_eq_ok h
    obtain ⟨pool₁, h₁, h⟩ := Except.bind_eq_ok h
    obtain ⟨pool₂, h₂, h⟩ := Except.bind_eq_ok h
    have k := SameSlots.modify h₁ |>.trans <| .modify h₂
    obtain ⟨_, _, h⟩ := Except.bind_eq_ok h
    obtain ⟨_, _, h⟩ := Except.bind_eq_ok h
    obtain ⟨_, _, h⟩ := Except.bind_eq_ok h
    obtain ⟨_, _, h⟩ := Except.bind_eq_ok h
    split at h
    case isFalse =>
      cases h
      exact k
    case isTrue =>
      obtain ⟨⟨_, pool₃, _⟩, h₃, h⟩ := Except.bind_eq_ok h
      obtain ⟨pool₄, h₄, h⟩ := Except.bind_eq_ok h
      cases h
      exact k.trans (BitmaskOrderBook.pop_sameSlots h₃) |>.trans <| .deallocate h₄

theorem matchLoop_sameSlots {fuel : Nat} {trades : List (Trade ω)}
    (h : matchLoop emit ts now incoming opp i fuel s = .ok (s', trades)) :
    SameSlots s.orderPool s'.orderPool := by
  induction fuel generalizing s trades
  case zero => contradiction
  case succ fuel hi =>
    obtain ⟨⟨s₁, pass⟩, h₁, h⟩ := Except.bind_eq_ok h
    have k := matchPass_sameSlots h₁
    cases pass
    case stop =>
      cases h
      exact k
    case skip => exact k.trans <| hi h
    case trade =>
      obtain ⟨_, h₂, h⟩ := Except.bind_eq_ok h
      cases h
      exact k.trans <| hi h₂

theorem settle_sameSlots {trades : List (Trade ω)} {out : Outcome ω}
    (h : s.settle emit ts now incoming i trades = .ok (s', out)) : SameSlots s.orderPool s'.orderPool := by
  obtain ⟨order, _, h⟩ := Except.bind_eq_ok h
  split at h
  case isFalse =>
    obtain ⟨_, h₁, h⟩ := Except.bind_eq_ok h
    cases h
    exact .deallocate h₁
  case isTrue =>
    obtain ⟨⟨ownBook, pool⟩, h₁, h⟩ := Except.bind_eq_ok h
    have k := BitmaskOrderBook.add_sameSlots h₁
    simp only at h
    split at h
    case isFalse =>
      cases h
      exact k
    case isTrue =>
      obtain ⟨_, _, h⟩ := Except.bind_eq_ok h
      obtain ⟨_, _, h⟩ := Except.bind_eq_ok h
      cases h
      exact k

theorem processOrder_sameSlots {out : Outcome ω} (h : s.processOrder emit incoming ts now = .ok (s', out)) :
    SameSlots s.orderPool s'.orderPool := by
  obtain ⟨_, _, h⟩ := Except.bind_eq_ok h
  obtain ⟨_, _, h⟩ := Except.bind_eq_ok h
  obtain ⟨_, h₁, h⟩ := Except.bind_eq_ok h
  exact matchLoop_sameSlots h₁ |>.trans <| settle_sameSlots h

end MatchingEngine

theorem Resting.sum_length_level {l : List (Resting Nat D)} {n : Nat} (h : ∀ r ∈ l, r.price < n) :
    ∑ t ∈ Finset.range n, (level t l).length = l.length := by
  induction l
  case nil => simp [level]
  case cons r l hi =>
    obtain ⟨hr, hl⟩ := List.forall_mem_cons.mp h
    have hcons (t : Nat) : (level t (r :: l)).length = (if r.price = t then 1 else 0) + (level t l).length := by
      rw [level_cons]
      split <;> simp [Nat.add_comm]
    simp only [hcons, Finset.sum_add_distrib, hi hl, Finset.sum_ite_eq, Finset.mem_range, hr, if_true,
      List.length_cons]
    omega

def Levels.nodes (maxTicks : Nat) (lv : Levels) : Finset Addr :=
  (Finset.range maxTicks).biUnion fun t => (lv t).toFinset

namespace Represents

variable [OrderBook B] [LawfulOrderBook B] {maxTicks : Nat} {pool : MemPool Order}
variable {books : Side → Instrument → B} {lv : Side → Instrument → Levels} {a : Addr}
variable {m : Side → Instrument → List (Resting Nat OrderIds)} {loose : Addr → Option Order}

theorem mem_nodes (h : Represents maxTicks pool books lv m loose) {side : Side} {i : Instrument} :
    a ∈ (lv side i).nodes maxTicks ↔ ∃ t, a ∈ lv side i t := by
  simp only [Levels.nodes, Finset.mem_biUnion, Finset.mem_range, List.mem_toFinset]
  refine ⟨fun ⟨t, _, ha⟩ => ⟨t, ha⟩, fun ⟨t, ha⟩ => ⟨t, ?_, ha⟩⟩
  exact LawfulOrderBook.rep_bound (h.rep side i) <| List.ne_nil_of_mem ha

theorem card_nodes (h : Represents maxTicks pool books lv m loose) (side : Side) (i : Instrument) :
    ((lv side i).nodes maxTicks).card = (m side i).length := by
  have hp : ∀ r ∈ m side i, r.price < maxTicks := fun r hr =>
    LawfulOrderBook.rep_bound (h.rep side i) <| h.mem_active_iff.mpr ⟨r, hr, rfl⟩
  rw [Levels.nodes, Finset.card_biUnion, ← Resting.sum_length_level hp]
  · exact Finset.sum_congr rfl fun t _ => by
      rw [List.toFinset_card_of_nodup h.nodup, (h.holds side i t).length_eq]
  · intro t _ t' _ hne
    refine Finset.disjoint_left.mpr fun a ha ha' => hne ?_
    exact (h.place_unique (List.mem_toFinset.mp ha) (List.mem_toFinset.mp ha')).right.right

theorem liveCount_eq (h : Represents maxTicks pool books lv m loose) (tiled : pool.Tiled) :
    pool.liveCount = openOrders m + { a | (loose a).isSome }.ncard := by
  let nodes (side : Side) (i : Instrument) := (lv side i).nodes maxTicks
  let placed := Finset.univ.biUnion fun i => nodes .buy i ∪ nodes .sell i
  have mem_placed {a : Addr} : a ∈ placed ↔ Placed lv a := by
    simp only [placed, nodes, Finset.mem_biUnion, Finset.mem_univ, true_and, Finset.mem_union, h.mem_nodes]
    constructor
    · rintro ⟨i, ⟨t, ha⟩ | ⟨t, ha⟩⟩ <;> exact ⟨_, i, t, ha⟩
    · rintro ⟨side, i, t, ha⟩
      cases side
      case buy  => exact ⟨i, .inl ⟨t, ha⟩⟩
      case sell => exact ⟨i, .inr ⟨t, ha⟩⟩
  have hcard : placed.card = openOrders m := by
    have apart {side i side' i'} (hne : ¬(side = side' ∧ i = i')) : Disjoint (nodes side i) (nodes side' i') := by
      refine Finset.disjoint_left.mpr fun a ha ha' => hne ?_
      obtain ⟨t, ha⟩ := h.mem_nodes.mp ha
      obtain ⟨t', ha'⟩ := h.mem_nodes.mp ha'
      exact (h.place_unique ha ha').imp_right And.left
    rw [Finset.card_biUnion, openOrders]
    · refine Finset.sum_congr rfl fun i _ => ?_
      rw [Finset.card_union_of_disjoint <| apart (by simp), h.card_nodes, h.card_nodes]
    · intro i _ i' _ hne
      simp only [Finset.disjoint_union_left, Finset.disjoint_union_right]
      exact ⟨⟨apart (by simp [hne]), apart (by simp)⟩, apart (by simp), apart (by simp [hne])⟩
  have hlive : pool.live = ↑placed ∪ { a | (loose a).isSome } := by
    ext a
    exact h.live_iff.trans <| or_comm.trans <| or_congr_left mem_placed.symm
  have hdisjoint : Disjoint (↑placed : Set Addr) { a | (loose a).isSome } :=
    Set.disjoint_left.mpr fun a ha hl => by simp [h.apart a <| mem_placed.mp ha] at hl
  have hfinite := tiled.finite_live.subset <| hlive ▸ Set.subset_union_right
  rw [liveCount, hlive, Set.ncard_union_eq hdisjoint placed.finite_toSet hfinite, Set.ncard_coe_finset, hcard]

end Represents

def ReportSink.recycling (view : ExecutionReport → ω) (capacity : Nat) : ReportSink ω where
  emit     := MatchingEngine.releasing view
  view     := view
  Inv pool := Bounded capacity 1 pool ∧ pool.heap = fun _ => none
  spec pool report inv := by
    have ⟨pool₁, a, halloc, wf₁, ha, hh₁⟩ := MemPool.allocate_spec report inv.left.ready.wf
    have ha₁ : pool₁.heap a = some report := by rw [hh₁, update_self]
    have ⟨pool₂, hfree, wf₂, hh₂⟩ := MemPool.deallocate_spec wf₁ ha₁
    have hone : pool₁.liveCount ≤ 1 := by
      rw [liveCount_allocate inv.left.ready.tiled ha hh₁]
      simp [liveCount, live, inv.right]
    refine ⟨pool₂, ?_, (inv.left.allocate halloc hone).congr wf₂ <| .deallocate hfree, ?_⟩
    · simp [MatchingEngine.emitReport, MatchingEngine.releasing, halloc, MemPool.read_eq ha₁, hfree]
    · rw [hh₂, hh₁, update_idem, inv.right, update_eq_self_iff]

open RuntimeConfig

namespace OrderProcessor

variable {unspecified : ℚ → Int64} {s s' : OrderProcessor} {x : Exchange} {a : Arrival} {p : Placement}
variable {lv : Side → Instrument → Levels} {loose : Addr → Option Order} {out : List Emission}

theorem step_reject (hm : a.message.placement = .error reason)
    (hs : s.step unspecified (.consume a) = .ok (s', out)) : ∃ report emission,
      (MatchingEngine.emitReport (MatchingEngine.releasing <| a.message.rejectEmission unspecified)
        s.matcher.reportPool report = .ok (s'.matcher.reportPool, emission)) ∧
      s'.matcher.orderPool = s.matcher.orderPool := by
  have hv : validateOrder ((parseInstrument a.message.instrument.text).getD .count) a.message.side
      a.message.price a.message.quantity = some reason := InboundOrderMsg.placement_eq_error_iff.mp hm
  simp only [step, consumeMessage, hv] at hs
  obtain ⟨⟨reportPool, emission⟩, hr, hs⟩ := Except.bind_eq_ok hs
  cases hs
  exact ⟨_, emission, hr, rfl⟩

theorem step_accept (hm : a.message.placement = .ok p)
    (hs : s.step unspecified (.consume a) = .ok (s', out)) : ∃ pool ptr outcome,
      (s.matcher.orderPool.allocate (s.newOrder unspecified a.message) = .ok (pool, ptr)) ∧
      ({ s.matcher with orderPool := pool }.processOrder (MatchingEngine.releasing a.message.reportEmission) ptr
        (some a.timestamp.text) a.now = .ok (s'.matcher, outcome)) := by
  have hv : validateOrder ((parseInstrument a.message.instrument.text).getD .count) a.message.side
      a.message.price a.message.quantity = none := InboundOrderMsg.validate_of_placement hm
  simp only [step, consumeMessage, hv] at hs
  obtain ⟨⟨pool, ptr⟩, halloc, hs⟩ := Except.bind_eq_ok hs
  obtain ⟨⟨matcher, outcome⟩, hproc, hs⟩ := Except.bind_eq_ok hs
  cases hs
  exact ⟨pool, ptr, outcome, halloc, hproc⟩

theorem Models.process_reports (h : Models s lv x loose) (hm : a.message.placement = .ok p)
    (sink : ReportSink ω) (inv : sink.Inv s.matcher.reportPool) {matcher : MatchingEngine BitmaskOrderBook}
    (halloc : s.matcher.orderPool.allocate (s.newOrder unspecified a.message) = .ok (pool, ptr))
    (hproc : { s.matcher with orderPool := pool }.processOrder sink.emit ptr ts now = .ok (matcher, outcome)) :
    sink.Inv matcher.reportPool := by
  let order : Order := .new (formatOrderId 32 s.nextOid) a.message.coid.text p.instrument p.side p.tick
    (.ofNat p.quantity)
  rw [newOrder_eq unspecified s hm] at halloc
  obtain ⟨_, _, halloc', wf, ha, hh⟩ := MemPool.allocate_spec order h.represents.wf
  cases halloc.symm.trans halloc'
  have h₁ : Represents orderBookTickCapacity pool { s.matcher with orderPool := pool }.book lv x.resting
      (update loose ptr (some order)) := by
    rw [book_withPools]
    exact h.represents.allocate ha wf hh
  obtain ⟨_, _, _, hproc', _, _, inv', _⟩ := MatchingEngine.processOrder_spec sink ts now x
    (s := { s.matcher with orderPool := pool }) h₁ inv (update_self ..) rfl p.tick_lt
    (p.toNat_quantity ▸ p.quantityPos)
  cases hproc.symm.trans hproc'
  exact inv'

structure Keeps (s : OrderProcessor) (x : Exchange) (accepted lost : Nat) : Prop where
  models  : ∃ lv loose, Models s lv x loose ∧ { a | (loose a).isSome }.ncard = lost
  orders  : Bounded orderPoolInitialCapacity accepted s.matcher.orderPool
  reports : Bounded reportPoolInitialCapacity 1 s.matcher.reportPool
  count   : openOrders x.resting + lost ≤ accepted

namespace Keeps

variable {accepted lost : Nat}

theorem new : Keeps .new .empty 0 0 where
  models  := ⟨_, _, new_models, by simp⟩
  orders  := .new orderPoolInitialCapacity 0
  reports := .new reportPoolInitialCapacity 1
  count   := by simp [openOrders, Market.empty]

theorem liveCount_eq (h : Keeps s x accepted lost) :
    s.matcher.orderPool.liveCount = openOrders x.resting + lost := by
  have ⟨_, _, hm, hl⟩ := h.models
  rw [hm.represents.liveCount_eq h.orders.ready.tiled, hl]

theorem reset (h : Keeps s x accepted lost) : Keeps s.reset .empty accepted (lost + openOrders x.resting) where
  models := by
    have ⟨_, _, hm, _⟩ := h.models
    exact ⟨_, _, hm.reset, h.liveCount_eq.trans <| Nat.add_comm ..⟩
  orders  := h.orders
  reports := h.reports
  count   := by
    have := h.count
    have hz : openOrders (Market.empty : Exchange).resting = 0 := by simp [openOrders, Market.empty]
    omega

theorem consume (h : Keeps s x accepted lost) (hs : s.step unspecified (.consume a) = .ok (s', out)) :
    Keeps s' (x.step unspecified (.consume a)).1 (accepted + (Event.consume a).accepted.toNat) lost := by
  obtain ⟨lv, loose, hm, hl⟩ := h.models
  obtain ⟨_, lv', hs', hm'⟩ := hm.consume unspecified a
  cases hs.symm.trans hs'
  have hcount := x.step_openOrders unspecified (.consume a) |>.left
  have := h.count
  refine ⟨⟨lv', loose, hm', hl⟩, ?_, ?_, by omega⟩
  all_goals cases hp : a.message.placement
  case refine_1.error =>
    obtain ⟨_, _, _, horders⟩ := step_reject hp hs
    exact horders ▸ h.orders.mono (Nat.le_add_right ..)
  case refine_1.ok =>
    obtain ⟨pool, ptr, _, halloc, hproc⟩ := step_accept hp hs
    have hv : (Event.consume a).accepted.toNat = 1 := by
      simp [Event.accepted, InboundOrderMsg.validate_of_placement hp]
    obtain ⟨_, _, halloc', _, ha, hh⟩ := MemPool.allocate_spec (s.newOrder unspecified a.message) h.orders.ready.wf
    cases halloc.symm.trans halloc'
    have hlive : pool.liveCount ≤ accepted + 1 := by
      rw [liveCount_allocate h.orders.ready.tiled ha hh, h.liveCount_eq]
      omega
    rw [hv]
    exact (h.orders.mono (Nat.le_succ _)).allocate halloc hlive |>.congr hm'.represents.wf <|
      MatchingEngine.processOrder_sameSlots hproc
  case refine_2.error =>
    obtain ⟨report, _, hr, _⟩ := step_reject hp hs
    obtain ⟨_, hr', inv, _⟩ := ReportSink.recycling (a.message.rejectEmission unspecified) reportPoolInitialCapacity
      |>.spec _ report ⟨h.reports, hm.reports.right⟩
    cases hr.symm.trans hr'
    exact inv
  case refine_2.ok =>
    obtain ⟨_, _, _, halloc, hproc⟩ := step_accept hp hs
    exact hm.process_reports hp (.recycling a.message.reportEmission reportPoolInitialCapacity)
      ⟨h.reports, hm.reports.right⟩ halloc hproc |>.left

end Keeps

end OrderProcessor

def Exchange.abandoned (unspecified : ℚ → Int64) : List OrderProcessor.Event → Exchange → Nat
  | [], _ => 0
  | event :: events, x =>
    (match event with
      | .reset     => openOrders x.resting
      | .consume _ => 0) + abandoned unspecified events (x.step unspecified event).1

namespace OrderProcessor

theorem Keeps.run (unspecified : ℚ → Int64) {accepted lost : Nat} (events : List Event)
    (h : Keeps s x accepted lost) : ∃ s' emitted,
    (Machine.run (step unspecified) events s = .ok (s', emitted)) ∧
    Keeps s' (Machine.exec (Exchange.step unspecified) events x).1 (accepted + events.countP Event.accepted)
      (lost + Exchange.abandoned unspecified events x) := by
  induction events generalizing s x accepted lost
  case nil => exact ⟨s, [], rfl, h⟩
  case cons event events hi =>
    have ⟨s₁, out, hs, h₁⟩ : ∃ s₁ out, (s.step unspecified event = .ok (s₁, out)) ∧
        Keeps s₁ (x.step unspecified event).1 (accepted + event.accepted.toNat)
          (lost + match event with
            | .reset     => openOrders x.resting
            | .consume _ => 0) := by
      cases event
      case reset => exact ⟨_, _, rfl, h.reset⟩
      case consume a =>
        have ⟨_, _, hm, _⟩ := h.models
        have ⟨s₁, _, hs, _⟩ := hm.consume unspecified a
        exact ⟨s₁, _, hs, h.consume hs⟩
    have ⟨s', emitted, hrun, h'⟩ := hi h₁
    refine ⟨s', out :: emitted, Machine.run_cons hs hrun, ?_⟩
    have hc : (event :: events).countP Event.accepted = event.accepted.toNat + events.countP Event.accepted := by
      cases he : event.accepted <;> simp [he, Nat.add_comm]
    rwa [Nat.add_assoc, Nat.add_assoc, ← hc] at h'

-- In every run, the pool of orders holds the orders that rest and those that have rested at a reset. It grows
-- only when more orders are accepted than there is place for. The pool of reports does not grow at all.
theorem memory_bounded (unspecified : ℚ → Int64) (events : List Event) : ∃ s queues,
    Reached unspecified events s ∧ s.matcher.Shows queues ∧
      (s.matcher.orderPool.liveCount = openOrders queues + Exchange.abandoned unspecified events .empty) ∧
      (let accepted := events.countP Event.accepted
        if accepted ≤ orderPoolInitialCapacity
        then s.matcher.orderPool.totalCapacity = orderPoolInitialCapacity
        else s.matcher.orderPool.totalCapacity < accepted + min accepted maxChunkSize) ∧
      (s.matcher.reportPool.liveCount = 0) ∧
      s.matcher.reportPool.totalCapacity = reportPoolInitialCapacity := by
  have ⟨s, emitted, hrun, h⟩ := Keeps.new.run unspecified events
  rw [Nat.zero_add, Nat.zero_add] at h
  have ⟨_, _, hm, _⟩ := h.models
  have := h.orders.total
  have hr := h.reports.total
  refine ⟨s, _, ⟨emitted, hrun⟩, hm.represents.shows, h.liveCount_eq, ?_, ?_, ?_⟩
  · simp only
    split <;> omega
  · simp [liveCount, live, hm.reports.right]
  · simp only [reportPoolInitialCapacity] at hr ⊢
    omega

end OrderProcessor
