import FlowerExchange.Common.Theorems.Formatting
import FlowerExchange.Matching.Exchange
import FlowerExchange.Matching.Theorems.BitmaskOrderBook
import FlowerExchange.Lib.Machine

open Function RuntimeConfig

theorem Placement.tick_lt (p : Placement) : p.tick < orderBookTickCapacity := by
  have h₀ : 0 ≤ p.price * 100 := by linarith [p.pricePos]
  have h₁ : roundHalfAway (p.price * 100) ≤ 100000 :=
    roundHalfAway_le h₀ (by push_cast; linarith [p.priceLe])
  simp only [tick, orderBookTickCapacity]
  omega

theorem Placement.toNat_quantity (p : Placement) : (UInt16.ofNat p.quantity).toNat = p.quantity := by
  have := p.quantityLe
  rw [UInt16.toNat_ofNat']
  omega

namespace OrderProcessor

variable {unspecified : ℚ → Int64} {s : OrderProcessor} {x : Exchange}
variable {lv : Side → Instrument → Levels} {loose : Addr → Option Order} {a : Arrival}

-- The books of the processor hold what rests in the exchange. The pool of reports is empty, and
-- `loose` are the orders that are in the other pool, but in no book.
structure Models (s : OrderProcessor) (lv : Side → Instrument → Levels) (x : Exchange)
    (loose : Addr → Option Order) : Prop where
  represents : Represents orderBookTickCapacity s.matcher.orderPool s.matcher.book lv x.resting loose
  reports    : s.matcher.reportPool.WF ∧ s.matcher.reportPool.heap = fun _ => none
  nextOid    : s.nextOid = .ofNat (x.now + 1)

theorem book_newBooks {s : MatchingEngine BitmaskOrderBook} (hb : s.buyBooks = newBooks)
    (hs : s.sellBooks = newBooks) : s.book = fun _ _ => OrderBook.new orderBookTickCapacity := by
  ext1 side
  cases side
  case buy  => exact hb
  case sell => exact hs

theorem new_models : Models new (fun _ _ _ => []) .empty (fun _ => none) where
  represents := by
    rw [book_newBooks (s := new.matcher) rfl rfl, ← funext (MemPool.heap_new orderPoolInitialCapacity)]
    exact .fresh <| MemPool.new_wf orderPoolInitialCapacity
  reports := ReportSink.releasing_new (fun _ => ()) _
  nextOid := rfl

theorem Models.reset (h : Models s lv x loose) :
    Models s.reset (fun _ _ _ => []) .empty s.matcher.orderPool.heap where
  represents := by
    rw [book_newBooks (s := s.reset.matcher) rfl rfl]
    exact .fresh h.represents.wf
  reports := h.reports
  nextOid := rfl

theorem Models.nextOid_succ (h : Models s lv x loose) : s.nextOid + 1 = .ofNat (x.now + 1 + 1) := by
  rw [h.nextOid, UInt64.ofNat_add (x.now + 1)]
  rfl

variable (unspecified) in
theorem Models.reject (h : Models s lv x loose) (hm : a.message.placement = .error reason) :
    ∃ reportPool, (s.step unspecified (.consume a) =
        .ok (⟨s.nextOid + 1, { s.matcher with reportPool := reportPool }⟩,
          (x.step unspecified (.consume a)).2)) ∧
      reportPool.WF ∧ reportPool.heap = fun _ => none := by
  have hv : validateOrder ((parseInstrument a.message.instrument.text).getD .count) a.message.side
      a.message.price a.message.quantity = some reason := InboundOrderMsg.placement_eq_error_iff.mp hm
  let reject := a.message.rejection x.now reason a.time
  let view := a.message.rejectEmission unspecified
  have ⟨reportPool, hreport, inv⟩ := ReportSink.releasing view |>.spec _ reject h.reports
  have hreport : MatchingEngine.emitReport (MatchingEngine.releasing view) s.matcher.reportPool reject =
      .ok (reportPool, view reject) := hreport
  have hq : (if a.message.quantity > 0 then a.message.quantity else 0).toNat =
      a.message.quantity.toNat := by
    split <;> omega
  have hnew : s.newReject a.message reason a.timestamp a.now = reject := by
    rw [newReject, hq, h.nextOid]
    simp [ExecutionReport.new, InboundOrderMsg.rejection, InboundOrderMsg.ids, CStr.copy_text,
      Arrival.time, reject]
  refine ⟨reportPool, ?_, inv⟩
  rw [Exchange.step_reject hm]
  simp only [step, consumeMessage, hv, hnew]
  rw [hreport, Except.ok_bind, Except.pure_eq_ok]

variable (unspecified) in
theorem Models.consume_reject (h : Models s lv x loose) (hm : a.message.placement = .error reason) :
    ∃ s', (s.step unspecified (.consume a) = .ok (s', (x.step unspecified (.consume a)).2)) ∧
      Models s' lv (x.step unspecified (.consume a)).1 loose := by
  have ⟨reportPool, hs, inv⟩ := h.reject unspecified hm
  refine ⟨_, hs, ?_⟩
  rw [Exchange.step_reject hm]
  refine ⟨?_, inv, h.nextOid_succ⟩
  rw [book_withPools]
  exact h.represents

variable (unspecified s) in
theorem newOrder_eq {message : InboundOrderMsg} (hm : message.placement = .ok p) :
    s.newOrder unspecified message =
      .new (formatOrderId 32 s.nextOid) message.coid.text p.instrument p.side p.tick (.ofNat p.quantity) := by
  obtain ⟨hi, hside, hprice, hquantity⟩ := InboundOrderMsg.placement_eq_ok hm
  have hs : (if message.side = Side.buy.toInt then Side.buy else .sell) = p.side := by
    rw [← hside]
    cases p.side <;> rfl
  have ht : doubleToTicks unspecified message.price = p.tick := by
    rw [hprice]
    exact doubleToTicks_finite p.pricePos p.priceLe
  have hq : message.quantity.toNat = p.quantity := by omega
  rw [newOrder, hs, ht, hq, ← InboundOrderMsg.instrumentType, ← hi]

variable (unspecified) in
theorem Models.process (h : Models s lv x loose) (hm : a.message.placement = .ok p) :
    ∃ pool ptr matcher out lv',
      let ids := a.message.ids x.now
      (s.matcher.orderPool.allocate (s.newOrder unspecified a.message) = .ok (pool, ptr)) ∧
      ({ s.matcher with orderPool := pool }.processOrder
        (MatchingEngine.releasing a.message.reportEmission) ptr (some a.timestamp.text) a.now =
          .ok (matcher, out)) ∧
      (out.emitted = (x.placeReports a.message p a.time).map a.message.reportEmission) ∧
      (List.Forall₂ (MatchingEngine.Trade.Reports a.message.reportEmission) out.trades
        (tradeReports ids p.instrument p.side a.time p.quantity
          (x.trades p.side p.instrument p.tick p.quantity))) ∧
      Models ⟨s.nextOid + 1, matcher⟩ lv' (x.place a.message p) loose := by
  let order : Order := .new (formatOrderId 32 s.nextOid) a.message.coid.text p.instrument p.side p.tick
    (.ofNat p.quantity)
  have hnew : s.newOrder unspecified a.message = order := newOrder_eq unspecified s hm
  have hids : order.ids = a.message.ids x.now := by
    simp [order, Order.ids, Order.new, InboundOrderMsg.ids, h.nextOid, CStr.copy_text]
  have hq : order.quantity.toNat = p.quantity := p.toNat_quantity
  obtain ⟨pool, ptr, halloc, wf, ha, hh⟩ := MemPool.allocate_spec order h.represents.wf
  let engine : MatchingEngine BitmaskOrderBook := { s.matcher with orderPool := pool }
  have h₁ : Represents orderBookTickCapacity engine.orderPool engine.book lv x.resting
      (update loose ptr (some order)) := by
    rw [book_withPools]
    exact h.represents.allocate ha wf hh
  obtain ⟨matcher, out, lv', hproc, hemit, htrades, inv, h₂⟩ :=
    MatchingEngine.processOrder_spec (.releasing a.message.reportEmission) (some a.timestamp.text) a.now
      x h₁ h.reports (update_self ..) rfl p.tick_lt (hq ▸ p.quantityPos)
  have hloose : loose ptr = none := by
    have := h.represents.live_iff (a := ptr)
    simp_all
  rw [hids, hq] at hemit htrades h₂
  rw [update_idem, ← hloose, update_eq_self] at h₂
  refine ⟨pool, ptr, matcher, out, lv', hnew ▸ halloc, hproc, hemit, htrades, h₂, inv, h.nextOid_succ⟩

variable (unspecified) in
theorem Models.consume_accept (h : Models s lv x loose) (hm : a.message.placement = .ok p) :
    ∃ s' lv', (s.step unspecified (.consume a) = .ok (s', (x.step unspecified (.consume a)).2)) ∧
      Models s' lv' (x.step unspecified (.consume a)).1 loose := by
  have hv : validateOrder ((parseInstrument a.message.instrument.text).getD .count) a.message.side
      a.message.price a.message.quantity = none := InboundOrderMsg.validate_of_placement hm
  have ⟨pool, ptr, matcher, out, lv', halloc, hproc, hemit, _, h'⟩ := h.process unspecified hm
  rw [Exchange.step_accept hm]
  refine ⟨⟨s.nextOid + 1, matcher⟩, lv', ?_, h'⟩
  simp only [step, consumeMessage, hv, halloc, Except.ok_bind]
  rw [hproc, Except.ok_bind, Except.pure_eq_ok, hemit]

variable (unspecified) in
theorem Models.consume (h : Models s lv x loose) (a : Arrival) :
    ∃ s' lv', (s.step unspecified (.consume a) = .ok (s', (x.step unspecified (.consume a)).2)) ∧
      Models s' lv' (x.step unspecified (.consume a)).1 loose := by
  cases hm : a.message.placement
  case ok p => exact h.consume_accept unspecified hm
  case error reason =>
    have ⟨s', hs, h'⟩ := h.consume_reject unspecified hm
    exact ⟨s', lv, hs, h'⟩

def Agrees (s : OrderProcessor) (x : Exchange) : Prop :=
  ∃ lv loose, Models s lv x loose

variable (unspecified) in
theorem step_agrees (event : Event) (h : Agrees s x) :
    ∃ s', (s.step unspecified event = .ok (s', (x.step unspecified event).2)) ∧
      Agrees s' (x.step unspecified event).1 := by
  have ⟨lv, loose, h⟩ := h
  cases event
  case reset => exact ⟨s.reset, rfl, _, _, h.reset⟩
  case consume a =>
    have ⟨s', lv', hs, h'⟩ := h.consume unspecified a
    exact ⟨s', hs, lv', loose, h'⟩

variable (unspecified) in
theorem run_agrees (events : List Event) (h : Agrees s x) :
    ∃ s', (Machine.run (step unspecified) events s =
        .ok (s', (Machine.exec (Exchange.step unspecified) events x).2)) ∧
      Agrees s' (Machine.exec (Exchange.step unspecified) events x).1 := by
  have ⟨s', hrun, h'⟩ : ∃ s', (Machine.run (step unspecified) events s = .ok (s', _)) ∧ _ :=
    Machine.run_of_simulation id (fun event => step_agrees unspecified event) h
  exact ⟨s', by rwa [List.map_id] at hrun, h'⟩

def Reached (unspecified : ℚ → Int64) (events : List Event) (s : OrderProcessor) : Prop :=
  ∃ emitted, Machine.run (step unspecified) events new = .ok (s, emitted)

theorem reached_agrees (unspecified : ℚ → Int64) (events : List Event) : ∃ s,
    Reached unspecified events s ∧
      Agrees s (Machine.exec (Exchange.step unspecified) events .empty).1 :=
  have ⟨s, hrun, h⟩ := run_agrees unspecified events ⟨_, _, new_models⟩
  ⟨s, ⟨_, hrun⟩, h⟩

theorem Reached.unique (h₁ : Reached unspecified events s₁) (h₂ : Reached unspecified events s₂) :
    s₁ = s₂ := by
  have ⟨_, h₁⟩ := h₁
  have ⟨_, h₂⟩ := h₂
  exact congrArg Prod.fst <| Except.ok.inj <| h₁.symm.trans h₂

end OrderProcessor
