import FlowerExchange.Matching.Theorems.EngineRun
import FlowerExchange.Matching.Theorems.Walk

open Function Resting

-- What price-time priority asks of the call that processes the order `new`, after `calls` earlier
-- calls, if `before` and `after` are the queues of the orders that rest before and after the call.
-- `crossing` are the orders that the new one can trade with.
structure PriceTimePriority (new : NewOrder maxTicks) (calls : Nat)
    (before after : Side → Instrument → List (Resting Nat OrderIds))
    (crossing : List (Resting Nat OrderIds)) (trades : List (Resting Nat OrderIds × Nat)) : Prop where
  sorted   : ∀ side i, Sorted side.better (before side i)
  earlier  : ∀ side i, ∀ r ∈ before side i, r.stamp < calls
  sublist  : crossing.Sublist (before new.side.opposite new.instrument)
  crosses  : ∀ r ∈ before new.side.opposite new.instrument, r ∈ crossing ↔
    match new.side with
    | .buy  => r.price ≤ new.price
    | .sell => new.price ≤ r.price
  greedy   : trades = fill new.quantity.toNat crossing
  total    : (trades.map Prod.snd).sum = min new.quantity.toNat (total crossing)
  opposite : ∃ behind, before new.side.opposite new.instrument = crossing ++ behind ∧
    after new.side.opposite new.instrument = residual new.quantity.toNat crossing ++ behind
  own      : ∀ t, level t (after new.side new.instrument) = level t (before new.side new.instrument) ++
    if t = new.price ∧ Resting.total crossing < new.quantity.toNat
    then [⟨t, calls, new.quantity.toNat - Resting.total crossing, new.order.ids⟩]
    else []
  other    : ∀ side i, i ≠ new.instrument → after side i = before side i

theorem Market.submit_priceTimePriority (m : Market Instrument Nat OrderIds)
    (new : NewOrder maxTicks) :
    PriceTimePriority new m.now m.resting (Session.submit m new).resting
      (m.matched new.side new.instrument new.price)
      (m.trades new.side new.instrument new.price new.quantity.toNat) where
  sorted       := m.sorted
  earlier      := m.past
  sublist      := List.filter_sublist
  crosses r hr := by
    simp only [matched, mem_matching, hr, true_and]
    cases new.side <;> simp [Side.opposite, Side.better]
  greedy       := rfl
  total        := fill_sum ..
  opposite     := ⟨_, (m.sorted _ _).matching_append_rest _ |>.symm, restingAfter_opposite⟩
  own t        := by
    simp only [Session.submit, submit, restingAfter_self, joined]
    by_cases hq : Resting.total (m.matched new.side new.instrument new.price) < new.quantity.toNat
    case neg => simp [remainder, hq]
    case pos =>
      have hr : 0 < m.remainder new.side new.instrument new.price new.quantity.toNat :=
        Nat.sub_pos_of_lt hq
      rw [if_pos hr, level_enqueue (m.sorted _ _), remainder]
      by_cases ht : t = new.price
      · simp [ht, hq]
      · simp [ht, Ne.symm ht]
  other        := fun _ _ h => restingAfter_ne h

namespace Session

theorem after_snoc (commands : List (Command maxTicks)) (command : Command maxTicks) :
    after (commands ++ [command]) = (step (after commands) command).1 := by
  simp [after, Machine.exec_snoc]

theorem now_after (commands : List (Command maxTicks)) :
    (after commands).market.now = (Machine.exec step commands empty).2.reduceOption.length := by
  induction commands using List.reverseRecOn
  case nil => rfl
  case append_singleton commands command hi =>
    rw [after_snoc, Machine.exec_snoc, List.reduceOption_append, List.length_append, ← hi]
    cases command
    case allocate => rfl
    case process n ts now =>
      simp only [step, after]
      split <;> rfl

end Session

-- Whatever has happened before, a call serves the resting orders by price and then by arrival.
theorem processOrder_priceTimePriority (sink : ReportSink ω) (capacity : Nat)
    (reportPool : { pool // sink.Inv pool }) (commands : List (Command maxTicks))
    (h : (Session.after commands).pending[n]? = some new) (ts : Option Bytes) (now : CStr 20) :
    let m := (Session.after commands).market
    let crossing := m.matched new.side new.instrument new.price
    let trades := m.trades new.side new.instrument new.price new.quantity.toNat
    ∃ (s : Caller BitmaskOrderBook) (outs : _) (ptr : Addr) (engine : _) (out : _),
      (Machine.run (Caller.step sink.emit) commands (.new maxTicks capacity reportPool) =
        .ok (s, outs)) ∧
      (s.pending[n]? = some ptr) ∧
      (s.engine.processOrder sink.emit ptr ts now = .ok (engine, out)) ∧
      s.engine.Shows (Session.queues commands) ∧
      engine.Shows (Session.queues (commands ++ [.process n ts now])) ∧
      PriceTimePriority new outs.reduceOption.length (Session.queues commands)
        (Session.queues (commands ++ [.process n ts now])) crossing trades ∧
      List.Forall₂ (MatchingEngine.Trade.Reports sink.view) out.trades
        (tradeReports new.order.ids new.instrument new.side
          (ExecutionReport.timestampField ts now) new.quantity.toNat trades) := by
  have ⟨s, hrun, agrees⟩ := Caller.run_agrees commands <|
    Caller.agrees_new (B := BitmaskOrderBook) maxTicks capacity reportPool.property
  have ⟨ptr, engine, out, hptr, hproc, _, htrades, agrees'⟩ := Caller.step_process agrees h ts now
  have ⟨_, _, rep, _⟩ := agrees
  have ⟨_, _, rep', _⟩ := agrees'
  intro m crossing trades
  have hcalls : m.now = ((Machine.exec Session.step commands .empty).2.map
      (Option.map (List.map sink.view))).reduceOption.length := by
    rw [List.reduceOption_map, List.length_map]
    exact Session.now_after commands
  have hnext : Session.queues (commands ++ [.process n ts now]) = (Session.submit m new).resting := by
    simp [Session.queues, Session.after_snoc, Session.step, h, m]
  refine ⟨s, _, ptr, engine, out, hrun, hptr, hproc, rep.shows, ?_, ?_, htrades⟩
  · rw [Session.queues, Session.after_snoc]
    exact rep'.shows
  · rw [hnext, ← hcalls]
    exact m.submit_priceTimePriority new

theorem processOrder_priceTimePriority_sweep :
    let new (side : Side) (price : Nat) (h : price < 100) (quantity : UInt16) :
      NewOrder 100 := ⟨[], [], ⟨.rose, nofun⟩, side, price, quantity, h⟩
    let buy := new .buy 80 (by decide) 15
    let commands := [.allocate <| new .sell 70 (by decide) 10,
      .allocate <| new .sell 50 (by decide) 10,
      .process 0 none default, .process 0 none default, .allocate buy]
    ∃ (s : Caller BitmaskOrderBook) (outs : _) (ptr : Addr) (engine : _) (out : _),
      (Machine.run (Caller.step (MatchingEngine.releasing id)) commands (.new 100 1 (.new 1)) =
        .ok (s, outs)) ∧
      (s.engine.processOrder (MatchingEngine.releasing id) ptr none default = .ok (engine, out)) ∧
      List.Forall₂ (MatchingEngine.Trade.Reports id) out.trades
        (tradeReports buy.order.ids buy.instrument .buy default 15
          [(⟨50, 1, 10, buy.order.ids⟩, 10), (⟨70, 0, 10, buy.order.ids⟩, 5)]) := by
  intro new buy commands
  have h : (Session.after commands).pending[0]? = some buy := rfl
  have ⟨s, outs, ptr, engine, out, hrun, _, hproc, _, _, _, htrades⟩ :=
    processOrder_priceTimePriority (.releasing id) 1 ⟨.new 1, ReportSink.releasing_new id 1⟩ commands h
      none default
  exact ⟨s, outs, ptr, engine, out, hrun, hproc, htrades⟩
