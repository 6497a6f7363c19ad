import FlowerExchange.Matching.Theorems.EngineRun
import FlowerExchange.Matching.Theorems.Walk

open Function Resting

namespace MatchingEngine

def orders (s : MatchingEngine BitmaskOrderBook) (side : Side) (i : Instrument) : Set Addr :=
  { a | ∃ t l, s.Walk side i t l ∧ a ∈ l }

def EmitsTwo (emit : Emit ω) (s s' : MatchingEngine B) (t : Trade ω) : Prop :=
  ∃ first second pool,
    (emitReport emit s.reportPool first = .ok (pool, t.incomingReport)) ∧
    (emitReport emit pool second = .ok (s'.reportPool, t.restingReport))

section

variable (emit : Emit ω) (eventTimestamp : Option Bytes) (now : CStr 20) (incoming : Addr)
variable (opp : Side) (i : Instrument)

inductive Visits [OrderBook B] : MatchingEngine B → MatchingEngine B → Prop
  | refl : Visits s s
  | pass (h : matchPass emit eventTimestamp now incoming opp i s = .ok (s₁, p)) (hp : p ≠ .stop)
      (tail : Visits s₁ s₂) : Visits s s₂

-- A pass from `s` ends the loop or trades. If it does not remove the order that it trades with, then
-- it is the last one that trades.
def Progresses (s : MatchingEngine BitmaskOrderBook) : Prop :=
  (matchPass emit eventTimestamp now incoming opp i s = .ok (s, .stop)) ∨
  ∃ s' t,
    (matchPass emit eventTimestamp now incoming opp i s = .ok (s', .trade t)) ∧
    (EmitsTwo emit s s' t) ∧ (t.resting ∈ s.orders opp i) ∧
    ((t.consumed = some (some t.resting) ∧ s'.orders opp i = s.orders opp i \ {t.resting}) ∨
      matchPass emit eventTimestamp now incoming opp i s' = .ok (s', .stop))

end

section

variable [OrderBook B] {emit : Emit ω} {ts : Option Bytes} {now : CStr 20} {incoming : Addr}
variable {opp : Side} {i : Instrument} {s s' s'' : MatchingEngine B} {t : Trade ω}

theorem matchPass_emits (h : matchPass emit ts now incoming opp i s = .ok (s', .trade t)) :
    EmitsTwo emit s s' t := by
  simp only [matchPass] at h
  obtain ⟨order, _, h⟩ := Except.bind_eq_ok h
  split at h
  case isTrue => cases h
  split at h
  case isTrue => cases h
  split at h
  case isTrue => cases h
  obtain ⟨head, _, h⟩ := Except.bind_eq_ok h
  cases head
  case none => cases h
  case some resting =>
    obtain ⟨_, _, h⟩ := Except.bind_eq_ok h
    obtain ⟨_, _, h⟩ := Except.bind_eq_ok h
    obtain ⟨_, _, h⟩ := Except.bind_eq_ok h
    obtain ⟨order, _, h⟩ := Except.bind_eq_ok h
    obtain ⟨other, _, h⟩ := Except.bind_eq_ok h
    obtain ⟨⟨pool, incomingReport⟩, h₁, h⟩ := Except.bind_eq_ok h
    obtain ⟨⟨pool', restingReport⟩, h₂, h⟩ := Except.bind_eq_ok h
    split at h
    case isTrue =>
      obtain ⟨popped, _, h⟩ := Except.bind_eq_ok h
      obtain ⟨_, _, h⟩ := Except.bind_eq_ok h
      cases h
      exact ⟨_, _, pool, h₁, h₂⟩
    case isFalse =>
      cases h
      exact ⟨_, _, pool, h₁, h₂⟩

theorem settle_trades (h : s.settle emit ts now incoming i trades = .ok (s', out)) :
    out.trades = trades := by
  obtain ⟨order, _, h⟩ := Except.bind_eq_ok h
  by_cases hq : order.quantity > 0
  case neg =>
    rw [if_neg hq] at h
    obtain ⟨_, _, h⟩ := Except.bind_eq_ok h
    cases h
    rfl
  case pos =>
    rw [if_pos hq] at h
    obtain ⟨added, _, h⟩ := Except.bind_eq_ok h
    by_cases ht : trades.isEmpty
    case neg =>
      simp only [if_neg ht] at h
      cases h
      rfl
    case pos =>
      simp only [if_pos ht] at h
      obtain ⟨_, _, h⟩ := Except.bind_eq_ok h
      obtain ⟨_, _, h⟩ := Except.bind_eq_ok h
      cases h
      rfl

theorem matchLoop_mono (h : matchLoop emit ts now incoming opp i n s = .ok r) (hn : n ≤ m) :
    matchLoop emit ts now incoming opp i m s = .ok r := by
  induction n generalizing s m r
  case zero => cases h
  case succ n hind =>
    obtain ⟨m, rfl⟩ : ∃ k, m = k + 1 := ⟨m - 1, by omega⟩
    have hn : n ≤ m := Nat.le_of_succ_le_succ hn
    rw [matchLoop] at h ⊢
    obtain ⟨⟨s₁, p⟩, hpass, h⟩ := Except.bind_eq_ok h
    rw [hpass, Except.ok_bind]
    cases p
    case stop => exact h
    case skip => exact hind h hn
    case trade t =>
      obtain ⟨matched, hloop, h⟩ := Except.bind_eq_ok h
      simp only [hind hloop hn]
      exact h

end

end MatchingEngine

namespace Represents

variable {s s' : MatchingEngine BitmaskOrderBook} {lv : Side → Instrument → Levels} {a : Addr}
variable {m : Side → Instrument → List (Resting Nat OrderIds)} {loose : Addr → Option Order}

theorem mem_orders (h : Represents maxTicks s.orderPool s.book lv m loose) :
    a ∈ s.orders side i ↔ ∃ t, a ∈ lv side i t where
  mp  := fun ⟨t, _, hw, ha⟩ => ⟨t, h.walk_iff.mp hw ▸ ha⟩
  mpr := fun ⟨t, ha⟩ => ⟨t, _, h.walk_self side i t, ha⟩

theorem finite_orders (h : Represents maxTicks s.orderPool s.book lv m loose) (side : Side)
    (i : Instrument) : (s.orders side i).Finite := by
  have hf : (⋃ t ∈ Set.Iio maxTicks, { a | a ∈ lv side i t }).Finite :=
    Set.finite_Iio maxTicks |>.biUnion fun t _ => (lv side i t).finite_toSet
  refine hf.subset fun a ha => ?_
  obtain ⟨t, ha⟩ := h.mem_orders.mp ha
  have ht : t < maxTicks := LawfulOrderBook.rep_bound (h.rep side i) <| List.ne_nil_of_mem ha
  exact Set.mem_biUnion ht ha

theorem orders_pop (h : Represents maxTicks s.orderPool s.book lv m loose)
    (h' : Represents maxTicks s'.orderPool s'.book (setAt lv side i (update (lv side i) t l)) m' loose')
    (hl : lv side i t = a :: l) : s'.orders side i = s.orders side i \ {a} := by
  ext b
  simp only [h'.mem_orders, h.mem_pop hl, Set.mem_sdiff, h.mem_orders, Set.mem_singleton_iff,
    exists_and_right]

end Represents

namespace MatchingEngine

def Serving (maxTicks : Nat) (sink : ReportSink ω) (incoming : Addr) (o : Order) (i : Instrument)
    (s : MatchingEngine BitmaskOrderBook) : Prop :=
  ∃ lv m loose k, (Represents maxTicks s.orderPool s.book lv m loose) ∧ (sink.Inv s.reportPool) ∧
    (loose incoming = some { o with quantity := k }) ∧
    Sorted o.side.opposite.better (m o.side.opposite i)

namespace Serving

variable {sink : ReportSink ω} {incoming : Addr} {o : Order} {i : Instrument}
variable {s s' : MatchingEngine BitmaskOrderBook}

variable (ts : Option Bytes) (now : CStr 20)

theorem pass (h : Serving maxTicks sink incoming o i s) (hi : o.instrument = i) :
    (matchPass sink.emit ts now incoming o.side.opposite i s = .ok (s, .stop)) ∨
    ∃ s' t,
      (matchPass sink.emit ts now incoming o.side.opposite i s = .ok (s', .trade t)) ∧
      (Serving maxTicks sink incoming o i s') ∧ (t.resting ∈ s.orders o.side.opposite i) ∧
      ((t.consumed = some (some t.resting) ∧
          s'.orders o.side.opposite i = s.orders o.side.opposite i \ {t.resting}) ∨
        matchPass sink.emit ts now incoming o.side.opposite i s' = .ok (s', .stop)) := by
  obtain ⟨lv, m, loose, k, h, inv, ho, sorted⟩ := h
  let o' : Order := { o with quantity := k }
  have hread : s.orderPool.heap incoming = some o' := h.heap_loose ho
  cases hm : m o.side.opposite i
  case nil => exact .inl <| matchPass_of_nil (o := o') h hread hm
  case cons r queue =>
    by_cases hq : k = 0
    case pos => exact .inl <| matchPass_of_zero hread hq
    case neg =>
      by_cases hb : o.side.opposite.better o.price r.price
      case pos => exact .inl <| matchPass_of_beaten (o := o') h hread sorted hm hb
      case neg =>
        obtain ⟨s', t, lv', hpass, reports, inv', ⟨l, hl, hlv⟩, k', hk, h'⟩ :=
          matchPass_of_trade (o := o') ts now h inv ho hi sorted hm hb hq
        have ho' := update_self incoming (some { o' with quantity := k' }) loose
        have hmem : t.resting ∈ s.orders o.side.opposite i :=
          h.mem_orders.mpr ⟨r.price, hl ▸ List.mem_cons_self ..⟩
        refine .inr ⟨s', t, hpass, ⟨lv', _, _, k', h', inv', ho', ?_⟩, hmem, ?_⟩
        · rw [setAt_self]
          rcases Nat.lt_or_ge k.toNat r.quantity with hlt | hle
          case inl =>
            rw [residual_cons_lt hlt, List.cons_append, List.nil_append, ← residual_cons_lt hlt]
            exact sorted_residual <| hm ▸ sorted
          case inr =>
            rw [residual_cons_le hle, residual_nil, List.nil_append]
            exact (hm ▸ sorted).of_cons
        · rcases Nat.lt_or_ge k.toNat r.quantity with hlt | hle
          case inl =>
            have hz : k' = 0 := by
              rw [← UInt16.toNat_inj, hk, Nat.min_eq_left hlt.le, Nat.sub_self, UInt16.toNat_zero]
            exact .inr <| matchPass_of_zero (h'.heap_loose ho') hz
          case inr =>
            have hf : tradeStatus (r.quantity - min k.toNat r.quantity) = .fill :=
              tradeStatus_eq_fill.mpr <| by omega
            rw [if_neg hle.not_gt] at hlv
            exact .inl ⟨reports.consumed.trans <| if_pos hf, h.orders_pop (hlv ▸ h') hl⟩

theorem progresses (h : Serving maxTicks sink incoming o i s) (hi : o.instrument = i) :
    Progresses sink.emit ts now incoming o.side.opposite i s :=
  h.pass ts now hi |>.imp_right fun ⟨s', t, hpass, _, h⟩ => ⟨s', t, hpass, matchPass_emits hpass, h⟩

theorem visits (h : Serving maxTicks sink incoming o i s) (hi : o.instrument = i)
    (v : Visits sink.emit ts now incoming o.side.opposite i s s') :
    Serving maxTicks sink incoming o i s' := by
  induction v
  case refl => exact h
  case pass hpass hp _ hind =>
    rcases h.pass ts now hi with hstop | ⟨s₁, t, htrade, h₁, _⟩
    case inl =>
      cases hstop.symm.trans hpass
      contradiction
    case inr =>
      cases htrade.symm.trans hpass
      exact hind h₁

-- The loop ends. By induction on the number of the orders in the opposite book.
theorem loop (h : Serving maxTicks sink incoming o i s) (hi : o.instrument = i) : ∃ s' trades,
    (∀ fuel, trades.length < fuel →
      matchLoop sink.emit ts now incoming o.side.opposite i fuel s = .ok (s', trades)) ∧
    (trades.length ≤ (s.orders o.side.opposite i).ncard) := by
  generalize hn : (s.orders o.side.opposite i).ncard = n
  induction n using Nat.strong_induction_on generalizing s
  case h n hind =>
    have ⟨lv, m, loose, k, rep, _⟩ := h
    have hfin := rep.finite_orders o.side.opposite i
    rcases h.pass ts now hi with hstop | ⟨s₁, t, htrade, h₁, hmem, ⟨_, hrem⟩ | hstop⟩
    case inl =>
      refine ⟨s, [], fun fuel hf => ?_, Nat.zero_le _⟩
      obtain ⟨fuel, rfl⟩ : ∃ f, fuel = f + 1 := ⟨fuel - 1, by omega⟩
      exact matchLoop_of_stop hstop fuel
    case inr.inl =>
      have hcard := Set.ncard_sdiff_singleton_add_one hmem hfin
      rw [← hrem, hn] at hcard
      obtain ⟨s', trades, hloop, hle⟩ := hind _ (by omega) h₁ rfl
      refine ⟨s', t :: trades, fun fuel hf => ?_, by rw [List.length_cons]; omega⟩
      obtain ⟨fuel, rfl⟩ : ∃ f, fuel = f + 1 := ⟨fuel - 1, by omega⟩
      exact matchLoop_of_trade htrade <| hloop fuel (Nat.lt_of_succ_lt_succ hf)
    case inr.inr =>
      have hpos : 0 < n := hn ▸ (Set.ncard_pos hfin).mpr ⟨_, hmem⟩
      refine ⟨s₁, [t], fun fuel hf => ?_, hpos⟩
      obtain ⟨fuel, rfl⟩ : ∃ f, fuel = f + 1 + 1 := ⟨fuel - 2, by simp at hf; omega⟩
      exact matchLoop_of_trade htrade <| matchLoop_of_stop hstop fuel

end Serving

end MatchingEngine

open MatchingEngine

theorem MatchingEngine.processOrder_inv [OrderBook B] {s s' : MatchingEngine B} {emit : Emit ω}
    (h : s.processOrder emit incoming ts now = .ok (s', out))
    (ho : s.orderPool.heap incoming = some o) (hi : o.instrument = (i : Instrument)) :
    ∃ matched passes,
      (matchLoop emit ts now incoming o.side.opposite i passes s = .ok (matched, out.trades)) ∧
      (matched.settle emit ts now incoming i out.trades = .ok (s', out)) := by
  simp only [processOrder, MemPool.read_eq ho, Except.ok_bind, hi, instrumentIndex_eq] at h
  obtain ⟨⟨matched, trades⟩, hloop, hsettle⟩ := Except.bind_eq_ok h
  obtain rfl := settle_trades hsettle
  exact ⟨matched, _, hloop, hsettle⟩

-- Whatever has happened before, the loop of a call ends, as there is an order at the best level in
-- each pass that trades, and all of them but the last one take an order out of the opposite book.
theorem processOrder_terminates (sink : ReportSink ω) (capacity : Nat)
    (reportPool : { pool // sink.Inv pool }) (commands : List (Command maxTicks))
    {new : NewOrder maxTicks} {n : Nat} (h : (Session.after commands).pending[n]? = some new)
    (ts : Option Bytes) (now : CStr 20) :
    let opp := new.side.opposite
    let i := new.instrument
    ∃ (s : Caller BitmaskOrderBook) (outs : _) (ptr : Addr) (matched engine : _) (out : _),
      (Machine.run (Caller.step sink.emit) commands (.new maxTicks capacity reportPool) =
        .ok (s, outs)) ∧
      (s.pending[n]? = some ptr) ∧
      (s.engine.processOrder sink.emit ptr ts now = .ok (engine, out)) ∧
      (∀ passes, out.trades.length < passes →
        matchLoop sink.emit ts now ptr opp i passes s.engine = .ok (matched, out.trades)) ∧
      (matched.settle sink.emit ts now ptr i out.trades = .ok (engine, out)) ∧
      (∀ s', Visits sink.emit ts now ptr opp i s.engine s' →
        Progresses sink.emit ts now ptr opp i s') ∧
      (out.trades.length ≤ (s.engine.orders opp i).ncard) := by
  intro opp i
  have ⟨s, hrun, agrees⟩ := Caller.run_agrees commands <|
    Caller.agrees_new (B := BitmaskOrderBook) maxTicks capacity reportPool.property
  have ⟨ptr, engine, out, hptr, hproc, _⟩ := Caller.step_process agrees h ts now
  have ⟨lv, loose, rep, inv, _, hpending⟩ := agrees
  have ho : ((Session.after commands).pending.map NewOrder.order)[n]? = some new.order := by simp [h]
  obtain ⟨_, hptr', hl⟩ := Caller.pending_getElem? hpending ho
  cases hptr.symm.trans hptr'
  have serving : Serving maxTicks sink ptr new.order new.instrument s.engine :=
    ⟨lv, _, loose, new.quantity, rep, inv, hl, (Session.after commands).market.sorted _ _⟩
  obtain ⟨matched, trades, hloop, hle⟩ := serving.loop ts now rfl
  obtain ⟨matched', passes, hloop', hsettle⟩ := processOrder_inv hproc (rep.heap_loose hl) rfl
  -- The loop has one result, however many passes it is given.
  have heq := matchLoop_mono hloop' (Nat.le_max_left passes (trades.length + 1))
  rw [hloop _ <| Nat.lt_of_lt_of_le (Nat.lt_succ_self _) (Nat.le_max_right ..)] at heq
  cases heq
  exact ⟨s, _, ptr, matched, engine, out, hrun, hptr, hproc, hloop, hsettle,
    fun s' v => (serving.visits ts now rfl v).progresses ts now rfl, hle⟩

theorem processOrder_terminates_sweep :
    let new (side : Side) (price : Nat) (h : price < 64) (quantity : UInt16) :
      NewOrder 64 := ⟨[], [], ⟨.lotus, nofun⟩, side, price, quantity, h⟩
    let commands := [.allocate <| new .buy 7 (by decide) 20,
      .allocate <| new .buy 9 (by decide) 30,
      .process 0 none default, .process 0 none default,
      .allocate <| new .sell 7 (by decide) 40]
    let i : Instrument := ⟨.lotus, nofun⟩
    ∃ (s : Caller BitmaskOrderBook) (outs : _) (ptr : Addr) (matched engine : _) (out : _),
      (Machine.run (Caller.step (releasing id)) commands (.new 64 1 (.new 1)) = .ok (s, outs)) ∧
      (s.engine.processOrder (releasing id) ptr none default = .ok (engine, out)) ∧
      (matchLoop (releasing id) none default ptr .buy i (out.trades.length + 1) s.engine =
        .ok (matched, out.trades)) ∧
      (out.trades.length ≤ (s.engine.orders .buy i).ncard) := by
  intro new commands i
  have h : (Session.after commands).pending[0]? =
    some (new .sell 7 (by decide) 40) := rfl
  have ⟨s, outs, ptr, matched, engine, out, hrun, _, hproc, hloop, _, _, hle⟩ :=
    processOrder_terminates (.releasing id) 1 ⟨.new 1, ReportSink.releasing_new id 1⟩ commands h none
      default
  exact ⟨s, outs, ptr, matched, engine, out, hrun, hproc, hloop _ (Nat.lt_succ_self _), hle⟩
