import FlowerExchange.Matching.Theorems.Runs

open Resting

instance : Fintype InstrumentType where
  elems    := {.rose, .lavender, .lotus, .tulip, .orchid, .count}
  complete := by intro i; cases i <;> decide

def openOrders [Fintype I] (queues : Side → I → List (Resting P D)) : Nat :=
  ∑ i, ((queues .buy i).length + (queues .sell i).length)

namespace Market

variable {I P D : Type} [LinearOrder P] {m : Market I P D} {side : Side} {i : I} {price : P} {quantity : Nat}
variable {data : D}

theorem length_joined (m : Market I P D) (side : Side) (i : I) (price : P) (quantity : Nat) (data : D) :
    (m.joined side i price quantity data).length =
      (m.resting side i).length + if total (m.matched side i price) < quantity then 1 else 0 := by
  have h : 0 < m.remainder side i price quantity ↔ total (m.matched side i price) < quantity := Nat.sub_pos_iff_lt
  simp only [joined, h]
  split
  case isTrue  => exact List.orderedInsert_length ..
  case isFalse => rfl

theorem length_matched (m : Market I P D) (side : Side) (i : I) (price : P) :
    (m.matched side i price).length + (m.unmatched side i price).length =
      (m.resting side.opposite i).length := by
  rw [← List.length_append, matched, unmatched, Sorted.matching_append_rest <| m.sorted side.opposite i]

theorem length_trades_le (m : Market I P D) (side : Side) (i : I) (price : P) (quantity : Nat) (data : D) :
    (m.trades side i price quantity).length + (m.joined side i price quantity data).length +
        (m.opposing side i price quantity).length ≤
      (m.resting side i).length + (m.resting side.opposite i).length + 1 := by
  have := length_fill_add_le quantity (m.matched side i price)
  have := m.length_matched side i price
  rw [length_joined, opposing, trades, List.length_append]
  omega

variable [DecidableEq I] [Fintype I]

theorem openOrders_submit (m : Market I P D) (side : Side) (i : I) (price : P) (quantity : Nat) (data : D) :
    (m.trades side i price quantity).length + openOrders (m.submit side i price quantity data).resting ≤
      openOrders m.resting + 1 := by
  have sides (queues : Side → I → List (Resting P D)) : (queues .buy i).length + (queues .sell i).length =
      (queues side i).length + (queues side.opposite i).length := by
    cases side
    case buy  => rfl
    case sell => exact Nat.add_comm ..
  have others : ∑ j ∈ Finset.univ.erase i, (((m.submit side i price quantity data).resting .buy j).length +
        ((m.submit side i price quantity data).resting .sell j).length) =
      ∑ j ∈ Finset.univ.erase i, ((m.resting .buy j).length + (m.resting .sell j).length) := by
    refine Finset.sum_congr rfl fun j hj => ?_
    have hj := Finset.ne_of_mem_erase hj
    simp only [submit, restingAfter_ne hj]
  have := m.length_trades_le side i price quantity data
  rw [openOrders, openOrders, ← Finset.add_sum_erase _ _ (Finset.mem_univ i), others,
    ← Finset.add_sum_erase _ _ (Finset.mem_univ i), sides, sides]
  simp only [submit, restingAfter_self, restingAfter_opposite]
  omega

end Market

theorem length_tradeReports : (tradeReports ids i side timestamp q l).length = l.length := by
  induction l generalizing q
  case nil     => rfl
  case cons hi => exact congrArg (· + 1) hi

theorem countP_tradeReports :
    ((tradeReports ids i side timestamp q l).flatMap fun x => [x.1, x.2]).countP (·.isTrade) = 2 * l.length := by
  have isTrade (ids : OrderIds) (side : Side) (p n left : Nat) :
      (ids.report i side p n (tradeStatus left) timestamp).isTrade := by
    rw [tradeStatus]
    split <;> rfl
  induction l generalizing q
  case nil => rfl
  case cons hi =>
    simp only [tradeReports, List.flatMap_cons, List.countP_append, hi, List.countP_cons, isTrade, if_true,
      List.countP_nil, List.length_cons]
    omega

def OrderProcessor.Event.accepted : OrderProcessor.Event → Bool
  | .consume a => a.message.validate = none
  | .reset     => false

def OrderProcessor.Event.consumes : OrderProcessor.Event → Bool
  | .consume _ => true
  | .reset     => false

theorem Market.reports_counts (m : Market Instrument Nat OrderIds) (side : Side) (i : Instrument)
    (price quantity : Nat) (ids : OrderIds) (timestamp : CStr 20) :
    ((m.reports side i price quantity ids timestamp).countP (·.isTrade) =
      2 * (m.trades side i price quantity).length) ∧
    (m.reports side i price quantity ids timestamp).countP (!·.isTrade) ≤ 1 := by
  let trades := tradeReports ids i side timestamp quantity (m.trades side i price quantity)
    |>.flatMap fun x => [x.1, x.2]
  have ht : trades.countP (·.isTrade) = 2 * (m.trades side i price quantity).length := countP_tradeReports
  have hn : trades.countP (!·.isTrade) = 0 := by
    have := List.length_eq_countP_add_countP (·.isTrade) (l := trades)
    have hl : trades.length = 2 * (m.trades side i price quantity).length := by
      simp [trades, length_tradeReports, Nat.mul_comm]
    simpa [ht, hl] using this
  rw [reports, List.countP_append, List.countP_append]
  simp only [trades] at ht hn
  rw [ht, hn]
  split
  case isTrue  => exact ⟨rfl, le_rfl⟩
  case isFalse => exact ⟨rfl, Nat.zero_le _⟩

def Emission.isTrade (e : Emission) : Bool :=
  e.report.isTrade

theorem sum_toNat (p : α → Bool) (l : List α) : (l.map fun x => (p x).toNat).sum = l.countP p := by
  induction l
  case nil         => rfl
  case cons x _ hi => cases h : p x <;> simp [h, hi, Nat.add_comm]

namespace Exchange

variable (unspecified : ℚ → Int64)

theorem step_openOrders (x : Exchange) (event : OrderProcessor.Event) :
    ((x.step unspecified event).2.countP (·.isTrade) +
        2 * openOrders (x.step unspecified event).1.resting ≤
      2 * openOrders x.resting + 2 * event.accepted.toNat) ∧
    (x.step unspecified event).2.countP (!·.isTrade) ≤ event.consumes.toNat := by
  cases event
  case reset => simp [step, openOrders, Market.empty]
  case consume a =>
    cases h : a.message.placement
    case error reason =>
      have ht : (a.message.rejection x.now reason a.time).isTrade = false := rfl
      rw [step_reject h]
      simp [Emission.isTrade, InboundOrderMsg.rejectEmission, ht, Market.skip, OrderProcessor.Event.consumes]
    case ok p =>
      have hv := InboundOrderMsg.validate_of_placement h
      have hsubmit := x.openOrders_submit p.side p.instrument p.tick p.quantity (a.message.ids x.now)
      obtain ⟨ht, hn⟩ := x.reports_counts p.side p.instrument p.tick p.quantity (a.message.ids x.now) a.time
      have ht : (x.step unspecified <| .consume a).2.countP (·.isTrade) =
          2 * (x.trades p.side p.instrument p.tick p.quantity).length := by
        rw [step_accept h, List.countP_map]
        exact ht
      have hn : (x.step unspecified <| .consume a).2.countP (!·.isTrade) ≤ 1 := by
        rw [step_accept h, List.countP_map]
        exact hn
      refine ⟨?_, hn⟩
      rw [ht, step_accept h]
      simp only [place, OrderProcessor.Event.accepted, hv, decide_true, Bool.toNat_true]
      omega

theorem exec_openOrders (x : Exchange) (events : List OrderProcessor.Event) :
    let (x', emitted) := Machine.exec (step unspecified) events x
    (emitted.flatten.countP (·.isTrade) + 2 * openOrders x'.resting ≤
      2 * openOrders x.resting + 2 * events.countP (·.accepted)) ∧
    emitted.flatten.countP (!·.isTrade) ≤ events.countP (·.consumes) := by
  have ht := Machine.exec_amortized (List.countP Emission.isTrade) (fun event => 2 * event.accepted.toNat)
    (fun x => 2 * openOrders x.resting) (fun x event => x.step_openOrders unspecified event |>.left)
    events x
  have hn := Machine.exec_amortized (List.countP (!Emission.isTrade ·)) (fun event => event.consumes.toNat)
    (fun _ => 0) (fun x event => x.step_openOrders unspecified event |>.right.trans <| by omega)
    events x
  rw [List.sum_map_mul_left, sum_toNat, ← List.countP_flatten] at ht
  rw [sum_toNat, ← List.countP_flatten, Nat.add_zero, Nat.zero_add] at hn
  exact ⟨ht, hn⟩

end Exchange

-- However the orders come in, all trades of a run together are no more than the orders that are accepted and
-- those that rested before. No other reports are made than one for each message at most.
theorem OrderProcessor.work_linear (unspecified : ℚ → Int64) (before events : List Event) :
    ∃ s₀ s emitted queues₀ queues, Reached unspecified before s₀ ∧
      (Machine.run (step unspecified) events s₀ = .ok (s, emitted)) ∧
      s₀.matcher.Shows queues₀ ∧ s.matcher.Shows queues ∧
      (emitted.flatten.countP (·.isTrade) + 2 * openOrders queues ≤
        2 * openOrders queues₀ + 2 * events.countP Event.accepted) ∧
      emitted.flatten.countP (!·.isTrade) ≤ events.countP Event.consumes := by
  have ⟨s₀, hs₀, hx⟩ := reached_agrees unspecified before
  have ⟨s, hrun, hx'⟩ := run_agrees unspecified events hx
  obtain ⟨_, _, h₀⟩ := hx
  obtain ⟨_, _, h⟩ := hx'
  have hcounts := Exchange.exec_openOrders unspecified (Machine.exec (Exchange.step unspecified) before .empty).1
    events
  exact ⟨s₀, s, _, _, _, hs₀, hrun, h₀.represents.shows, h.represents.shows, hcounts⟩
