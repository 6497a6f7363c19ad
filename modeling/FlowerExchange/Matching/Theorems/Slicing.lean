import FlowerExchange.Lib.Depth
import FlowerExchange.Matching.Theorems.Runs

open Resting

namespace Market

variable {I P D : Type} [LinearOrder P] [DecidableEq I] {m : Market I P D} {side : Side} {i : I} {price : P}
variable {quantity : Nat} {data : D}

theorem submit_matched : (m.submit side i price quantity data).matched side i price =
    residual quantity (m.matched side i price) := by
  simp only [matched, submit, restingAfter_opposite]
  exact matching_after_fill price quantity _ |>.left

theorem submit_unmatched : (m.submit side i price quantity data).unmatched side i price =
    m.unmatched side i price := by
  simp only [unmatched, submit, restingAfter_opposite]
  exact matching_after_fill price quantity _ |>.right

theorem depth_submit (p : P) : depth p ((m.submit side i price quantity data).resting side i) =
    depth p (m.resting side i) + if price = p then quantity - total (m.matched side i price) else 0 := by
  simp only [submit, restingAfter_self, joined]
  split
  case isTrue => exact depth_enqueue <| m.sorted side i
  case isFalse h =>
    rw [remainder] at h
    split <;> omega

end Market

def Emission.tradedAt (price : Nat) (emitted : List Emission) : Nat :=
  emitted.filter (fun e => e.report.isTrade ∧ e.report.price = price)
    |>.map (·.report.quantity.toNat)
    |>.sum

inductive Slices (side : Side) (i : Instrument) (tick : Nat) : Nat → List Arrival → Prop
  | nil  : Slices side i tick 0 []
  | cons {a : Arrival} {p : Placement} {q : Nat} {arrivals : List Arrival} :
    (a.message.placement = .ok p) → (p.side = side) → (p.instrument = i) → (p.tick = tick) →
    (Slices side i tick q arrivals) → Slices side i tick (p.quantity + q) (a :: arrivals)

namespace Exchange

variable {unspecified : ℚ → Int64} {x : Exchange} {a : Arrival} {p : Placement} {arrivals : List Arrival}
variable {side : Side} {i : Instrument} {price tick q : Nat}

theorem tradedAt_append {e₁ e₂ : List Emission} :
    Emission.tradedAt price (e₁ ++ e₂) = Emission.tradedAt price e₁ + Emission.tradedAt price e₂ := by
  simp [Emission.tradedAt]

theorem tradedAt_cons {e : Emission} {es : List Emission} : Emission.tradedAt price (e :: es) =
    (if e.report.isTrade ∧ e.report.price = price then e.report.quantity.toNat else 0) +
      Emission.tradedAt price es := by
  simp only [Emission.tradedAt, List.filter_cons, decide_eq_true_eq]
  split <;> simp

theorem tradedAt_tradeReports (message : InboundOrderMsg) {l : List (Resting Nat OrderIds × Nat)}
    (hl : ∀ t ∈ l, t.2 < 2 ^ 16) :
    Emission.tradedAt price (((tradeReports ids i side timestamp q l).flatMap fun x => [x.1, x.2]).map
      message.reportEmission) = 2 * Resting.tradedAt price l := by
  induction l generalizing q
  case nil => rfl
  case cons t l hi =>
    obtain ⟨ht, hl⟩ := List.forall_mem_cons.mp hl
    have entry {left : Nat} {ids : OrderIds} {side : Side} {es : List Emission} :
        Emission.tradedAt price (message.reportEmission
          (ids.report i side t.1.price t.2 (tradeStatus left) timestamp) :: es) =
          (if t.1.price = price then t.2 else 0) + Emission.tradedAt price es := by
      have hs : (message.reportEmission
          (ids.report i side t.1.price t.2 (tradeStatus left) timestamp)).report.isTrade = true :=
        tradeStatus_isTrade ..
      have hq : (UInt16.ofNat t.2).toNat = t.2 := Nat.mod_eq_of_lt ht
      simp only [tradedAt_cons, hs, true_and]
      simp [InboundOrderMsg.reportEmission, OrderIds.report, hq]
    simp only [tradeReports, List.flatMap_cons, List.map_cons, List.cons_append, List.nil_append, entry, hi hl,
      Resting.tradedAt_cons]
    omega

theorem tradedAt_step (hm : a.message.placement = .ok p) :
    Emission.tradedAt price (x.step unspecified (.consume a)).2 =
      2 * Resting.tradedAt price (x.trades p.side p.instrument p.tick p.quantity) := by
  have hl : ∀ t ∈ x.trades p.side p.instrument p.tick p.quantity, t.2 < 2 ^ 16 := fun t ht => by
    have := p.quantityLe
    have := (mem_fill ht).right.right
    omega
  rw [step_accept hm]
  simp only [placeReports, Market.reports, List.map_append, tradedAt_append, tradedAt_tradeReports _ hl]
  split
  case isTrue =>
    simp [InboundOrderMsg.reportEmission, OrderIds.report, ExecutionReport.isTrade, Emission.tradedAt]
  case isFalse => rfl

structure Sliced (x x' : Exchange) (emitted : List Emission) (side : Side) (i : Instrument) (tick q : Nat) :
    Prop where
  opposing : x'.resting side.opposite i = residual q (x.matched side i tick) ++ x.unmatched side i tick
  joined   : ∀ price, depth price (x'.resting side i) =
    depth price (x.resting side i) + if tick = price then q - total (x.matched side i tick) else 0
  others   : ∀ side' i', i' ≠ i → x'.resting side' i' = x.resting side' i'
  traded   : ∀ price, Emission.tradedAt price emitted + 2 * depth price (residual q (x.matched side i tick)) =
    2 * depth price (x.matched side i tick)

theorem exec_sliced (unspecified : ℚ → Int64) (h : Slices side i tick q arrivals) (x : Exchange) :
    Sliced x (Machine.exec (step unspecified) (arrivals.map .consume) x).1
      (Machine.exec (step unspecified) (arrivals.map .consume) x).2.flatten side i tick q := by
  have positive (x : Exchange) : ∀ r ∈ x.matched side i tick, 0 < r.quantity := fun r hr =>
    x.positive _ _ r (mem_matching.mp hr).left
  induction h generalizing x
  case nil =>
    have hz := residual_zero (positive x)
    exact {
      opposing := by
        rw [hz]
        exact (x.sorted _ _).matching_append_rest tick |>.symm
      joined   := by simp
      others   := fun _ _ _ => rfl
      traded   := by
        rw [hz]
        simp [Emission.tradedAt]
    }
  case cons a p q arrivals hm hs hi ht _ hind =>
    subst hs hi ht
    have hx : (x.step unspecified (.consume a)).1 = x.place a.message p := by rw [step_accept hm]
    have h := hind (x.place a.message p)
    rw [List.map_cons, Machine.exec_cons, hx]
    simp only [List.flatten_cons]
    have matched : (x.place a.message p).matched p.side p.instrument p.tick =
        Resting.residual p.quantity (x.matched p.side p.instrument p.tick) := Market.submit_matched
    have total := total_residual p.quantity (x.matched p.side p.instrument p.tick)
    exact {
      opposing := by
        rw [h.opposing, matched, residual_add]
        exact congrArg _ Market.submit_unmatched
      joined   := fun price => by
        rw [h.joined, matched, total, place, Market.depth_submit]
        split <;> omega
      others   := fun side' i' hi => by
        rw [h.others side' i' hi]
        exact Market.restingAfter_ne hi
      traded   := fun price => by
        have hfill := tradedAt_fill (p := price) (positive x) p.quantity
        have hnext := h.traded price
        rw [matched, ← residual_add] at hnext
        rw [tradedAt_append, tradedAt_step hm, Market.trades]
        omega
    }

end Exchange

-- However an order is cut into orders that come in one after the other, the same quantity trades at each price,
-- the other side of the book is left the same, and so is what is offered at each price on its own side.
theorem OrderProcessor.slices_agree (unspecified : ℚ → Int64) (before : List Event) {side : Side}
    {i : Instrument} {tick q : Nat} {whole parts : List Arrival} (hw : Slices side i tick q whole)
    (hp : Slices side i tick q parts) :
    ∃ s₀ s s' emitted emitted' queues queues', Reached unspecified before s₀ ∧
      (Machine.run (step unspecified) (whole.map .consume) s₀ = .ok (s, emitted)) ∧ s.matcher.Shows queues ∧
      (Machine.run (step unspecified) (parts.map .consume) s₀ = .ok (s', emitted')) ∧ s'.matcher.Shows queues' ∧
      (∀ price, Emission.tradedAt price emitted.flatten = Emission.tradedAt price emitted'.flatten) ∧
      (queues side.opposite i = queues' side.opposite i) ∧
      (∀ price, depth price (queues side i) = depth price (queues' side i)) ∧
      ∀ side' i', i' ≠ i → queues side' i' = queues' side' i' := by
  obtain ⟨s₀, hs₀, hx⟩ := reached_agrees unspecified before
  obtain ⟨s, hrun, _, _, hm⟩ := run_agrees unspecified (whole.map .consume) hx
  obtain ⟨s', hrun', _, _, hm'⟩ := run_agrees unspecified (parts.map .consume) hx
  have h := Exchange.exec_sliced unspecified hw (Machine.exec (Exchange.step unspecified) before .empty).1
  have h' := Exchange.exec_sliced unspecified hp (Machine.exec (Exchange.step unspecified) before .empty).1
  refine ⟨s₀, s, s', _, _, _, _, hs₀, hrun, hm.represents.shows, hrun', hm'.represents.shows, fun price => ?_,
    h.opposing.trans h'.opposing.symm, fun price => (h.joined price).trans (h'.joined price).symm,
    fun side' i' hi => (h.others side' i' hi).trans (h'.others side' i' hi).symm⟩
  have ht := h.traded price
  have ht' := h'.traded price
  omega

theorem OrderProcessor.slices_agree_two :
    let arrival (side quantity : Int) (price : ℚ) : Arrival :=
      ⟨⟨.copy (ascii "a"), .copy (ascii "Rose"), side, quantity, .finite price, 1⟩, default, default⟩
    let rose : Instrument := ⟨.rose, by decide⟩
    let before := [.consume (arrival 2 20 10)]
    let whole := [arrival 1 50 11]
    let parts := [arrival 1 10 11, arrival 1 40 11]
    Slices .buy rose 1100 50 whole ∧ Slices .buy rose 1100 50 parts ∧
      ∃ s₀ s s' emitted emitted' queues queues', Reached (fun _ => 0) before s₀ ∧
      (Machine.run (step fun _ => 0) (whole.map .consume) s₀ = .ok (s, emitted)) ∧ s.matcher.Shows queues ∧
      (Machine.run (step fun _ => 0) (parts.map .consume) s₀ = .ok (s', emitted')) ∧ s'.matcher.Shows queues' ∧
      (∀ price, Emission.tradedAt price emitted.flatten = Emission.tradedAt price emitted'.flatten) ∧
      (queues Side.sell rose = queues' Side.sell rose) ∧
      (∀ price, depth price (queues .buy rose) = depth price (queues' .buy rose)) ∧
      ∀ side' i', i' ≠ rose → queues side' i' = queues' side' i' := by
  intro arrival rose before whole parts
  let slice (quantity : Nat) (h : 10 ∣ quantity ∧ 0 < quantity ∧ quantity ≤ 1000) : Placement :=
    ⟨rose, .buy, 11, quantity, by norm_num, by norm_num, h.left, h.right.left, h.right.right⟩
  have name : .rose = (parseInstrument (.copy (ascii "Rose") : CStr 32).text).getD .count := by decide +kernel
  have placed (quantity : Nat) (h) : (arrival 1 quantity 11).message.placement = .ok (slice quantity h) :=
    InboundOrderMsg.placement_eq_ok_iff.mpr ⟨name, rfl, rfl, rfl⟩
  have tick (quantity : Nat) (h) : (slice quantity h).tick = 1100 := by
    have : roundHalfAway (11 * 100) = 1100 := by decide +kernel
    exact congrArg Int.toNat this
  have hw : Slices .buy rose 1100 50 whole :=
    .cons (placed 50 (by decide)) rfl rfl (tick _ (by decide)) .nil
  have hp : Slices .buy rose 1100 50 parts :=
    .cons (placed 10 (by decide)) rfl rfl (tick _ (by decide)) <|
      .cons (placed 40 (by decide)) rfl rfl (tick _ (by decide)) .nil
  exact ⟨hw, hp, slices_agree (fun _ => 0) before hw hp⟩
