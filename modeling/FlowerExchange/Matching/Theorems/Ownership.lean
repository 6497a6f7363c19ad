import FlowerExchange.Matching.Theorems.OrderProcessor
import FlowerExchange.Matching.Theorems.Walk

open RuntimeConfig

namespace OrderProcessor

variable {s : OrderProcessor} {x : Exchange} {lv : Side → Instrument → Levels}
variable {loose : Addr → Option Order} {a : Addr} {unspecified : ℚ → Int64}

structure Tidy (s : OrderProcessor) : Prop where
  live   : ∀ side i t, ∃ l, s.matcher.Walk side i t l ∧ l.Nodup ∧
    ∀ a ∈ l, (s.matcher.orderPool.heap a).isSome
  unique : ∀ {side i t l side' i' t' l' a}, s.matcher.Walk side i t l → s.matcher.Walk side' i' t' l' →
    a ∈ l → a ∈ l' → side = side' ∧ i = i' ∧ t = t'

theorem Models.tidy (h : Models s lv x loose) : s.Tidy where
  live side i t := by
    refine ⟨lv side i t, h.represents.walk_self side i t, h.represents.nodup, fun a ha => ?_⟩
    have ⟨_, _, _, _, ho, _⟩ := h.represents.holds_mem ha
    simp [ho]
  unique hw hw' ha ha' := by
    rw [h.represents.walk_iff] at hw hw'
    exact h.represents.place_unique (hw ▸ ha) (hw' ▸ ha')

-- What a message does with the nodes of the pool. Each access to a node that is not allocated, each
-- link that leads nowhere and each error of the pool would be a fault.
structure Safe (unspecified : ℚ → Int64) (s : OrderProcessor) (a : Arrival) : Prop where
  consumed : ∃ s' emitted, s.step unspecified (.consume a) = .ok (s', emitted)
  popped   : a.message.validate = none → ∃ pool ptr matcher out,
    (s.matcher.orderPool.allocate (s.newOrder unspecified a.message) = .ok (pool, ptr)) ∧
    ({ s.matcher with orderPool := pool }.processOrder
      (MatchingEngine.releasing a.message.reportEmission) ptr (some a.timestamp.text) a.now =
        .ok (matcher, out)) ∧
    ∀ t ∈ out.trades, t.consumed =
      if t.restingReport.report.status = .fill then some (some t.resting) else none

theorem Models.safe (h : Models s lv x loose) (unspecified : ℚ → Int64) (a : Arrival) :
    s.Safe unspecified a where
  consumed := by
    have ⟨s', _, hs, _⟩ := h.consume unspecified a
    exact ⟨s', _, hs⟩
  popped hv := by
    cases hm : a.message.placement
    case error reason => simp [InboundOrderMsg.placement_eq_error_iff.mp hm] at hv
    case ok p =>
      have ⟨pool, ptr, matcher, out, _, halloc, hproc, _, htrades, _⟩ := h.process unspecified hm
      refine ⟨pool, ptr, matcher, out, halloc, hproc, fun t ht => ?_⟩
      have ⟨n, hn, ht⟩ := List.mem_iff_getElem.mp ht
      have ht' := htrades.get hn (htrades.length_eq ▸ hn)
      simp only [List.get_eq_getElem, ht] at ht'
      rw [ht'.consumed, ht'.resting]
      rfl

-- Whatever messages and resets there have been, the books are tidy, and the next message keeps to
-- them.
theorem orders_not_dangling (unspecified : ℚ → Int64) (events : List Event) :
    ∃ s, Reached unspecified events s ∧ s.Tidy ∧ ∀ a, s.Safe unspecified a :=
  have ⟨s, hs, _, _, h⟩ := reached_agrees unspecified events
  ⟨s, hs, h.tidy, h.safe unspecified⟩

structure NoLeak (s : OrderProcessor) : Prop where
  orders  : ∀ a, (s.matcher.orderPool.heap a).isSome → s.matcher.InBook a
  reports : ∀ a, s.matcher.reportPool.heap a = none

def Empty (s : OrderProcessor) : Prop :=
  ∀ side i, (s.matcher.book side i).findFirst < 0

theorem Models.noLeak_iff (h : Models s lv x loose) : s.NoLeak ↔ loose = fun _ => none where
  mp hn := by
    ext1 a
    by_contra hl
    have hs := Option.isSome_iff_ne_none.mpr hl
    have hp := h.represents.inBook_iff.mp <| hn.orders a <| h.represents.live_iff.mpr <| .inl hs
    exact hl <| h.represents.apart a hp
  mpr hl := by
    refine ⟨fun a ha => h.represents.inBook_iff.mpr ?_, congrFun h.reports.right⟩
    simpa [hl] using h.represents.live_iff.mp ha

theorem Models.empty_iff (h : Models s lv x loose) : s.Empty ↔ ∀ a, ¬Placed lv a := by
  have first side i : IsBest (· < ·) (lv side i).active (s.matcher.book side i).findFirst :=
    LawfulOrderBook.first_spec (h.represents.rep side i)
  refine ⟨fun he a ⟨side, i, t, ha⟩ => ?_, fun hn side i => (first side i).neg_iff.mpr ?_⟩
  · have : t ∈ (lv side i).active := List.ne_nil_of_mem ha
    rw [(first side i).neg_iff.mp (he side i)] at this
    exact this
  · refine Set.eq_empty_iff_forall_notMem.mpr fun t ht => ?_
    have ⟨a, ha⟩ := List.exists_mem_of_ne_nil _ ht
    exact hn a ⟨side, i, t, ha⟩

theorem Models.reset_noLeak_iff (h : Models s lv x loose) (hs : s.NoLeak) :
    s.reset.NoLeak ↔ s.Empty := by
  rw [h.reset.noLeak_iff, h.empty_iff, funext_iff]
  refine forall_congr' fun a => ?_
  have := h.represents.live_iff (a := a)
  rw [h.noLeak_iff.mp hs] at this
  simp only [Option.isSome_none, Bool.false_eq_true, false_or] at this
  rw [← this]
  simp

theorem Reached.snoc (h : Reached unspecified events s) (event : Event)
    (hs : s.step unspecified event = .ok (s', out)) :
    Reached unspecified (events ++ [event]) s' :=
  have ⟨_, h⟩ := h
  ⟨_, Machine.run_append h <| Machine.run_cons hs rfl⟩

variable (unspecified) in
theorem models_of_resets (events : List Event)
    (h : ∀ k, events[k]? = some .reset → ∃ s, Reached unspecified (events.take k) s ∧ s.Empty) :
    ∃ s lv, Reached unspecified events s ∧
      Models s lv (Machine.exec (Exchange.step unspecified) events .empty).1 (fun _ => none) := by
  induction events using List.reverseRecOn
  case nil => exact ⟨new, _, ⟨[], rfl⟩, new_models⟩
  case append_singleton events event hi =>
    have ⟨s, lv, hs, hm⟩ := hi fun k hk => by
      have hlt := (List.getElem?_eq_some_iff.mp hk).choose
      have ⟨s, hs, he⟩ := h k (by rwa [List.getElem?_append_left hlt])
      rw [List.take_append_of_le_length hlt.le] at hs
      exact ⟨s, hs, he⟩
    rw [Machine.exec_snoc]
    cases event
    case consume a =>
      have ⟨s', lv', hstep, hm'⟩ := hm.consume unspecified a
      exact ⟨s', lv', hs.snoc _ hstep, hm'⟩
    case reset =>
      have ⟨s₁, hs₁, he⟩ := h events.length (by simp)
      rw [List.take_left] at hs₁
      obtain rfl := hs.unique hs₁
      have hn := hm.reset_noLeak_iff (hm.noLeak_iff.mpr rfl) |>.mpr he
      have hm' := hm.reset
      rw [hm.reset.noLeak_iff.mp hn] at hm'
      exact ⟨s.reset, _, hs.snoc _ rfl, hm'⟩

-- No order is lost in the pool exactly as long as the books are empty at each reset.
theorem no_leak_iff (unspecified : ℚ → Int64) (events : List Event) :
    (∀ k ≤ events.length, ∃ s, Reached unspecified (events.take k) s ∧ s.NoLeak) ↔
      (∀ k, events[k]? = some .reset → ∃ s, Reached unspecified (events.take k) s ∧ s.Empty) := by
  constructor
  · intro h k hk
    have hlt := (List.getElem?_eq_some_iff.mp hk).choose
    have ⟨s, hs, hn⟩ := h k hlt.le
    have ⟨s', hs', hn'⟩ := h (k + 1) hlt
    have ⟨s₁, hs₁, _, _, hm⟩ := reached_agrees unspecified (events.take k)
    obtain rfl := hs.unique hs₁
    have hreset : Reached unspecified (events.take (k + 1)) s.reset := by
      rw [List.take_add_one, hk]
      exact hs.snoc _ rfl
    obtain rfl := hs'.unique hreset
    exact ⟨s, hs, hm.reset_noLeak_iff hn |>.mp hn'⟩
  · intro h k hk
    have ⟨s, _, hs, hm⟩ := models_of_resets unspecified (events.take k) fun n hn => by
      have hlt := (List.getElem?_eq_some_iff.mp hn).choose
      rw [List.length_take] at hlt
      rw [List.getElem?_take_of_lt (by omega)] at hn
      have ⟨s, hs, he⟩ := h n hn
      refine ⟨s, ?_, he⟩
      rwa [List.take_take, Nat.min_eq_left (by omega)]
    exact ⟨s, hs, hm.noLeak_iff.mpr rfl⟩

-- A sell order that rests at a reset stays in the pool.
theorem order_leaks :
    let sell : InboundOrderMsg := ⟨.copy (ascii "c1"), .copy (ascii "Rose"), 2, 10, .finite 1, 1⟩
    ∃ s, Reached (fun _ => 0) [.consume ⟨sell, default, default⟩, .reset] s ∧ ¬s.NoLeak := by
  intro sell
  have ⟨s, lv, hs, hm⟩ := models_of_resets (fun _ => 0) [.consume ⟨sell, default, default⟩]
    fun k hk => by cases k <;> simp at hk
  let rose : Instrument := ⟨.rose, nofun⟩
  have hrest : (Machine.exec (Exchange.step fun _ => 0) [.consume ⟨sell, default, default⟩]
      .empty).1.resting .sell rose ≠ [] := by decide +kernel
  refine ⟨s.reset, hs.snoc .reset rfl, fun hn => ?_⟩
  have ⟨r, q, hr⟩ := List.exists_cons_of_ne_nil hrest
  have ⟨a, l, hl, _⟩ := hm.represents.head hr
  have he := hm.reset_noLeak_iff (hm.noLeak_iff.mpr rfl) |>.mp hn
  exact hm.empty_iff.mp he a ⟨.sell, rose, r.price, hl ▸ .head _⟩

end OrderProcessor
