import FlowerExchange.Matching.Theorems.Represents

open Function Resting

-- A caller that takes each report, and has the effect `view` on it.
structure ReportSink (ω : Type) where
  emit : MatchingEngine.Emit ω
  view : ExecutionReport → ω
  Inv  : MemPool ExecutionReport → Prop
  spec : ∀ pool report, Inv pool → ∃ pool',
    (MatchingEngine.emitReport emit pool report = .ok (pool', view report)) ∧ Inv pool'

def ReportSink.releasing (view : ExecutionReport → ω) : ReportSink ω where
  emit     := MatchingEngine.releasing view
  view     := view
  Inv pool := pool.WF ∧ pool.heap = fun _ => none
  spec pool report inv := by
    have ⟨pool₁, a, halloc, wf₁, _, hh₁⟩ := MemPool.allocate_spec report inv.left
    have ha : pool₁.heap a = some report := by rw [hh₁, update_self]
    have ⟨pool₂, hfree, wf₂, hh₂⟩ := MemPool.deallocate_spec wf₁ ha
    refine ⟨pool₂, ?_, wf₂, ?_⟩
    · simp [MatchingEngine.emitReport, MatchingEngine.releasing, halloc, MemPool.read_eq ha, hfree]
    · rw [hh₂, hh₁, update_idem, inv.right, update_eq_self_iff]

theorem ReportSink.releasing_new (view : ExecutionReport → ω) (capacity : Nat) :
    (ReportSink.releasing view).Inv (.new capacity) :=
  ⟨MemPool.new_wf capacity, funext <| MemPool.heap_new capacity⟩

def OrderIds.report (ids : OrderIds) (i : Instrument) (side : Side) (price quantity : Nat)
    (status : ExecStatus) (timestamp : CStr 20) : ExecutionReport where
  oid        := ids.oid
  coid       := ids.coid
  instrument := i
  side       := side
  price      := price
  quantity   := .ofNat quantity
  status     := status
  reason     := .copy []
  timestamp  := timestamp

theorem OrderIds.new_eq_report (o : Order) (hi : o.instrument = (i : Instrument)) (price : Nat)
    (q : UInt16) (status : ExecStatus) (ts : Option Bytes) (now : CStr 20) :
    ExecutionReport.new o.oid.text o.coid.text o.instrument o.side price q status [] ts now =
      o.ids.report i o.side price q.toNat status (ExecutionReport.timestampField ts now) := by
  simp [ExecutionReport.new, report, CStr.copy_text, Order.ids, hi]

def tradeStatus (left : Nat) : ExecStatus :=
  if left = 0 then .fill else .pfill

def tradeReports (ids : OrderIds) (i : Instrument) (side : Side) (timestamp : CStr 20) :
    Nat → List (Resting Nat OrderIds × Nat) → List (ExecutionReport × ExecutionReport)
  | _, []          => []
  | q, (r, n) :: l =>
    (ids.report i side r.price n (tradeStatus (q - n)) timestamp,
      r.data.report i side.opposite r.price n (tradeStatus (r.quantity - n)) timestamp) ::
    tradeReports ids i side timestamp (q - n) l

@[simp]
theorem tradeReports_eq_nil : tradeReports ids i side timestamp q l = [] ↔ l = [] := by
  cases l <;> simp [tradeReports]

def Market.reports (market : Market Instrument Nat OrderIds) (side : Side) (i : Instrument)
    (price quantity : Nat) (ids : OrderIds) (timestamp : CStr 20) : List ExecutionReport :=
  let trades := market.trades side i price quantity
  (tradeReports ids i side timestamp quantity trades).flatMap (fun x => [x.1, x.2]) ++
    if trades = [] then [ids.report i side price quantity .new timestamp] else []

namespace MatchingEngine

-- A trade emits the given pair of reports. It pops the other order if and only if that is filled.
structure Trade.Reports (view : ExecutionReport → ω) (t : Trade ω)
    (x : ExecutionReport × ExecutionReport) : Prop where
  incoming : t.incomingReport = view x.1
  resting  : t.restingReport = view x.2
  consumed : t.consumed = if x.2.status = .fill then some (some t.resting) else none

theorem instrumentIndex_eq (i : Instrument) : instrumentIndex i = .ok i := by
  simp [instrumentIndex, i.property]

section

variable [OrderBook B] [LawfulOrderBook B] {maxTicks : Nat} {book : B} {heap : Addr → Option Order}

theorem bestLevel_spec (rep : LawfulOrderBook.Rep maxTicks book heap lv) :
    (side : Side) → IsBest side.opposite.better lv.active (bestLevel book side) := by
  intro side
  cases side
  case buy  => exact LawfulOrderBook.first_spec rep
  case sell => exact LawfulOrderBook.last_spec rep

theorem crosses_iff {best limit : Nat} :
    (side : Side) → crosses best limit side = true ↔ ¬side.opposite.better limit best := by
  intro side
  cases side <;> simp [crosses, Side.opposite, Side.better]

end

section

variable [OrderBook B] [LawfulOrderBook B] {maxTicks : Nat} {s : MatchingEngine B} {sink : ReportSink ω}
variable {lv : Side → Instrument → Levels} {m : Side → Instrument → List (Resting Nat OrderIds)}
variable {loose : Addr → Option Order} {ts : Option Bytes} {now : CStr 20} {incoming : Addr}
variable {opp : Side} {i : Instrument} {o : Order} {r : Resting Nat OrderIds}

omit [LawfulOrderBook B] in
theorem matchPass_of_zero (ho : s.orderPool.heap incoming = some o) (hq : o.quantity = 0) :
    matchPass sink.emit ts now incoming opp i s = .ok (s, .stop) := by
  simp [matchPass, MemPool.read_eq ho, hq]

theorem best_eq (h : Represents maxTicks s.orderPool s.book lv m loose) (side : Side)
    (sorted : Sorted side.opposite.better (m side.opposite i)) (hm : m side.opposite i = r :: q) :
    bestLevel (s.book side.opposite i) side = r.price := by
  refine bestLevel_spec (h.rep side.opposite i) side |>.eq_of_mem ?_ fun t ht => ?_
  · exact h.mem_active_iff.mpr ⟨r, hm ▸ .head _, rfl⟩
  · have ⟨x, hx, hp⟩ := h.mem_active_iff.mp ht
    rw [hm] at hx sorted
    cases hx
    case head    => exact hp ▸ irrefl _
    case tail hx => exact hp ▸ sorted.head_best hx

theorem matchPass_of_nil (h : Represents maxTicks s.orderPool s.book lv m loose)
    (ho : s.orderPool.heap incoming = some o) (hm : m o.side.opposite i = []) :
    matchPass sink.emit ts now incoming o.side.opposite i s = .ok (s, .stop) := by
  have he : (lv o.side.opposite i).active = ∅ :=
    Set.eq_empty_iff_forall_notMem.mpr fun t ht => by
      simpa [hm] using h.mem_active_iff.mp ht
  have hb := bestLevel_spec (h.rep o.side.opposite i) o.side |>.neg_iff.mpr he
  simp [matchPass, MemPool.read_eq ho, hb]

theorem matchPass_of_beaten (h : Represents maxTicks s.orderPool s.book lv m loose)
    (ho : s.orderPool.heap incoming = some o)
    (sorted : Sorted o.side.opposite.better (m o.side.opposite i))
    (hm : m o.side.opposite i = r :: q) (hb : o.side.opposite.better o.price r.price) :
    matchPass sink.emit ts now incoming o.side.opposite i s = .ok (s, .stop) := by
  have hc : crosses r.price o.price o.side = false := by
    rw [← Bool.not_eq_true, crosses_iff]
    exact not_not.mpr hb
  simp [matchPass, MemPool.read_eq ho, best_eq h o.side sorted hm, hc]

theorem toNat_min (x y : UInt16) : (min x y).toNat = min x.toNat y.toNat := by
  have : min x y = if x ≤ y then x else y := rfl
  rw [this, min_def]
  simp only [UInt16.le_iff_toNat_le]
  split <;> rfl

theorem toNat_sub_min_left (x y : UInt16) : (x - min x y).toNat = x.toNat - min x.toNat y.toNat := by
  rw [UInt16.toNat_sub_of_le _ _ Std.min_le_left, toNat_min]

theorem toNat_sub_min_right (x y : UInt16) : (y - min x y).toNat = y.toNat - min x.toNat y.toNat := by
  rw [UInt16.toNat_sub_of_le _ _ Std.min_le_right, toNat_min]

theorem trade_pools (h : Represents maxTicks s.orderPool s.book lv m loose)
    (ho : loose incoming = some o) (hm : m opp i = r :: q) : ∃ a l x pool₁ pool₂,
      (lv opp i r.price = a :: l) ∧ (s.orderPool.heap a = some x) ∧ (a ≠ incoming) ∧
      (x.side = opp) ∧ (x.instrument = i) ∧ (x.offer r.stamp = r) ∧
      (s.orderPool.modify incoming (fun o' => { o' with
        quantity := o'.quantity - min o.quantity x.quantity }) = .ok pool₁) ∧
      (pool₁.modify a (fun x' => { x' with
        quantity := x'.quantity - min o.quantity x.quantity }) = .ok pool₂) ∧
      (pool₂.heap incoming =
        some { o with quantity := o.quantity - min o.quantity x.quantity }) ∧
      (pool₂.heap a = some { x with quantity := x.quantity - min o.quantity x.quantity }) ∧
      Represents maxTicks pool₂ s.book lv (setAt m opp i
        ({ r with quantity := (x.quantity - min o.quantity x.quantity).toNat } :: q))
        (update loose incoming (some { o with
          quantity := o.quantity - min o.quantity x.quantity })) := by
  have ⟨a, l, hl, ⟨x, hx, hs, hi, hr⟩, _⟩ := h.head hm
  have hne : a ≠ incoming := by
    rintro rfl
    exact h.not_mem_of_loose ho opp i r.price (hl ▸ .head _)
  have ⟨pool₁, hm₁, wf₁, hh₁⟩ := MemPool.modify_spec (fun o' : Order => { o' with
    quantity := o'.quantity - min o.quantity x.quantity }) h.wf (h.heap_loose ho)
  have hx₁ : pool₁.heap a = some x := by rw [hh₁, update_of_ne hne, hx]
  have ⟨pool₂, hm₂, wf₂, hh₂⟩ := MemPool.modify_spec (fun x' : Order => { x' with
    quantity := x'.quantity - min o.quantity x.quantity }) wf₁ hx₁
  refine ⟨a, l, x, pool₁, pool₂, hl, hx, hne, hs, hi, hr, hm₁, hm₂, ?_, by rw [hh₂, update_self], ?_⟩
  · rw [hh₂, update_of_ne hne.symm, hh₁, update_self]
  · exact h.frame_update (h.not_placed ho) wf₁ hh₁ |>.modify_head hm hl hx₁ wf₂ hh₂

theorem tradeStatus_eq_fill {left : Nat} : tradeStatus left = .fill ↔ left = 0 := by
  simp [tradeStatus]

theorem tradeStatus_toNat (q : UInt16) :
    (if q = 0 then ExecStatus.fill else .pfill) = tradeStatus q.toNat := by
  simp [tradeStatus, ← UInt16.toNat_inj]

variable (ts now) in
theorem matchPass_of_trade (h : Represents maxTicks s.orderPool s.book lv m loose)
    (inv : sink.Inv s.reportPool) (ho : loose incoming = some o) (hi : o.instrument = i)
     (sorted : Sorted o.side.opposite.better (m o.side.opposite i))
    (hm : m o.side.opposite i = r :: q) (hb : ¬o.side.opposite.better o.price r.price)
    (hq : o.quantity ≠ 0) : ∃ s' t lv',
      let n := min o.quantity.toNat r.quantity
      let time := ExecutionReport.timestampField ts now
      (matchPass sink.emit ts now incoming o.side.opposite i s = .ok (s', .trade t)) ∧
      (t.Reports sink.view
        (o.ids.report i o.side r.price n (tradeStatus (o.quantity.toNat - n)) time,
          r.data.report i o.side.opposite r.price n (tradeStatus (r.quantity - n)) time)) ∧
      (sink.Inv s'.reportPool) ∧
      (∃ l, (lv o.side.opposite i r.price = t.resting :: l) ∧
        lv' = if o.quantity.toNat < r.quantity then lv
          else setAt lv o.side.opposite i (update (lv o.side.opposite i) r.price l)) ∧
      ∃ k, (k.toNat = o.quantity.toNat - n) ∧
        Represents maxTicks s'.orderPool s'.book lv'
          (setAt m o.side.opposite i (residual o.quantity.toNat [r] ++ q))
          (update loose incoming (some { o with quantity := k })) := by
  obtain ⟨a, l, x, pool₁, pool₂, hl, hx, hne, hs, hxi, hr, hm₁, hm₂, ho₂, hx₂, h₂⟩ :=
    trade_pools h ho hm
  have ho := h.heap_loose ho
  have hrq : r.quantity = x.quantity.toNat := hr ▸ rfl
  have hids : x.ids = r.data := hr ▸ rfl
  have bound : r.price < maxTicks :=
    LawfulOrderBook.rep_bound (h.rep o.side.opposite i) (hl ▸ List.cons_ne_nil a l)
  have hbest := best_eq h o.side sorted hm
  have hcross : crosses r.price o.price o.side = true := crosses_iff o.side |>.mpr hb
  have hpeek : OrderBook.peekOrderKnownValid (s.book o.side.opposite i) r.price = .ok (some a) := by
    rw [LawfulOrderBook.peek_spec (h.rep o.side.opposite i) bound, hl, List.head?_cons]
  -- The reports, as the source builds them and as the specification has them.
  let n := min o.quantity.toNat r.quantity
  let tradeQty := min o.quantity x.quantity
  have hn : tradeQty.toNat = n := by rw [toNat_min, ← hrq]
  have hol : (o.quantity - tradeQty).toNat = o.quantity.toNat - n := by
    rw [toNat_sub_min_left, ← hrq]
  have hxl : (x.quantity - tradeQty).toNat = r.quantity - n := by
    rw [toNat_sub_min_right, ← hrq]
  let time := ExecutionReport.timestampField ts now
  let x₁ := o.ids.report i o.side r.price n (tradeStatus (o.quantity.toNat - n)) time
  let x₂ := r.data.report i o.side.opposite r.price n (tradeStatus (r.quantity - n)) time
  have hx₁ : ExecutionReport.new o.oid.text o.coid.text o.instrument o.side r.price tradeQty
      (if o.quantity - tradeQty = 0 then .fill else .pfill) [] ts now = x₁ := by
    rw [OrderIds.new_eq_report o hi, tradeStatus_toNat, hn, hol]
  have hx₂' : ExecutionReport.new x.oid.text x.coid.text x.instrument x.side r.price tradeQty
      (if x.quantity - tradeQty = 0 then .fill else .pfill) [] ts now = x₂ := by
    rw [OrderIds.new_eq_report x hxi, tradeStatus_toNat, hn, hxl, hs, hids]
  obtain ⟨rp₁, he₁, inv₁⟩ := sink.spec s.reportPool x₁ inv
  obtain ⟨rp₂, he₂, inv₂⟩ := sink.spec rp₁ x₂ inv₁
  have hpass : matchPass sink.emit ts now incoming o.side.opposite i s =
      if x.quantity - tradeQty = 0 then do
        let popped ← OrderBook.popOrderKnownValid (s.book o.side.opposite i) pool₂ r.price
        let pool ← popped.2.1.deallocate (some a)
        let s := { s.setBook o.side.opposite i popped.1 with orderPool := pool, reportPool := rp₂ }
        return (s, .trade ⟨a, sink.view x₁, sink.view x₂, some popped.2.2⟩)
      else
        .ok ({ s with orderPool := pool₂, reportPool := rp₂ },
          .trade ⟨a, sink.view x₁, sink.view x₂, none⟩) := by
    have hneg : ¬(r.price : Int) < 0 := by omega
    simp only [matchPass, MemPool.read_eq ho, hq, if_false, hbest, Except.ok_bind, Int.toNat_natCast,
      hneg, hcross, Bool.not_true, Bool.false_eq_true, hpeek, MemPool.read_eq hx, hm₁, hm₂,
      MemPool.read_eq ho₂, MemPool.read_eq hx₂, tradeQty, hx₁, hx₂', he₁, he₂, Except.pure_eq_ok]
  by_cases hz : x.quantity - tradeQty = 0
  case pos =>
    have hle : r.quantity ≤ o.quantity.toNat := by
      rw [hz, UInt16.toNat_zero] at hxl
      omega
    obtain ⟨book', pool₃, pool₄, hpop, hfree, h₄⟩ := h₂.pop_free setAt_self hl
    rw [setAt_setAt] at h₄
    refine ⟨{ s.setBook o.side.opposite i book' with orderPool := pool₄, reportPool := rp₂ },
      ⟨a, sink.view x₁, sink.view x₂, some (some a)⟩,
      setAt lv o.side.opposite i (update (lv o.side.opposite i) r.price l), ?_, ⟨rfl, rfl, ?_⟩, inv₂,
      ⟨l, hl, (if_neg hle.not_gt).symm⟩, o.quantity - tradeQty, hol, ?_⟩
    · simp only [hpass, if_pos hz, hpop, Except.ok_bind, hfree, Except.pure_eq_ok]
    · exact (if_pos <| tradeStatus_eq_fill.mpr <| by omega).symm
    · rw [residual_cons_le hle, residual_nil, List.nil_append, book_withPools, book_setBook]
      exact h₄
  case neg =>
    have hlt : o.quantity.toNat < r.quantity := by
      have hpos : r.quantity - n ≠ 0 := fun he => hz <| UInt16.toNat_inj.mp <| hxl.trans he
      simp only [n] at hpos
      omega
    refine ⟨{ s with orderPool := pool₂, reportPool := rp₂ },
      ⟨a, sink.view x₁, sink.view x₂, none⟩, lv, ?_, ⟨rfl, rfl, ?_⟩, inv₂,
      ⟨l, hl, (if_pos hlt).symm⟩, o.quantity - tradeQty, hol, ?_⟩
    · rw [hpass, if_neg hz]
    · exact (if_neg <| tradeStatus_eq_fill.not.mpr <| by omega).symm
    · rw [residual_cons_lt hlt, book_withPools]
      have : r.quantity - o.quantity.toNat = (x.quantity - tradeQty).toNat := by omega
      rw [this]
      exact h₂

omit [LawfulOrderBook B] in
theorem matchLoop_of_stop
    (h : matchPass sink.emit ts now incoming opp i s = .ok (s', .stop)) (fuel : Nat) :
    matchLoop sink.emit ts now incoming opp i (fuel + 1) s = .ok (s', []) := by
  simp [matchLoop, h]

omit [LawfulOrderBook B] in
theorem matchLoop_of_trade
    (h₁ : matchPass sink.emit ts now incoming opp i s = .ok (s', .trade t))
    (h₂ : matchLoop sink.emit ts now incoming opp i fuel s' = .ok (s'', trades)) :
    matchLoop sink.emit ts now incoming opp i (fuel + 1) s = .ok (s'', t :: trades) := by
  simp [matchLoop, h₁, h₂]

variable (ts now) in
-- The loop fills the incoming order greedily from the queue of the opposite side. By induction on
-- that queue: a pass that trades either removes its first offer or uses up the incoming order.
theorem matchLoop_spec (h : Represents maxTicks s.orderPool s.book lv m loose)
    (inv : sink.Inv s.reportPool) (ho : loose incoming = some o) (hi : o.instrument = i)
    (sorted : Sorted o.side.opposite.better (m o.side.opposite i))
    (positive : ∀ r ∈ m o.side.opposite i, 0 < r.quantity) (hfuel : o.quantity.toNat < fuel) :
    ∃ s' trades lv',
      let q := o.quantity.toNat
      let matched := matching o.side.opposite.better o.price (m o.side.opposite i)
      let unmatched := rest o.side.opposite.better o.price (m o.side.opposite i)
      let time := ExecutionReport.timestampField ts now
      (matchLoop sink.emit ts now incoming o.side.opposite i fuel s = .ok (s', trades)) ∧
      (List.Forall₂ (Trade.Reports sink.view) trades
        (tradeReports o.ids i o.side time q (fill q matched))) ∧
      (sink.Inv s'.reportPool) ∧
      ∃ k, (k.toNat = q - total matched) ∧
        Represents maxTicks s'.orderPool s'.book lv'
          (setAt m o.side.opposite i (residual q matched ++ unmatched))
          (update loose incoming (some { o with quantity := k })) := by
  generalize hm : m o.side.opposite i = queue at sorted positive
  induction queue generalizing s lv m o fuel loose
  all_goals
    obtain ⟨fuel, rfl⟩ : ∃ f, fuel = f + 1 := ⟨fuel - 1, by omega⟩
    have hread := h.heap_loose ho
    have hsame : update loose incoming (some o) = loose := by rw [← ho, update_eq_self]
  case nil =>
    obtain ⟨hfill, htotal, hleft⟩ := sorted.unserved positive o.quantity.toNat o.price (.inr rfl)
    refine ⟨s, [], lv, matchLoop_of_stop (matchPass_of_nil h hread hm) fuel, ?_, inv, o.quantity,
      htotal.symm, ?_⟩
    · rw [hfill]
      exact .nil
    · rwa [hleft, setAt_of_eq hm, hsame]
  case cons r queue hind =>
    have hr := positive r <| .head _
    by_cases hq : o.quantity = 0
    case pos =>
      have hz : o.quantity.toNat = 0 := by simp [hq]
      obtain ⟨hfill, htotal, hleft⟩ := sorted.unserved positive o.quantity.toNat o.price (.inl hz)
      refine ⟨s, [], lv, matchLoop_of_stop (matchPass_of_zero hread hq) fuel, ?_, inv, o.quantity,
        htotal.symm, ?_⟩
      · rw [hfill]
        exact .nil
      · rwa [hleft, setAt_of_eq hm, hsame]
    case neg =>
      by_cases hb : o.side.opposite.better o.price r.price
      case pos =>
        obtain ⟨hfill, htotal, hleft⟩ := sorted.unserved positive o.quantity.toNat o.price <|
          .inr <| sorted.matching_of_beaten hb
        refine ⟨s, [], lv, matchLoop_of_stop (matchPass_of_beaten h hread (hm ▸ sorted) hm hb) fuel,
          ?_, inv, o.quantity, htotal.symm, ?_⟩
        · rw [hfill]
          exact .nil
        · rwa [hleft, setAt_of_eq hm, hsame]
      case neg =>
        obtain ⟨s₁, t, lv₁, hpass, ht, inv₁, -, k, hk, h₁⟩ :=
          matchPass_of_trade ts now h inv ho hi (hm ▸ sorted) hm hb hq
        have ho₁ : update loose incoming (some { o with quantity := k }) incoming =
          some { o with quantity := k } := update_self ..
        have hqpos : 0 < o.quantity.toNat :=
          Nat.pos_of_ne_zero fun he => hq <| UInt16.toNat_inj.mp he
        simp only [matching_cons hb, rest_cons hb, fill_cons hqpos, total_cons]
        rcases Nat.lt_or_ge o.quantity.toNat r.quantity with hlt | hle
        case inl =>
          have hk : k.toNat = 0 := by omega
          have hz : k = 0 := UInt16.toNat_inj.mp hk
          obtain ⟨fuel, rfl⟩ : ∃ f, fuel = f + 1 := ⟨fuel - 1, by omega⟩
          have hread₁ := h₁.heap_loose ho₁
          refine ⟨s₁, [t], lv₁,
            matchLoop_of_trade hpass (matchLoop_of_stop (matchPass_of_zero hread₁ hz) fuel), ?_, inv₁,
            k, by omega, ?_⟩
          · rw [Nat.sub_eq_zero_of_le hlt.le, fill_zero]
            exact .cons ht .nil
          · rw [residual_cons_lt hlt, List.cons_append, Sorted.matching_append_rest sorted.of_cons]
            rwa [residual_cons_lt hlt] at h₁
        case inr =>
          rw [residual_cons_le hle, residual_nil, List.nil_append] at h₁
          have hk : k.toNat = o.quantity.toNat - r.quantity := by omega
          have hlt : k.toNat < fuel := by omega
          obtain ⟨s₂, trades, lv₂, hloop, hts, inv₂, k', hk', h₂⟩ :=
            hind (o := { o with quantity := k }) h₁ inv₁ ho₁ hi hlt setAt_self sorted.of_cons
              fun x hx => positive x <| .tail _ hx
          simp only [hk] at hts hk' h₂
          refine ⟨s₂, t :: trades, lv₂, matchLoop_of_trade hpass hloop, ?_, inv₂, k', by omega, ?_⟩
          · rw [Nat.min_eq_right hle] at ht ⊢
            exact .cons ht hts
          · rw [residual_cons_le hle]
            rwa [setAt_setAt, update_idem] at h₂

omit [LawfulOrderBook B] in
theorem submit_resting (market : Market Instrument Nat OrderIds) (side : Side) (i : Instrument)
    (price quantity : Nat) (ids : OrderIds) :
    (market.submit side i price quantity ids).resting =
      setAt (setAt market.resting side.opposite i (market.opposing side i price quantity)) side i
        (market.joined side i price quantity ids) := by
  ext1 side'; ext1 i'
  by_cases hi : i' = i
  · subst hi
    rcases side.eq_or_eq_opposite side' with rfl | rfl <;>
      simp [Market.submit, Market.restingAfter, setAt]
  · simp [Market.submit, Market.restingAfter, setAt, hi]

theorem Trade.emitted_eq {trades : List (Trade ω)} (h : List.Forall₂ (Trade.Reports view) trades l) :
    trades.flatMap (fun t => [t.incomingReport, t.restingReport]) =
      (l.flatMap fun x => [x.1, x.2]).map view := by
  induction h
  case nil => rfl
  case cons h _ hi => simp [h.incoming, h.resting, hi]

variable (sink ts now i) (trades : List (Trade ω)) in
theorem settle_zero (h : Represents maxTicks s.orderPool s.book lv m loose)
    (ho : loose incoming = some o) (hq : o.quantity = 0) : ∃ pool',
      (s.settle sink.emit ts now incoming i trades =
        .ok ({ s with orderPool := pool' }, ⟨trades, none⟩)) ∧
      Represents maxTicks pool' s.book lv m (update loose incoming none) := by
  have ⟨pool', hfree, wf', hh⟩ := MemPool.deallocate_spec h.wf (h.heap_loose ho)
  refine ⟨pool', ?_, h.frame_update (h.not_placed ho) wf' hh⟩
  simp [settle, MemPool.read_eq (h.heap_loose ho), hq, hfree]

variable (ts now) (trades : List (Trade ω)) in
theorem settle_rest (h : Represents maxTicks s.orderPool s.book lv m loose)
    (inv : sink.Inv s.reportPool) (ho : loose incoming = some o) (hi : o.instrument = i)
    (hp : o.price < maxTicks) (hq : 0 < o.quantity) (sorted : Sorted o.side.better (m o.side i))
    (stamp : Nat) : ∃ s' lv',
      let time := ExecutionReport.timestampField ts now
      let report := o.ids.report i o.side o.price o.quantity.toNat .new time
      (s.settle sink.emit ts now incoming i trades =
        .ok (s', ⟨trades, if trades.isEmpty then some (sink.view report) else none⟩)) ∧
      (sink.Inv s'.reportPool) ∧
      Represents maxTicks s'.orderPool s'.book lv'
        (setAt m o.side i (enqueue o.side.better (o.offer stamp) (m o.side i)))
        (update loose incoming none) := by
  have hread := h.heap_loose ho
  have ⟨book', pool', hadd, rep, k⟩ := LawfulOrderBook.add_spec h.wf (h.rep o.side i) hp hread
    fun t => h.not_mem_of_loose ho o.side i t
  have h₁ := h.join ho rfl hi stamp sorted rep k
  let s₁ := { s.setBook o.side i book' with orderPool := pool' }
  let lv₁ := setAt lv o.side i (update (lv o.side i) o.price (lv o.side i o.price ++ [incoming]))
  have hbook : s₁.book = setAt s.book o.side i book' := by rw [book_withPools, book_setBook]
  have hpool : s₁.reportPool = s.reportPool := reportPool_setBook s book'
  by_cases ht : trades.isEmpty
  case neg =>
    refine ⟨s₁, lv₁, ?_, hpool ▸ inv, hbook ▸ h₁⟩
    simp [settle, MemPool.read_eq hread, hq, hadd, ht, s₁]
  case pos =>
    have ⟨n, ho'⟩ := k.order hread
    let report := o.ids.report i o.side o.price o.quantity.toNat .new
      (ExecutionReport.timestampField ts now)
    have hnew : ExecutionReport.new o.oid.text o.coid.text i o.side o.price o.quantity .new [] ts now =
        report := by
      rw [← hi, OrderIds.new_eq_report o hi]
    have ⟨reportPool, hreport, inv'⟩ := sink.spec s.reportPool report inv
    refine ⟨{ s₁ with reportPool := reportPool }, lv₁, ?_, inv', ?_⟩
    · simp [settle, MemPool.read_eq hread, hq, hadd, ht, MemPool.read_eq ho', hi, hnew,
        reportPool_setBook, hreport, s₁, report]
    · rw [book_withPools, hbook]
      exact h₁

variable (sink ts now) in
theorem processOrder_spec (market : Market Instrument Nat OrderIds)
    (h : Represents maxTicks s.orderPool s.book lv market.resting loose)
    (inv : sink.Inv s.reportPool) (ho : loose incoming = some o) (hi : o.instrument = i)
    (hp : o.price < maxTicks) (hq : 0 < o.quantity.toNat) :
    ∃ s' out lv',
      let time := ExecutionReport.timestampField ts now
      (processOrder s sink.emit incoming ts now = .ok (s', out)) ∧
      (out.emitted = (market.reports o.side i o.price o.quantity.toNat o.ids time).map sink.view) ∧
      (List.Forall₂ (Trade.Reports sink.view) out.trades (tradeReports o.ids i o.side time
        o.quantity.toNat (market.trades o.side i o.price o.quantity.toNat))) ∧
      (sink.Inv s'.reportPool) ∧
      Represents maxTicks s'.orderPool s'.book lv'
        (market.submit o.side i o.price o.quantity.toNat o.ids).resting
        (update loose incoming none) := by
  have hmatched : ∀ r ∈ market.matched o.side i o.price, 0 < r.quantity :=
    fun r hr => market.positive _ i r (mem_matching.mp hr).left
  have hfuel : o.quantity.toNat < o.quantity.toNat + s.orderPool.totalCapacity + 1 := by omega
  obtain ⟨s₁, trades, lv₁, hloop, hts, inv₁, k, hk, h₁⟩ := matchLoop_spec ts now h inv ho hi
    (market.sorted o.side.opposite i) (market.positive o.side.opposite i) hfuel
  have hk : k.toNat = market.remainder o.side i o.price o.quantity.toNat := hk
  have ho₁ : update loose incoming (some { o with quantity := k }) incoming =
    some { o with quantity := k } := update_self ..
  have hpass : processOrder s sink.emit incoming ts now =
      s₁.settle sink.emit ts now incoming i trades := by
    simp only [processOrder, MemPool.read_eq (h.heap_loose ho), Except.ok_bind, hi,
      instrumentIndex_eq, hloop]
  have hempty : trades = [] ↔ market.trades o.side i o.price o.quantity.toNat = [] := by
    rw [← List.length_eq_zero_iff, hts.length_eq, List.length_eq_zero_iff, tradeReports_eq_nil]
    rfl
  have htotal : market.trades o.side i o.price o.quantity.toNat = [] ↔
      k.toNat = o.quantity.toNat := by
    rw [Market.trades, fill_eq_nil_iff hmatched, hk, Market.remainder, ← total_eq_zero_iff hmatched]
    omega
  have hemit := Trade.emitted_eq hts
  have hown : setAt market.resting o.side.opposite i
      (market.opposing o.side i o.price o.quantity.toNat) o.side i = market.resting o.side i :=
    setAt_ne fun h => o.side.ne_opposite h.left
  rcases Nat.eq_zero_or_pos k.toNat with hz | hz
  case inl =>
    obtain ⟨pool', hsettle, h₂⟩ := settle_zero sink ts now i trades h₁ ho₁ (UInt16.toNat_inj.mp hz)
    have htrades := htotal.not.mpr (by omega)
    refine ⟨{ s₁ with orderPool := pool' }, ⟨trades, none⟩, lv₁, hpass.trans hsettle, ?_, hts, inv₁,
      ?_⟩
    · simp [Outcome.emitted, Market.reports, hemit, htrades]
      rfl
    · rw [submit_resting, Market.joined, if_neg (by omega), setAt_of_eq hown, book_withPools]
      rwa [update_idem] at h₂
  case inr =>
    obtain ⟨s₂, lv₂, hsettle, inv₂, h₂⟩ := settle_rest ts now trades h₁ inv₁ ho₁ hi hp
      (UInt16.lt_iff_toNat_lt.mpr hz) (hown ▸ market.sorted o.side i) market.now
    refine ⟨s₂, _, lv₂, hpass.trans hsettle, ?_, hts, inv₂, ?_⟩
    · simp only [Outcome.emitted, hemit, Market.reports, List.map_append]
      congr 1
      by_cases ht : trades = []
      · simp [ht, hempty.mp ht, htotal.mp (hempty.mp ht)]
        rfl
      · simp [ht, hempty.not.mp ht]
    · have hjoined : enqueue o.side.better (Order.offer { o with quantity := k } market.now)
          (setAt market.resting o.side.opposite i
            (market.opposing o.side i o.price o.quantity.toNat) o.side i) =
          market.joined o.side i o.price o.quantity.toNat o.ids := by
        rw [hown, Market.joined, if_pos (hk ▸ hz), ← hk]
        rfl
      rw [submit_resting, ← hjoined]
      rwa [update_idem] at h₂

end

end MatchingEngine
