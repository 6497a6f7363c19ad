import FlowerExchange.Matching.Theorems.Conservation

open Resting

structure Placement.Crosses (p r : Placement) : Prop where
  side       : r.side = p.side.opposite
  instrument : r.instrument = p.instrument
  price      : ¬r.side.better p.tick r.tick

def StillOpen (arrivals : List Arrival) (records : List Record) (j : Nat) (p : Placement) : Prop :=
  ∃ a, PlacedBy arrivals j a p ∧ executed j records < p.quantity

structure FirstInLine (arrivals : List Arrival) (records : List Record) (j : Nat) (r : Placement) : Prop where
  stillOpen : StillOpen arrivals records j r
  first     : ∀ {j' r'}, StillOpen arrivals records j' r' → r'.side = r.side → r'.instrument = r.instrument →
    j' ≠ j → r.side.better r.tick r'.tick ∨ (r.tick = r'.tick ∧ j < j')

structure Record.Trades (r : Record) (price quantity : Nat) : Prop where
  isTrade  : r.emission.report.isTrade
  price    : r.emission.report.price = price
  quantity : r.emission.report.quantity.toNat = quantity

-- Each trade that the records of message `k` tell about is due when it is made, and none is missing at the end.
structure TradesDue (arrivals : List Arrival) (records : List (List Record)) (k : Nat) (p : Placement) :
    Prop where
  due     : ∀ done incoming resting later, records[k]? = some (done ++ incoming :: resting :: later) →
    incoming.owner = k →
    let earlier := (records.take k).flatten ++ done
    ∃ r quantity, p.Crosses r ∧ FirstInLine (arrivals.take k) earlier resting.owner r ∧
      (quantity = min (p.quantity - executed k earlier) (r.quantity - executed resting.owner earlier)) ∧
      incoming.Trades r.tick quantity ∧ resting.Trades r.tick quantity
  settled : ∀ j r, executed k (records.take (k + 1)).flatten < p.quantity →
    StillOpen (arrivals.take (k + 1)) (records.take (k + 1)).flatten j r → ¬p.Crosses r

theorem executed_append {r₁ r₂ : List Record} : executed j (r₁ ++ r₂) = executed j r₁ + executed j r₂ := by
  simp [executed_eq, Entry.drawn_append]

theorem StillOpen.of_append {records later : List Record} (h : StillOpen arrivals (records ++ later) j p) :
    StillOpen arrivals records j p :=
  have ⟨a, hp, hlt⟩ := h
  ⟨a, hp, Nat.lt_of_le_of_lt (executed_append ▸ Nat.le_add_right ..) hlt⟩

theorem ownedReports_split {report report' : ExecutionReport} (hl : ∀ t ∈ l, t.1.stamp ≠ k)
    (h : ownedReports k ids i side timestamp q l = done ++ (k, report) :: (j, report') :: later) :
    ∃ l₁ r n l₂, (l = l₁ ++ (r, n) :: l₂) ∧ (done = ownedReports k ids i side timestamp q l₁) ∧
      (j = r.stamp) ∧
      (∃ left, report = ids.report i side r.price n (tradeStatus left) timestamp) ∧
      ∃ left, report' = r.data.report i side.opposite r.price n (tradeStatus left) timestamp := by
  induction l generalizing q done
  case nil => simp [ownedReports] at h
  case cons t l hi =>
    obtain ⟨ht, hl⟩ := List.forall_mem_cons.mp hl
    simp only [ownedReports] at h
    rcases done with _ | ⟨x, _ | ⟨y, done⟩⟩
    · simp only [List.nil_append, List.cons.injEq, Prod.mk.injEq] at h
      obtain ⟨⟨_, rfl⟩, ⟨rfl, rfl⟩, _⟩ := h
      exact ⟨[], t.1, t.2, l, rfl, rfl, rfl, ⟨_, rfl⟩, _, rfl⟩
    · simp only [List.cons_append, List.nil_append, List.cons.injEq, Prod.mk.injEq] at h
      exact absurd h.right.left.left ht
    · simp only [List.cons_append, List.cons.injEq] at h
      obtain ⟨rfl, rfl, h⟩ := h
      obtain ⟨l₁, r, n, l₂, rfl, rfl, hj, hreport, hreport'⟩ := hi hl h
      exact ⟨t :: l₁, r, n, l₂, rfl, rfl, hj, hreport, hreport'⟩

theorem filter_stamp_eq_nil {l₁ : List (Resting Nat δ × Nat)} {r : Resting Nat δ}
    (h : ((l₁.map Prod.fst ++ r :: l).map stamp).Nodup) : l₁.filter (·.1.stamp = r.stamp) = [] := by
  rw [List.map_append, List.map_cons] at h
  have hdisjoint := List.nodup_append.mp h |>.right.right
  refine List.filter_eq_nil_iff.mpr fun t ht he => ?_
  exact hdisjoint _ (List.mem_map_of_mem <| List.mem_map_of_mem ht) _ (.head _) <| of_decide_eq_true he

namespace Exchange

variable {unspecified : ℚ → Int64} {arrivals : List Arrival} {a : Arrival} {p : Placement} {k : Nat}

theorem mem_resting (unspecified : ℚ → Int64) (arrivals : List Arrival) {r : Resting Nat OrderIds}
    (h : r ∈ (history unspecified arrivals).1.resting side i) : ∃ p,
      StillOpen arrivals (history unspecified arrivals).2.flatten r.stamp p ∧ p.side = side ∧ p.instrument = i ∧
        p.tick = r.price ∧
        p.quantity = executed r.stamp (history unspecified arrivals).2.flatten + r.quantity := by
  have ⟨left, replay, backed⟩ := history_backed unspecified arrivals
  have ⟨a, p, hp, hside, hi, he⟩ := backed.offers side i r h
  have hadd := executed_add replay hp
  have hpos := (history unspecified arrivals).1.positive side i r h
  rw [backed.quantity h] at hadd
  exact ⟨p, ⟨a, hp, by omega⟩, hside, hi, (congrArg Resting.price he).symm, hadd.symm⟩

theorem rests_of_stillOpen (h : StillOpen arrivals (history unspecified arrivals).2.flatten j p) :
    ∃ r ∈ (history unspecified arrivals).1.resting p.side p.instrument, (r.stamp = j) ∧ (p.tick = r.price) ∧
      (p.quantity = executed j (history unspecified arrivals).2.flatten + r.quantity) := by
  have ⟨_, replay, backed⟩ := history_backed unspecified arrivals
  obtain ⟨a, hp, hlt⟩ := h
  have hadd := executed_add replay hp
  obtain ⟨r, hr, rfl⟩ := backed.rests hp (by omega)
  obtain ⟨p', ⟨_, hp', _⟩, _, _, hprice, hq⟩ := mem_resting unspecified arrivals hr
  obtain ⟨_, rfl⟩ := hp.unique hp'
  exact ⟨r, hr, rfl, hprice, hq⟩

theorem history_settled (unspecified : ℚ → Int64) (hp : PlacedBy arrivals k a p) {j : Nat} {r : Placement}
    (hk : executed k ((history unspecified arrivals).2.take (k + 1)).flatten < p.quantity)
    (hr : StillOpen (arrivals.take (k + 1)) ((history unspecified arrivals).2.take (k + 1)).flatten j r) :
    ¬p.Crosses r := by
  rw [← history_take] at hk hr
  have hp' : PlacedBy (arrivals.take (k + 1)) k a p :=
    ⟨by rw [List.getElem?_take_of_lt (Nat.lt_succ_self k), hp.left], hp.right⟩
  obtain ⟨y, hy, _, hyprice, _⟩ := rests_of_stillOpen ⟨a, hp', hk⟩
  obtain ⟨z, hz, _, hzprice, _⟩ := rests_of_stillOpen hr
  have uncrossed := (history unspecified (arrivals.take (k + 1))).1.uncrossed p.instrument
  rintro ⟨hside, hi, hprice⟩
  rw [hside, hyprice, hzprice] at hprice
  rw [hi, hside] at hz
  cases hs : p.side <;> rw [hs] at hy hz hprice
  case buy  => exact hprice <| uncrossed y hy z hz
  case sell => exact hprice <| uncrossed z hz y hy

variable {x : Exchange}

theorem records_split (hm : a.message.placement = .ok p)
    (h : x.records unspecified a = done ++ incoming :: resting :: later) (hk : incoming.owner = x.now) :
    ∃ l₁ r n l₂, (x.placeTrades p = l₁ ++ (r, n) :: l₂) ∧ (entries done = fillEntries x.now p.quantity l₁) ∧
      (resting.owner = r.stamp) ∧ incoming.Trades r.price n ∧ resting.Trades r.price n := by
  have trades {t : Resting Nat OrderIds × Nat} (ht : t ∈ x.placeTrades p) :
      t.1.stamp ≠ x.now ∧ t.2 < 2 ^ 16 := by
    obtain ⟨hmatched, _, hq⟩ := mem_fill ht
    have := p.quantityLe
    exact ⟨(x.past _ _ _ (mem_matching.mp hmatched).left).ne, by omega⟩
  rw [records_accept hm, placeOwned] at h
  by_cases ht : x.placeTrades p = []
  case pos =>
    have := congrArg List.length h
    simp [ht, ownedReports] at this
    omega
  case neg =>
    rw [if_neg ht, List.append_nil] at h
    obtain ⟨first, others, hsplit, rfl, h₁⟩ := List.map_eq_append_iff.mp h
    obtain ⟨⟨k, report⟩, others, rfl, rfl, h₂⟩ := List.map_eq_cons_iff.mp h₁
    obtain ⟨⟨j, report'⟩, others, rfl, rfl, _⟩ := List.map_eq_cons_iff.mp h₂
    obtain rfl : k = x.now := hk
    obtain ⟨l₁, r, n, l₂, hl, rfl, hj, ⟨_, rfl⟩, _, rfl⟩ :=
      ownedReports_split (fun t ht => (trades ht).left) hsplit
    have hm : (r, n) ∈ x.placeTrades p := hl ▸ by simp
    have hn : (UInt16.ofNat n).toNat = n := Nat.mod_eq_of_lt (trades hm).right
    refine ⟨l₁, r, n, l₂, hl, entries_ownedReports a.message fun t ht => (trades (hl ▸ by simp [ht])).right, hj,
      ⟨tradeStatus_isTrade .., rfl, hn⟩, ⟨tradeStatus_isTrade .., rfl, hn⟩⟩

theorem history_due (unspecified : ℚ → Int64) (hp : PlacedBy arrivals k a p) {done later : List Record}
    {incoming resting : Record}
    (h : (history unspecified arrivals).2[k]? = some (done ++ incoming :: resting :: later))
    (hk : incoming.owner = k) :
    let earlier := ((history unspecified arrivals).2.take k).flatten ++ done
    ∃ r quantity, p.Crosses r ∧ FirstInLine (arrivals.take k) earlier resting.owner r ∧
      (quantity = min (p.quantity - executed k earlier) (r.quantity - executed resting.owner earlier)) ∧
      incoming.Trades r.tick quantity ∧ resting.Trades r.tick quantity := by
  intro earlier
  let x := (history unspecified (arrivals.take k)).1
  have hnow : x.now = k := by rw [history_now, List.length_take, Nat.min_eq_left hp.lt.le]
  have ⟨_, replay, backed⟩ := history_backed unspecified (arrivals.take k)
  rw [history_getElem? unspecified hp.left] at h
  obtain ⟨l₁, r, n, l₂, hl, hdone, howner, hincoming, hresting⟩ :=
    records_split (x := x) hp.right (Option.some.inj h) (hk.trans hnow.symm)
  obtain ⟨behind, hmatched, hfull, hn⟩ := fill_split hl
  rw [hnow] at hdone
  let queue := x.resting p.side.opposite p.instrument
  have hqueue : queue = l₁.map Prod.fst ++ r :: (behind ++ x.unmatched p.side p.instrument p.tick) := by
    rw [← List.cons_append, ← List.append_assoc, ← hmatched]
    exact (x.sorted _ _).matching_append_rest p.tick |>.symm
  have hr : r ∈ queue := hqueue ▸ by simp
  have old : ∀ t ∈ l₁, t.1 ∈ queue := fun t ht => hqueue ▸ List.mem_append_left _ (List.mem_map_of_mem ht)
  have fresh : ∀ y ∈ queue, y.stamp ≠ k := fun y hy => (hnow ▸ x.past _ _ y hy).ne
  -- What the trades of this message have taken before: from its own order, from the one that is next, and
  -- from those in front of it.
  have own : executed k earlier = (l₁.map Prod.snd).sum := by
    have hz := replay.balance k
    rw [placedQuantity_of_ge (by simp), ← executed_eq, history_take] at hz
    rw [executed_append, executed_eq k done, hdone, drawn_fillEntries_self fun t ht => fresh _ (old t ht)]
    omega
  have taken {y} (hy : y ∈ queue) : executed y.stamp earlier =
      executed y.stamp ((history unspecified arrivals).2.take k).flatten +
        ((l₁.filter (·.1.stamp = y.stamp)).map Prod.snd).sum := by
    rw [executed_append, executed_eq y.stamp done, hdone, drawn_fillEntries (fresh y hy)]
  have untouched : l₁.filter (·.1.stamp = r.stamp) = [] := by
    have hnodup := backed.nodup p.side.opposite p.instrument
    rw [show x.resting _ _ = _ from hqueue] at hnodup
    exact filter_stamp_eq_nil hnodup
  obtain ⟨p', ⟨b, hp', hopen⟩, hside, hi, hprice, hq⟩ := mem_resting unspecified (arrivals.take k) hr
  rw [history_take] at hopen hq
  have hr' : executed r.stamp earlier = executed r.stamp ((history unspecified arrivals).2.take k).flatten := by
    rw [taken hr, untouched]
    rfl
  rw [howner]
  refine ⟨p', n, ⟨hside, hi, ?_⟩, ⟨⟨b, hp', hr' ▸ hopen⟩, fun {j} p'' hj hs hi' hne => ?_⟩, ?_,
    hprice ▸ hincoming, hprice ▸ hresting⟩
  · have hm : r ∈ x.matched p.side p.instrument p.tick := hmatched ▸ by simp
    rw [hside, hprice]
    exact (mem_matching.mp hm).right
  · have hopen' := hj.of_append
    rw [← history_take] at hopen'
    obtain ⟨y, hy, rfl, hyprice, hyq⟩ := rests_of_stillOpen hopen'
    rw [history_take] at hyq
    rw [hs, hi', hside, hi] at hy
    have hy' : y ∈ queue := hy
    have hsorted := x.sorted p.side.opposite p.instrument
    rw [show x.resting _ _ = _ from hqueue] at hsorted
    rcases List.mem_append.mp (hqueue ▸ hy') with hm | hm
    case inl =>
      -- What is in front of the order has been used up.
      obtain ⟨t, ht, rfl⟩ := List.mem_map.mp hm
      have hmem : t.2 ∈ (l₁.filter (·.1.stamp = t.1.stamp)).map Prod.snd :=
        List.mem_map_of_mem <| List.mem_filter.mpr ⟨ht, by simp⟩
      have hle := List.le_sum_of_mem hmem
      obtain ⟨_, _, hlt⟩ := hj
      rw [taken hy'] at hlt
      have := hfull t ht
      omega
    case inr =>
      cases hm
      case head    => exact absurd rfl hne
      case tail hm =>
        have hbefore := List.rel_of_pairwise_cons (List.pairwise_append.mp hsorted).right.left hm
        rwa [Before, ← hside, ← hprice, ← hyprice] at hbefore
  · rw [own, hr', hn]
    omega

end Exchange

theorem Exchange.history_paired (unspecified : ℚ → Int64) {arrivals : List Arrival} {chunk : List Record}
    (h : (history unspecified arrivals).2[k]? = some chunk)
    (ht : ∃ r ∈ chunk, r.emission.report.isTrade) : TradePairs k chunk ∧ ∃ a p, PlacedBy arrivals k a p := by
  obtain ⟨r, hr, htrade⟩ := ht
  have conserved := history_conserved unspecified arrivals
  rcases conserved.pairs k chunk h with hpairs | ⟨r', rfl, htrade'⟩
  case inr =>
    obtain rfl := List.mem_singleton.mp hr
    simp [htrade] at htrade'
  case inl =>
    refine ⟨hpairs, ?_⟩
    cases hpairs
    case nil => contradiction
    case pair l r r' hk _ htrade₁ _ _ _ _ _ _ _ =>
      have hmem : r ∈ (history unspecified arrivals).2.flatten :=
        List.mem_flatten_of_mem (List.mem_of_getElem? h) (.head _)
      obtain ⟨earlier, later, hsplit⟩ := List.append_of_mem hmem
      obtain ⟨a, p, hp, _⟩ := conserved.status earlier r later hsplit htrade₁
      exact ⟨a, p, hk ▸ hp⟩

-- From the input and what is sent out alone, each trade can be seen to be the one that is due by price and
-- time, and trading can be seen to end only when an order is filled or no open order crosses it. The reports
-- about trades come in pairs, and only in answer to orders that are placed.
theorem OrderProcessor.priority_kept (unspecified : ℚ → Int64) (before : List Event) (arrivals : List Arrival) :
    ∃ s₀ s, ∃ records : List (List Record), Reached unspecified (before ++ [.reset]) s₀ ∧
      (Machine.run (step unspecified) (arrivals.map .consume) s₀ =
        .ok (s, records.map (·.map Record.emission))) ∧
      (∀ r ∈ records.flatten, ∃ a, arrivals[r.owner]? = some a ∧ r.About a) ∧
      (∀ k, ∀ chunk : List Record, records[k]? = some chunk → (∃ r ∈ chunk, r.emission.report.isTrade) →
        TradePairs k chunk ∧ ∃ a p, PlacedBy arrivals k a p) ∧
      ∀ k a p, PlacedBy arrivals k a p → TradesDue arrivals records k p := by
  obtain ⟨s₀, hs₀, hrun⟩ := run_history unspecified before
  obtain ⟨s, _, _, hrun, _⟩ := hrun arrivals
  refine ⟨s₀, s, _, hs₀, hrun, Exchange.history_conserved unspecified arrivals |>.about,
    fun k chunk hc ht => Exchange.history_paired unspecified hc ht, fun k a p hp => ?_⟩
  exact {
    due     := fun _ _ _ _ h hk => Exchange.history_due unspecified hp h hk
    settled := fun _ _ hk hr => Exchange.history_settled unspecified hp hk hr
  }
