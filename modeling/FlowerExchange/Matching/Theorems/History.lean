import FlowerExchange.Matching.History

open Function Resting

def entries (records : List Record) : List (Entry Nat) :=
  records.filterMap Record.entry?

@[simp]
theorem entries_append (r₁ r₂ : List Record) : entries (r₁ ++ r₂) = entries r₁ ++ entries r₂ :=
  List.filterMap_append

def PlacedBy (arrivals : List Arrival) (j : Nat) (a : Arrival) (p : Placement) : Prop :=
  (arrivals[j]? = some a) ∧ (a.message.placement = .ok p)

def placedQuantity (arrivals : List Arrival) (j : Nat) : Nat :=
  match arrivals[j]? with
  | none   => 0
  | some a =>
    match a.message.placement with
    | .ok p    => p.quantity
    | .error _ => 0

namespace PlacedBy

variable {arrivals : List Arrival} {a a' b : Arrival} {p p' : Placement} {j : Nat}

theorem lt (h : PlacedBy arrivals j a p) : j < arrivals.length :=
  (List.getElem?_eq_some_iff.mp h.left).choose

theorem unique (h : PlacedBy arrivals j a p) (h' : PlacedBy arrivals j a' p') : a = a' ∧ p = p' := by
  have ⟨ha, hp⟩ := h
  have ⟨ha', hp'⟩ := h'
  obtain rfl := Option.some.inj <| ha.symm.trans ha'
  exact ⟨rfl, Except.ok.inj <| hp.symm.trans hp'⟩

theorem snoc (h : PlacedBy arrivals j a p) : PlacedBy (arrivals ++ [b]) j a p :=
  ⟨by rw [List.getElem?_append_left h.lt, h.left], h.right⟩

theorem last (h : a.message.placement = .ok p) : PlacedBy (arrivals ++ [a]) arrivals.length a p :=
  ⟨List.getElem?_concat_length, h⟩

theorem snoc_inv (h : PlacedBy (arrivals ++ [b]) j a p) :
    PlacedBy arrivals j a p ∨ (j = arrivals.length ∧ a = b) := by
  rcases Nat.lt_trichotomy j arrivals.length with hj | hj | hj
  · exact .inl ⟨by rw [← h.left, List.getElem?_append_left hj], h.right⟩
  · subst hj
    have := h.left
    rw [List.getElem?_concat_length] at this
    exact .inr ⟨rfl, Option.some.inj this |>.symm⟩
  · have := h.lt
    rw [List.length_append, List.length_singleton] at this
    omega

theorem quantity (h : PlacedBy arrivals j a p) : placedQuantity arrivals j = p.quantity := by
  simp [placedQuantity, h.left, h.right]

end PlacedBy

theorem placedQuantity_of_ge {arrivals : List Arrival} (h : arrivals.length ≤ j) :
    placedQuantity arrivals j = 0 := by
  simp [placedQuantity, List.getElem?_eq_none h]

theorem placedQuantity_reject {arrivals : List Arrival} {a : Arrival}
    (h : a.message.placement = .error reason) :
    placedQuantity (arrivals ++ [a]) = placedQuantity arrivals := by
  ext1 j
  rcases Nat.lt_trichotomy j arrivals.length with hj | rfl | hj
  · simp [placedQuantity, List.getElem?_append_left hj]
  · simp [placedQuantity, h]
  · rw [placedQuantity_of_ge hj.le, placedQuantity_of_ge (by simp; omega)]

theorem placedQuantity_accept {arrivals : List Arrival} {a : Arrival} {p : Placement}
    (h : a.message.placement = .ok p) :
    placedQuantity (arrivals ++ [a]) =
      update (placedQuantity arrivals) arrivals.length p.quantity := by
  ext1 j
  rcases Nat.lt_trichotomy j arrivals.length with hj | rfl | hj
  · rw [update_of_ne hj.ne]
    simp [placedQuantity, List.getElem?_append_left hj]
  · simp [placedQuantity, h]
  · rw [update_of_ne hj.ne', placedQuantity_of_ge hj.le, placedQuantity_of_ge (by simp; omega)]

theorem entries_ownedReports (message : InboundOrderMsg)
    (h : ∀ t ∈ l, t.2 < 2 ^ 16) :
    entries ((ownedReports k ids i side timestamp q l).map fun (j, report) =>
      ⟨j, message.reportEmission report⟩) = fillEntries k q l := by
  induction l generalizing q
  case nil => rfl
  case cons t l hi =>
    have ht : t.2 % 65536 = t.2 := Nat.mod_eq_of_lt <| h t <| .head _
    have hi := hi (q := q - t.2) fun t ht => h t <| .tail _ ht
    have entry {j left} {ids : OrderIds} {side price} :
        Record.entry? ⟨j, message.reportEmission <|
          ids.report i side price t.2 (tradeStatus left) timestamp⟩ = some ⟨j, t.2, left = 0⟩ := by
      by_cases hl : left = 0 <;>
        simp [Record.entry?, Record.status, InboundOrderMsg.reportEmission, ExecutionReport.isTrade,
          OrderIds.report, tradeStatus, hl, ht]
    simp only [entries] at hi ⊢
    simp only [ownedReports, fillEntries, List.map_cons, List.filterMap_cons, entry, hi]

-- What rests in the exchange are the orders that were placed and that have something left, with what
-- they have left.
structure Backed (arrivals : List Arrival) (x : Exchange) (left : Nat → Nat) : Prop where
  now    : x.now = arrivals.length
  offers : ∀ side i, ∀ r ∈ x.resting side i, ∃ a p, PlacedBy arrivals r.stamp a p ∧
    (p.side = side) ∧ (p.instrument = i) ∧
      (r = ⟨p.tick, r.stamp, left r.stamp, a.message.ids r.stamp⟩)
  rests  : ∀ {j a p}, PlacedBy arrivals j a p → 0 < left j →
    ∃ r ∈ x.resting p.side p.instrument, r.stamp = j

namespace Backed

variable {arrivals : List Arrival} {x : Exchange} {left : Nat → Nat} {side side' : Side}
variable {i i' : Instrument} {r r' : Resting Nat OrderIds} {a : Arrival} {p : Placement}

theorem empty : Backed [] .empty (placedQuantity []) where
  now             := rfl
  offers _ _ _ hr := nomatch hr
  rests h         := nomatch h.left

theorem quantity (h : Backed arrivals x left) (hr : r ∈ x.resting side i) :
    left r.stamp = r.quantity := by
  have ⟨_, _, _, _, _, he⟩ := h.offers _ _ r hr
  exact congrArg Resting.quantity he |>.symm

theorem unique (h : Backed arrivals x left) (hr : r ∈ x.resting side i)
    (hr' : r' ∈ x.resting side' i') (hs : r.stamp = r'.stamp) : side = side' ∧ i = i' ∧ r = r' := by
  have ⟨a, p, hp, hside, hi, he⟩ := h.offers _ _ r hr
  have ⟨a', p', hp', hside', hi', he'⟩ := h.offers _ _ r' hr'
  obtain ⟨rfl, rfl⟩ := hp.unique (hs ▸ hp')
  refine ⟨hside.symm.trans hside', hi.symm.trans hi', ?_⟩
  rw [he, he', hs]

theorem nodup (h : Backed arrivals x left) (side : Side) (i : Instrument) :
    ((x.resting side i).map Resting.stamp).Nodup := by
  refine List.pairwise_map.mpr <| (x.sorted side i).imp_of_mem fun hr hr' hb hs => ?_
  obtain ⟨_, _, rfl⟩ := h.unique hr hr' hs
  exact hb.elim (irrefl _) fun hlt => Nat.lt_irrefl _ hlt.right

theorem skip (h : Backed arrivals x left) (hm : a.message.placement = .error reason) :
    Backed (arrivals ++ [a]) x.skip left where
  now := by simp [Market.skip, h.now]
  offers _ _ r hr := by
    obtain ⟨a, p, hp, hr⟩ := h.offers _ _ r hr
    exact ⟨a, p, hp.snoc, hr⟩
  rests hp hl := by
    rcases hp.snoc_inv with hp' | ⟨_, rfl⟩
    · exact h.rests hp' hl
    · cases hm.symm.trans hp.right

theorem place (h : Backed arrivals x left) (hm : a.message.placement = .ok p) : ∃ left',
    Entry.Replay (update left arrivals.length p.quantity)
      (fillEntries arrivals.length p.quantity (x.placeTrades p)) left' ∧
    Backed (arrivals ++ [a]) (x.place a.message p) left' := by
  let k := arrivals.length
  let matched := x.matched p.side p.instrument p.tick
  have old {side i} {r : Resting Nat OrderIds} (hr : r ∈ x.resting side i) : r.stamp ≠ k :=
    (h.now ▸ x.past side i r hr).ne
  have rests {r} (hr : r ∈ matched) : r ∈ x.resting p.side.opposite p.instrument :=
    (mem_matching.mp hr).left
  have stamp {side i r} (hr : r ∈ x.resting side i) (hs : r.stamp ∈ matched.map Resting.stamp) :
      side = p.side.opposite ∧ i = p.instrument ∧ r ∈ matched := by
    obtain ⟨r', hr', he⟩ := List.mem_map.mp hs
    obtain ⟨hside, hi, he⟩ := h.unique hr (rests hr') he.symm
    exact ⟨hside, hi, he ▸ hr'⟩
  have hd : (k :: matched.map Resting.stamp).Nodup := by
    refine List.nodup_cons.mpr ⟨fun hk => ?_, ?_⟩
    · obtain ⟨r, hr, he⟩ := List.mem_map.mp hk
      exact old (rests hr) he
    · exact h.nodup _ _ |>.sublist <| List.filter_sublist.map _
  obtain ⟨left', replay, hk, hres, hback, hframe⟩ := fillEntries_replay (b := update left k p.quantity)
    (k := k) (q := p.quantity) (l := matched) (update_self ..)
    (fun r hr => by rw [update_of_ne <| old <| rests hr, h.quantity <| rests hr])
    (fun r hr => x.positive _ _ r <| rests hr) hd
  have keep {side i} {r : Resting Nat OrderIds} (hr : r ∈ x.resting side i)
      (hs : r.stamp ∉ matched.map Resting.stamp) : left' r.stamp = left r.stamp := by
    rw [hframe _ (old hr) hs, update_of_ne (old hr)]
  have kept {side i} {r : Resting Nat OrderIds} (hr : r ∈ x.resting side i)
      (hs : r.stamp ∉ matched.map Resting.stamp) : ∃ b p', PlacedBy (arrivals ++ [a]) r.stamp b p' ∧
        (p'.side = side) ∧ (p'.instrument = i) ∧
        (r = ⟨p'.tick, r.stamp, left' r.stamp, b.message.ids r.stamp⟩) := by
    obtain ⟨b, p', hp, hside, hi, he⟩ := h.offers _ _ r hr
    exact ⟨b, p', hp.snoc, hside, hi, by rwa [keep hr hs]⟩
  refine ⟨left', replay, by simp [Exchange.place, Market.submit, h.now], ?_, fun {j b p'} hp hl => ?_⟩
  · refine Market.restingAfter_cases (p := fun side i l => ∀ r ∈ l, ∃ b p',
      PlacedBy (arrivals ++ [a]) r.stamp b p' ∧ (p'.side = side) ∧ (p'.instrument = i) ∧
        (r = ⟨p'.tick, r.stamp, left' r.stamp, b.message.ids r.stamp⟩)) (fun r hr => ?_)
      (fun r hr => ?_) fun side i hi r hr => kept hr fun hs => hi (stamp hr hs).right.left
    · rcases Market.mem_joined hr with ⟨rfl, _⟩ | hr
      · refine ⟨a, p, h.now ▸ .last hm, rfl, rfl, ?_⟩
        simp only [h.now, Market.remainder]
        rw [hk]
      · exact kept hr fun hs => p.side.ne_opposite (stamp hr hs).left
    · rcases List.mem_append.mp hr with hr | hr
      · obtain ⟨r', hr', hkey, _⟩ := mem_residual hr
        obtain ⟨b, p', hp, hside, hi, he⟩ := h.offers _ _ r' (rests hr')
        simp only [Resting.key, Prod.mk.injEq] at hkey
        obtain ⟨hprice, hstamp, hdata⟩ := hkey
        have hprice' : r'.price = p'.tick := congrArg Resting.price he
        have hdata' : r'.data = b.message.ids r'.stamp := congrArg Resting.data he
        refine ⟨b, p', hstamp ▸ hp.snoc, hside, hi, ?_⟩
        rw [hres r hr]
        ext1
        · exact hprice.trans hprice'
        · rfl
        · rfl
        · rw [hstamp]
          exact hdata.trans hdata'
      · obtain ⟨hr, hb⟩ := mem_rest.mp hr
        exact kept hr fun hs => (mem_matching.mp (stamp hr hs).right.right).right hb
  · rcases hp.snoc_inv with hp | ⟨rfl, rfl⟩
    case inr =>
      obtain rfl := Except.ok.inj <| hm.symm.trans hp.right
      refine ⟨⟨p.tick, x.now, x.remainder p.side p.instrument p.tick p.quantity,
        b.message.ids x.now⟩, ?_, h.now⟩
      have hrem : 0 < x.remainder p.side p.instrument p.tick p.quantity := by
        rwa [Market.remainder, ← hk]
      rw [Exchange.place_resting, Market.restingAfter_self, Market.joined, if_pos hrem]
      exact mem_enqueue.mpr <| .inl rfl
    case inl =>
      by_cases hj : j ∈ matched.map Resting.stamp
      case pos =>
        obtain ⟨r, hr, he⟩ := List.mem_map.mp hj
        obtain ⟨r', hr', he'⟩ := hback r hr (he ▸ hl)
        obtain ⟨_, _, hp', hside, hi, _⟩ := h.offers _ _ r (rests hr)
        obtain ⟨-, rfl⟩ := hp.unique (he ▸ hp')
        refine ⟨r', ?_, he'.trans he⟩
        rw [hside, hi, Exchange.place_resting, Market.restingAfter_opposite]
        exact List.mem_append_left _ hr'
      case neg =>
        rw [hframe j hp.lt.ne hj, update_of_ne hp.lt.ne] at hl
        obtain ⟨r, hr, he⟩ := h.rests hp hl
        exact ⟨r, Market.mem_restingAfter hr fun hm => absurd (List.mem_map_of_mem hm) (he ▸ hj), he⟩

end Backed

namespace Exchange

variable {arrivals : List Arrival} {x : Exchange} {left : Nat → Nat} {a : Arrival} {p : Placement}

theorem entries_reject (h : a.message.placement = .error reason) :
    entries (x.records unspecified a) = [] := by
  rw [records_reject h]
  rfl

theorem entries_accept (h : a.message.placement = .ok p) :
    entries (x.records unspecified a) = fillEntries x.now p.quantity (x.placeTrades p) := by
  have hlt : ∀ t ∈ x.placeTrades p, t.2 < 2 ^ 16 := fun t ht => by
    have := p.quantityLe
    have := mem_fill ht
    omega
  rw [records_accept h, placeOwned, List.map_append, entries_append, entries_ownedReports _ hlt]
  split <;> simp [entries, Record.entry?, InboundOrderMsg.reportEmission, ExecutionReport.isTrade,
    OrderIds.report]

theorem history_backed (unspecified : ℚ → Int64) (arrivals : List Arrival) :
    ∃ left, Entry.Replay (placedQuantity arrivals)
        (entries (history unspecified arrivals).2.flatten) left ∧
      Backed arrivals (history unspecified arrivals).1 left := by
  induction arrivals using List.reverseRecOn
  case nil => exact ⟨_, .nil, .empty⟩
  case append_singleton arrivals a hi =>
    have ⟨left, replay, h⟩ := hi
    rw [history_snoc]
    simp only [List.flatten_append, List.flatten_singleton, entries_append]
    cases hm : a.message.placement
    case error reason =>
      rw [entries_reject hm, List.append_nil, placedQuantity_reject hm, step_reject hm]
      exact ⟨left, replay, h.skip hm⟩
    case ok p =>
      have ⟨left', replay', h'⟩ := h.place hm
      rw [entries_accept hm, placedQuantity_accept hm, step_accept hm, h.now]
      have opened := replay.opened (placedQuantity_of_ge le_rfl) p.quantity
      exact ⟨left', opened.append replay', h'⟩

end Exchange
