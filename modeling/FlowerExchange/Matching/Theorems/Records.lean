import FlowerExchange.Common.Theorems.TextBuffer
import FlowerExchange.Matching.Theorems.History
import FlowerExchange.Matching.Theorems.OrderProcessor

open Resting RuntimeConfig

-- What is sent out says what the report says. The price of a reject is that of the message instead.
structure Emission.Told (e : Emission) : Prop where
  execStatus : e.output.execStatus.text = execStatusToString e.report.status
  quantity   : e.output.quantity = e.report.quantity.toNat
  priceText  : e.report.status ≠ .rejected → e.output.priceText.text = tickText e.report.price
  reason     : e.output.reason.text = e.report.reason.text
  timestamp  : e.output.timestamp = e.report.timestamp

structure Record.About (r : Record) (a : Arrival) : Prop where
  oid        : r.emission.output.oid = (a.message.ids r.owner).oid
  coid       : r.emission.output.coid = a.message.coid
  side       : r.emission.output.side = a.message.side
  ids        : r.emission.report.oid = r.emission.output.oid ∧
    r.emission.report.coid = r.emission.output.coid
  instrument : ∀ p, a.message.placement = .ok p →
    r.emission.report.instrument = p.instrument ∧ r.emission.report.side = p.side ∧
      r.emission.output.instrument.text = instrumentToString p.instrument
  rejected   : r.status = .rejected ↔ a.message.validate ≠ none
  told       : r.emission.Told

theorem Record.status_of_isTrade {r : Record} (h : r.emission.report.isTrade) :
    r.status = if r.status = .fill then .fill else .pfill := by
  simp only [ExecutionReport.isTrade, Bool.or_eq_true, decide_eq_true_eq] at h
  simp only [Record.status]
  rcases h with h | h <;> simp [h]

theorem instrumentToString_copy (i : InstrumentType) :
    (CStr.copy (instrumentToString i) : CStr 32).text = instrumentToString i := by
  cases i <;> decide

theorem execStatusToString_copy (status : ExecStatus) :
    (CStr.copy (execStatusToString status) : CStr 16).text = execStatusToString status := by
  cases status <;> decide

theorem fillOutboundFields_told {report : ExecutionReport} {priceText : Bytes}
    (h : report.status ≠ .rejected → (CStr.copy priceText : CStr 24).text = tickText report.price)
    (instrumentText : Bytes) (side : Int) (seq : UInt64) :
    Emission.Told ⟨report, fillOutboundFields report instrumentText side priceText seq⟩ where
  execStatus := execStatusToString_copy report.status
  quantity   := rfl
  priceText  := h
  reason     := CStr.copy_of_fits (report.reason.fits.trans <| by decide) report.reason.noNul
  timestamp  := report.timestamp.copy_text

namespace Record.About

variable {message : InboundOrderMsg} {a : Arrival} {p : Placement} {j : Nat}

theorem report {status : ExecStatus} {price : PriceTick} (hp : a.message.placement = .ok p)
    (hs : status ≠ .rejected) (ht : price < orderBookTickCapacity) (quantity : Nat)
    (timestamp : CStr 20) :
    Record.About ⟨j, message.reportEmission <|
      (a.message.ids j).report p.instrument p.side price quantity status timestamp⟩ a where
  oid := by
    simp [InboundOrderMsg.reportEmission, fillOutboundFields, copyText, CStr.copy_text,
      OrderIds.report]
  coid := by
    simp [InboundOrderMsg.reportEmission, fillOutboundFields, copyText, CStr.copy_text,
      OrderIds.report, InboundOrderMsg.ids]
  side := (InboundOrderMsg.placement_eq_ok hp).right.left
  ids := by
    simp [InboundOrderMsg.reportEmission, fillOutboundFields, copyText, CStr.copy_text]
  instrument p' hp' := by
    obtain rfl := Except.ok.inj <| hp.symm.trans hp'
    exact ⟨rfl, rfl, instrumentToString_copy _⟩
  rejected := by
    have hv := InboundOrderMsg.validate_of_placement hp
    simpa [hv, Record.status, InboundOrderMsg.reportEmission, OrderIds.report] using hs
  told := fillOutboundFields_told (fun _ => copy_formatTicksToBuffer ht |>.right) ..

theorem rejection (hm : a.message.placement = .error reason) :
    Record.About ⟨j, a.message.rejectEmission unspecified <| a.message.rejection j reason a.time⟩ a where
  oid := by
    simp [InboundOrderMsg.rejectEmission, fillOutboundFields, copyText, CStr.copy_text,
      InboundOrderMsg.rejection]
  coid := by
    simp [InboundOrderMsg.rejectEmission, fillOutboundFields, copyText, CStr.copy_text,
      InboundOrderMsg.rejection]
  side := rfl
  ids := by
    simp [InboundOrderMsg.rejectEmission, fillOutboundFields, copyText, CStr.copy_text]
  instrument p hp := absurd (hm.symm.trans hp) nofun
  rejected := by
    have hv := InboundOrderMsg.placement_eq_error_iff.mp hm
    simp [hv, Record.status, InboundOrderMsg.rejectEmission, InboundOrderMsg.rejection]
  told := fillOutboundFields_told (fun h => absurd rfl h) ..

end Record.About

theorem mem_ownedReports (h : (j, report) ∈ ownedReports k ids i side timestamp q l) :
    ∃ r n left, (r, n) ∈ l ∧
      ((j = k ∧ report = ids.report i side r.price n (tradeStatus left) timestamp) ∨
      (j = r.stamp ∧
        report = r.data.report i side.opposite r.price n (tradeStatus left) timestamp)) := by
  induction l generalizing q
  case nil => contradiction
  case cons t l hi =>
    obtain ⟨r, n⟩ := t
    simp only [ownedReports, List.mem_cons, Prod.mk.injEq] at h
    rcases h with ⟨rfl, rfl⟩ | ⟨rfl, rfl⟩ | h
    · exact ⟨r, n, _, .head _, .inl ⟨rfl, rfl⟩⟩
    · exact ⟨r, n, _, .head _, .inr ⟨rfl, rfl⟩⟩
    · obtain ⟨r, n, left, hm, h⟩ := hi h
      exact ⟨r, n, left, .tail _ hm, h⟩

inductive TradePairs (k : Nat) : List Record → Prop
  | nil  : TradePairs k []
  | pair :
    (r.owner = k) → (r'.owner < k) →
    (r.emission.report.isTrade) → (r'.emission.report.isTrade) →
    (r'.emission.report.side = r.emission.report.side.opposite) →
    (r'.emission.report.instrument = r.emission.report.instrument) →
    (r'.emission.report.price = r.emission.report.price) →
    (r'.emission.report.quantity = r.emission.report.quantity) →
    (0 < r.emission.report.quantity.toNat) → (TradePairs k l) → TradePairs k (r :: r' :: l)

theorem tradeStatus_isTrade (ids : OrderIds) (i : Instrument) (side : Side) (price quantity : Nat)
    (timestamp : CStr 20) :
    (ids.report i side price quantity (tradeStatus left) timestamp).isTrade := by
  simp only [tradeStatus, ExecutionReport.isTrade, OrderIds.report]
  split <;> rfl

theorem ownedReports_pairs (message : InboundOrderMsg)
    (h : ∀ t ∈ l, t.1.stamp < k ∧ 0 < t.2 ∧ t.2 < 2 ^ 16) :
    TradePairs k ((ownedReports k ids i side timestamp q l).map fun (j, report) =>
      ⟨j, message.reportEmission report⟩) := by
  induction l generalizing q
  case nil => exact .nil
  case cons t l hi =>
    have ⟨hs, hpos, hlt⟩ := h t <| .head _
    refine .pair rfl hs (tradeStatus_isTrade ..) (tradeStatus_isTrade ..) rfl rfl rfl rfl ?_ <|
      hi fun t ht => h t <| .tail _ ht
    simp only [InboundOrderMsg.reportEmission, OrderIds.report, UInt16.toNat_ofNat']
    omega

theorem tradeStatus_ne : tradeStatus left ≠ .rejected ∧ tradeStatus left ≠ .new := by
  rw [tradeStatus]
  split <;> simp

structure ExecutionReport.Booked (report : ExecutionReport) : Prop where
  instrument : report.instrument ≠ .count
  price      : report.price < orderBookTickCapacity

namespace Exchange

variable {arrivals : List Arrival} {x : Exchange} {left : Nat → Nat} {a : Arrival} {p : Placement}
variable {r : Record}

theorem records_filled (hr : r ∈ x.records unspecified a) : ∃ instrumentText side priceText seq,
    r.emission.output = fillOutboundFields r.emission.report instrumentText side priceText seq ∧
    (r.emission.report.status ≠ .rejected →
      (instrumentText = instrumentToString r.emission.report.instrument) ∧
      (side = r.emission.report.side.toInt) ∧
      priceText = formatTicksToBuffer r.emission.report.price 24) := by
  cases hm : a.message.placement
  case error reason =>
    rw [records_reject hm, List.mem_singleton] at hr
    subst hr
    exact ⟨_, _, _, _, rfl, fun h => absurd rfl h⟩
  case ok p =>
    rw [records_accept hm] at hr
    obtain ⟨_, _, rfl⟩ := List.mem_map.mp hr
    exact ⟨_, _, _, _, rfl, fun _ => ⟨rfl, rfl, rfl⟩⟩

theorem records_booked (h : Backed arrivals x left) (hr : r ∈ x.records unspecified a)
    (hs : r.emission.report.status ≠ .rejected) : r.emission.report.Booked := by
  cases hm : a.message.placement
  case error reason =>
    rw [records_reject hm, List.mem_singleton] at hr
    subst hr
    contradiction
  case ok p =>
    rw [records_accept hm] at hr
    obtain ⟨⟨j, report⟩, hj, rfl⟩ := List.mem_map.mp hr
    rcases List.mem_append.mp hj with hj | hj
    · -- A trade takes place at the tick of the order that rests.
      obtain ⟨r, n, _, hmem, hcase⟩ := mem_ownedReports hj
      obtain ⟨hrests, _⟩ := mem_matching.mp (mem_fill hmem).left
      obtain ⟨b, p', _, _, _, he⟩ := h.offers _ _ r hrests
      have hprice : r.price < orderBookTickCapacity := by
        rw [he]
        exact p'.tick_lt
      rcases hcase with ⟨_, rfl⟩ | ⟨_, rfl⟩
      · exact ⟨p.instrument.property, hprice⟩
      · exact ⟨p.instrument.property, hprice⟩
    · split at hj
      case isTrue =>
        rw [List.mem_singleton, Prod.mk.injEq] at hj
        obtain ⟨_, rfl⟩ := hj
        exact ⟨p.instrument.property, p.tick_lt⟩
      case isFalse => contradiction

theorem records_about (h : Backed arrivals x left) (hr : r ∈ x.records unspecified a) :
    ∃ b, ((arrivals ++ [a])[r.owner]? = some b) ∧ r.About b := by
  have last : (arrivals ++ [a])[x.now]? = some a := h.now ▸ List.getElem?_concat_length
  have booked := records_booked h hr
  cases hm : a.message.placement
  case error reason =>
    rw [records_reject hm, List.mem_singleton] at hr
    exact ⟨a, hr ▸ last, hr ▸ .rejection hm⟩
  case ok p =>
    rw [records_accept hm] at hr
    obtain ⟨⟨j, report⟩, hj, rfl⟩ := List.mem_map.mp hr
    rcases List.mem_append.mp hj with hj | hj
    · have ⟨r, n, left, hmem, hcase⟩ := mem_ownedReports hj
      rcases hcase with ⟨rfl, rfl⟩ | ⟨rfl, rfl⟩
      · exact ⟨a, last, .report hm tradeStatus_ne.left (booked tradeStatus_ne.left).price ..⟩
      · have ⟨b, p', hp, hside, hi, he⟩ :=
          h.offers _ _ r <| (mem_matching.mp (mem_fill hmem).left).left
        have hd : r.data = b.message.ids r.stamp := congrArg Resting.data he
        refine ⟨b, hp.snoc.left, ?_⟩
        rw [hd, ← hside, ← hi]
        exact .report hp.right tradeStatus_ne.left (booked tradeStatus_ne.left).price ..
    · split at hj
      case isTrue =>
        rw [List.mem_singleton, Prod.mk.injEq] at hj
        obtain ⟨rfl, rfl⟩ := hj
        have hs : ExecStatus.new ≠ .rejected := nofun
        exact ⟨a, last, .report hm hs (booked hs).price ..⟩
      case isFalse => contradiction

theorem records_status (hm : a.message.placement = .ok p) (hr : r ∈ x.records unspecified a) :
    r.status ≠ .rejected := by
  rw [records_accept hm] at hr
  obtain ⟨⟨j, report⟩, hj, rfl⟩ := List.mem_map.mp hr
  rcases List.mem_append.mp hj with hj | hj
  · have ⟨_, _, left, _, hcase⟩ := mem_ownedReports hj
    rcases hcase with ⟨_, rfl⟩ | ⟨_, rfl⟩ <;> exact tradeStatus_ne.left
  · split at hj
    case isTrue =>
      rw [List.mem_singleton, Prod.mk.injEq] at hj
      obtain ⟨_, rfl⟩ := hj
      exact fun h => nomatch h
    case isFalse => contradiction

theorem records_pairs (unspecified : ℚ → Int64) (x : Exchange) (a : Arrival) :
    (TradePairs x.now (x.records unspecified a) ∧ x.records unspecified a ≠ []) ∨
      ∃ r, x.records unspecified a = [r] ∧ r.owner = x.now ∧ r.emission.report.isTrade = false := by
  cases hm : a.message.placement
  case error reason => exact .inr ⟨_, records_reject hm, rfl, rfl⟩
  case ok p =>
    rw [records_accept hm, placeOwned]
    by_cases ht : x.placeTrades p = []
    case pos =>
      rw [if_pos ht, ht]
      exact .inr ⟨_, rfl, rfl, rfl⟩
    case neg =>
      refine .inl ⟨?_, ?_⟩
      · rw [if_neg ht, List.append_nil]
        refine ownedReports_pairs a.message fun t hmem => ?_
        obtain ⟨hmatched, _, hq⟩ := mem_fill hmem
        have hr := (mem_matching.mp hmatched).left
        have hpos := fill_pos (fun r hr => x.positive _ _ r (mem_matching.mp hr).left) hmem
        have := p.quantityLe
        exact ⟨x.past _ _ _ hr, hpos, by omega⟩
      · obtain ⟨t, l, hl⟩ := List.exists_cons_of_ne_nil ht
        simp [hl, ownedReports]

end Exchange
