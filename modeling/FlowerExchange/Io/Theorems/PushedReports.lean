import FlowerExchange.Io.Theorems.CsvOrderProducer
import FlowerExchange.Io.Theorems.ReportFormat
import FlowerExchange.Matching.Theorems.LifeCycle

open Decimal Resting

theorem CStr.mem_copy {n : Nat} {source : Bytes} (h : c ∈ (CStr.copy source : CStr (n + 1)).text) :
    c ∈ source := by
  simp only [CStr.copy, copyLoop_eq] at h
  exact List.takeWhile_sublist _ |>.mem <| List.mem_of_mem_take h

theorem Separable.copy {n : Nat} {source : Bytes} (h : Separable source) :
    Separable (CStr.copy source : CStr (n + 1)).text :=
  ⟨fun hm => h.left <| CStr.mem_copy hm, fun hm => h.right <| CStr.mem_copy hm⟩

theorem natAbs_of_stringViewToInt {sv : Bytes} {v : Int} (h : stringViewToInt sv = .ok v) :
    v.natAbs < 2 ^ 31 := by
  have ⟨n, hd⟩ := denotes_of_stringViewToInt h
  rw [stringViewToInt_of_denotes hd] at h
  cases h
  simp only [clamp, intLimit]
  omega

theorem CsvOrderProducer.message_texts {row : CSVRow} {sequence : UInt64} {m : InboundOrderMsg}
    (h : message row sequence = .ok m) : ∃ coid instrument side,
    (row.field 0 = .ok coid) ∧ (m.coid = .copy coid) ∧
    (row.field 1 = .ok instrument) ∧ (m.instrument = .copy instrument) ∧
    (row.field 2 = .ok side) ∧ (stringViewToInt side = .ok m.side) := by
  obtain ⟨coid, hc, h⟩ := Except.bind_eq_ok h
  obtain ⟨instrument, hi, h⟩ := Except.bind_eq_ok h
  obtain ⟨side, hs, h⟩ := Except.bind_eq_ok h
  obtain ⟨v, hv, h⟩ := Except.bind_eq_ok h
  obtain ⟨_, _, h⟩ := Except.bind_eq_ok h
  obtain ⟨_, _, h⟩ := Except.bind_eq_ok h
  obtain ⟨_, _, h⟩ := Except.bind_eq_ok h
  obtain ⟨_, _, h⟩ := Except.bind_eq_ok h
  cases h
  exact ⟨coid, instrument, side, hc, copyText_eq _, hi, copyText_eq _, hs, hv⟩

theorem CsvOrderProducer.messages_side {sequence : UInt64} {rows : List CSVRow}
    {parsed : List InboundOrderMsg} (h : messages sequence rows = .ok parsed) :
    ∀ message ∈ parsed, message.side.natAbs < 2 ^ 31 := by
  induction rows generalizing sequence parsed
  case nil =>
    cases h
    exact List.forall_mem_nil _
  case cons row rows hi =>
    obtain ⟨m, ms, hm, hms, rfl⟩ := messages_cons_inv h
    have ⟨_, _, _, _, _, _, _, _, hs⟩ := message_texts hm
    exact List.forall_mem_cons.mpr ⟨natAbs_of_stringViewToInt hs, hi hms⟩

def InboundOrderMsg.Published (message : InboundOrderMsg) : Prop :=
  ∃ stream row sequence, row ∈ csvRange stream ∧ CsvOrderProducer.message row sequence = .ok message

theorem InboundOrderMsg.Published.separable {message : InboundOrderMsg} (h : message.Published) :
    Separable message.coid.text ∧ Separable message.instrument.text ∧ message.side.natAbs < 2 ^ 31 := by
  have ⟨stream, row, sequence, hrow, hm⟩ := h
  obtain ⟨line, hline, rfl⟩ := List.mem_map.mp hrow
  have ⟨coid, instrument, side, h₀, hc, h₁, hi, _, hs⟩ := CsvOrderProducer.message_texts hm
  have field {i sv} (hf : (CSVRow.ofLine line).field i = .ok sv) (hlt : i < 2) : Separable sv := by
    refine ⟨CSVRow.not_mem_field hf hlt, fun hm => mem_of_mem_getlines hline |>.right ?_⟩
    exact CSVRow.mem_of_mem_dropCarriageReturn <| CSVRow.mem_of_mem_field hf hm
  exact ⟨hc ▸ (field h₀ (by decide)).copy, hi ▸ (field h₁ (by decide)).copy, natAbs_of_stringViewToInt hs⟩

theorem validateOrder_reason_separable {price : Double} {quantity : Int}
    (h : validateOrder instrument side price quantity = some reason) : Separable reason := by
  have hr : ∀ r ∈ rejectReasons, Separable r := by decide
  exact hr _ <| validateOrder_reason_mem h

structure Arrival.Sendable (a : Arrival) : Prop where
  published : a.message.Published
  timestamp : Separable a.time.text ∧ 13 ∉ a.time.text

structure ExecutionReport.Plain (report : ExecutionReport) : Prop where
  oid       : Separable report.oid.text
  coid      : Separable report.coid.text
  reason    : Separable report.reason.text
  timestamp : Separable report.timestamp.text ∧ 13 ∉ report.timestamp.text

theorem execStatusToString_separable (status : ExecStatus) : Separable (execStatusToString status) := by
  cases status <;> decide

theorem instrumentToString_separable (i : InstrumentType) : Separable (instrumentToString i) := by
  cases i <;> decide

theorem copy_amount {n : Nat} {text : Bytes} (h : AmountIn (n + 1) text) :
    (CStr.copy text : CStr (n + 1)).text = text :=
  CStr.copy_of_fits h.right <| h.left.not_mem (by decide)

theorem fillOutboundFields_encodable {report : ExecutionReport} {instrumentText priceText : Bytes}
    {side : Int} (hr : report.Plain) (hi : Separable instrumentText) (hs : side.natAbs < 2 ^ 31)
    (hp : AmountIn 24 priceText) (seq : UInt64) :
    (fillOutboundFields report instrumentText side priceText seq).Encodable where
  oid        := rfl
  coid       := rfl
  instrument := rfl
  execStatus := rfl
  priceText  := by
    simp only [fillOutboundFields]
    rw [copy_amount hp]
  reason     := rfl
  timestamp  := rfl
  numbers    := by
    refine ⟨hs, ?_⟩
    have := report.quantity.toNat_lt
    simp only [fillOutboundFields]
    omega
  separable  := by
    simp only [OutboundReportMsg.columns, fillOutboundFields, copyText, List.forall_mem_cons]
    exact ⟨hr.oid.copy, hr.coid.copy, hi.copy, amountText_toChars _ |>.separable,
      execStatusToString_separable _ |>.copy, amountText_toChars _ |>.separable, hp.left.separable.copy,
      hr.reason.copy, hr.timestamp.left.copy, List.forall_mem_nil _⟩
  lineEnd    := fun hm => hr.timestamp.right <| CStr.mem_copy hm

def OrderIds.Plain (ids : OrderIds) : Prop :=
  Separable ids.oid.text ∧ Separable ids.coid.text

theorem OrderIds.Plain.report {ids : OrderIds} {timestamp : CStr 20} (h : ids.Plain)
    (ht : Separable timestamp.text ∧ 13 ∉ timestamp.text) (i : Instrument) (side : Side)
    (price quantity : Nat) (status : ExecStatus) :
    (ids.report i side price quantity status timestamp).Plain where
  oid       := h.left
  coid      := h.right
  reason    := ⟨nofun, nofun⟩
  timestamp := ht

theorem orderId_separable (i : Nat) : Separable (orderId i) := by
  have ⟨hc, hn⟩ := amountText_decimal i |>.separable
  exact ⟨List.mem_append.not.mpr <| not_or.mpr ⟨by decide, hc⟩,
    List.mem_append.not.mpr <| not_or.mpr ⟨by decide, hn⟩⟩

namespace Arrival.Sendable

variable {a : Arrival}

theorem ids_plain (h : a.Sendable) (n : Nat) : (a.message.ids n).Plain :=
  ⟨by rw [a.message.ids_oid]; exact orderId_separable _, h.published.separable.left⟩

theorem reportEmission_encodable {report : ExecutionReport} (hr : report.Plain) :
    (a.message.reportEmission report).output.Encodable :=
  fillOutboundFields_encodable hr (instrumentToString_separable _) (by cases report.side <;> decide)
    (amountIn_formatTicksToBuffer _ (by decide)) _

theorem rejectEmission_encodable (h : a.Sendable) (hm : a.message.placement = .error reason)
    (unspecified : ℚ → Int64) (n : Nat) :
    (a.message.rejectEmission unspecified <| a.message.rejection n reason a.time).output.Encodable := by
  have ⟨hc, hi, hs⟩ := h.published.separable
  have hreason : Separable reason :=
    validateOrder_reason_separable <| InboundOrderMsg.placement_eq_error_iff.mp hm
  have hplain : (a.message.rejection n reason a.time).Plain :=
    ⟨(h.ids_plain n).left, hc, hreason.copy, h.timestamp⟩
  exact fillOutboundFields_encodable hplain hi hs (amountIn_formatPriceToBuffer _ _ (by decide)) _

end Arrival.Sendable

namespace Exchange

variable {x : Exchange} {a : Arrival}

def Plain (x : Exchange) : Prop :=
  ∀ side i, ∀ r ∈ x.resting side i, r.data.Plain

theorem records_encodable (hx : x.Plain) (ha : a.Sendable) (hr : r ∈ x.records unspecified a) :
    r.emission.output.Encodable := by
  cases hm : a.message.placement
  case error reason =>
    rw [records_reject hm, List.mem_singleton] at hr
    exact hr ▸ ha.rejectEmission_encodable hm unspecified x.now
  case ok p =>
    rw [records_accept hm] at hr
    obtain ⟨⟨j, report⟩, hj, rfl⟩ := List.mem_map.mp hr
    refine Arrival.Sendable.reportEmission_encodable ?_
    have new := (ha.ids_plain x.now).report ha.timestamp
    rcases List.mem_append.mp hj with hj | hj
    · have ⟨r, n, left, hmem, hcase⟩ := mem_ownedReports hj
      rcases hcase with ⟨_, rfl⟩ | ⟨_, rfl⟩
      · exact new ..
      · have hr := mem_matching.mp (mem_fill hmem).left |>.left
        exact (hx _ _ r hr).report ha.timestamp ..
    · split at hj
      case isTrue =>
        rw [List.mem_singleton, Prod.mk.injEq] at hj
        exact hj.right ▸ new ..
      case isFalse => contradiction

theorem step_plain (hx : x.Plain) (event : OrderProcessor.Event)
    (ha : ∀ a, event = .consume a → a.Sendable) :
    (x.step unspecified event).1.Plain ∧ ∀ e ∈ (x.step unspecified event).2, e.output.Encodable := by
  cases event
  case reset => exact ⟨fun _ _ => List.forall_mem_nil _, List.forall_mem_nil _⟩
  case consume a =>
    have ha := ha a rfl
    constructor
    case left =>
      cases hm : a.message.placement
      case error reason =>
        rw [step_reject hm]
        exact hx
      case ok p =>
        rw [step_accept hm]
        refine Market.restingAfter_cases (p := fun _ _ l => ∀ r ∈ l, OrderIds.Plain r.data) ?_ ?_
          fun s i _ => hx s i
        · intro r hr
          rcases Market.mem_joined hr with ⟨rfl, _⟩ | hr
          · exact ha.ids_plain x.now
          · exact hx _ _ r hr
        · intro r hr
          have ⟨r', hr', hk, _⟩ := Market.mem_opposing hr
          have hd : r.data = r'.data := congrArg (·.2.2) hk
          exact hd ▸ hx _ _ r' hr'
    case right =>
      intro e he
      rw [← map_records] at he
      obtain ⟨r, hr, rfl⟩ := List.mem_map.mp he
      exact records_encodable hx ha hr

end Exchange

theorem Exchange.step_fits {unspecified : ℚ → Int64} (x : Exchange) {a : Arrival}
    (ha : a.message.side.natAbs < 2 ^ 31) :
    ∀ e ∈ (x.step unspecified (.consume a)).2, e.output.Fits := by
  have quantity (q : UInt16) : (q.toNat : Int).natAbs < 2 ^ 31 := by
    have := q.toNat_lt
    omega
  cases hm : a.message.placement
  case error reason =>
    rw [step_reject hm]
    exact List.forall_mem_singleton.mpr ⟨ha, quantity _⟩
  case ok p =>
    rw [step_accept hm]
    intro e he
    obtain ⟨report, _, rfl⟩ := List.mem_map.mp he
    exact ⟨by cases hs : report.side <;> simp [InboundOrderMsg.reportEmission, fillOutboundFields, hs, Side.toInt],
      quantity _⟩

theorem Exchange.history_fits {unspecified : ℚ → Int64} {arrivals : List Arrival} {r : Record}
    (ha : ∀ a ∈ arrivals, a.message.side.natAbs < 2 ^ 31)
    (hr : r ∈ (history unspecified arrivals).2.flatten) : r.emission.output.Fits := by
  obtain ⟨k, a, hget, hr⟩ := mem_history hr
  exact step_fits _ (ha a <| List.mem_of_getElem? hget) _ (map_records ▸ List.mem_map_of_mem hr)

def OutboundReportMsg.Pushed (unspecified : ℚ → Int64) (message : OutboundReportMsg) : Prop :=
  ∃ events s emitted, (∀ a, .consume a ∈ events → a.Sendable) ∧
    (Machine.run (OrderProcessor.step unspecified) events .new = .ok (s, emitted)) ∧
    ∃ e ∈ emitted.flatten, e.output = message

theorem OutboundReportMsg.Pushed.encodable {message : OutboundReportMsg}
    (h : message.Pushed unspecified) : message.Encodable := by
  obtain ⟨events, s, emitted, ha, hrun, e, he, rfl⟩ := h
  have ⟨_, hrun', _⟩ := OrderProcessor.run_agrees unspecified events ⟨_, _, OrderProcessor.new_models⟩
  cases hrun.symm.trans hrun'
  have empty : Exchange.Plain .empty := fun _ _ _ hr => absurd hr List.not_mem_nil
  have hev : ∀ event ∈ events, ∀ a, event = .consume a → a.Sendable := by
    rintro _ hev a rfl
    exact ha a hev
  have ho : ∀ emitted ∈ (Machine.exec (Exchange.step unspecified) events .empty).2,
      ∀ e ∈ emitted, e.output.Encodable :=
    Machine.exec_forall (P := Exchange.Plain) (fun hx ha => Exchange.step_plain hx _ ha) hev empty |>.right
  have ⟨os, hos, he⟩ := List.mem_flatten.mp he
  exact ho os hos e he

-- The rows that are appended stay within the row buffer, and the reader finds in them what was written.
theorem CsvReportWriter.rows_read_back (unspecified : ℚ → Int64) (messages : List OutboundReportMsg)
    (h : ∀ message ∈ messages, message.Pushed unspecified) :
    ∃ bytes, (∀ destination, messages.foldlM appendCsvRow destination = .ok (destination ++ bytes)) ∧
      (csvRange bytes).map CSVRow.fields = messages.map fun message => .ok message.columns :=
  appendCsvRow_all fun message hm => h message hm |>.encodable

theorem CsvReportWriter.rows_read_back_trade :
    let time : CStr 20 := .copy (ascii "20250101-120000.000")
    let sell  : InboundOrderMsg := ⟨.copy (ascii "a b"), .copy (ascii "Rose"), 2, 10, .finite 1, 1⟩
    let buy   : InboundOrderMsg := ⟨.copy (ascii "c"), .copy (ascii "Rose"), 1, 20, .finite 1, 2⟩
    let wrong : InboundOrderMsg := ⟨.copy (ascii "d"), .copy (ascii "Rose"), -2147483647, 10, .finite 1, 3⟩
    let events := [sell, buy, wrong].map fun message => OrderProcessor.Event.consume ⟨message, time, time⟩
    let messages := (Machine.exec (Exchange.step fun _ => 0) events .empty).2.flatten.map Emission.output
    (∀ message ∈ messages, message.Pushed (fun _ => 0)) ∧
    ∃ bytes, (∀ destination, messages.foldlM appendCsvRow destination = .ok (destination ++ bytes)) ∧
      (csvRange bytes).map CSVRow.fields = [
        .ok <| ["ord1", "a b", "Rose", "2", "New", "10", "1.00", "", "20250101-120000.000"].map ascii,
        .ok <| ["ord2", "c", "Rose", "1", "Pfill", "10", "1.00", "", "20250101-120000.000"].map ascii,
        .ok <| ["ord1", "a b", "Rose", "2", "Fill", "10", "1.00", "", "20250101-120000.000"].map ascii,
        .ok <| ["ord3", "d", "Rose", "-2147483647", "Reject", "10", "1.00", "Invalid side",
          "20250101-120000.000"].map ascii] := by
  intro time sell buy wrong events messages
  have hsell : sell.Published :=
    ⟨ascii "a b,Rose,2,10,1.00", .ofLine (ascii "a b,Rose,2,10,1.00"), 1, by decide +kernel, by decide +kernel⟩
  have hbuy : buy.Published :=
    ⟨ascii "c,Rose,1,20,1", .ofLine (ascii "c,Rose,1,20,1"), 2, by decide +kernel, by decide +kernel⟩
  have hwrong : wrong.Published :=
    ⟨ascii "d,Rose,-9999999999,10,1", .ofLine (ascii "d,Rose,-9999999999,10,1"), 3,
      by decide +kernel, by decide +kernel⟩
  have hsendable : ∀ a, .consume a ∈ events → a.Sendable := by
    intro a ha
    obtain ⟨message, hm, he⟩ := List.mem_map.mp ha
    cases he
    have htime : Separable time.text ∧ 13 ∉ time.text := by decide
    simp only [List.mem_cons, List.not_mem_nil, or_false] at hm
    rcases hm with rfl | rfl | rfl
    · exact ⟨hsell, htime⟩
    · exact ⟨hbuy, htime⟩
    · exact ⟨hwrong, htime⟩
  have hpushed : ∀ message ∈ messages, message.Pushed (fun _ => 0) := by
    obtain ⟨s, hrun, _⟩ := OrderProcessor.run_agrees (fun _ => 0) events ⟨_, _, OrderProcessor.new_models⟩
    intro message hm
    obtain ⟨e, he, rfl⟩ := List.mem_map.mp hm
    exact ⟨events, s, _, hsendable, hrun, e, he, rfl⟩
  obtain ⟨bytes, ha, hr⟩ := rows_read_back (fun _ => 0) messages hpushed
  exact ⟨hpushed, bytes, ha, hr.trans <| by decide +kernel⟩
