import FlowerExchange.App.Theorems.ReadBack
import FlowerExchange.Common.Theorems.PriceText
import FlowerExchange.Io.Theorems.CsvRange

open CsvOrderProducer hiding copyText
open CsvReportWriter Decimal Resting RuntimeConfig

-- What the parsers of the program read from a row is what the report holds. The row of a reject has the
-- instrument, side and price of the message instead.
structure CSVRow.Tells (row : CSVRow) (report : ExecutionReport) : Prop where
  oid       : row.field 0 = .ok report.oid.text
  coid      : row.field 1 = .ok report.coid.text
  status    : row.field 4 = .ok (execStatusToString report.status)
  quantity  : ∃ text, (row.field 5 = .ok text) ∧ stringViewToInt text = .ok report.quantity.toNat
  reason    : row.field 7 = .ok report.reason.text
  timestamp : row.field 8 = .ok report.timestamp.text
  order     : report.status ≠ .rejected → ∃ instrument side price value,
    (row.field 2 = .ok instrument) ∧ (parseInstrument instrument = some report.instrument) ∧
    (row.field 3 = .ok side) ∧ (stringViewToInt side = .ok report.side.toInt) ∧
    (row.field 6 = .ok price) ∧ (stringViewToDouble price = .ok value) ∧
    ∀ unspecified, doubleToTicks unspecified value = report.price

theorem priceText_reads {tick : PriceTick} (h : tick < orderBookTickCapacity) :
    ∃ value, stringViewToDouble (formatTicksToBuffer tick 24) = .ok value ∧
      ∀ unspecified, doubleToTicks unspecified value = tick := by
  have hcapacity : orderBookTickCapacity ≤ 2 ^ 63 := by decide
  have hf := copy_formatTicksToBuffer h |>.left
  have reads (unspecified : ℚ → Int64) := (tickText_roundTrip unspecified).right.right.right tick <|
    h.trans_le hcapacity
  obtain ⟨value, hv, _⟩ := reads fun _ => 0
  refine ⟨value, hf ▸ hv, fun unspecified => ?_⟩
  obtain ⟨value', hv', ht⟩ := reads unspecified
  cases hv.symm.trans hv'
  exact ht

theorem fillOutboundFields_columns (report : ExecutionReport) (instrumentText priceText : Bytes) (side : Int)
    (seq : UInt64) : (fillOutboundFields report instrumentText side priceText seq).columns =
      [report.oid.text, report.coid.text, (CStr.copy instrumentText : CStr 32).text, toChars side,
        execStatusToString report.status, toChars report.quantity.toNat,
        (CStr.copy priceText : CStr 24).text, report.reason.text, report.timestamp.text] := by
  have hr := report.reason.fits
  simp only [OutboundReportMsg.columns, fillOutboundFields, copyText, CStr.copy_text, execStatusToString_copy]
  rw [CStr.copy_of_fits (by omega) report.reason.noNul]

namespace Exchange

variable {arrivals : List Arrival} {x : Exchange} {left : Nat → Nat} {a : Arrival} {r : Record}

theorem history_booked (hr : r ∈ (history unspecified arrivals).2.flatten)
    (hs : r.emission.report.status ≠ .rejected) : r.emission.report.Booked := by
  obtain ⟨k, a, _, hr⟩ := mem_history hr
  obtain ⟨_, _, backed⟩ := history_backed unspecified (arrivals.take k)
  exact records_booked backed hr hs

theorem history_tells {row : CSVRow} (hr : r ∈ (history unspecified arrivals).2.flatten)
    (hrow : row.fields = .ok r.emission.output.columns) : row.Tells r.emission.report := by
  obtain ⟨k, a, _, hmem⟩ := mem_history hr
  obtain ⟨instrumentText, side, priceText, seq, hf, accepted⟩ := records_filled hmem
  rw [hf, fillOutboundFields_columns] at hrow
  obtain ⟨_, field⟩ := CSVRow.field_of_fields hrow
  have hq : r.emission.report.quantity.toNat ≤ intLimit := by
    have := r.emission.report.quantity.toNat_lt
    simp only [intLimit]
    omega
  refine ⟨field 0 (by simp), field 1 (by simp), field 4 (by simp), ⟨_, field 5 (by simp), ?_⟩,
    field 7 (by simp), field 8 (by simp), fun hs => ?_⟩
  · exact stringViewToInt_toChars hq
  · obtain ⟨hinstrument, hprice⟩ := history_booked hr hs
    obtain ⟨rfl, rfl, rfl⟩ := accepted hs
    obtain ⟨value, hv, ht⟩ := priceText_reads hprice
    have hp := copy_amount <| amountIn_formatTicksToBuffer (n := 24) r.emission.report.price (by decide)
    refine ⟨_, _, _, value, field 2 (by simp), ?_, field 3 (by simp), ?_, field 6 (by simp), ?_, ht⟩
    · exact parseInstrument_eq_some_iff.mpr ⟨instrumentToString_copy _, hinstrument⟩
    · cases r.emission.report.side
      case buy  => exact stringViewToInt_toChars (n := 1) (by decide)
      case sell => exact stringViewToInt_toChars (n := 2) (by decide)
    · exact (congrArg stringViewToDouble hp).trans hv

end Exchange

theorem Side.toInt_injective : Function.Injective Side.toInt := by
  intro s s' h
  cases s <;> cases s' <;> first | rfl | contradiction

theorem CSVRow.Tells.unique {row : CSVRow} {told told' : ExecutionReport} (h : row.Tells told)
    (h' : row.Tells told') : (told.status = told'.status) ∧ (told.status ≠ .rejected → told = told') := by
  have hstatus : told.status = told'.status :=
    execStatusToString_injective <| Except.ok.inj <| h.status.symm.trans h'.status
  refine ⟨hstatus, fun hne => ?_⟩
  have hoid := CStr.ext <| Except.ok.inj <| h.oid.symm.trans h'.oid
  have hcoid := CStr.ext <| Except.ok.inj <| h.coid.symm.trans h'.coid
  have hreason := CStr.ext <| Except.ok.inj <| h.reason.symm.trans h'.reason
  have htimestamp := CStr.ext <| Except.ok.inj <| h.timestamp.symm.trans h'.timestamp
  obtain ⟨text, ht, hq⟩ := h.quantity
  obtain ⟨text', ht', hq'⟩ := h'.quantity
  obtain rfl : text = text' := Except.ok.inj <| ht.symm.trans ht'
  have hquantity : told.quantity = told'.quantity :=
    UInt16.toNat_inj.mp <| Int.ofNat.inj <| Except.ok.inj <| hq.symm.trans hq'
  obtain ⟨i, s, p, value, hi, hinstrument, hs, hside, hp, hv, hprice⟩ := h.order hne
  obtain ⟨i', s', p', value', hi', hinstrument', hs', hside', hp', hv', hprice'⟩ :=
    h'.order (hstatus ▸ hne)
  obtain rfl : i = i' := Except.ok.inj <| hi.symm.trans hi'
  obtain rfl : s = s' := Except.ok.inj <| hs.symm.trans hs'
  obtain rfl : p = p' := Except.ok.inj <| hp.symm.trans hp'
  obtain rfl : value = value' := Except.ok.inj <| hv.symm.trans hv'
  have hinstrument := Option.some.inj <| hinstrument.symm.trans hinstrument'
  have hside := Side.toInt_injective <| Except.ok.inj <| hside.symm.trans hside'
  have hprice := (hprice fun _ => 0).symm.trans <| hprice' fun _ => 0
  cases told
  cases told'
  simp only [ExecutionReport.mk.injEq]
  exact ⟨hoid, hcoid, hinstrument, hside, hprice, hquantity, hstatus, hreason, htimestamp⟩

def executions (reports : List ExecutionReport) : List ExecutionReport :=
  reports.filter (·.status ≠ .rejected)

theorem executions_unique {reports reports' : List ExecutionReport} {rows : List CSVRow}
    (h : List.Forall₂ (fun report row => row.Tells report) reports rows)
    (h' : List.Forall₂ (fun report row => row.Tells report) reports' rows) :
    executions reports = executions reports' := by
  induction h generalizing reports'
  case nil =>
    cases h'
    rfl
  case cons told row reports rows htold _ hi =>
    cases h'
    case cons told' reports' htold' hrest =>
      obtain ⟨hstatus, heq⟩ := htold.unique htold'
      by_cases hs : told.status = .rejected
      case pos => simpa [executions, hs, ← hstatus] using hi hrest
      case neg => simpa [executions, hs, ← heq hs] using hi hrest

variable {e : Environment} {content : Option Bytes}

-- The parsers of the program read from the report file what the reports hold, one row after the other, and
-- no other executions can be read from it.
theorem report_values_read_back {bytes : Bytes} (he : e.ReadsClock) (h : report e content = .ok bytes) :
    ∃ parsed, messages 1 (contentRows content) = .ok parsed ∧
      let records := (Exchange.history e.unspecified (parsed.map e.times.arrival)).2.flatten
      let reports := records.map (·.emission.report)
      List.Forall₂ (fun report row => row.Tells report) reports (csvRange bytes).tail ∧
      ∀ reports', List.Forall₂ (fun report row => row.Tells report) reports' (csvRange bytes).tail →
        executions reports' = executions reports := by
  obtain ⟨parsed, hp, rfl, encodable⟩ := report_encodable he h
  refine ⟨parsed, hp, ?_⟩
  intro records reports
  have hfields : records.map (fun r => .ok r.emission.output.columns) =
      (csvRange <| reportFile <| records.map (·.emission.output)).tail.map CSVRow.fields := by
    rw [List.map_tail, reportFile, csvRange_header, List.tail_cons,
      csvRange_rows <| List.forall_mem_map.mpr encodable, List.map_map]
    rfl
  rw [← List.forall₂_eq_eq_eq, List.forall₂_map_left_iff, List.forall₂_map_right_iff] at hfields
  have htells := List.forall₂_and_left _ _ |>.mpr ⟨fun _ hr => hr, hfields⟩ |>.imp
    fun _ _ h => Exchange.history_tells h.left h.right.symm
  have htold : List.Forall₂ (fun report row => CSVRow.Tells row report) reports _ :=
    List.forall₂_map_left_iff.mpr htells
  exact ⟨htold, fun _ h => executions_unique h htold⟩

theorem report_values_read_back_trades :
    let e : Environment := ⟨fun _ => 0, fun _ => (.copy (ascii "20250101-093000.007"), default), 4194304⟩
    let content := ascii "id,flower,side,quantity,price" ++ [10] ++ ascii "a,Rose,1,100,55.00" ++ [10] ++
      ascii "b,Rose,2,200,45.00" ++ [10] ++ ascii "c,Rose,1,100,45.00" ++ [10]
    ∃ bytes parsed, report e (some content) = .ok bytes ∧
      messages 1 (contentRows (some content)) = .ok parsed ∧ (parsed.length = 3) ∧
      let records := (Exchange.history e.unspecified (parsed.map e.times.arrival)).2.flatten
      let reports := records.map (·.emission.report)
      List.Forall₂ (fun report row => row.Tells report) reports (csvRange bytes).tail ∧
      ∀ reports', List.Forall₂ (fun report row => row.Tells report) reports' (csvRange bytes).tail →
        executions reports' = executions reports := by
  intro e content
  obtain ⟨bytes, h⟩ : ∃ bytes, report e (some content) = .ok bytes := ⟨_, rfl⟩
  obtain ⟨read, hread, hlength⟩ : ∃ read, messages 1 (contentRows (some content)) = .ok read ∧
      read.length = 3 := ⟨_, rfl, rfl⟩
  obtain ⟨parsed, hp, hr⟩ := report_values_read_back (readsClock_constant _ _) h
  obtain rfl : read = parsed := Except.ok.inj <| hread.symm.trans hp
  exact ⟨bytes, read, h, hp, hlength, hr⟩
