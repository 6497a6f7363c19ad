import FlowerExchange.App.Theorems.Program
import FlowerExchange.Io.Theorems.PushedReports
import FlowerExchange.Matching.Theorems.Timestamps

open CsvOrderProducer CsvReportWriter

variable {e : Environment} {content : Option Bytes} {clock : Nat → ClockReading}

theorem mem_contentRows (h : row ∈ contentRows content) : ∃ bytes, row ∈ csvRange bytes := by
  cases content
  case none       => contradiction
  case some bytes => exact ⟨bytes, List.mem_of_mem_tail <| List.mem_of_mem_filter h⟩

theorem ClockReading.record_sendable (ns : List Nat) :
    Separable (Decimal.record format ns) ∧ 13 ∉ Decimal.record format ns := by
  have hn (c : UInt8) (hd : Decimal.isDigit c = false) (hf : ∀ f ∈ format, c ∉ f.2) :
      c ∉ Decimal.record format ns := by
    intro h
    rcases Decimal.mem_record h with h | ⟨f, hm, hc⟩
    · rw [hd] at h
      contradiction
    · exact hf f hm hc
  exact ⟨⟨hn 44 (by decide) (by decide), hn 10 (by decide) (by decide)⟩, hn 13 (by decide) (by decide)⟩

-- The times that are read are those of a clock whose times a text can tell apart.
def Environment.ReadsClock (e : Environment) : Prop :=
  ∀ number, ∃ r : ClockReading, r.CommonEra ∧
    (e.times number).1.text = Decimal.record ClockReading.format r.fields

theorem Environment.ReadsClock.sendable {message : InboundOrderMsg} (h : e.ReadsClock)
    (hm : message.Published) : (e.times.arrival message).Sendable where
  published := hm
  timestamp := by
    have ⟨r, he, ht⟩ := h message.seq
    rw [(e.times.arrival message).time_eq_record he ht]
    exact ht ▸ ClockReading.record_sendable r.fields

theorem messages_published {sequence : UInt64} {rows : List CSVRow} {parsed : List InboundOrderMsg}
    (h : messages sequence rows = .ok parsed) (hr : ∀ row ∈ rows, ∃ bytes, row ∈ csvRange bytes) :
    ∀ message ∈ parsed, message.Published := by
  induction rows generalizing sequence parsed
  case nil =>
    cases h
    exact List.forall_mem_nil _
  case cons row rows hi =>
    have ⟨m, ms, hm, hms, he⟩ := messages_cons_inv h
    have ⟨⟨bytes, hb⟩, hr⟩ := List.forall_mem_cons.mp hr
    exact he ▸ List.forall_mem_cons.mpr ⟨⟨bytes, row, sequence, hb, hm⟩, hi hms hr⟩

def headerColumns : List Bytes :=
  [ascii "Order ID", ascii "Client Order Id", ascii "Instrument", ascii "Side", ascii "Exec Status",
    ascii "Quantity", ascii "Price", ascii "Reason", ascii "Timestamp"]

theorem csvRange_header (rest : Bytes) :
    (csvRange (header ++ rest)).map CSVRow.fields = .ok headerColumns :: (csvRange rest).map CSVRow.fields := by
  have hn : 10 ∉ [44].intercalate headerColumns := by decide +kernel
  have hh : header = [44].intercalate headerColumns ++ [10] := by decide +kernel
  have hf : (CSVRow.ofLine <| [44].intercalate headerColumns).fields = .ok headerColumns := by decide +kernel
  rw [hh, List.append_assoc, List.singleton_append, csvRange, getlines_append hn, List.map_cons,
    List.map_cons, hf]
  rfl

theorem csvRange_rows {reports : List OutboundReportMsg} (h : ∀ message ∈ reports, message.Encodable) :
    (csvRange (reports.map csvRow).flatten).map CSVRow.fields = reports.map fun r => .ok r.columns := by
  induction reports
  case nil => rfl
  case cons message reports hi =>
    have ⟨hm, h⟩ := List.forall_mem_cons.mp h
    rw [List.map_cons, List.flatten_cons, csvRange_csvRow hm, hi h, List.map_cons]

theorem report_encodable {bytes : Bytes} (he : e.ReadsClock) (h : report e content = .ok bytes) :
    ∃ parsed, messages 1 (contentRows content) = .ok parsed ∧
      let records := (Exchange.history e.unspecified (parsed.map e.times.arrival)).2.flatten
      bytes = reportFile (records.map (·.emission.output)) ∧ ∀ r ∈ records, r.emission.output.Encodable := by
  obtain ⟨parsed, hp, h⟩ := Except.bind_eq_ok h
  cases h
  refine ⟨parsed, hp, rfl, fun r hr => ?_⟩
  have hs : ∀ a ∈ parsed.map e.times.arrival, a.Sendable := by
    intro a ha
    obtain ⟨message, hm, rfl⟩ := List.mem_map.mp ha
    exact he.sendable <| messages_published hp (fun row => mem_contentRows) message hm
  have hev : ∀ a, .consume a ∈ (parsed.map e.times.arrival).map OrderProcessor.Event.consume → a.Sendable := by
    intro a ha
    obtain ⟨a', ha', he'⟩ := List.mem_map.mp ha
    cases he'
    exact hs a ha'
  obtain ⟨s, hrun, _⟩ := OrderProcessor.run_agrees e.unspecified
    ((parsed.map e.times.arrival).map .consume) ⟨_, _, OrderProcessor.new_models⟩
  rw [Exchange.history_exec] at hrun
  refine OutboundReportMsg.Pushed.encodable ⟨_, s, _, hev, hrun, r.emission, ?_, rfl⟩
  rw [← List.map_flatten]
  exact List.mem_map_of_mem hr

-- Whatever an input file holds, the report file is one that the reader of the program can read: it finds the
-- header, and the columns of one report after the other.
theorem report_reads_back {bytes : Bytes} (he : e.ReadsClock) (h : report e content = .ok bytes) :
    ∃ parsed, messages 1 (contentRows content) = .ok parsed ∧
      let records := (Exchange.history e.unspecified (parsed.map e.times.arrival)).2.flatten
      (csvRange bytes).map CSVRow.fields =
        .ok headerColumns :: records.map fun r => .ok r.emission.output.columns := by
  obtain ⟨parsed, hp, rfl, encodable⟩ := report_encodable he h
  refine ⟨parsed, hp, ?_⟩
  simp only
  rw [reportFile, csvRange_header, csvRange_rows <| List.forall_mem_map.mpr encodable, List.map_map]
  rfl

theorem readsClock_constant (unspecified : ℚ → Int64) (threshold : Nat) : Environment.ReadsClock
    ⟨unspecified, fun _ => (.copy (ascii "20250101-093000.007"), default), threshold⟩ := by
  let r : ClockReading :=
    ⟨⟨125, 0, 1, 9, 30, 0, by decide, by decide, by decide, by decide, by decide⟩, 1735720200007⟩
  have ht : (.copy (ascii "20250101-093000.007") : CStr 20).text =
      Decimal.record ClockReading.format r.fields := by decide +kernel
  exact fun _ => ⟨r, ⟨by decide, by decide, by decide⟩, ht⟩

theorem report_reads_back_trade :
    let e : Environment := ⟨fun _ => 0, fun _ => (.copy (ascii "20250101-093000.007"), default), 4194304⟩
    let content := ascii "id,flower,side,quantity,price" ++ [10] ++ ascii "a,Rose,2,10,1.00" ++ [10] ++
      ascii "b,Rose,1,20,1.005" ++ [10] ++ ascii "c" ++ [13] ++ ascii ",Rose,3,10,1" ++ [10]
    ∃ bytes, report e (some content) = .ok bytes ∧ (csvRange bytes).map CSVRow.fields = [
      .ok headerColumns,
      .ok <| ["ord1", "a", "Rose", "2", "New", "10", "1.00", "", "20250101-093000.007"].map ascii,
      .ok <| ["ord2", "b", "Rose", "1", "Pfill", "10", "1.00", "", "20250101-093000.007"].map ascii,
      .ok <| ["ord1", "a", "Rose", "2", "Fill", "10", "1.00", "", "20250101-093000.007"].map ascii,
      .ok [ascii "ord3", ascii "c" ++ [13], ascii "Rose", ascii "3", ascii "Reject", ascii "10",
        ascii "1.00", ascii "Invalid side", ascii "20250101-093000.007"]] := by
  intro e content
  obtain ⟨bytes, h⟩ : ∃ bytes, report e (some content) = .ok bytes := ⟨_, rfl⟩
  have hread : messages 1 (contentRows (some content)) = .ok [
      ⟨.copy (ascii "a"), .copy (ascii "Rose"), 2, 10, .finite 1, 1⟩,
      ⟨.copy (ascii "b"), .copy (ascii "Rose"), 1, 20, .finite (1005 / 1000), 2⟩,
      ⟨.copy (ascii "c" ++ [13]), .copy (ascii "Rose"), 3, 10, .finite 1, 3⟩] := by decide +kernel
  obtain ⟨parsed, hp, hr⟩ := report_reads_back (readsClock_constant _ _) h
  cases hread.symm.trans hp
  exact ⟨bytes, h, hr.trans <| by decide +kernel⟩
