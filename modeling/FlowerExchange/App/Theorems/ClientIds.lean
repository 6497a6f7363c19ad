import FlowerExchange.App.Theorems.FileProcessingPipeline
import FlowerExchange.Io.Theorems.PushedReports

open CsvOrderProducer CsvReportWriter

def keptId (id : Bytes) : Bytes :=
  (id.takeWhile (· ≠ 0)).take 63

theorem keptId_eq_copy (id : Bytes) : (CStr.copy id : CStr 64).text = keptId id :=
  copyLoop_eq id 63

theorem keptId_eq_iff (id : Bytes) : keptId id = id ↔ id.length ≤ 63 ∧ 0 ∉ id := by
  constructor
  · intro h
    have hn : 0 ∉ keptId id := keptId_eq_copy id ▸ (CStr.copy id : CStr 64).noNul
    have hl : (keptId id).length ≤ 63 := List.length_take_le ..
    exact h ▸ ⟨h.symm ▸ hl, h.symm ▸ hn⟩
  · rintro ⟨hl, hn⟩
    have : id.takeWhile (· ≠ 0) = id := List.takeWhile_eq_self_iff.mpr fun c hc => by
      simp only [decide_eq_true_eq]
      exact fun h => hn (h ▸ hc)
    rw [keptId, this, List.take_of_length_le hl]

def column (row : Bytes) (k : Nat) : Option Bytes :=
  (row.splitOn 44)[k]?

namespace OutboundReportMsg

structure AboutRow (report : OutboundReportMsg) (rows : List CSVRow) (j : Nat) (id : Bytes) : Prop where
  row : ∃ row, rows[j]? = some row ∧ row.field 0 = .ok id
  oid : column (csvRow report) 0 = some (orderId (j + 1))

theorem AboutRow.unique {report : OutboundReportMsg} {rows : List CSVRow} {id id' : Bytes}
    (h : report.AboutRow rows j id) (h' : report.AboutRow rows j' id') : j = j' ∧ id = id' := by
  have ho := Option.some.inj <| h.oid.symm.trans h'.oid
  obtain rfl : j = j' := Nat.succ_injective <| orderId_injective ho
  obtain ⟨row, hr, hi⟩ := h.row
  obtain ⟨row', hr', hi'⟩ := h'.row
  cases hr.symm.trans hr'
  exact ⟨rfl, Except.ok.inj <| hi.symm.trans hi'⟩

end OutboundReportMsg

theorem CsvReportWriter.csvRow_columns {report : OutboundReportMsg}
    (ho : report.oidLen = .ofNat report.oid.text.length ∧ 44 ∉ report.oid.text)
    (hc : report.coidLen = .ofNat report.coid.text.length ∧ 44 ∉ report.coid.text) :
    column (csvRow report) 0 = some report.oid.text ∧ column (csvRow report) 1 = some report.coid.text := by
  have ⟨rest, hr⟩ : ∃ rest, csvRow report = report.oid.text ++ 44 :: (report.coid.text ++ 44 :: rest) := by
    have comma : ascii "," = [44] := rfl
    simp only [csvRow, ho, hc, span_eq _ (show 32 ≤ 256 by decide), span_eq _ (show 64 ≤ 256 by decide),
      comma, List.append_assoc, List.singleton_append]
    exact ⟨_, rfl⟩
  rw [column, column, hr, List.splitOn_append_cons_self_of_not_mem ho.right,
    List.splitOn_append_cons_self_of_not_mem hc.right]
  exact ⟨rfl, rfl⟩

theorem Exchange.records_lengths {x : Exchange} (hr : r ∈ x.records unspecified a) :
    (r.emission.output.oidLen = .ofNat r.emission.output.oid.text.length) ∧
      (r.emission.output.coidLen = .ofNat r.emission.output.coid.text.length) := by
  cases hm : a.message.placement
  case error reason =>
    rw [records_reject hm, List.mem_singleton] at hr
    exact hr ▸ ⟨rfl, rfl⟩
  case ok p =>
    rw [records_accept hm] at hr
    obtain ⟨_, _, rfl⟩ := List.mem_map.mp hr
    exact ⟨rfl, rfl⟩

namespace CsvOrderProducer

theorem messages_getElem? {sequence : UInt64} {rows : List CSVRow} {ms : List InboundOrderMsg}
    {j : Nat} {m : InboundOrderMsg} (h : messages sequence rows = .ok ms) (hm : ms[j]? = some m) :
    ∃ row sequence', rows[j]? = some row ∧ message row sequence' = .ok m := by
  induction rows generalizing sequence ms j
  case nil =>
    cases h
    contradiction
  case cons row rows hi =>
    obtain ⟨m', ms', hm', hms, rfl⟩ := messages_cons_inv h
    cases j
    case zero =>
      cases hm
      exact ⟨row, sequence, rfl, hm'⟩
    case succ =>
      rw [List.getElem?_cons_succ] at hm ⊢
      exact hi hms hm

theorem mem_orderRows (h : row ∈ orderRows file) : ∃ stream, row ∈ csvRange stream := by
  cases file
  case none      => contradiction
  case some file => exact ⟨_, List.mem_of_mem_tail <| List.mem_of_mem_filter h⟩

variable {file : Option InputFile} {messages : List InboundOrderMsg} {r : Record}

theorem record_about_row (h : fileMessages file = .ok messages) {times : Matcher.Times}
    (hr : r ∈ (Exchange.history unspecified (messages.map times.arrival)).2.flatten) : ∃ id,
      r.emission.output.AboutRow (orderRows file) r.owner id ∧
      column (csvRow r.emission.output) 1 = some (keptId id) := by
  obtain ⟨k, b, hb, hr⟩ := Exchange.mem_history hr
  have ⟨a, ha, _, hab⟩ := Exchange.history_about hb hr
  rw [List.getElem?_map] at ha
  obtain ⟨m, hm, rfl⟩ := Option.map_eq_some_iff.mp ha
  have ⟨row, sequence, hrow, hmsg⟩ := messages_getElem? h hm
  have ⟨stream, hstream⟩ := mem_orderRows <| List.mem_of_getElem? hrow
  have ⟨id, _, _, hid, hcoid, _⟩ := message_texts hmsg
  have hp : m.Published := ⟨stream, row, sequence, hstream, hmsg⟩
  have hlt := (List.getElem?_eq_some_iff.mp hrow).choose
  have := length_orderRows_lt file
  have ho := hab.concerns (by omega) |>.oid
  have hc : r.emission.output.coid = m.coid := hab.coid
  have hl := Exchange.records_lengths hr
  have ⟨h₀, h₁⟩ := csvRow_columns ⟨hl.left, ho ▸ (orderId_separable _).left⟩
    ⟨hl.right, hc ▸ hp.separable.left.left⟩
  refine ⟨id, ⟨⟨row, hrow, hid⟩, ho ▸ h₀⟩, ?_⟩
  rw [h₁, hc, hcoid, keptId_eq_copy]

end CsvOrderProducer

namespace FileProcessingPipeline

variable {file : Option InputFile} {messages : List InboundOrderMsg}

structure KeepsIds (rows : List CSVRow) (reports : List OutboundReportMsg) : Prop where
  about    : ∀ report ∈ reports, ∃ j id, report.AboutRow rows j id
  kept     : ∀ report ∈ reports, ∀ j id, report.AboutRow rows j id →
    column (csvRow report) 1 = some (keptId id) ∧
      (column (csvRow report) 1 = some id ↔ id.length ≤ 63 ∧ 0 ∉ id)
  distinct : ∀ report ∈ reports, ∀ report' ∈ reports, ∀ j id j' id',
    report.AboutRow rows j id → report'.AboutRow rows j' id' → keptId id ≠ keptId id' →
      column (csvRow report) 1 ≠ column (csvRow report') 1

theorem KeepsIds.of_about {rows : List CSVRow} {reports : List OutboundReportMsg}
    (about : ∀ report ∈ reports, ∃ j id, report.AboutRow rows j id ∧
      column (csvRow report) 1 = some (keptId id)) : KeepsIds rows reports := by
  have kept {report j id} (hm : report ∈ reports) (ha : report.AboutRow rows j id) :
      column (csvRow report) 1 = some (keptId id) := by
    have ⟨_, _, ha', hc⟩ := about report hm
    exact (ha.unique ha').right ▸ hc
  constructor
  case about =>
    intro report hm
    have ⟨j, id, ha, _⟩ := about report hm
    exact ⟨j, id, ha⟩
  case kept =>
    intro report hm j id ha
    refine ⟨kept hm ha, ?_⟩
    rw [kept hm ha, Option.some_inj, keptId_eq_iff]
  case distinct =>
    intro report hm report' hm' j id j' id' ha ha' hne
    rw [kept hm ha, kept hm' ha']
    exact fun he => hne <| Option.some.inj he

-- The Client Order ID of a report is what is kept of the ID in the row of its order, whatever the processor
-- has been through and whatever the order of the steps of the threads is.
theorem client_ids_kept (e : Environment) (before : List OrderProcessor.Event)
    (h : fileMessages file = .ok messages) : ∃ s₀ s, ∃ emitted : List (List Emission),
      let reports := emitted.flatten.map Emission.output
      OrderProcessor.Reached e.unspecified before s₀ ∧
      (Machine.run (OrderProcessor.step e.unspecified) (messages.map (.consume <| e.times.arrival ·))
        s₀.reset = .ok (s, emitted)) ∧
      (∀ {m n} (inbound : InboundOrderQueue m) (outbound : OutboundReportQueue n) schedule,
        let p := (start inbound outbound s₀ file).run e schedule
        p.writer.returned → p.writer.outputFile = reportFile reports) ∧
      KeepsIds (orderRows file) reports := by
  have ⟨s₀, s, hs₀, hrun, hw⟩ := file_reports e before h
  refine ⟨s₀, s, _, hs₀, hrun, hw, .of_about fun report hm => ?_⟩
  rw [← List.map_flatten, List.map_map] at hm
  obtain ⟨r, hr, rfl⟩ := List.mem_map.mp hm
  exact ⟨r.owner, record_about_row h hr⟩

theorem client_ids_kept_short :
    let file : InputFile := ⟨ascii "Client Order ID,Instrument,Side,Quantity,Price" ++ [10] ++
      ascii "c1,Tulip,2,10,1.00" ++ [10] ++ ascii "c2,Tulip,1,20,1.00" ++ [10], by decide +kernel⟩
    let sell : InboundOrderMsg := ⟨.copy (ascii "c1"), .copy (ascii "Tulip"), 2, 10, .finite 1, 1⟩
    let buy  : InboundOrderMsg := ⟨.copy (ascii "c2"), .copy (ascii "Tulip"), 1, 20, .finite 1, 2⟩
    let e : Environment := ⟨fun _ => 0, fun _ => default, 4194304⟩
    (fileMessages (some file) = .ok [sell, buy]) ∧ ∃ s₀ s, ∃ emitted : List (List Emission),
      let reports := emitted.flatten.map Emission.output
      OrderProcessor.Reached e.unspecified [] s₀ ∧
      (Machine.run (OrderProcessor.step e.unspecified) ([sell, buy].map (.consume <| e.times.arrival ·))
        s₀.reset = .ok (s, emitted)) ∧
      (∀ {m n} (inbound : InboundOrderQueue m) (outbound : OutboundReportQueue n) schedule,
        let p := (start inbound outbound s₀ (some file)).run e schedule
        p.writer.returned → p.writer.outputFile = reportFile reports) ∧
      KeepsIds (orderRows (some file)) reports := by
  intro file sell buy e
  have h : fileMessages (some file) = .ok [sell, buy] := by decide +kernel
  exact ⟨h, client_ids_kept e [] h⟩

def longId (c : UInt8) : Bytes :=
  .replicate 63 97 ++ [c]

-- Two rows whose ids are told apart only behind their 63rd byte have reports with the same Client Order ID.
theorem client_ids_collide :
    let row (c : UInt8) : Bytes := longId c ++ ascii ",Rose,3,10,1.00" ++ [10]
    let file : InputFile := ⟨ascii "Client Order ID,Instrument,Side,Quantity,Price" ++ [10] ++
      row 98 ++ row 99, by decide +kernel⟩
    let rows := orderRows (some file)
    let e : Environment := ⟨fun _ => 0, fun _ => default, 4194304⟩
    ∃ messages s₀ s, ∃ emitted : List (List Emission),
      let reports := emitted.flatten.map Emission.output
      (fileMessages (some file) = .ok messages) ∧
      OrderProcessor.Reached e.unspecified [] s₀ ∧
      (Machine.run (OrderProcessor.step e.unspecified) (messages.map (.consume <| e.times.arrival ·))
        s₀.reset = .ok (s, emitted)) ∧
      ∃ report ∈ reports, ∃ report' ∈ reports,
        report.AboutRow rows 0 (longId 98) ∧ report'.AboutRow rows 1 (longId 99) ∧
        longId 98 ≠ longId 99 ∧ column (csvRow report) 1 ≠ some (longId 98) ∧
        column (csvRow report) 1 = column (csvRow report') 1 := by
  intro row file rows e
  let message (c : UInt8) (seq : UInt64) : InboundOrderMsg :=
    ⟨.copy (longId c), .copy (ascii "Rose"), 3, 10, .finite 1, seq⟩
  have h : fileMessages (some file) = .ok [message 98 1, message 99 2] := by decide +kernel
  have hm (c seq) : (message c seq).placement = .error (ascii "Invalid side") :=
    InboundOrderMsg.placement_eq_error_iff.mpr rfl
  have ⟨s₀, s, hs₀, hrun, _⟩ := file_reports e [] h
  let reject (c : UInt8) (seq : UInt64) (n : Nat) : Emission :=
    (message c seq).rejectEmission e.unspecified <|
      (message c seq).rejection n (ascii "Invalid side") (e.times.arrival <| message c seq).time
  have hr (x : Exchange) (c seq) : x.recordStep e.unspecified (e.times.arrival <| message c seq) =
      (x.skip, [⟨x.now, reject c seq x.now⟩]) := by
    rw [Exchange.recordStep, Exchange.records_reject (hm c seq), Exchange.step_reject (hm c seq)]
    rfl
  have hh : (Exchange.history e.unspecified ([message 98 1, message 99 2].map e.times.arrival)).2 =
      [[⟨0, reject 98 1 0⟩], [⟨1, reject 99 2 1⟩]] := by
    simp only [Exchange.history, List.map_cons, List.map_nil, Machine.exec_cons, Machine.exec_nil, hr]
    rfl
  rw [hh] at hrun
  refine ⟨_, s₀, s, _, h, hs₀, hrun, (reject 98 1 0).output, .head _, (reject 99 2 1).output,
    .tail _ (.head _), ⟨⟨.ofLine (longId 98 ++ ascii ",Rose,3,10,1.00"), ?_, ?_⟩, ?_⟩,
    ⟨⟨.ofLine (longId 99 ++ ascii ",Rose,3,10,1.00"), ?_, ?_⟩, ?_⟩, ?_, ?_, ?_⟩
  all_goals decide +kernel

end FileProcessingPipeline
