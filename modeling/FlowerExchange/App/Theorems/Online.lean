import FlowerExchange.App.Theorems.Program

open CsvOrderProducer CsvReportWriter

theorem getlines_lineFeed (lines : Bytes) : ∃ line ls, getlines (lines ++ [10]) = line :: ls := by
  cases lines <;> exact ⟨_, _, getlines_cons ..⟩

theorem getlines_append_lines (lines rest : Bytes) :
    getlines (lines ++ 10 :: rest) = getlines (lines ++ [10]) ++ getlines rest := by
  induction lines
  case nil => rfl
  case cons c cs hi =>
    by_cases hc : c = 10
    case pos => simp [getlines, hc, hi]
    case neg =>
      obtain ⟨line, ls, hl⟩ := getlines_lineFeed cs
      simp only [List.cons_append, getlines, if_neg hc, hi, hl]

theorem contentRows_append (lines rest : Bytes) : ∃ rows,
    contentRows (some (lines ++ 10 :: rest)) = contentRows (some (lines ++ [10])) ++ rows := by
  obtain ⟨line, ls, hl⟩ := getlines_lineFeed lines
  refine ⟨(csvRange rest).filter (5 ≤ ·.size), ?_⟩
  simp [contentRows, csvRange, getlines_append_lines, hl]

theorem CsvOrderProducer.messages_append {sequence : UInt64} {rows rows' : List CSVRow}
    {parsed : List InboundOrderMsg} (h : messages sequence (rows ++ rows') = .ok parsed) :
    ∃ first later, messages sequence rows = .ok first ∧ parsed = first ++ later := by
  induction rows generalizing sequence parsed
  case nil => exact ⟨[], parsed, rfl, rfl⟩
  case cons row rows hi =>
    obtain ⟨m, ms, hm, hms, rfl⟩ := messages_cons_inv h
    obtain ⟨first, later, hfirst, rfl⟩ := hi hms
    exact ⟨m :: first, later, by rw [messages, hm, hfirst]; rfl, rfl⟩

variable {e : Environment}

theorem report_online {lines rest bytes : Bytes} (h : report e (some (lines ++ 10 :: rest)) = .ok bytes) :
    ∃ first later, report e (some (lines ++ [10])) = .ok first ∧ bytes = first ++ later := by
  obtain ⟨parsed, hp, h⟩ := Except.bind_eq_ok h
  cases h
  obtain ⟨rows, hrows⟩ := contentRows_append lines rest
  rw [hrows] at hp
  obtain ⟨first, later, hfirst, rfl⟩ := messages_append hp
  let arrivals := (first ++ later).map e.times.arrival
  let records := (Exchange.history e.unspecified arrivals).2
  have htake : arrivals.take first.length = first.map e.times.arrival := by
    rw [show arrivals = _ from List.map_append, List.take_left' (List.length_map _)]
  have hfirstRecords : (Exchange.history e.unspecified (first.map e.times.arrival)).2 =
      records.take first.length := by
    rw [← Exchange.history_take, htake]
  have hrecords : records.flatten =
      (records.take first.length).flatten ++ (records.drop first.length).flatten := by
    rw [← List.flatten_append, List.take_append_drop]
  refine ⟨_, (((records.drop first.length).flatten.map (·.emission.output)).map csvRow).flatten,
    by rw [report, hfirst]; rfl, ?_⟩
  rw [show (Exchange.history _ _).2 = records from rfl, hrecords, hfirstRecords, reportFile, reportFile,
    List.map_append, List.map_append, List.flatten_append, List.append_assoc]

namespace FileProcessingPipeline

variable {file file' : InputFile} {lines rest : Bytes}

-- However the threads are interleaved, and whatever the processors did before, the reports on the first lines
-- of a file are those that are written when it ends there.
theorem output_online (e : Environment) (before before' : List OrderProcessor.Event)
    (hf : file.bytes = lines ++ 10 :: rest) (hf' : file'.bytes = lines ++ [10]) :
    ∃ s₀ s₀', OrderProcessor.Reached e.unspecified before s₀ ∧
      OrderProcessor.Reached e.unspecified before' s₀' ∧
      ∀ {m n m' n'} (inbound : InboundOrderQueue m) (outbound : OutboundReportQueue n)
        (inbound' : InboundOrderQueue m') (outbound' : OutboundReportQueue n') schedule schedule',
        let p := (start inbound outbound s₀ (some file)).run e schedule
        let p' := (start inbound' outbound' s₀' (some file')).run e schedule'
        p.ended → p'.ended → p'.writer.outputFile <+: p.writer.outputFile := by
  obtain ⟨s₀, hs₀, hx⟩ := OrderProcessor.reached_agrees e.unspecified before
  obtain ⟨s₀', hs₀', hx'⟩ := OrderProcessor.reached_agrees e.unspecified before'
  refine ⟨s₀, s₀', hs₀, hs₀', ?_⟩
  intro m n m' n' inbound outbound inbound' outbound' schedule schedule' p p' hp hp'
  obtain ⟨hr, _⟩ := ended_report hx inbound outbound schedule hp
  obtain ⟨hr', _⟩ := ended_report hx' inbound' outbound' schedule' hp'
  rw [Option.map_some, hf] at hr
  rw [Option.map_some, hf'] at hr'
  obtain ⟨first, later, hfirst, hbytes⟩ := report_online hr
  cases hr'.symm.trans hfirst
  exact ⟨later, hbytes.symm⟩

theorem output_online_trade :
    let e : Environment := ⟨fun _ => 0, fun _ => default, 4194304⟩
    let lines := ascii "id,flower,side,quantity,price" ++ [10] ++ ascii "a,Rose,1,100,55.00"
    let file : InputFile := ⟨lines ++ 10 :: (ascii "b,Rose,2,100,45.00" ++ [10]), by decide +kernel⟩
    let file' : InputFile := ⟨lines ++ [10], by decide +kernel⟩
    ∃ s₀ s₀', OrderProcessor.Reached e.unspecified [] s₀ ∧ OrderProcessor.Reached e.unspecified [.reset] s₀' ∧
      ∀ {m n m' n'} (inbound : InboundOrderQueue m) (outbound : OutboundReportQueue n)
        (inbound' : InboundOrderQueue m') (outbound' : OutboundReportQueue n') schedule schedule',
        let p := (start inbound outbound s₀ (some file)).run e schedule
        let p' := (start inbound' outbound' s₀' (some file')).run e schedule'
        p.ended → p'.ended → p'.writer.outputFile <+: p.writer.outputFile := by
  intro e lines file file'
  exact output_online e [] [.reset] rfl rfl

end FileProcessingPipeline
