import FlowerExchange.App.Theorems.UncaughtErrors
import FlowerExchange.Io.Theorems.PushedReports
import FlowerExchange.Matching.Theorems.Work

open CsvOrderProducer CsvReportWriter Decimal Fairness

theorem length_flatten_le {rows : List Bytes} {n : Nat} (h : ∀ row ∈ rows, row.length ≤ n) :
    rows.flatten.length ≤ n * rows.length := by
  have hs := List.sum_le_card_nsmul (rows.map List.length) n fun k hk => by
    obtain ⟨row, hr, rfl⟩ := List.mem_map.mp hk
    exact h row hr
  rw [List.length_flatten]
  simpa [Nat.mul_comm] using hs

theorem Exchange.exec_fits (unspecified : ℚ → Int64) (arrivals : List Arrival)
    (ha : ∀ a ∈ arrivals, a.message.side.natAbs < 2 ^ 31) :
    let emitted := (Machine.exec (step unspecified) (arrivals.map .consume) .empty).2.flatten
    (emitted.length ≤ 2 * arrivals.countP (·.message.validate = none) + arrivals.length) ∧
      ∀ e ∈ emitted, e.output.Fits := by
  intro emitted
  constructor
  case left =>
    obtain ⟨ht, hn⟩ := exec_openOrders unspecified .empty (arrivals.map .consume)
    have hl := List.length_eq_countP_add_countP (·.isTrade) (l := emitted)
    have hc : (arrivals.map OrderProcessor.Event.consume).countP (·.consumes) = arrivals.length := by
      simp [List.countP_map, Function.comp_def, OrderProcessor.Event.consumes]
    have hv : (arrivals.map OrderProcessor.Event.consume).countP (·.accepted) =
        arrivals.countP (·.message.validate = none) := by
      rw [List.countP_map]
      rfl
    have hz : openOrders (Market.empty : Exchange).resting = 0 := by simp [openOrders, Market.empty]
    simp only [hc, hv, hz] at ht hn
    simp only [emitted, decide_not, Bool.decide_eq_true] at hl ⊢
    omega
  case right =>
    intro e he
    simp only [emitted, history_exec, ← List.map_flatten] at he
    obtain ⟨r, hr, rfl⟩ := List.mem_map.mp he
    exact history_fits ha hr

theorem CsvReportWriter.step_batch {threshold : Nat} {shared shared' : Shared m n} {w w' : CsvReportWriter}
    (h : w.writeBatch.length < threshold) (hs : w.step threshold shared = some (w', shared')) :
    w'.writeBatch.length < threshold := by
  unfold step at hs
  split at hs
  case h_4 =>
    cases hs
    simp only [append]
    split
    case isTrue      => exact Nat.zero_lt_of_lt h
    case isFalse hlt => exact Nat.lt_of_not_ge hlt
  case h_5 =>
    cases hs
    exact Nat.zero_lt_of_lt h
  case h_6 => contradiction
  all_goals
    repeat' split at hs
    all_goals
      cases hs
      exact h

namespace FileProcessingPipeline

variable {m n : Nat} {e : Environment} {p p' : FileProcessingPipeline m n} {s₀ : OrderProcessor}
variable {messages : List InboundOrderMsg}

theorem run_cut_flows (h : Flows e s₀ messages p.cut) (schedule : List Thread) :
    Flows e s₀ messages (p.run e schedule).cut :=
  after_invariant (P := fun p : FileProcessingPipeline m n => Flows e s₀ messages p.cut) (fun h hs => by
    rcases step_cut hs with hc | hs
    · exact hc ▸ h
    · have ⟨_, _, _, _, hf⟩ := h
      exact hf.step hs) h schedule

theorem step_batch (h : p.writer.writeBatch.length < e.threshold) (hs : p.step e t = some p') :
    p'.writer.writeBatch.length < e.threshold := by
  cases t
  case producer | matcher =>
    obtain ⟨_, _, hs⟩ := Option.bind_eq_some_iff.mp hs
    cases hs
    exact h
  case main =>
    simp only [step, stepMain] at hs
    split at hs
    case h_1 | h_2 =>
      obtain ⟨-, hs⟩ := Option.ite_none_right_eq_some.mp hs
      cases hs
      exact h
    case h_3 =>
      obtain ⟨_, hw, hs⟩ := Option.bind_eq_some_iff.mp hs
      cases hs
      exact step_batch h hw

theorem Flow.length_written (h : Flow e s₀ messages p offered handled made appended) (hx : s₀.Agrees .empty)
    (hm : ∀ message ∈ messages, message.side.natAbs < 2 ^ 31) :
    p.writer.outputFile.length + p.writer.writeBatch.length ≤ header.length +
      320 * (2 * messages.countP (·.validate = none) + messages.length) := by
  have ⟨later, hl⟩ : handled <+: messages := by
    have hi := congrArg (List.filterMap id) h.inbound
    simp only [List.filterMap_append, List.filterMap_map, Function.comp_def, id, List.append_assoc] at hi
    exact ⟨_, by simpa using hi⟩
  subst hl
  have ⟨emitted, hrun, hmade⟩ := h.handles.ran
  have ⟨_, hrun', _⟩ := OrderProcessor.run_agrees e.unspecified (handled.map (.consume <| e.times.arrival ·)) hx
  cases hrun.symm.trans hrun'
  have ⟨hl, hf⟩ := Exchange.exec_fits e.unspecified (handled.map e.times.arrival) fun a ha => by
    obtain ⟨message, hh, rfl⟩ := List.mem_map.mp ha
    exact hm message <| List.mem_append_left _ hh
  rw [List.map_map] at hl hf
  rw [List.length_map, List.countP_map] at hl
  have hsub : appended <+: made := by
    rw [← h.outbound, List.append_assoc, List.append_assoc]
    exact List.prefix_append ..
  have happ : appended.length ≤ 2 * handled.countP (·.validate = none) + handled.length :=
    hsub.length_le.trans <| by rw [hmade, List.length_map]; exact hl
  have hrow : ∀ row ∈ appended.map csvRow, row.length ≤ 320 := by
    intro row hr
    obtain ⟨message, hm, rfl⟩ := List.mem_map.mp hr
    have hm := hsub.subset hm
    rw [hmade] at hm
    obtain ⟨emission, he, rfl⟩ := List.mem_map.mp hm
    exact length_csvRow_le <| hf emission he
  have hflat := length_flatten_le hrow
  have hw := congrArg List.length h.wrote.written
  rw [List.length_map] at hflat
  rw [reportFile, List.length_append, List.length_append] at hw
  rw [List.countP_append, List.length_append]
  omega

-- At every point of every interleaving, what has been written is linear in the messages that can be made of
-- the input file, and what is held back is below the threshold.
theorem output_linear (e : Environment) (before : List OrderProcessor.Event) (file : Option InputFile)
    (ht : header.length < e.threshold) : ∃ s₀, OrderProcessor.Reached e.unspecified before s₀ ∧
      ∀ {m n} (inbound : InboundOrderQueue m) (outbound : OutboundReportQueue n) schedule,
        let p := (start inbound outbound s₀ file).run e schedule
        let messages := readableMessages file
        (p.writer.outputFile.length + p.writer.writeBatch.length ≤ header.length +
          320 * (2 * messages.countP (·.validate = none) + messages.length)) ∧
        p.writer.writeBatch.length < e.threshold := by
  have ⟨s₀, hs₀, hx⟩ := OrderProcessor.reached_agrees e.unspecified before
  obtain ⟨_, hr, hx⟩ := OrderProcessor.step_agrees e.unspecified .reset hx
  cases hr
  refine ⟨s₀, hs₀, fun inbound outbound schedule => ⟨?_, ?_⟩⟩
  · have ⟨_, _, _, _, hf⟩ := run_cut_flows (start_cut_flows inbound outbound s₀ file (e := e)) schedule
    refine hf.length_written hx ?_
    cases file
    case none   => exact List.forall_mem_nil _
    case some _ => exact messages_side <| messages_readable 1 _
  · exact after_invariant step_batch ht schedule

theorem output_linear_malformed :
    let file : InputFile := ⟨ascii "id,flower,side,quantity,price" ++ [10] ++ ascii "a,Rose,1,10,1.00" ++ [10] ++
      ascii "b,Rose,2,ten,1.00" ++ [10], by decide +kernel⟩
    let e : Environment := ⟨fun _ => 0, fun _ => default, 4194304⟩
    ∃ s₀, OrderProcessor.Reached e.unspecified [] s₀ ∧
      ∀ {m n} (inbound : InboundOrderQueue m) (outbound : OutboundReportQueue n) schedule,
        let p := (start inbound outbound s₀ (some file)).run e schedule
        (p.writer.outputFile.length + p.writer.writeBatch.length ≤ header.length + 960) ∧
        p.writer.writeBatch.length < 4194304 := by
  intro file e
  have ⟨s₀, hs₀, h⟩ := output_linear e [] (some file) (by decide +kernel)
  have hm : 320 * (2 * (readableMessages (some file)).countP (·.validate = none) +
    (readableMessages (some file)).length) = 960 := by decide +kernel
  refine ⟨s₀, hs₀, fun inbound outbound schedule => ?_⟩
  have ⟨hl, hb⟩ := h inbound outbound schedule
  exact ⟨hm ▸ hl, hb⟩

end FileProcessingPipeline
