import FlowerExchange.App.FileProcessingPipeline
import FlowerExchange.Io.Theorems.CsvReportWriter
import FlowerExchange.Io.Theorems.PushedReports
import FlowerExchange.Matching.Theorems.Consume
import FlowerExchange.Matching.Theorems.Runs

open CsvOrderProducer CsvReportWriter Matcher

namespace FileProcessingPipeline

variable {m n : Nat} {e : Environment} {p p' : FileProcessingPipeline m n} {s₀ : OrderProcessor}
variable {messages handled : List InboundOrderMsg} {offered : List (Option InboundOrderMsg)}
variable {made appended : List OutboundReportMsg} {writer : CsvReportWriter} {shared : Shared m n}

-- What the threads have done with the messages of a file so far. Each message is offered, in the inbound
-- queue, or handled, and each report is pending, in the outbound queue, held, or appended.
structure Flow (e : Environment) (s₀ : OrderProcessor) (messages : List InboundOrderMsg)
    (p : FileProcessingPipeline m n) (offered : List (Option InboundOrderMsg))
    (handled : List InboundOrderMsg) (made appended : List OutboundReportMsg) : Prop where
  offers   : Offers (.ofNat messages.length) p.shared.state p.producer offered
  handles  : Handled e.unspecified e.times s₀ p.matcher p.shared.state handled made
  wrote    : Wrote p.writer p.shared.state.matcherDone p.shared.outbound.items appended
  inbound  : handled.map some ++ p.matcher.seen ++ p.shared.inbound.items ++ offered =
    messages.map some ++ [none]
  outbound : appended ++ p.writer.held ++ p.shared.outbound.items ++ p.matcher.pending = made

def Flows (e : Environment) (s₀ : OrderProcessor) (messages : List InboundOrderMsg)
    (p : FileProcessingPipeline m n) : Prop :=
  ∃ offered handled made appended, Flow e s₀ messages p offered handled made appended

theorem producerEnded_iff : p.producerEnded ↔ p.producer = .ended := by
  unfold producerEnded
  split <;> simp_all

theorem matcherEnded_iff : p.matcherEnded ↔ p.matcher.location = .ended := by
  unfold matcherEnded
  split <;> simp_all

theorem start_flows (inbound : InboundOrderQueue m) (outbound : OutboundReportQueue n)
    (processor : OrderProcessor) (h : fileMessages file = .ok messages) :
    Flows e processor.reset messages (start inbound outbound processor file) :=
  ⟨_, _, _, _, {
    offers   := .start h rfl rfl
    handles  := .start
    wrote    := .start
    inbound  := by simp [start, seen, Fifo.items_clear]
    outbound := by simp [start, held, pending, Fifo.items_clear]
  }⟩

namespace Flow

theorem handled_eq (h : Flow e s₀ messages p offered handled made appended)
    (hg : p.matcher.gotEndOfStream) :
    handled = messages ∧ p.shared.inbound.items = [] ∧ offered = [] := by
  have hi := h.inbound
  simp only [seen, hg, if_true, List.append_assoc, List.singleton_append] at hi
  obtain ⟨h₁, h₂⟩ := stream_inj hi
  exact ⟨h₁, List.append_eq_nil_iff.mp h₂⟩

theorem step_producer (h : Flow e s₀ messages p offered handled made appended)
    (hs : p.step e .producer = some p') : Flows e s₀ messages p' := by
  obtain ⟨⟨producer, shared⟩, ht, hs⟩ := Option.bind_eq_some_iff.mp hs
  cases hs
  have ⟨offered', ho, hi, hq, hd, hc⟩ := step_offers h.offers ht
  refine ⟨offered', handled, made, appended, ho, h.handles.congr hc ?_, h.wrote.congr ?_, ?_, ?_⟩
  · exact fun hd' => h.handles.done <| hd ▸ hd'
  · exact fun _ => ⟨hd, congrArg _ hq⟩
  · rw [List.append_assoc, hi, ← List.append_assoc, h.inbound]
  · rw [hq, h.outbound]

theorem step_matcher (h : Flow e s₀ messages p offered handled made appended)
    (hs : p.step e .matcher = some p') : Flows e s₀ messages p' := by
  obtain ⟨⟨matcher, shared⟩, ht, hs⟩ := Option.bind_eq_some_iff.mp hs
  cases hs
  have ⟨handled', fresh, hh, hi, ho, hp, hd⟩ := step_handled h.handles (h.handled_eq · |>.right.left) ht
  refine ⟨offered, handled', _, appended, h.offers.congr hp, hh, h.wrote.congr (absurd · hd), ?_, ?_⟩
  · rw [hi, h.inbound]
  · rw [List.append_assoc, ho, ← h.outbound]
    simp

theorem step_drain (h : Flow e s₀ messages p offered handled made appended)
    (ht : p.writer.step threshold p.shared = some (writer, shared)) :
    Flows e s₀ messages { p with writer, shared } := by
  have ⟨appended', hw, ho, hq, hs⟩ := step_wrote h.wrote ht
  refine ⟨offered, handled, made, appended', ?_, ?_, hw, ?_, ?_⟩
  · exact h.offers.congr <| hs ▸ rfl
  · exact h.handles.congr (hs ▸ rfl) (hs ▸ h.handles.done)
  · rw [hq, h.inbound]
  · rw [ho, h.outbound]

theorem step_main (h : Flow e s₀ messages p offered handled made appended)
    (hs : p.step e .main = some p') : Flows e s₀ messages p' := by
  simp only [step, stepMain] at hs
  split at hs
  case h_1 hl =>
    obtain ⟨-, hs⟩ := Option.ite_none_right_eq_some.mp hs
    cases hs
    refine ⟨offered, handled, made, appended, h.offers.congr rfl, h.handles.congr rfl h.handles.done, ?_,
      h.inbound, ?_⟩
    · exact h.wrote.goto ⟨rfl, rfl⟩ (by simp [returned, hl]) (by simpa [Knows, hl] using h.wrote.knows)
    · simpa [held, hl] using h.outbound
  case h_2 hl =>
    obtain ⟨he, hs⟩ := Option.ite_none_right_eq_some.mp hs
    cases hs
    refine ⟨offered, handled, made, appended, h.offers.congr rfl, h.handles.congr rfl ?_, ?_, h.inbound, ?_⟩
    · exact fun _ => matcherEnded_iff.mp he
    · exact h.wrote.goto ⟨rfl, rfl⟩ (by simp [returned, hl]) (by have := h.wrote.knows; simp_all [Knows])
    · simpa [held, hl] using h.outbound
  case h_3 =>
    obtain ⟨⟨writer, shared⟩, ht, hs⟩ := Option.bind_eq_some_iff.mp hs
    cases hs
    exact h.step_drain ht

theorem step (h : Flow e s₀ messages p offered handled made appended) {t : Thread}
    (hs : p.step e t = some p') : Flows e s₀ messages p' := by
  cases t
  case producer => exact h.step_producer hs
  case matcher  => exact h.step_matcher hs
  case main     => exact h.step_main hs

theorem matcher_ended (h : Flow e s₀ messages p offered handled made appended)
    (hl : p.matcher.location = .ended) :
    handled = messages ∧ p.shared.state.consumedOrders = .ofNat messages.length := by
  have hs := h.handles.settled
  rw [Settled, hl] at hs
  have ⟨hm, _⟩ := h.handled_eq hs.left
  exact ⟨hm, by rw [hs.right, h.handles.consumed, hm]⟩

theorem drained (h : Flow e s₀ messages p offered handled made appended) (hr : p.writer.returned) :
    handled = messages ∧ p.writer.outputFile = reportFile made := by
  have hw := h.wrote.written
  rw [h.wrote.flushed hr, List.append_nil] at hw
  have hk : p.shared.state.matcherDone ∧ p.shared.outbound.items = [] := by
    have := h.wrote.knows
    unfold returned at hr
    unfold Knows at this
    split at hr <;> simp_all
  have hh : p.writer.held = [] := by
    unfold returned at hr
    unfold held
    split at hr <;> simp_all
  have hl := h.handles.done hk.left
  have ho := h.outbound
  rw [hk.right, hh, pending, hl] at ho
  simp only [List.append_nil] at ho
  exact ⟨(h.matcher_ended hl).left, ho ▸ hw⟩

theorem ended (h : Flow e s₀ messages p offered handled made appended) (he : p.ended) :
    p.shared.state.consumedOrders = .ofNat messages.length ∧
      p.shared.state.producedOrders = .ofNat messages.length := by
  unfold FileProcessingPipeline.ended at he
  split at he
  case h_1 =>
    have ⟨hp, hm⟩ := Bool.and_eq_true_iff.mp he
    have ho := h.offers
    rw [producerEnded_iff.mp hp] at ho
    cases ho
    case ended ho => exact ⟨(h.matcher_ended <| matcherEnded_iff.mp hm).right, ho⟩
  case h_2 => contradiction

end Flow

theorem run_flows (h : Flows e s₀ messages p) (schedule : List Thread) :
    Flows e s₀ messages (p.run e schedule) := by
  refine Machine.exec_invariant (fun {p} t h => ?_) h
  cases hs : p.step e t
  case none => simpa [hs] using h
  case some =>
    have ⟨_, _, _, _, h⟩ := h
    simpa [hs] using h.step hs

theorem file_reports (e : Environment) (before : List OrderProcessor.Event)
    (h : fileMessages file = .ok messages) : ∃ s₀ s,
      let emitted :=
        (Exchange.history e.unspecified (messages.map e.times.arrival)).2.map (·.map Record.emission)
      OrderProcessor.Reached e.unspecified before s₀ ∧
      (Machine.run (OrderProcessor.step e.unspecified) (messages.map (.consume <| e.times.arrival ·))
        s₀.reset = .ok (s, emitted)) ∧
      ∀ {m n} (inbound : InboundOrderQueue m) (outbound : OutboundReportQueue n) schedule,
        let p := (start inbound outbound s₀ file).run e schedule
        p.writer.returned → p.writer.outputFile = reportFile (emitted.flatten.map Emission.output) := by
  obtain ⟨s₀, hs₀, h₀⟩ := OrderProcessor.reached_agrees e.unspecified before
  obtain ⟨_, hr, h₁⟩ := OrderProcessor.step_agrees e.unspecified .reset h₀
  cases hr
  have hrun := OrderProcessor.run_agrees e.unspecified (messages.map (.consume <| e.times.arrival ·)) h₁
  obtain ⟨s, hrun, _⟩ := hrun
  have hm : messages.map (.consume <| e.times.arrival ·) =
      (messages.map e.times.arrival).map OrderProcessor.Event.consume := by
    rw [List.map_map]
    rfl
  rw [Exchange.step, hm, Exchange.history_exec, ← hm] at hrun
  refine ⟨s₀, s, hs₀, hrun, fun inbound outbound schedule hr => ?_⟩
  obtain ⟨_, _, _, _, hf⟩ := run_flows (start_flows inbound outbound s₀ h (e := e)) schedule
  obtain ⟨hm, hw⟩ := hf.drained hr
  obtain ⟨_, hrun', he⟩ := hf.handles.ran
  rw [hm, hrun] at hrun'
  cases hrun'
  rw [hw, he]

theorem append_history (e : Environment) (h : fileMessages file = .ok messages) :
    ∀ r ∈ (Exchange.history e.unspecified (messages.map e.times.arrival)).2.flatten, ∀ destination,
      appendCsvRow destination r.emission.output = .ok (destination ++ csvRow r.emission.output) := by
  intro r hr destination
  have hside : ∀ a ∈ messages.map e.times.arrival, a.message.side.natAbs < 2 ^ 31 :=
    List.forall_mem_map.mpr <| messages_side h
  exact appendCsvRow_eq (Exchange.history_fits hside hr) destination

-- Whatever the processor has been through, and whatever the order of the steps of the threads is, the
-- output file holds the reports that are sent out when the messages are consumed one after the other. The
-- row of each of them is what `append_csv_row` appends.
theorem reports_agree (e : Environment) (before : List OrderProcessor.Event)
    (h : fileMessages file = .ok messages) : ∃ s₀ s, ∃ emitted : List (List Emission),
      OrderProcessor.Reached e.unspecified before s₀ ∧
      (Machine.run (OrderProcessor.step e.unspecified) (messages.map (.consume <| e.times.arrival ·))
        s₀.reset = .ok (s, emitted)) ∧
      (∀ emission ∈ emitted.flatten, ∀ destination, appendCsvRow destination emission.output =
        .ok (destination ++ csvRow emission.output)) ∧
      ∀ {m n} (inbound : InboundOrderQueue m) (outbound : OutboundReportQueue n) schedule,
        let p := (start inbound outbound s₀ file).run e schedule
        (p.writer.returned →
          p.writer.outputFile = reportFile (emitted.flatten.map Emission.output)) ∧
        (p.ended → p.shared.state.consumedOrders = p.shared.state.producedOrders ∧
          p.shared.state.producedOrders.toNat = (orderRows file).length) := by
  have ⟨s₀, s, hs₀, hrun, hw⟩ := file_reports e before h
  refine ⟨s₀, s, _, hs₀, hrun, ?_, fun inbound outbound schedule =>
    ⟨hw inbound outbound schedule, fun he => ?_⟩⟩
  · rw [← List.map_flatten]
    exact List.forall_mem_map.mpr <| append_history e h
  have ⟨_, _, _, _, hf⟩ := run_flows (start_flows inbound outbound s₀ h (e := e)) schedule
  have ⟨hc, hp⟩ := hf.ended he
  have hl := length_messages h
  have := length_orderRows_lt file
  refine ⟨hc.trans hp.symm, ?_⟩
  rw [hp, hl, UInt64.toNat_ofNat', Nat.mod_eq_of_lt (by omega)]

theorem reports_agree_trade :
    let file : InputFile := ⟨ascii "Client Order ID,Instrument,Side,Quantity,Price" ++ [10] ++
      ascii "a,Rose,2,10,1.00" ++ [10] ++ ascii "b,Rose,1,20,1.00" ++ [10], by decide +kernel⟩
    let sell : InboundOrderMsg := ⟨.copy (ascii "a"), .copy (ascii "Rose"), 2, 10, .finite 1, 1⟩
    let buy  : InboundOrderMsg := ⟨.copy (ascii "b"), .copy (ascii "Rose"), 1, 20, .finite 1, 2⟩
    let e : Environment := ⟨fun _ => 0, fun _ => default, 4194304⟩
    (fileMessages (some file) = .ok [sell, buy]) ∧ ∃ s₀ s, ∃ emitted : List (List Emission),
      OrderProcessor.Reached e.unspecified [] s₀ ∧
      (Machine.run (OrderProcessor.step e.unspecified) ([sell, buy].map (.consume <| e.times.arrival ·))
        s₀.reset = .ok (s, emitted)) ∧
      (∀ emission ∈ emitted.flatten, ∀ destination, appendCsvRow destination emission.output =
        .ok (destination ++ csvRow emission.output)) ∧
      ∀ {m n} (inbound : InboundOrderQueue m) (outbound : OutboundReportQueue n) schedule,
        let p := (start inbound outbound s₀ (some file)).run e schedule
        (p.writer.returned →
          p.writer.outputFile = reportFile (emitted.flatten.map Emission.output)) ∧
        (p.ended → p.shared.state.consumedOrders = p.shared.state.producedOrders ∧
          p.shared.state.producedOrders.toNat = 2) := by
  intro file sell buy e
  have h : fileMessages (some file) = .ok [sell, buy] := by decide +kernel
  exact ⟨h, reports_agree e [] h⟩

end FileProcessingPipeline
