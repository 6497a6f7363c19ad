import FlowerExchange.App.Theorems.FileProcessingPipeline

open CsvOrderProducer CsvReportWriter Matcher

namespace Fifo

variable {α : Type _} {capacity : Nat} {q : Fifo α capacity}

theorem push_or_full (q : Fifo α capacity) (x : α) (hc : 0 < capacity) :
    (∃ q', q.push x = some q') ∨ q.items ≠ [] := by
  by_cases h : q.items.length < capacity
  case pos => exact .inl ⟨_, dif_pos h⟩
  case neg =>
    refine .inr fun hq => h ?_
    rwa [hq, List.length_nil]

theorem pop_of_ne_nil (h : q.items ≠ []) : ∃ x q', q.pop = some (x, q') := by
  cases hp : q.pop
  case none   => exact absurd (items_pop_none hp) h
  case some x => exact ⟨x.1, x.2, rfl⟩

theorem pop_of_nil (h : q.items = []) : q.pop = none := by
  cases hp : q.pop
  case none   => rfl
  case some x => exact absurd h (by simp [items_pop hp])

end Fifo

namespace FileProcessingPipeline

variable {m n : Nat}

-- Whether the next step of a thread is a pop that fails, or a check that does not let it leave its loop.
def Idles (p : FileProcessingPipeline m n) : Thread → Prop
  | .producer => False
  | .matcher  =>
    match p.matcher.location with
    | .check => p.matcher.gotEndOfStream → ¬p.shared.state.producerDone
    | .pop   => p.shared.inbound.items = []
    | _      => False
  | .main     =>
    match p.writer.location with
    | .checkDone  => True
    | .checkEmpty => p.shared.outbound.items ≠ []
    | .pop        => p.shared.outbound.items = []
    | _           => False

-- A thread does not only spin: it takes a step which is not idle, after some idle ones that change nothing
-- that the threads share. A push that fails is no step.
inductive GetsOn (e : Environment) (t : Thread) : FileProcessingPipeline m n → Prop
  | now {p p' : FileProcessingPipeline m n} : (p.step e t = some p') → ¬p.Idles t → GetsOn e t p
  | later {p p' : FileProcessingPipeline m n} :
    (p.step e t = some p') → p.Idles t → (p'.shared = p.shared) → GetsOn e t p' → GetsOn e t p

structure Signals (p : FileProcessingPipeline m n) : Prop where
  producer : p.producer = .ended → p.shared.state.producerDone
  matcher  : p.matcher.location = .ended → p.shared.state.matcherDone

end FileProcessingPipeline

theorem CsvOrderProducer.step_done {m n : Nat} {shared shared' : Shared m n} {t t' : CsvOrderProducer}
    (hs : t.step shared = some (t', shared')) :
    (t' = .ended → shared'.state.producerDone) ∧
      (shared'.state.matcherDone = shared.state.matcherDone) := by
  cases t
  case start file =>
    cases file <;> cases hs
    all_goals exact ⟨fun h => by contradiction, rfl⟩
  case read rows sequence produced =>
    cases rows
    case nil =>
      cases hs
      exact ⟨fun h => by contradiction, rfl⟩
    case cons =>
      simp only [step] at hs
      split at hs
      case isTrue =>
        cases hs
        exact ⟨fun h => by contradiction, rfl⟩
      case isFalse =>
        split at hs
        case h_1 =>
          cases hs
          exact ⟨fun h => by contradiction, rfl⟩
        case h_2 => contradiction
  case push =>
    obtain ⟨_, _, hs⟩ := Option.bind_eq_some_iff.mp hs
    cases hs
    exact ⟨fun h => by contradiction, rfl⟩
  case publishEndOfStream produced =>
    obtain ⟨_, _, hs⟩ := Option.bind_eq_some_iff.mp hs
    cases hs
    refine ⟨fun h => ?_, rfl⟩
    cases produced <;> contradiction
  case storeProduced =>
    cases hs
    exact ⟨fun h => by contradiction, rfl⟩
  case storeDone =>
    cases hs
    exact ⟨fun _ => rfl, rfl⟩
  case ended => contradiction

theorem Matcher.step_done {m n : Nat} {shared shared' : Shared m n} {t t' : Matcher}
    (hs : t.step unspecified times shared = some (t', shared')) :
    (t'.location = .ended → shared'.state.matcherDone) ∧
      (shared'.state.producerDone = shared.state.producerDone) := by
  obtain ⟨processor, consumed, gotEndOfStream, location⟩ := t
  cases location
  case check =>
    simp only [step] at hs
    split at hs <;> cases hs
    all_goals exact ⟨fun h => by contradiction, rfl⟩
  case pop =>
    simp only [step] at hs
    split at hs
    case h_3 =>
      split at hs
      case h_1 =>
        cases hs
        exact ⟨fun h => by contradiction, rfl⟩
      case h_2 => contradiction
    all_goals
      cases hs
      exact ⟨fun h => by contradiction, rfl⟩
  case push reports =>
    cases reports
    case nil =>
      cases hs
      exact ⟨fun h => by contradiction, rfl⟩
    case cons =>
      obtain ⟨_, _, hs⟩ := Option.bind_eq_some_iff.mp hs
      cases hs
      exact ⟨fun h => by contradiction, rfl⟩
  case storeConsumed =>
    cases hs
    exact ⟨fun h => by contradiction, rfl⟩
  case storeDone =>
    cases hs
    exact ⟨fun _ => rfl, rfl⟩
  case ended => contradiction

theorem CsvReportWriter.step_state {m n : Nat} {shared shared' : Shared m n} {w w' : CsvReportWriter}
    (hs : w.step threshold shared = some (w', shared')) : shared'.state = shared.state := by
  obtain ⟨batch, file, location⟩ := w
  cases location
  case pop =>
    simp only [step] at hs
    split at hs <;> cases hs
    all_goals rfl
  all_goals first | contradiction | (cases hs; rfl)

namespace FileProcessingPipeline

variable {m n : Nat} {e : Environment} {p p' : FileProcessingPipeline m n} {s₀ : OrderProcessor}
variable {messages handled : List InboundOrderMsg} {offered : List (Option InboundOrderMsg)}
variable {made appended : List OutboundReportMsg}

theorem Signals.step (h : p.Signals) {t : Thread} (hs : p.step e t = some p') : p'.Signals := by
  cases t
  case producer =>
    obtain ⟨⟨producer, shared⟩, ht, hs⟩ := Option.bind_eq_some_iff.mp hs
    cases hs
    have ⟨hp, hm⟩ := step_done ht
    exact ⟨hp, hm ▸ h.matcher⟩
  case matcher =>
    obtain ⟨⟨matcher, shared⟩, ht, hs⟩ := Option.bind_eq_some_iff.mp hs
    cases hs
    have ⟨hm, hp⟩ := Matcher.step_done ht
    exact ⟨hp ▸ h.producer, hm⟩
  case main =>
    simp only [FileProcessingPipeline.step, stepMain] at hs
    split at hs
    case h_1 =>
      obtain ⟨-, hs⟩ := Option.ite_none_right_eq_some.mp hs
      cases hs
      exact ⟨fun _ => rfl, h.matcher⟩
    case h_2 =>
      obtain ⟨-, hs⟩ := Option.ite_none_right_eq_some.mp hs
      cases hs
      exact ⟨h.producer, fun _ => rfl⟩
    case h_3 =>
      obtain ⟨⟨writer, shared⟩, ht, hs⟩ := Option.bind_eq_some_iff.mp hs
      cases hs
      have hst := step_state ht
      exact ⟨hst ▸ h.producer, hst ▸ h.matcher⟩

theorem run_signals (h : p.Signals) (schedule : List Thread) : (p.run e schedule).Signals := by
  refine Machine.exec_invariant (fun {p} t h => ?_) h
  cases hs : p.step e t
  case none   => simpa [hs] using h
  case some p => simpa [hs] using h.step hs

theorem step_checkDone (shared : Shared m n) (producer : CsvOrderProducer) (matcher : Matcher)
    (batch file : Bytes) :
    step e ⟨shared, producer, matcher, batch, file, .checkDone⟩ .main =
      some ⟨shared, producer, matcher, batch, file,
        if shared.state.matcherDone then .checkEmpty else .pop⟩ :=
  rfl

namespace GetsOn

theorem main_pop (hl : p.writer.location = .pop) (hq : p.shared.outbound.items ≠ []) : GetsOn e .main p := by
  obtain ⟨shared, producer, matcher, batch, file, location⟩ := p
  cases hl
  have ⟨report, outbound, hp⟩ := Fifo.pop_of_ne_nil hq
  have hs : step e ⟨shared, producer, matcher, batch, file, .pop⟩ .main =
      some ⟨{ shared with outbound }, producer, matcher, batch, file, .append report⟩ := by
    simp [FileProcessingPipeline.step, stepMain, CsvReportWriter.step, hp]
  exact .now hs hq

theorem main_of_reports (h : Wrote p.writer p.shared.state.matcherDone p.shared.outbound.items appended)
    (hd : ¬p.shared.state.matcherDone) (hq : p.shared.outbound.items ≠ []) : GetsOn e .main p := by
  have hk := h.knows
  obtain ⟨shared, producer, matcher, batch, file, location⟩ := p
  cases location
  case checkDone =>
    have hs := step_checkDone (e := e) shared producer matcher batch file
    rw [if_neg hd] at hs
    exact .later hs trivial rfl <| main_pop rfl hq
  case pop           => exact main_pop rfl hq
  case append report => exact .now rfl id
  case checkEmpty    => exact absurd hk hd
  all_goals exact absurd hk.left hd

theorem main_checkEmpty (hl : p.writer.location = .checkEmpty) : GetsOn e .main p := by
  obtain ⟨shared, producer, matcher, batch, file, location⟩ := p
  cases hl
  have hs : step e ⟨shared, producer, matcher, batch, file, .checkEmpty⟩ .main =
      some ⟨shared, producer, matcher, batch, file, if shared.outbound.isEmpty then .flush else .pop⟩ :=
    rfl
  by_cases hq : shared.outbound.items = []
  case pos => exact .now hs (· hq)
  case neg =>
    rw [if_neg (mt Fifo.isEmpty_iff.mp hq)] at hs
    exact .later hs hq rfl <| main_pop rfl hq

theorem main_checkDone (hl : p.writer.location = .checkDone) (hd : p.shared.state.matcherDone) :
    GetsOn e .main p := by
  obtain ⟨shared, producer, matcher, batch, file, location⟩ := p
  cases hl
  have hs := step_checkDone (e := e) shared producer matcher batch file
  rw [if_pos hd] at hs
  exact .later hs trivial rfl <| main_checkEmpty rfl

theorem main_of_ended (hd : p.shared.state.matcherDone) (hp : p.producerEnded) (hm : p.matcherEnded)
    (he : ¬p.ended) : GetsOn e .main p := by
  obtain ⟨shared, producer, matcher, batch, file, location⟩ := p
  cases location
  case checkDone  => exact main_checkDone rfl hd
  case checkEmpty => exact main_checkEmpty rfl
  case pop =>
    by_cases hq : shared.outbound.items = []
    case pos =>
      have hs : step e ⟨shared, producer, matcher, batch, file, .pop⟩ .main =
          some ⟨shared, producer, matcher, batch, file, .checkDone⟩ := by
        simp [FileProcessingPipeline.step, stepMain, CsvReportWriter.step, Fifo.pop_of_nil hq]
      exact .later hs hq rfl <| main_checkDone rfl hd
    case neg => exact main_pop rfl hq
  case append       => exact .now rfl id
  case flush        => exact .now rfl id
  case joinProducer => exact .now (if_pos hp) id
  case joinMatcher  => exact .now (if_pos hm) id
  case ended        => exact absurd (Bool.and_eq_true_iff.mpr ⟨hp, hm⟩) he

variable {lv : Side → Instrument → Levels}

theorem matcher_pop (h : p.matcher.processor.Agrees x) (hl : p.matcher.location = .pop)
    (hq : p.shared.inbound.items ≠ []) : GetsOn e .matcher p := by
  obtain ⟨shared, producer, ⟨processor, consumed, got, location⟩, writer⟩ := p
  cases hl
  obtain ⟨message, inbound, hp⟩ := Fifo.pop_of_ne_nil hq
  cases message
  case none =>
    have hs : step e ⟨shared, producer, ⟨processor, consumed, got, .pop⟩, writer⟩ .matcher =
        some ⟨{ shared with inbound }, producer, ⟨processor, consumed, true, .check⟩, writer⟩ := by
      simp [FileProcessingPipeline.step, Matcher.step, hp]
    exact .now hs hq
  case some message =>
    obtain ⟨processor', hc, _⟩ :=
      OrderProcessor.step_agrees e.unspecified (.consume <| e.times.arrival message) h
    have hs : ∃ p', step e ⟨shared, producer, ⟨processor, consumed, got, .pop⟩, writer⟩ .matcher =
        some p' := by
      simp [FileProcessingPipeline.step, Matcher.step, hp, hc]
    exact hs.elim fun _ hs => .now hs hq

theorem matcher_check (h : p.matcher.processor.Agrees x) (hl : p.matcher.location = .check)
    (hd : p.matcher.gotEndOfStream → p.shared.state.producerDone)
    (hq : ¬p.matcher.gotEndOfStream → p.shared.inbound.items ≠ []) : GetsOn e .matcher p := by
  obtain ⟨shared, producer, ⟨processor, consumed, got, location⟩, writer⟩ := p
  cases hl
  have hs : step e ⟨shared, producer, ⟨processor, consumed, got, .check⟩, writer⟩ .matcher =
      some ⟨shared, producer,
        ⟨processor, consumed, got,
          if !got || !shared.state.producerDone then .pop else .storeConsumed⟩, writer⟩ := by
    simp only [FileProcessingPipeline.step, Matcher.step]
    split <;> rfl
  cases got
  case false =>
    have hi : shared.inbound.items ≠ [] := hq Bool.false_ne_true
    exact .later hs (fun h => absurd h Bool.false_ne_true) rfl <| matcher_pop h rfl hi
  case true =>
    have hd : shared.state.producerDone = true := hd rfl
    simp only [hd, Bool.not_true, Bool.or_self, Bool.false_eq_true, if_false] at hs
    exact .now hs fun hi => hi rfl hd

theorem of_matcher (h : Flow e s₀ messages p offered handled made appended)
    (hx : p.matcher.processor.Agrees x) (hn : 0 < n) (hl : p.matcher.location ≠ .ended)
    (hd : p.matcher.gotEndOfStream → p.shared.state.producerDone)
    (hq : ¬p.matcher.gotEndOfStream → p.shared.inbound.items ≠ []) : ∃ t, GetsOn e t p := by
  have hdone := h.handles.not_done hl
  have hempty := fun hg => (h.handled_eq hg).right.left
  have hwrote := h.wrote
  obtain ⟨shared, producer, ⟨processor, consumed, got, location⟩, writer⟩ := p
  cases location
  case check => exact ⟨.matcher, matcher_check hx rfl hd hq⟩
  case pop =>
    refine ⟨.matcher, ?_⟩
    by_cases hg : got
    case pos =>
      have hs : step e ⟨shared, producer, ⟨processor, consumed, got, .pop⟩, writer⟩ .matcher =
          some ⟨shared, producer, ⟨processor, consumed, got, .check⟩, writer⟩ := by
        simp [FileProcessingPipeline.step, Matcher.step, Fifo.pop_of_nil (hempty hg)]
      exact .later hs (hempty hg) rfl <| matcher_check hx rfl hd hq
    case neg => exact matcher_pop hx rfl (hq hg)
  case push reports =>
    cases reports
    case nil => exact ⟨.matcher, .now rfl id⟩
    case cons report reports =>
      rcases shared.outbound.push_or_full report hn with ⟨outbound, hp⟩ | hf
      · have hs : step e ⟨shared, producer, ⟨processor, consumed, got, .push (report :: reports)⟩, writer⟩
            .matcher = some ⟨{ shared with outbound }, producer,
              ⟨processor, consumed, got, .push reports⟩, writer⟩ := by
          simp [FileProcessingPipeline.step, Matcher.step, hp]
        exact ⟨.matcher, .now hs id⟩
      · exact ⟨.main, main_of_reports hwrote hdone hf⟩
  case storeConsumed => exact ⟨.matcher, .now rfl id⟩
  case storeDone     => exact ⟨.matcher, .now rfl id⟩
  case ended         => exact absurd rfl hl

theorem of_producer (h : Flow e s₀ messages p offered handled made appended)
    (hl : p.producer ≠ .ended) (hm : 0 < m) : GetsOn e .producer p ∨ p.shared.inbound.items ≠ [] := by
  have now {producer' shared'} (hs : p.producer.step p.shared = some (producer', shared')) :
      GetsOn e .producer p := by
    have hs' : p.step e .producer = some { p with producer := producer', shared := shared' } := by
      simp [FileProcessingPipeline.step, hs]
    exact .now hs' id
  have ho := h.offers
  obtain ⟨shared, producer, matcher, writer⟩ := p
  cases ho
  case start file ms _ _ _ => exact .inl <| by cases file <;> exact now rfl
  case read ms produced rows sequence hms _ =>
    left
    cases rows
    case nil => exact now rfl
    case cons row rows =>
      by_cases hsize : row.size < 5
      case pos => exact now (if_pos hsize)
      case neg =>
        rw [List.filter_cons_of_pos (by simpa using hsize)] at hms
        obtain ⟨message, _, hr, _⟩ := messages_cons_inv hms
        have hs : (CsvOrderProducer.read (row :: rows) sequence produced).step shared =
            some (.push message rows (sequence + 1) (produced + 1), shared) := by
          simp only [CsvOrderProducer.step, if_neg hsize, hr]
        exact now hs
  case push ms produced message rows sequence _ _ =>
    rcases shared.inbound.push_or_full (some message) hm with ⟨inbound, hp⟩ | hf
    · exact .inl <| now (by simp only [CsvOrderProducer.step, hp]; rfl)
    · exact .inr hf
  case publishEndOfStream produced _ =>
    rcases shared.inbound.push_or_full none hm with ⟨inbound, hp⟩ | hf
    · exact .inl <| now (by simp only [CsvOrderProducer.step, hp]; rfl)
    · exact .inr hf
  case storeProduced => exact .inl <| now rfl
  case storeDone     => exact .inl <| now rfl
  case ended         => exact absurd rfl hl

end GetsOn

theorem Flow.getsOn (h : Flow e s₀ messages p offered handled made appended) (hs : p.Signals)
    (hx : p.matcher.processor.Agrees x) (hm : 0 < m) (hn : 0 < n) (he : ¬p.ended) :
    ∃ t, GetsOn e t p := by
  have full (hf : p.shared.inbound.items ≠ []) : ∃ t, GetsOn e t p := by
    have hg : ¬p.matcher.gotEndOfStream := fun hg => hf (h.handled_eq hg).right.left
    have hl : p.matcher.location ≠ .ended := by
      intro hl
      have := h.handles.settled
      rw [Settled, hl] at this
      exact hg this.left
    exact GetsOn.of_matcher h hx hn hl (absurd · hg) fun _ => hf
  by_cases hp : p.producer = .ended
  case neg =>
    rcases GetsOn.of_producer h hp hm with hg | hf
    · exact ⟨_, hg⟩
    · exact full hf
  case pos =>
    have hd := hs.producer hp
    by_cases hl : p.matcher.location = .ended
    case pos =>
      exact ⟨.main, .main_of_ended (hs.matcher hl) (producerEnded_iff.mpr hp) (matcherEnded_iff.mpr hl) he⟩
    case neg =>
      refine GetsOn.of_matcher h hx hn hl (fun _ => hd) fun hg hq => ?_
      -- The end of the stream is still to be popped.
      have ho := h.offers
      rw [hp] at ho
      cases ho
      have hi : handled.map some = messages.map some ++ [none] := by
        simpa [seen, hg, hq] using h.inbound
      have hn : none ∈ handled.map some := by simp [hi]
      simp at hn

theorem Flow.processor_agrees (h : Flow e s₀ messages p offered handled made appended)
    (hx : s₀.Agrees x) : ∃ x', p.matcher.processor.Agrees x' := by
  have ⟨_, hr, _⟩ := h.handles.ran
  have ⟨_, hr', hx'⟩ :=
    OrderProcessor.run_agrees e.unspecified (handled.map (.consume <| e.times.arrival ·)) hx
  cases hr.symm.trans hr'
  exact ⟨_, hx'⟩

-- In whatever state the threads are, one of them gets on, until all have ended.
theorem never_stuck (e : Environment) (before : List OrderProcessor.Event) (hm : 0 < m) (hn : 0 < n)
    (h : fileMessages file = .ok messages) : ∃ s₀, OrderProcessor.Reached e.unspecified before s₀ ∧
      ∀ (inbound : InboundOrderQueue m) (outbound : OutboundReportQueue n) schedule,
        let p := (start inbound outbound s₀ file).run e schedule
        ¬p.ended → ∃ t, GetsOn e t p := by
  have ⟨s₀, hs₀, h₀⟩ := OrderProcessor.reached_agrees e.unspecified before
  have ⟨_, hr, h₁⟩ := OrderProcessor.step_agrees e.unspecified .reset h₀
  cases hr
  refine ⟨s₀, hs₀, fun inbound outbound schedule he => ?_⟩
  have ⟨_, _, _, _, hf⟩ := run_flows (start_flows inbound outbound s₀ h (e := e)) schedule
  have hs := run_signals (e := e) (p := start inbound outbound s₀ file) ⟨nofun, nofun⟩ schedule
  have ⟨_, hx⟩ := hf.processor_agrees h₁
  exact hf.getsOn hs hx hm hn he

theorem never_stuck_narrow :
    let file : InputFile := ⟨ascii "Client Order ID,Instrument,Side,Quantity,Price" ++ [10] ++
      ascii "a,Lotus,1,10,1.00" ++ [10] ++ ascii "b,Lotus,2,20,1.00" ++ [10], by decide +kernel⟩
    let e : Environment := ⟨fun _ => 0, fun _ => default, 4194304⟩
    (∃ messages, fileMessages (some file) = .ok messages) ∧
    ∃ s₀, OrderProcessor.Reached e.unspecified [] s₀ ∧
      ∀ (inbound : InboundOrderQueue 1) (outbound : OutboundReportQueue 1) schedule,
        let p := (start inbound outbound s₀ (some file)).run e schedule
        ¬p.ended → ∃ t, GetsOn e t p := by
  intro file e
  have h : fileMessages (some file) = .ok [
      ⟨.copy (ascii "a"), .copy (ascii "Lotus"), 1, 10, .finite 1, 1⟩,
      ⟨.copy (ascii "b"), .copy (ascii "Lotus"), 2, 20, .finite 1, 2⟩] := by decide +kernel
  exact ⟨⟨_, h⟩, never_stuck e [] (by decide) (by decide) h⟩

end FileProcessingPipeline
