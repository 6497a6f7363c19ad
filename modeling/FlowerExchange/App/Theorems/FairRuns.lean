import FlowerExchange.App.Theorems.Progress
import FlowerExchange.Lib.Fairness

open CsvOrderProducer CsvReportWriter Matcher Fairness

def CsvOrderProducer.remaining : CsvOrderProducer → Nat
  | start none           => 4
  | start (some file)    => 2 * (csvRange file.bytes).tail.length + 5
  | read rows _ _        => 2 * rows.length + 4
  | push _ rows _ _      => 2 * rows.length + 5
  | publishEndOfStream _ => 3
  | storeProduced _      => 2
  | storeDone            => 1
  | ended                => 0

namespace Matcher

def remaining (t : Matcher) : Nat :=
  match t.location with
  | .check | .pop | .push _ => 3
  | .storeConsumed          => 2
  | .storeDone              => 1
  | .ended                  => 0

def unpushed (t : Matcher) : Nat :=
  match t.location with
  | .push reports => reports.length + 1
  | _             => 0

end Matcher

namespace CsvReportWriter

def remaining (w : CsvReportWriter) : Nat :=
  match w.location with
  | .checkDone | .checkEmpty | .pop | .append _ => 4
  | .flush                                      => 3
  | .joinProducer                               => 2
  | .joinMatcher                                => 1
  | .ended                                      => 0

def unappended (w : CsvReportWriter) : Nat :=
  match w.location with
  | .append _ => 1
  | _         => 0

end CsvReportWriter

theorem CsvOrderProducer.step_remaining {m n : Nat} {shared shared' : Shared m n}
    {t t' : CsvOrderProducer} (hs : t.step shared = some (t', shared')) : t'.remaining < t.remaining := by
  cases t
  case start file => cases file <;> cases hs <;> simp [remaining]
  case read rows sequence produced =>
    cases rows
    case nil =>
      cases hs
      simp [remaining]
    case cons row rows =>
      simp only [CsvOrderProducer.step] at hs
      split at hs
      case isTrue =>
        cases hs
        simp [remaining]
      case isFalse =>
        split at hs <;> cases hs
        simp [remaining]
        omega
  case push =>
    obtain ⟨_, _, hs⟩ := Option.bind_eq_some_iff.mp hs
    cases hs
    simp [remaining]
  case publishEndOfStream produced =>
    obtain ⟨_, _, hs⟩ := Option.bind_eq_some_iff.mp hs
    cases hs
    cases produced <;> simp [remaining]
  case storeProduced | storeDone =>
    cases hs
    simp [remaining]
  case ended => contradiction

namespace FileProcessingPipeline

variable {m n : Nat} {e : Environment} {p p' q : FileProcessingPipeline m n} {t u : Thread}

-- What is left for the threads to do. A message that is handled makes for more to be pushed, and so on, so
-- that the counts are compared one after the other.
def remaining (p : FileProcessingPipeline m n) : ℕ ×ₗ ℕ ×ₗ ℕ ×ₗ ℕ ×ₗ ℕ :=
  toLex (p.producer.remaining, toLex (p.shared.inbound.items.length + p.matcher.remaining,
    toLex (p.matcher.unpushed, toLex (p.shared.outbound.items.length + p.writer.remaining,
      p.writer.unappended))))

structure Alike (t : Thread) (p q : FileProcessingPipeline m n) : Prop where
  shared   : q.shared = p.shared
  producer : t = .producer → q.producer = p.producer
  matcher  : t = .matcher → q.matcher = p.matcher
  writer   : t = .main → q.writer = p.writer
  ended    : t = .main → q.producerEnded = p.producerEnded ∧ q.matcherEnded = p.matcherEnded

structure Idled (t : Thread) (p p' : FileProcessingPipeline m n) : Prop where
  idles     : p.Idles t
  remaining : p'.remaining = p.remaining
  alike     : ∀ u ≠ t, Alike u p p'

structure Acted (t : Thread) (p p' : FileProcessingPipeline m n) : Prop where
  acts      : ¬p.Idles t
  remaining : p'.remaining < p.remaining

theorem step_producer_acted (hs : p.step e .producer = some p') : Acted .producer p p' := by
  obtain ⟨⟨producer, shared⟩, ht, hs⟩ := Option.bind_eq_some_iff.mp hs
  cases hs
  exact ⟨id, Prod.Lex.toLex_lt_toLex.mpr <| .inl <| step_remaining ht⟩

theorem matcherEnded_eq (p : FileProcessingPipeline m n) :
    p.matcherEnded = (p.matcher.remaining == 0) := by
  obtain ⟨_, _, ⟨_, _, _, location⟩, _⟩ := p
  cases location <;> rfl

theorem Idled.matcher {matcher : Matcher} (hi : p.Idles .matcher)
    (hr : matcher.remaining = p.matcher.remaining) (hu : matcher.unpushed = p.matcher.unpushed) :
    Idled .matcher p { p with matcher } where
  idles     := hi
  remaining := by simp only [FileProcessingPipeline.remaining, hr, hu]
  alike u hne := by
    refine ⟨rfl, fun _ => rfl, fun h => absurd h hne, fun _ => rfl, fun _ => ⟨rfl, ?_⟩⟩
    rw [matcherEnded_eq, matcherEnded_eq, hr]

theorem Acted.matcher {matcher : Matcher} {shared : Shared m n} (hi : ¬p.Idles .matcher)
    (h : shared.inbound.items.length + matcher.remaining <
        p.shared.inbound.items.length + p.matcher.remaining ∨
      shared.inbound.items.length + matcher.remaining =
        p.shared.inbound.items.length + p.matcher.remaining ∧ matcher.unpushed < p.matcher.unpushed) :
    Acted .matcher p { p with matcher, shared } where
  acts      := hi
  remaining := by
    refine Prod.Lex.toLex_lt_toLex.mpr <| .inr ⟨rfl, Prod.Lex.toLex_lt_toLex.mpr ?_⟩
    exact h.imp_right <| And.imp_right <| Prod.Lex.toLex_lt_toLex.mpr ∘ .inl

theorem step_matcher_cases (hs : p.step e .matcher = some p') :
    Idled .matcher p p' ∨ Acted .matcher p p' := by
  obtain ⟨⟨matcher, shared⟩, ht, hs⟩ := Option.bind_eq_some_iff.mp hs
  cases hs
  obtain ⟨shared, producer, ⟨processor, consumed, got, location⟩, writer⟩ := p
  cases location
  case check =>
    simp only [Matcher.step] at ht
    split at ht <;> cases ht
    case isTrue h =>
      refine .inl <| .matcher (fun hg => ?_) rfl rfl
      simpa [show got = true from hg] using h
    case isFalse h =>
      refine .inr <| .matcher (fun hi => ?_) (.inl <| by simp [Matcher.remaining])
      simp_all [Idles]
  case pop =>
    simp only [Matcher.step] at ht
    split at ht
    case h_1 hp =>
      cases ht
      exact .inl <| .matcher (Fifo.items_pop_none hp) rfl rfl
    case h_2 hp =>
      cases ht
      have hp := Fifo.items_pop hp
      exact .inr <| .matcher (by simp [Idles, hp]) (.inl <| by simp [Matcher.remaining, hp])
    case h_3 hp =>
      split at ht <;> cases ht
      have hp := Fifo.items_pop hp
      exact .inr <| .matcher (by simp [Idles, hp]) (.inl <| by simp [Matcher.remaining, hp])
  case push reports =>
    cases reports
    case nil =>
      cases ht
      exact .inr <| .matcher id (.inr ⟨rfl, by simp [unpushed]⟩)
    case cons =>
      obtain ⟨_, _, ht⟩ := Option.bind_eq_some_iff.mp ht
      cases ht
      exact .inr <| .matcher id (.inr ⟨rfl, by simp [unpushed]⟩)
  case storeConsumed | storeDone =>
    cases ht
    exact .inr <| .matcher id (.inl <| by simp [Matcher.remaining])
  case ended => contradiction

theorem Idled.main {writer : CsvReportWriter} (hi : p.Idles .main)
    (hr : writer.remaining = p.writer.remaining) (hu : writer.unappended = p.writer.unappended) :
    Idled .main p { p with writer } where
  idles       := hi
  remaining   := by simp only [FileProcessingPipeline.remaining, hr, hu]
  alike u hne := ⟨rfl, fun _ => rfl, fun _ => rfl, (absurd · hne), (absurd · hne)⟩

theorem Acted.main {writer : CsvReportWriter} {shared : Shared m n} (hi : ¬p.Idles .main)
    (hq : shared.inbound = p.shared.inbound)
    (h : shared.outbound.items.length + writer.remaining <
        p.shared.outbound.items.length + p.writer.remaining ∨
      shared.outbound.items.length + writer.remaining =
        p.shared.outbound.items.length + p.writer.remaining ∧
        writer.unappended < p.writer.unappended) :
    Acted .main p { p with writer, shared } where
  acts      := hi
  remaining := by
    refine Prod.Lex.toLex_lt_toLex.mpr <| .inr ⟨rfl, Prod.Lex.toLex_lt_toLex.mpr <| .inr ⟨?_, ?_⟩⟩
    · exact congrArg (·.items.length + p.matcher.remaining) hq
    · exact Prod.Lex.toLex_lt_toLex.mpr <| .inr ⟨rfl, Prod.Lex.toLex_lt_toLex.mpr h⟩

theorem step_main_cases (hs : p.step e .main = some p') : Idled .main p p' ∨ Acted .main p p' := by
  obtain ⟨shared, producer, matcher, ⟨batch, file, location⟩⟩ := p
  cases location
  case checkDone =>
    cases hs
    left
    by_cases hd : shared.state.matcherDone
    all_goals exact .main trivial (by simp [CsvReportWriter.remaining, hd]) (by simp [unappended, hd])
  case checkEmpty =>
    cases hs
    by_cases he : shared.outbound.isEmpty
    case pos =>
      refine .inr <| .main (not_not.mpr <| Fifo.isEmpty_iff.mp he) rfl <| .inl ?_
      simp [CsvReportWriter.remaining, he]
    case neg =>
      exact .inl <| .main (mt Fifo.isEmpty_iff.mpr he) (by simp [CsvReportWriter.remaining, he])
        (by simp [unappended, he])
  case pop =>
    simp only [step, stepMain, CsvReportWriter.step] at hs
    split at hs
    case h_1 hp =>
      cases hs
      exact .inl <| .main (Fifo.items_pop_none hp) rfl rfl
    case h_2 hp =>
      cases hs
      have hp := Fifo.items_pop hp
      exact .inr <| .main (by simp [Idles, hp]) rfl (.inl <| by simp [CsvReportWriter.remaining, hp])
  case append =>
    cases hs
    exact .inr <| .main id rfl (.inr ⟨rfl, Nat.zero_lt_one⟩)
  case flush =>
    cases hs
    exact .inr <| .main id rfl (.inl <| by simp [CsvReportWriter.remaining])
  case joinProducer | joinMatcher =>
    obtain ⟨-, hs⟩ := Option.ite_none_right_eq_some.mp hs
    cases hs
    exact .inr <| .main id rfl (.inl <| by simp [CsvReportWriter.remaining])
  case ended => contradiction

theorem step_cases (hs : p.step e t = some p') : Idled t p p' ∨ Acted t p p' := by
  cases t
  case producer => exact .inr <| step_producer_acted hs
  case matcher  => exact step_matcher_cases hs
  case main     => exact step_main_cases hs

theorem step_drain_inv (hp : p.writer.location ≠ .joinProducer) (hm : p.writer.location ≠ .joinMatcher)
    (hs : p.step e .main = some p') : ∃ x, p.writer.step e.threshold p.shared = some x ∧
      p' = { p with writer := x.1, shared := x.2 } := by
  simp only [step, stepMain] at hs
  obtain ⟨x, ht, hs⟩ := Option.bind_eq_some_iff.mp hs
  exact ⟨x, ht, Option.some.inj hs |>.symm⟩

namespace Alike

theorem idles_iff (h : Alike t p q) : q.Idles t ↔ p.Idles t := by
  obtain ⟨shared, producer, matcher, writer⟩ := p
  obtain ⟨shared', producer', matcher', writer'⟩ := q
  obtain rfl : shared' = shared := h.shared
  cases t
  case producer => rfl
  case matcher =>
    obtain rfl : matcher' = matcher := h.matcher rfl
    rfl
  case main =>
    obtain rfl : writer' = writer := h.writer rfl
    rfl

theorem step (h : Alike t p q) (hs : p.step e t = some p') : ∃ q', q.step e t = some q' ∧ Alike t p' q' := by
  obtain ⟨shared, producer, matcher, writer⟩ := p
  obtain ⟨shared', producer', matcher', writer'⟩ := q
  obtain rfl : shared' = shared := h.shared
  cases t
  case producer =>
    obtain rfl : producer' = producer := h.producer rfl
    obtain ⟨x, ht, hs⟩ := Option.bind_eq_some_iff.mp hs
    cases hs
    refine ⟨_, by simp only [FileProcessingPipeline.step, ht]; rfl, ?_⟩
    exact ⟨rfl, fun _ => rfl, by simp, by simp, by simp⟩
  case matcher =>
    obtain rfl : matcher' = matcher := h.matcher rfl
    obtain ⟨x, ht, hs⟩ := Option.bind_eq_some_iff.mp hs
    cases hs
    refine ⟨_, by simp only [FileProcessingPipeline.step, ht]; rfl, ?_⟩
    exact ⟨rfl, by simp, fun _ => rfl, by simp, by simp⟩
  case main =>
    obtain rfl : writer' = writer := h.writer rfl
    obtain ⟨hp, hm⟩ := h.ended rfl
    obtain ⟨batch, file, location⟩ := writer'
    cases location
    case joinProducer =>
      obtain ⟨he, hs⟩ := Option.ite_none_right_eq_some.mp hs
      cases hs
      exact ⟨_, if_pos (hp.trans he), rfl, by simp, by simp, fun _ => rfl, fun _ => ⟨hp, hm⟩⟩
    case joinMatcher =>
      obtain ⟨he, hs⟩ := Option.ite_none_right_eq_some.mp hs
      cases hs
      exact ⟨_, if_pos (hm.trans he), rfl, by simp, by simp, fun _ => rfl, fun _ => ⟨hp, hm⟩⟩
    all_goals
      obtain ⟨x, ht, hs⟩ := step_drain_inv (by simp) (by simp) hs
      subst hs
      refine ⟨_, by simp only [FileProcessingPipeline.step, stepMain, ht]; rfl, ?_⟩
      exact ⟨rfl, by simp, by simp, fun _ => rfl, fun _ => ⟨hp, hm⟩⟩

theorem actsIn (h : Alike t p q) {r : Nat} (ha : ActsIn (FileProcessingPipeline.step e) Idles t r p) :
    ActsIn (FileProcessingPipeline.step e) Idles t r q := by
  induction r generalizing p q
  case zero =>
    have ⟨_, hs, ha⟩ := ha
    have ⟨q', hq, _⟩ := h.step hs
    exact ⟨q', hq, h.idles_iff.not.mpr ha⟩
  case succ hi =>
    have ⟨_, hs, ha⟩ := ha
    have ⟨q', hq, h'⟩ := h.step hs
    exact ⟨q', hq, ha.imp h.idles_iff.not.mpr (hi h')⟩

end Alike

theorem measured (e : Environment) {P : FileProcessingPipeline m n → Prop}
    (hk : ∀ {p p' t}, P p → p.step e t = some p' → P p') :
    Measured (step e) Idles FileProcessingPipeline.remaining P where
  keeps              := hk
  acts _ hs hi       := step_cases hs |>.resolve_left (fun h => hi h.idles) |>.remaining
  idles _ hs hi      := step_cases hs |>.resolve_right (fun h => h.acts hi) |>.remaining.le
  apart _ hs hi hu h := step_cases hs |>.resolve_right (fun h => h.acts hi) |>.alike _ hu.symm |>.actsIn h

theorem GetsOn.actsIn (h : GetsOn e t p) : ∃ r, ActsIn (step e) Idles t r p := by
  induction h
  case now p' hs hi => exact ⟨0, p', hs, hi⟩
  case later p' hs _ _ _ hr =>
    have ⟨r, hr⟩ := hr
    exact ⟨r + 1, p', hs, .inr hr⟩

theorem step_ended (h : p.ended) (t : Thread) : p.step e t = none := by
  obtain ⟨shared, producer, ⟨processor, consumed, got, location⟩, ⟨batch, file, writer⟩⟩ := p
  cases writer
  case ended =>
    have ⟨hp, hm⟩ := Bool.and_eq_true_iff.mp h
    obtain rfl : producer = .ended := producerEnded_iff.mp hp
    obtain rfl : location = .ended := matcherEnded_iff.mp hm
    cases t <;> rfl
  all_goals contradiction

theorem run_eq_after (schedule : List Thread) (p : FileProcessingPipeline m n) :
    p.run e schedule = after (step e) schedule p :=
  rfl

theorem run_ended (h : p.ended) (schedule : List Thread) : p.run e schedule = p := by
  rw [run_eq_after]
  refine after_invariant (P := (· = p)) (fun h' hs => ?_) rfl schedule
  rw [h', step_ended h] at hs
  contradiction

variable {s₀ : OrderProcessor} {messages : List InboundOrderMsg} {file : Option InputFile}

theorem Flows.fair_ends {x : Exchange} {schedule : Stream' Thread} (h : Flows e s₀ messages p)
    (hs : p.Signals) (hx : s₀.Agrees x) (hm : 0 < m) (hn : 0 < n) (hf : Fair schedule) :
    ∃ k, (p.run e (schedule.take k)).ended := by
  refine (measured e (P := fun p => Flows e s₀ messages p ∧ p.Signals) ?step).fair_done (Q := (·.ended))
    ?acts ⟨h, hs⟩ hf
  case step =>
    rintro p p' t ⟨⟨_, _, _, _, h⟩, hs⟩ ht
    exact ⟨h.step ht, hs.step ht⟩
  case acts =>
    rintro p ⟨⟨_, _, _, _, h⟩, hs⟩ he
    have ⟨_, hx⟩ := h.processor_agrees hx
    have ⟨t, hg⟩ := h.getsOn hs hx hm hn he
    have ⟨r, hr⟩ := hg.actsIn
    exact ⟨t, r, hr⟩

theorem returned_of_ended (h : p.ended) : p.writer.returned := by
  obtain ⟨_, _, _, ⟨_, _, location⟩⟩ := p
  cases location
  case ended => rfl
  all_goals contradiction

theorem Flows.processor_eq (h : Flows e s₀ messages p) (he : p.ended)
    (hr : Machine.run (OrderProcessor.step e.unspecified) (messages.map (.consume <| e.times.arrival ·)) s₀ =
      .ok (s, emitted)) : p.matcher.processor = s := by
  have ⟨_, _, _, _, h⟩ := h
  have ⟨hm, _⟩ := h.drained <| returned_of_ended he
  obtain ⟨_, hr', _⟩ := h.handles.ran
  rw [hm, hr] at hr'
  cases hr'
  rfl

-- However the threads take turns, if none of them is left out for ever, they process the file to its end:
-- from some turn on all of them have ended, the output file holds all the reports, and the processor is what
-- it would be had it consumed the messages alone.
theorem fair_run_ends (e : Environment) (before : List OrderProcessor.Event) (hm : 0 < m) (hn : 0 < n)
    (h : fileMessages file = .ok messages) : ∃ s₀ s, ∃ emitted : List (List Emission),
      OrderProcessor.Reached e.unspecified before s₀ ∧
      (Machine.run (OrderProcessor.step e.unspecified) (messages.map (.consume <| e.times.arrival ·))
        s₀.reset = .ok (s, emitted)) ∧
      ∀ (inbound : InboundOrderQueue m) (outbound : OutboundReportQueue n) (schedule : Stream' Thread),
        Fair schedule → ∃ k, ∀ l ≥ k,
          let p := (start inbound outbound s₀ file).run e (schedule.take l)
          p.ended ∧ p.writer.outputFile = reportFile (emitted.flatten.map Emission.output) ∧
            p.matcher.processor = s := by
  have ⟨s₀, s, hs₀, hrun, hw⟩ := file_reports e before h
  refine ⟨s₀, s, _, hs₀, hrun, fun inbound outbound schedule hf => ?_⟩
  have ⟨_, hs₀', hx⟩ := OrderProcessor.reached_agrees e.unspecified before
  obtain rfl := hs₀.unique hs₀'
  obtain ⟨_, hr, hx⟩ := OrderProcessor.step_agrees e.unspecified .reset hx
  cases hr
  have hstart := start_flows inbound outbound s₀ h (e := e)
  have ⟨k, hk⟩ := hstart.fair_ends ⟨nofun, nofun⟩ hx hm hn hf
  refine ⟨k, fun l hl => ?_⟩
  have hp : (start inbound outbound s₀ file).run e (schedule.take l) =
      (start inbound outbound s₀ file).run e (schedule.take k) := by
    obtain ⟨d, rfl⟩ := Nat.exists_eq_add_of_le hl
    rw [run_eq_after, after_take_add]
    exact run_ended hk _
  simp only [hp]
  exact ⟨hk, hw inbound outbound _ <| returned_of_ended hk, run_flows hstart _ |>.processor_eq hk hrun⟩

def inTurn : Stream' Thread :=
  roundRobin [.producer, .matcher, .main] (by decide)

theorem inTurn_fair : Fair inTurn :=
  roundRobin_fair fun t => by cases t <;> simp

theorem fair_run_ends_narrow :
    let file : InputFile := ⟨ascii "Client Order ID,Instrument,Side,Quantity,Price" ++ [10] ++
      ascii "a,Rose,1,10,1.00" ++ [10] ++ ascii "b,Rose,2,20,0.50" ++ [10], by decide +kernel⟩
    let messages : List InboundOrderMsg := [
      ⟨.copy (ascii "a"), .copy (ascii "Rose"), 1, 10, .finite 1, 1⟩,
      ⟨.copy (ascii "b"), .copy (ascii "Rose"), 2, 20, .finite (1 / 2), 2⟩]
    let e : Environment := ⟨fun _ => 0, fun _ => default, 4194304⟩
    (fileMessages (some file) = .ok messages) ∧ ∃ s₀ s, ∃ emitted : List (List Emission),
      OrderProcessor.Reached e.unspecified [] s₀ ∧
      (Machine.run (OrderProcessor.step e.unspecified) (messages.map (.consume <| e.times.arrival ·))
        s₀.reset = .ok (s, emitted)) ∧
      ∃ k, ∀ l ≥ k,
        let p := (start (m := 1) (n := 1) .empty .empty s₀ (some file)).run e (inTurn.take l)
        p.ended ∧ p.writer.outputFile = reportFile (emitted.flatten.map Emission.output) ∧
          p.matcher.processor = s := by
  intro file messages e
  have h : fileMessages (some file) = .ok messages := by decide +kernel
  have ⟨s₀, s, emitted, hs₀, hrun, hp⟩ := fair_run_ends (m := 1) (n := 1) e [] (by decide) (by decide) h
  exact ⟨h, s₀, s, emitted, hs₀, hrun, hp .empty .empty inTurn inTurn_fair⟩

end FileProcessingPipeline
