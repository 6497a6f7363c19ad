import FlowerExchange.App.Theorems.FairRuns

open CsvOrderProducer CsvReportWriter Matcher Fairness

namespace CsvOrderProducer

-- Whether the next step is to parse a number that cannot be parsed. Nothing catches the exception, so that
-- the program ends there.
def throws : CsvOrderProducer → Bool
  | read (row :: _) sequence _ =>
    5 ≤ row.size &&
      match message row sequence with
      | .ok _    => false
      | .error _ => true
  | _ => false

def readable (sequence : UInt64) : List CSVRow → List CSVRow × List InboundOrderMsg
  | []          => ([], [])
  | row :: rows =>
    if row.size < 5 then
      let (rows, messages) := readable sequence rows
      (row :: rows, messages)
    else
      match message row sequence with
      | .ok message =>
        let (rows, messages) := readable (sequence + 1) rows
        (row :: rows, message :: messages)
      | .error _ => ([], [])

def readableMessages : Option InputFile → List InboundOrderMsg
  | none      => []
  | some file => (readable 1 (csvRange file.bytes).tail).2

def cut : CsvOrderProducer → CsvOrderProducer
  | start (some file)                  => read (readable 1 (csvRange file.bytes).tail).1 1 0
  | read rows sequence produced        => read (readable sequence rows).1 sequence produced
  | push message rows sequence produced => push message (readable sequence rows).1 sequence produced
  | t                                  => t

def Throwing : CsvOrderProducer → Prop
  | start (some file) => ∀ ms, fileMessages (some file) ≠ .ok ms
  | read rows sequence _ | push _ rows sequence _ =>
    ∀ ms, messages sequence (rows.filter (5 ≤ ·.size)) ≠ .ok ms
  | _ => False

variable {m n : Nat} {shared shared' : Shared m n} {t t' : CsvOrderProducer} {sequence : UInt64}
variable {row : CSVRow} {rows : List CSVRow} {parsed : InboundOrderMsg}

theorem readable_short (h : row.size < 5) : readable sequence (row :: rows) =
    (row :: (readable sequence rows).1, (readable sequence rows).2) := by
  rw [readable, if_pos h]

theorem readable_ok (hr : ¬row.size < 5) (h : message row sequence = .ok parsed) :
    readable sequence (row :: rows) =
      (row :: (readable (sequence + 1) rows).1, parsed :: (readable (sequence + 1) rows).2) := by
  rw [readable, if_neg hr, h]

theorem readable_error (hr : ¬row.size < 5) (h : message row sequence = .error fault) :
    readable sequence (row :: rows) = ([], []) := by
  rw [readable, if_neg hr, h]

theorem messages_readable (sequence : UInt64) (rows : List CSVRow) :
    messages sequence ((readable sequence rows).1.filter (5 ≤ ·.size)) =
      .ok (readable sequence rows).2 := by
  induction rows generalizing sequence
  case nil => rfl
  case cons row rows hi =>
    by_cases hr : row.size < 5
    case pos =>
      rw [readable_short hr, List.filter_cons_of_neg (by simpa using hr)]
      exact hi sequence
    case neg =>
      cases hm : message row sequence
      case error =>
        rw [readable_error hr hm]
        rfl
      case ok m =>
        rw [readable_ok hr hm, List.filter_cons_of_pos (by simpa using hr)]
        simp only [messages, hm, hi, Except.ok_bind, Except.pure_eq_ok]

theorem step_cut (hs : t.step shared = some (t', shared')) :
    (t'.cut = t.cut ∧ shared' = shared) ∨ t.cut.step shared = some (t'.cut, shared') := by
  cases t
  case start file =>
    cases file <;> cases hs
    case none => exact .inr rfl
    case some => exact .inl ⟨rfl, rfl⟩
  case read rows sequence produced =>
    right
    cases rows
    case nil =>
      cases hs
      rfl
    case cons row rows =>
      by_cases hr : row.size < 5
      case pos =>
        rw [step, if_pos hr] at hs
        cases hs
        rw [cut, readable_short hr, step, if_pos hr]
        rfl
      case neg =>
        cases hm : message row sequence
        case error => simp only [step, if_neg hr, hm, reduceCtorEq] at hs
        case ok message =>
          simp only [step, if_neg hr, hm] at hs
          cases hs
          rw [cut, readable_ok hr hm]
          simp only [step, if_neg hr, hm, cut]
  case push message rows sequence produced =>
    obtain ⟨inbound, hp, hs⟩ := Option.bind_eq_some_iff.mp hs
    cases hs
    exact .inr <| Option.bind_eq_some_iff.mpr ⟨inbound, hp, rfl⟩
  case publishEndOfStream produced =>
    obtain ⟨inbound, hp, hs⟩ := Option.bind_eq_some_iff.mp hs
    cases hs
    refine .inr <| Option.bind_eq_some_iff.mpr ⟨inbound, hp, ?_⟩
    cases produced <;> rfl
  case storeProduced | storeDone =>
    cases hs
    exact .inr rfl
  case ended => contradiction

theorem Throwing.step (h : t.Throwing) (hs : t.step shared = some (t', shared')) : t'.Throwing := by
  cases t
  case start file =>
    cases file <;> cases hs
    case none => contradiction
    case some => exact h
  case read rows sequence produced =>
    cases rows
    case nil => exact absurd rfl (h [])
    case cons row rows =>
      by_cases hr : row.size < 5
      case pos =>
        rw [CsvOrderProducer.step, if_pos hr] at hs
        cases hs
        rwa [Throwing, List.filter_cons_of_neg (by simpa using hr)] at h
      case neg =>
        rw [Throwing, List.filter_cons_of_pos (by simpa using hr)] at h
        cases hm : message row sequence
        case error => simp only [CsvOrderProducer.step, if_neg hr, hm, reduceCtorEq] at hs
        case ok message =>
          simp only [CsvOrderProducer.step, if_neg hr, hm] at hs
          cases hs
          intro ms hms
          refine h (message :: ms) ?_
          simp only [messages, hm, hms, Except.ok_bind, Except.pure_eq_ok]
  case push =>
    obtain ⟨inbound, hp, hs⟩ := Option.bind_eq_some_iff.mp hs
    cases hs
    exact h
  all_goals contradiction

theorem Throwing.step_of_cut (h : t.Throwing) (ht : ¬t.throws) (hs : t.cut.step shared = some x) :
    ∃ x, t.step shared = some x := by
  cases t
  case start file => cases file <;> exact ⟨_, rfl⟩
  case read rows sequence produced =>
    cases rows
    case nil => exact ⟨_, rfl⟩
    case cons row rows =>
      by_cases hr : row.size < 5
      case pos => exact ⟨_, if_pos hr⟩
      case neg =>
        cases hm : message row sequence
        case error => exact absurd (by simp [throws, hm]; omega) ht
        case ok    => exact ⟨_, by simp only [CsvOrderProducer.step, if_neg hr, hm]; rfl⟩
  case push message rows sequence produced =>
    obtain ⟨inbound, hp, -⟩ := Option.bind_eq_some_iff.mp hs
    exact ⟨_, Option.bind_eq_some_iff.mpr ⟨inbound, hp, rfl⟩⟩
  all_goals contradiction

end CsvOrderProducer

namespace FileProcessingPipeline

variable {m n : Nat} {e : Environment} {p p' : FileProcessingPipeline m n} {s₀ : OrderProcessor}
variable {messages : List InboundOrderMsg} {t : Thread} {schedule : Stream' Thread}

def cut (p : FileProcessingPipeline m n) : FileProcessingPipeline m n :=
  { p with producer := p.producer.cut }

theorem producerEnded_cut (p : FileProcessingPipeline m n) : p.cut.producerEnded = p.producerEnded := by
  obtain ⟨_, producer, _, _⟩ := p
  cases producer
  case start file => cases file <;> rfl
  all_goals rfl

theorem alike_cut (p : FileProcessingPipeline m n) (ht : t ≠ .producer) : Alike t p.cut p where
  shared     := rfl
  producer h := absurd h ht
  matcher _  := rfl
  writer _   := rfl
  ended _    := ⟨(producerEnded_cut p).symm, rfl⟩

theorem step_main_cut (hs : p.step e .main = some p') : p.cut.step e .main = some p'.cut := by
  have he := producerEnded_cut p
  obtain ⟨shared, producer, matcher, ⟨batch, file, location⟩⟩ := p
  cases location
  case joinProducer =>
    obtain ⟨hj, hs⟩ := Option.ite_none_right_eq_some.mp hs
    cases hs
    exact if_pos (he.trans hj)
  case joinMatcher =>
    obtain ⟨hj, hs⟩ := Option.ite_none_right_eq_some.mp hs
    cases hs
    exact if_pos hj
  all_goals
    obtain ⟨x, ht, hs⟩ := step_drain_inv (by simp) (by simp) hs
    subst hs
    simp only [step, stepMain, cut] at ht ⊢
    rw [ht]
    rfl

theorem step_cut (hs : p.step e t = some p') : p'.cut = p.cut ∨ p.cut.step e t = some p'.cut := by
  cases t
  case producer =>
    obtain ⟨⟨producer, shared⟩, ht, hs⟩ := Option.bind_eq_some_iff.mp hs
    cases hs
    rcases CsvOrderProducer.step_cut ht with ⟨hc, rfl⟩ | ht
    · exact .inl <| by rw [cut, cut, hc]
    · exact .inr <| Option.bind_eq_some_iff.mpr ⟨_, ht, rfl⟩
  case matcher =>
    obtain ⟨x, ht, hs⟩ := Option.bind_eq_some_iff.mp hs
    cases hs
    exact .inr <| Option.bind_eq_some_iff.mpr ⟨x, ht, rfl⟩
  case main => exact .inr <| step_main_cut hs

theorem step_producer_eq (hs : p.step e t = some p') (ht : t ≠ .producer) : p'.producer = p.producer := by
  cases t
  case producer => contradiction
  case matcher =>
    obtain ⟨_, _, hs⟩ := Option.bind_eq_some_iff.mp hs
    cases hs
    rfl
  case main =>
    simp only [step, stepMain] at hs
    split at hs
    case h_1 | h_2 =>
      obtain ⟨-, hs⟩ := Option.ite_none_right_eq_some.mp hs
      cases hs
      rfl
    case h_3 =>
      obtain ⟨_, _, hs⟩ := Option.bind_eq_some_iff.mp hs
      cases hs
      rfl

theorem start_cut_flows (inbound : InboundOrderQueue m) (outbound : OutboundReportQueue n)
    (processor : OrderProcessor) (file : Option InputFile) :
    Flows e processor.reset (readableMessages file) (start inbound outbound processor file).cut := by
  cases file
  case none      => exact start_flows inbound outbound processor rfl
  case some file => exact ⟨_, _, _, _, {
      offers   := .read (messages_readable 1 _) (by simp [readableMessages])
      handles  := .start
      wrote    := .start
      inbound  := by simp [start, cut, seen, Fifo.items_clear, readableMessages]
      outbound := by simp [start, cut, held, pending, Fifo.items_clear]
    }⟩

-- What is known of the threads when a number of the file cannot be parsed. The producer has pushed some of
-- the messages in front of it, and will not end the stream.
structure Doomed (e : Environment) (s₀ : OrderProcessor) (messages : List InboundOrderMsg)
    (p : FileProcessingPipeline m n) : Prop where
  flows    : Flows e s₀ messages p.cut
  throwing : p.producer.Throwing
  signals  : p.Signals

namespace Doomed

theorem start (inbound : InboundOrderQueue m) (outbound : OutboundReportQueue n)
    (processor : OrderProcessor) (h : ∀ messages, fileMessages file ≠ .ok messages) :
    Doomed e processor.reset (readableMessages file)
      (FileProcessingPipeline.start inbound outbound processor file) := by
  have hf := start_cut_flows inbound outbound processor file (e := e)
  cases file
  case none => exact absurd rfl (h [])
  case some =>
    exact ⟨hf, h, fun h => by contradiction, fun h => by contradiction⟩

theorem step (h : Doomed e s₀ messages p) (hs : p.step e t = some p') : Doomed e s₀ messages p' where
  flows := by
    rcases step_cut hs with hc | hs
    · exact hc ▸ h.flows
    · have ⟨_, _, _, _, hf⟩ := h.flows
      exact hf.step hs
  throwing := by
    by_cases ht : t = .producer
    case neg => exact step_producer_eq hs ht ▸ h.throwing
    case pos =>
      subst ht
      obtain ⟨_, ht, hs⟩ := Option.bind_eq_some_iff.mp hs
      cases hs
      exact h.throwing.step ht
  signals := h.signals.step hs

theorem offered_ne_nil (h : p.producer.Throwing)
    (hf : Flow e s₀ messages p.cut offered handled made appended) : offered ≠ [] := by
  obtain ⟨shared, producer, matcher, writer⟩ := p
  have ho := hf.offers
  cases producer
  case start file =>
    cases file
    case none => contradiction
    case some =>
      cases ho
      simp
  case read | push =>
    cases ho
    simp
  all_goals contradiction

theorem not_seen (h : p.producer.Throwing)
    (hf : Flow e s₀ messages p.cut offered handled made appended) : ¬p.matcher.gotEndOfStream :=
  fun hg => offered_ne_nil h hf (hf.handled_eq hg).right.right

theorem not_returned (h : Doomed e s₀ messages p) : ¬p.writer.returned := by
  have ⟨_, _, _, _, hf⟩ := h.flows
  intro hr
  have hl : p.matcher.location = .ended := by
    have := hf.wrote.knows
    refine hf.handles.done ?_
    unfold CsvReportWriter.returned at hr
    unfold Knows at this
    split at hr <;> simp_all [cut]
  have hs := hf.handles.settled
  rw [Settled, show p.cut.matcher.location = .ended from hl] at hs
  exact not_seen h.throwing hf hs.left

theorem acts (h : Doomed e s₀ messages p) (hx : s₀.Agrees x) (hm : 0 < m) (hn : 0 < n)
    (ht : ¬p.producer.throws) : ∃ t r, ActsIn (FileProcessingPipeline.step e) Idles t r p := by
  have ⟨_, _, _, _, hf⟩ := h.flows
  have ⟨_, hx⟩ := hf.processor_agrees hx
  have hs : p.cut.Signals := by
    refine ⟨fun hc => h.signals.producer ?_, h.signals.matcher⟩
    rw [← producerEnded_iff] at hc ⊢
    rwa [← producerEnded_cut]
  have he : ¬p.cut.ended := fun he => h.not_returned <| returned_of_ended (p := p.cut) he
  have ⟨t, hg⟩ := hf.getsOn hs hx hm hn he
  by_cases hp : t = .producer
  case neg =>
    have ⟨r, hr⟩ := hg.actsIn
    exact ⟨t, r, alike_cut p hp |>.actsIn hr⟩
  case pos =>
    subst hp
    rcases hg with ⟨hs, -⟩ | ⟨-, hi, -, -⟩
    · have ⟨_, hs, _⟩ := Option.bind_eq_some_iff.mp hs
      have ⟨x, hx⟩ := h.throwing.step_of_cut ht hs
      exact ⟨.producer, 0, _, Option.bind_eq_some_iff.mpr ⟨x, hx, rfl⟩, id⟩
    · contradiction

end Doomed

theorem run_doomed (h : Doomed e s₀ messages p) (schedule : List Thread) :
    Doomed e s₀ messages (p.run e schedule) :=
  after_invariant Doomed.step h schedule

theorem Doomed.fair_throws (h : Doomed e s₀ messages p) (hx : s₀.Agrees x) (hm : 0 < m) (hn : 0 < n)
    (hf : Fair schedule) : ∃ k, (p.run e (schedule.take k)).producer.throws :=
  (measured e (P := Doomed e s₀ messages) Doomed.step).fair_done (Q := (·.producer.throws))
    (fun h ht => h.acts hx hm hn ht) h hf

theorem Doomed.written (h : Doomed e s₀ messages p) (hx : s₀.Agrees x)
    (hr : Machine.run (OrderProcessor.step e.unspecified) (messages.map (.consume <| e.times.arrival ·)) s₀ =
      .ok (s, emitted)) :
    p.writer.outputFile ++ p.writer.writeBatch <+: reportFile (emitted.flatten.map Emission.output) := by
  have ⟨offered, handled, made, appended, hf⟩ := h.flows
  -- The messages are those that are handled, and some more.
  have ⟨later, hl⟩ : handled <+: messages := by
    have hs : p.cut.matcher.seen = [] := if_neg <| not_seen h.throwing hf
    have hi := hf.inbound
    rw [hs, List.append_nil, List.append_assoc] at hi
    have hp : handled.map some <+: messages.map some := by
      refine List.prefix_of_prefix_length_le (hi ▸ List.prefix_append ..) (List.prefix_append ..) ?_
      have hn := offered_ne_nil h.throwing hf
      have hlen := congrArg List.length hi
      have := List.length_pos_iff.mpr hn
      simp only [List.length_append, List.length_map, List.length_singleton] at hlen ⊢
      omega
    exact List.prefix_map_iff_of_injective (Option.some_injective _) |>.mp hp
  subst hl
  have ⟨emitted₁, hr₁, hmade⟩ := hf.handles.ran
  have ⟨_, hx'⟩ := hf.processor_agrees hx
  have ⟨_, hr₂, _⟩ := OrderProcessor.run_agrees e.unspecified (later.map (.consume <| e.times.arrival ·)) hx'
  have hr' := Machine.run_append hr₁ hr₂
  rw [← List.map_append, hr] at hr'
  cases hr'
  have happ : appended <+: (emitted₁.flatten.map Emission.output) := by
    rw [← hmade, ← hf.outbound, List.append_assoc, List.append_assoc]
    exact List.prefix_append ..
  have ⟨rest, hrest⟩ := happ
  have hw : p.writer.outputFile ++ p.writer.writeBatch = reportFile appended := hf.wrote.written
  rw [hw, List.flatten_append, List.map_append, ← hrest]
  simp only [reportFile, List.map_append, List.flatten_append, List.append_assoc]
  exact List.prefix_append_right_inj _ |>.mpr <| List.prefix_append ..

theorem Doomed.pushed (h : Doomed e s₀ messages p) (ht : p.producer.throws) :
    p.shared.inbound.items <:+ messages.map some := by
  have ⟨offered, handled, made, appended, hf⟩ := h.flows
  have hs : p.cut.matcher.seen = [] := if_neg <| not_seen h.throwing hf
  have hi := hf.inbound
  have ho := hf.offers
  rw [hs, List.append_nil] at hi
  obtain ⟨shared, producer, matcher, writer⟩ := p
  cases producer
  case read rows sequence produced =>
    cases rows
    case nil => contradiction
    case cons row rows =>
      simp only [throws, Bool.and_eq_true, decide_eq_true_eq] at ht
      have hr : ¬row.size < 5 := ht.left.not_gt
      cases hm : message row sequence
      case ok => simp [hm] at ht
      case error =>
        simp only [cut, CsvOrderProducer.cut, readable_error hr hm] at ho
        cases ho
        case read ms hms _ =>
          cases hms
          exact ⟨_, List.append_cancel_right hi⟩
  all_goals contradiction

-- However the threads take turns, nothing but the reports on the rows in front of a number that cannot be
-- parsed is ever written, and `process_file` does not return. If no thread is left out for ever, the producer
-- throws some time, after it has pushed the messages of these rows.
theorem malformed_run_throws (e : Environment) (before : List OrderProcessor.Event) (hm : 0 < m)
    (hn : 0 < n) (h : ∀ messages, fileMessages file ≠ .ok messages) : ∃ s₀ s,
    ∃ emitted : List (List Emission), OrderProcessor.Reached e.unspecified before s₀ ∧
      (Machine.run (OrderProcessor.step e.unspecified)
        ((readableMessages file).map (.consume <| e.times.arrival ·)) s₀.reset = .ok (s, emitted)) ∧
      ∀ (inbound : InboundOrderQueue m) (outbound : OutboundReportQueue n),
        (∀ schedule,
          let p := (start inbound outbound s₀ file).run e schedule
          ¬p.writer.returned ∧ p.writer.outputFile ++ p.writer.writeBatch <+:
            reportFile (emitted.flatten.map Emission.output)) ∧
        ∀ schedule : Stream' Thread, Fair schedule → ∃ k,
          let p := (start inbound outbound s₀ file).run e (schedule.take k)
          p.producer.throws ∧ p.shared.inbound.items <:+ (readableMessages file).map some := by
  have ⟨s₀, hs₀, hx⟩ := OrderProcessor.reached_agrees e.unspecified before
  obtain ⟨_, hr, hx⟩ := OrderProcessor.step_agrees e.unspecified .reset hx
  cases hr
  have ⟨s, hrun, _⟩ := OrderProcessor.run_agrees e.unspecified
    ((readableMessages file).map (.consume <| e.times.arrival ·)) hx
  refine ⟨s₀, s, _, hs₀, hrun, fun inbound outbound => ⟨fun schedule => ?_, fun schedule hf => ?_⟩⟩
  all_goals have hd : Doomed e _ _ _ := .start inbound outbound s₀ h
  · have hd := run_doomed hd schedule
    exact ⟨hd.not_returned, hd.written hx hrun⟩
  · have ⟨k, hk⟩ := hd.fair_throws hx hm hn hf
    exact ⟨k, hk, run_doomed hd _ |>.pushed hk⟩

theorem malformed_run_throws_quantity :
    let file : InputFile := ⟨ascii "Client Order ID,Instrument,Side,Quantity,Price" ++ [10] ++
      ascii "a,Rose,1,10,1.00" ++ [10] ++ ascii "b,Rose,2,ten,1.00" ++ [10], by decide +kernel⟩
    let e : Environment := ⟨fun _ => 0, fun _ => default, 4194304⟩
    (∀ messages, fileMessages (some file) ≠ .ok messages) ∧
    (readableMessages (some file) = [⟨.copy (ascii "a"), .copy (ascii "Rose"), 1, 10, .finite 1, 1⟩]) ∧
    ∃ s₀ s, ∃ emitted : List (List Emission), OrderProcessor.Reached e.unspecified [] s₀ ∧
      (Machine.run (OrderProcessor.step e.unspecified)
        ((readableMessages (some file)).map (.consume <| e.times.arrival ·)) s₀.reset = .ok (s, emitted)) ∧
      ∃ k, let p := (start (m := 1) (n := 1) .empty .empty s₀ (some file)).run e (inTurn.take k)
        p.producer.throws ∧ p.shared.inbound.items <:+ (readableMessages (some file)).map some := by
  intro file e
  have h : ∀ messages, fileMessages (some file) ≠ .ok messages := by
    have he : (fileMessages (some file)).isOk = false := by decide +kernel
    rintro messages hm
    rw [hm] at he
    contradiction
  have ⟨s₀, s, emitted, hs₀, hrun, hp⟩ :=
    malformed_run_throws (m := 1) (n := 1) e [] (by decide) (by decide) h
  exact ⟨h, by decide +kernel, s₀, s, emitted, hs₀, hrun, (hp .empty .empty).right _ inTurn_fair⟩

end FileProcessingPipeline
