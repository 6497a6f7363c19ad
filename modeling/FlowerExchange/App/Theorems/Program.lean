import FlowerExchange.App.Program
import FlowerExchange.App.Theorems.Application
import FlowerExchange.App.Theorems.UncaughtErrors

open Application CsvOrderProducer CsvReportWriter

section

variable {path directory name : Bytes}

theorem filename_append (h : 47 ∉ name) : filename (directory ++ 47 :: name) = name := by
  have hr : ∀ c ∈ name.reverse, decide (c ≠ 47) := by
    intro c hc
    exact decide_eq_true fun he => h <| he ▸ List.mem_reverse.mp hc
  rw [filename, List.reverse_append, List.reverse_cons, List.append_assoc, List.takeWhile_append_of_pos hr]
  simp

theorem filename_self (h : 47 ∉ name) : filename name = name := by
  have hr : ∀ c ∈ name.reverse, decide (c ≠ 47) := by
    intro c hc
    exact decide_eq_true fun he => h <| he ▸ List.mem_reverse.mp hc
  rw [filename, List.takeWhile_eq_self_iff.mpr hr, List.reverse_reverse]

theorem filename_appendPath (directory : Bytes) (h : 47 ∉ name) : filename (appendPath directory name) = name := by
  rw [appendPath]
  split
  case isTrue hd =>
    rcases hd with rfl | hd
    · exact filename_self h
    · have ⟨front, hf⟩ := List.getLast?_eq_some_iff.mp hd
      rw [hf, List.append_assoc]
      exact filename_append h
  case isFalse => exact filename_append h

theorem not_mem_filename (path : Bytes) : 47 ∉ filename path := by
  intro h
  have := List.mem_takeWhile_imp <| List.mem_reverse.mp h
  simp at this

theorem stem_cases (path : Bytes) :
    filename path = stem path ∨ ∃ extension, filename path = stem path ++ 46 :: extension := by
  rw [stem]
  set name := filename path
  set behind := name.reverse.takeWhile (· ≠ 46) with hb
  split
  case isTrue => exact .inl rfl
  case isFalse =>
    split
    case isFalse => exact .inl rfl
    case isTrue hlt =>
      have hr : behind ++ name.reverse.dropWhile (· ≠ 46) = name.reverse := List.takeWhile_append_dropWhile
      cases hd : name.reverse.dropWhile (· ≠ 46)
      case nil =>
        rw [hd, List.append_nil] at hr
        have := congrArg List.length hr
        rw [List.length_reverse] at this
        omega
      case cons c front =>
        have hc : c = 46 := by
          have := List.head?_dropWhile_not (· ≠ (46 : UInt8)) name.reverse
          rw [hd] at this
          simpa using this
        have hn : name = front.reverse ++ 46 :: behind.reverse := by
          rw [← List.reverse_reverse name, ← hr, hd, hc]
          simp
        refine .inr ⟨behind.reverse, ?_⟩
        have hl : name.length - (behind.length + 1) = front.reverse.length := by
          rw [congrArg List.length hn]
          simp
        rw [hl]
        conv_rhs => rw [hn, List.take_left]
        exact hn

theorem not_mem_stem (path : Bytes) : 47 ∉ stem path := by
  have h := not_mem_filename path
  rcases stem_cases path with hs | ⟨extension, hs⟩
  · exact hs ▸ h
  · rw [hs] at h
    exact fun hm => h <| List.mem_append_left _ hm

theorem filename_outputPath (outputDirectory path : Bytes) :
    filename (CsvReportWriter.outputPath outputDirectory path) = stem path ++ ascii "_reports.csv" := by
  refine filename_appendPath outputDirectory ?_
  exact List.mem_append.not.mpr <| not_or.mpr ⟨not_mem_stem path, by decide⟩

end

namespace World

variable {δ : Type} (w : World δ) (outputDirectory : Bytes)

theorem output_ne_input (path : Bytes) : w.output outputDirectory path ≠ w.input path := by
  intro h
  have hn : stem path ++ ascii "_reports.csv" = filename path := by
    rw [← filename_outputPath outputDirectory]
    exact congrArg Prod.snd h
  rcases stem_cases path with hs | ⟨extension, hs⟩
  · rw [hs] at hn
    exact absurd (List.append_right_eq_self.mp hn) (by decide)
  · rw [hs] at hn
    exact absurd (List.cons.inj <| List.append_cancel_left hn).left (by decide)

theorem output_eq_iff {p q : Bytes} :
    w.output outputDirectory p = w.output outputDirectory q ↔ stem p = stem q := by
  constructor
  · intro h
    have hn : filename _ = filename _ := congrArg Prod.snd h
    rw [filename_outputPath, filename_outputPath] at hn
    exact List.append_cancel_right hn
  · intro h
    rw [output, output, CsvReportWriter.outputPath, CsvReportWriter.outputPath, h]

end World

def contentRows : Option Bytes → List CSVRow
  | none       => []
  | some bytes => (csvRange bytes).tail.filter (5 ≤ ·.size)

theorem orderRows_eq (file : Option InputFile) : orderRows file = contentRows (file.map InputFile.bytes) := by
  cases file <;> rfl

def report (e : Environment) (content : Option Bytes) : Except Fault Bytes := do
  let messages ← messages 1 (contentRows content)
  let records := (Exchange.history e.unspecified (messages.map e.times.arrival)).2
  return reportFile (records.flatten.map (·.emission.output))

namespace FileProcessingPipeline

variable {m n : Nat} {e : Environment} {processor : OrderProcessor} {x : Exchange} {file : Option InputFile}

theorem ended_report (hx : processor.Agrees x) (inbound : InboundOrderQueue m)
    (outbound : OutboundReportQueue n) (schedule : List Thread) :
    let p := (start inbound outbound processor file).run e schedule
    p.ended → report e (file.map InputFile.bytes) = .ok p.writer.outputFile ∧
      ∃ x', p.matcher.processor.Agrees x' := by
  intro p hp
  have hret := returned_of_ended hp
  obtain ⟨_, hr, hx⟩ := OrderProcessor.step_agrees e.unspecified .reset hx
  cases hr
  cases hm : fileMessages file
  case error =>
    have h : ∀ messages, fileMessages file ≠ .ok messages := fun _ h => by rw [hm] at h; contradiction
    exact absurd hret <| run_doomed (Doomed.start (e := e) inbound outbound processor h) schedule |>.not_returned
  case ok messages =>
    have ⟨_, _, _, _, hf⟩ := run_flows (start_flows inbound outbound processor hm (e := e)) schedule
    have ⟨hh, hw⟩ := hf.drained hret
    have ⟨_, hrun, he⟩ := hf.handles.ran
    have hev : messages.map (.consume <| e.times.arrival ·) =
        (messages.map e.times.arrival).map OrderProcessor.Event.consume := by
      rw [List.map_map]
      rfl
    have ⟨_, hrun', hx'⟩ :=
      OrderProcessor.run_agrees e.unspecified (messages.map (.consume <| e.times.arrival ·)) hx
    rw [hh, hrun'] at hrun
    cases hrun
    refine ⟨?_, _, hx'⟩
    rw [fileMessages, orderRows_eq] at hm
    rw [report, hm, hw, he, Exchange.step, hev, Exchange.history_exec]
    simp [List.map_flatten, Function.comp_def]

end FileProcessingPipeline

namespace Program

variable {m n : Nat} {δ : Type} [DecidableEq δ] {w : World δ} {outputDirectory path : Bytes}
  {paths as bs : List Bytes} {s s' : Program m n δ} {x : Exchange}

theorem ProcessFile.spec (h : ProcessFile w outputDirectory path s s') (hx : s.processor.Agrees x) :
    s'.calls = s.calls + 1 ∧ (∃ x', s'.processor.Agrees x') ∧
      (∀ key ≠ w.output outputDirectory path, s'.files key = s.files key) ∧
      (w.writable (w.output outputDirectory path) → ∃ r,
        report (w.environment s.calls) (s.files (w.input path)) = .ok r ∧
          s'.files (w.output outputDirectory path) = some r) := by
  cases h
  case unprepared _ hw =>
    have ⟨_, hr, hx'⟩ := OrderProcessor.step_agrees (w.environment 0).unspecified .reset hx
    cases hr
    exact ⟨rfl, ⟨_, hx'⟩, fun _ _ => rfl, fun h => by simp [hw] at h⟩
  case processed _ hw _ _ hf hp he =>
    subst hp
    have ⟨hr, hx'⟩ := FileProcessingPipeline.ended_report hx s.inbound s.outbound _ he
    rw [hf, Function.update_of_ne (w.output_ne_input outputDirectory path).symm] at hr
    exact ⟨rfl, hx', fun _ hk => Function.update_of_ne hk .., fun _ => ⟨_, hr, Function.update_self ..⟩⟩

theorem ProcessFiles.append (h : ProcessFiles w outputDirectory (as ++ bs) s s') :
    ∃ t, ProcessFiles w outputDirectory as s t ∧ ProcessFiles w outputDirectory bs t s' := by
  induction as generalizing s
  case nil => exact ⟨s, .nil s, h⟩
  case cons hi =>
    cases h
    case cons h hs =>
      have ⟨t, ha, hb⟩ := hi hs
      exact ⟨t, .cons h ha, hb⟩

theorem ProcessFiles.spec (h : ProcessFiles w outputDirectory paths s s') (hx : s.processor.Agrees x) :
    s'.calls = s.calls + paths.length ∧ (∃ x', s'.processor.Agrees x') ∧
      ∀ key, (∀ path ∈ paths, w.output outputDirectory path ≠ key) → s'.files key = s.files key := by
  induction h generalizing x
  case nil => exact ⟨rfl, ⟨x, hx⟩, fun _ _ => rfl⟩
  case cons h _ hi =>
    have ⟨hc, ⟨_, hx⟩, hf, _⟩ := h.spec hx
    have ⟨hc', hx, hf'⟩ := hi hx
    refine ⟨by rw [hc', hc, List.length_cons]; omega, hx, fun key hk => ?_⟩
    have ⟨hk, hks⟩ := List.forall_mem_cons.mp hk
    rw [hf' key hks, hf key hk.symm]

-- When the program has returned, each report file is that of the last input file with its stem, and depends on
-- nothing but what this file held. All other files are as they were.
theorem main_reports {stream : Bytes} {files : Files δ}
    (h : Main w stream files paths s) :
    (∀ key, (∀ path ∈ paths, w.output (ascii "output") path ≠ key) → s.files key = files key) ∧
      ∀ as path bs, paths = as ++ path :: bs → w.writable (w.output (ascii "output") path) →
        (∀ a ∈ as, w.output (ascii "output") a ≠ w.input path) → (∀ b ∈ bs, stem b ≠ stem path) →
        ∃ r, report (w.environment as.length) (files (w.input path)) = .ok r ∧
          s.files (w.output (ascii "output") path) = some r := by
  have ⟨_, h⟩ := h
  have hx : (start files : Program m n δ).processor.Agrees _ := ⟨_, _, OrderProcessor.new_models⟩
  refine ⟨h.spec hx |>.right.right, ?_⟩
  rintro as path bs rfl hw ha hb
  have ⟨s₁, h₁, h₂⟩ := h.append
  cases h₂
  case cons s₂ h₂ h₃ =>
    have ⟨hc, ⟨_, hx⟩, hf⟩ := h₁.spec hx
    have ⟨_, ⟨_, hx⟩, _, hr⟩ := h₂.spec hx
    have ⟨r, hr, hs⟩ := hr hw
    have ⟨_, _, hf'⟩ := h₃.spec hx
    refine ⟨r, ?_, ?_⟩
    · rw [← hr, hf _ ha, hc]
      simp [start]
    · rw [hf' _ fun b hm => (w.output_eq_iff _).not.mpr (hb b hm), hs]

def Readable (content : Option Bytes) : Prop :=
  (∀ bytes ∈ content, bytes.length < 2 ^ 63) ∧ ∃ parsed, messages 1 (contentRows content) = .ok parsed

-- What a call of `process_file` needs from the world to return.
structure Permitted (w : World δ) (outputDirectory path : Bytes) : Prop where
  created : w.creatable outputDirectory
  pinned  : w.writable (w.output outputDirectory path) → w.pinnable producerCore ∧ w.pinnable matcherCore

theorem ProcessFile.permitted (h : ProcessFile w outputDirectory path s s') :
    Permitted w outputDirectory path := by
  cases h
  case unprepared hc hw             => exact ⟨hc, fun h => by simp [hw] at h⟩
  case processed hc _ hp₀ hp₁ _ _ _ => exact ⟨hc, fun _ => ⟨hp₀, hp₁⟩⟩

theorem ProcessFiles.permitted (h : ProcessFiles w outputDirectory paths s s') :
    ∀ path ∈ paths, Permitted w outputDirectory path := by
  induction h
  case nil         => exact List.forall_mem_nil _
  case cons h _ hi => exact List.forall_mem_cons.mpr ⟨h.permitted, hi⟩

theorem processFile_returns (hm : 0 < m) (hn : 0 < n) (hx : s.processor.Agrees x)
    (hr : Readable (s.files (w.input path))) (hf : Fairness.Fair (w.schedule s.calls))
    (hp : Permitted w outputDirectory path) : ∃ s', ProcessFile w outputDirectory path s s' := by
  obtain ⟨hc, hpin⟩ := hp
  cases hw : w.writable (w.output outputDirectory path)
  case false => exact ⟨_, .unprepared hc hw⟩
  case true =>
    obtain ⟨hfit, parsed, hp⟩ := hr
    have ⟨file, hfile⟩ : ∃ file : Option InputFile, file.map InputFile.bytes = s.files (w.input path) := by
      cases hc : s.files (w.input path)
      case none       => exact ⟨none, rfl⟩
      case some bytes => exact ⟨some ⟨bytes, hfit bytes <| by rw [hc]; rfl⟩, rfl⟩
    obtain ⟨_, ho, hx⟩ := OrderProcessor.step_agrees (w.environment s.calls).unspecified .reset hx
    cases ho
    have hparsed : fileMessages file = .ok parsed := by rw [fileMessages, orderRows_eq, hfile, hp]
    have ⟨k, he⟩ := FileProcessingPipeline.start_flows s.inbound s.outbound s.processor hparsed
      (e := w.environment s.calls) |>.fair_ends ⟨nofun, nofun⟩ hx hm hn hf
    obtain ⟨hp₀, hp₁⟩ := hpin hw
    exact ⟨_, .processed hc hw hp₀ hp₁
      (hfile.trans (Function.update_of_ne (w.output_ne_input _ path).symm _ _).symm) rfl he⟩

theorem processFiles_return (hm : 0 < m) (hn : 0 < n) (hx : s.processor.Agrees x)
    (hin : ∀ p ∈ paths, ∀ q ∈ paths, w.output outputDirectory q ≠ w.input p)
    (hr : ∀ p ∈ paths, Readable (s.files (w.input p))) (hf : ∀ k, Fairness.Fair (w.schedule k))
    (hp : ∀ p ∈ paths, Permitted w outputDirectory p) :
    ∃ s', ProcessFiles w outputDirectory paths s s' := by
  induction paths generalizing s x
  case nil => exact ⟨s, .nil s⟩
  case cons path paths hi =>
    obtain ⟨hpath, hp⟩ := List.forall_mem_cons.mp hp
    have ⟨s₁, h₁⟩ : ∃ s₁, ProcessFile w outputDirectory path s s₁ :=
      processFile_returns hm hn hx (hr path <| .head _) (hf s.calls) hpath
    have ⟨_, ⟨_, hx⟩, hk, _⟩ := h₁.spec hx
    have ⟨s₂, h₂⟩ := hi hx (fun p hp q hq => hin p (.tail _ hp) q (.tail _ hq))
      (fun p hp => by
        rw [hk _ (hin p (.tail _ hp) path <| .head _).symm]
        exact hr p <| .tail _ hp)
      hp
    exact ⟨s₂, .cons h₁ h₂⟩

-- Told to quit, given files whose numbers can be parsed, and with no thread left out for ever, the program
-- returns exactly when the output directory can be created and the threads can be pinned to their cores.
theorem main_returns {stream : Bytes} {files : Files δ} (hm : 0 < m) (hn : 0 < n)
    (hq : ascii "QUIT" ∈ getlines stream)
    (hin : ∀ p ∈ requests stream, ∀ q ∈ requests stream, w.output (ascii "output") q ≠ w.input p)
    (hr : ∀ p ∈ requests stream, Readable (files (w.input p))) (hf : ∀ k, Fairness.Fair (w.schedule k)) :
    (∃ s : Program m n δ, Main w stream files (requests stream) s) ↔
      ∀ p ∈ requests stream, Permitted w (ascii "output") p := by
  constructor
  case mp =>
    rintro ⟨s, _, h⟩
    exact h.permitted
  case mpr =>
    intro hp
    have hx : (start files : Program m n δ).processor.Agrees _ := ⟨_, _, OrderProcessor.new_models⟩
    obtain ⟨s, h⟩ := processFiles_return hm hn hx hin hr hf hp
    exact ⟨s, Application.run_of_quit hq [], h⟩

theorem main_reports_rose :
    let e : Environment := ⟨fun _ => 0, fun _ => default, 4194304⟩
    let w : World Unit := ⟨fun _ => (), fun _ => true, fun _ => true, fun _ => true, fun _ => e,
      fun _ => FileProcessingPipeline.inTurn⟩
    let content := ascii "Client Order ID,Instrument,Side,Quantity,Price" ++ [10] ++
      ascii "a,Rose,2,10,1.00" ++ [10] ++ ascii "b,Rose,1,20,1.00" ++ [10]
    let files : Files Unit := fun key => if key = ((), ascii "rose.csv") then some content else none
    let stream := ascii "PROCESS in/rose.csv" ++ [10] ++ ascii "QUIT" ++ [10]
    ∃ s : Program 1 1 Unit, Main w stream files [ascii "in/rose.csv"] s ∧
      s.files ((), ascii "rose_reports.csv") = some (
        ascii "Order ID,Client Order Id,Instrument,Side,Exec Status,Quantity,Price,Reason,Timestamp" ++ [10] ++
        ascii "ord1,a,Rose,2,New,10,1.00,," ++ [10] ++ ascii "ord2,b,Rose,1,Pfill,10,1.00,," ++ [10] ++
        ascii "ord1,a,Rose,2,Fill,10,1.00,," ++ [10]) := by
  intro e w content files stream
  have hreq : requests stream = [ascii "in/rose.csv"] := by decide +kernel
  have hx : (start files : Program 1 1 Unit).processor.Agrees _ := ⟨_, _, OrderProcessor.new_models⟩
  have hc : files (w.input <| ascii "in/rose.csv") = some content := if_pos (by decide +kernel)
  have hr : Readable (files (w.input <| ascii "in/rose.csv")) := by
    rw [hc]
    exact ⟨fun bytes hb => by cases hb; decide +kernel, _, rfl⟩
  obtain ⟨s, hs⟩ : ∃ s, ProcessFiles w (ascii "output") [ascii "in/rose.csv"] (start files : Program 1 1 Unit) s :=
    processFiles_return (by decide) (by decide) hx
      (List.forall_mem_singleton.mpr <| List.forall_mem_singleton.mpr <| w.output_ne_input _ _)
      (List.forall_mem_singleton.mpr hr) (fun _ => FileProcessingPipeline.inTurn_fair)
      (List.forall_mem_singleton.mpr ⟨rfl, fun _ => ⟨rfl, rfl⟩⟩)
  have h : Main w stream files [ascii "in/rose.csv"] s :=
    ⟨hreq ▸ run_of_quit (by decide +kernel) [], hs⟩
  obtain ⟨r, hr, hf⟩ := main_reports h |>.right [] (ascii "in/rose.csv") [] rfl rfl
    (List.forall_mem_nil _) (List.forall_mem_nil _)
  refine ⟨s, h, ?_⟩
  have ho : w.output (ascii "output") (ascii "in/rose.csv") = ((), ascii "rose_reports.csv") := by decide +kernel
  have hrep : report e (some content) = .ok (
      ascii "Order ID,Client Order Id,Instrument,Side,Exec Status,Quantity,Price,Reason,Timestamp" ++ [10] ++
      ascii "ord1,a,Rose,2,New,10,1.00,," ++ [10] ++ ascii "ord2,b,Rose,1,Pfill,10,1.00,," ++ [10] ++
      ascii "ord1,a,Rose,2,Fill,10,1.00,," ++ [10]) := by decide +kernel
  rw [ho] at hf
  rw [hc, hrep] at hr
  cases hr
  exact hf

theorem main_returns_cores :
    let e : Environment := ⟨fun _ => 0, fun _ => default, 4194304⟩
    let w (cores : Nat) : World Unit := ⟨fun _ => (), fun directory => directory = ascii "output",
      fun _ => true, fun core => core < cores, fun _ => e, fun _ => FileProcessingPipeline.inTurn⟩
    let content := ascii "id,flower,side,quantity,price" ++ [10] ++ ascii "a,Rose,2,10,1.00" ++ [10] ++
      ascii "b,Rose,1,20,1.00" ++ [10]
    let stream := ascii "PROCESS rose.csv" ++ [10] ++ ascii "PROCESS lotus.csv" ++ [10] ++ ascii "QUIT"
    (requests stream = [ascii "rose.csv", ascii "lotus.csv"]) ∧
      (∃ s : Program 1 1 Unit, Main (w 2) stream (fun _ => some content) (requests stream) s) ∧
      ¬∃ s : Program 1 1 Unit, Main (w 1) stream (fun _ => some content) (requests stream) s := by
  intro e w content stream
  have hreq : requests stream = [ascii "rose.csv", ascii "lotus.csv"] := by decide +kernel
  have hin (cores : Nat) : ∀ p ∈ requests stream, ∀ q ∈ requests stream,
      (w cores).output (ascii "output") q ≠ (w cores).input p := by
    have hn : ∀ p ∈ requests stream, ∀ q ∈ requests stream, stem q ++ ascii "_reports.csv" ≠ filename p := by
      decide +kernel
    exact fun p hp q hq he => hn p hp q hq <| filename_outputPath (ascii "output") q ▸ congrArg Prod.snd he
  have hr : Readable (some content) := ⟨fun bytes hb => by cases hb; decide +kernel, _, rfl⟩
  have returns (cores : Nat) :
      (∃ s : Program 1 1 Unit, Main (w cores) stream (fun _ => some content) (requests stream) s) ↔
        ∀ p ∈ requests stream, Permitted (w cores) (ascii "output") p :=
    main_returns (by decide) (by decide) (by decide +kernel) (hin cores) (fun _ _ => hr)
      fun _ => FileProcessingPipeline.inTurn_fair
  refine ⟨hreq, (returns 2).mpr fun _ _ => ⟨rfl, fun _ => ⟨rfl, rfl⟩⟩, fun h => ?_⟩
  have hrose : ascii "rose.csv" ∈ requests stream := hreq ▸ .head _
  have hcore := (returns 1).mp h _ hrose |>.pinned rfl |>.right
  contradiction

end Program
