import FlowerExchange.Io.CsvReportWriter

namespace CsvReportWriter

def held (w : CsvReportWriter) : List OutboundReportMsg :=
  match w.location with
  | .append message => [message]
  | _               => []

-- What the writer knows by the time it is somewhere. Once the matcher is done, it pushes no reports.
def Knows (w : CsvReportWriter) (matcherDone : Bool) (reports : List OutboundReportMsg) : Prop :=
  match w.location with
  | .checkEmpty                                    => matcherDone
  | .flush | .joinProducer | .joinMatcher | .ended => matcherDone ∧ reports = []
  | _                                              => True

variable {m n : Nat} {shared shared' : Shared m n} {w w' : CsvReportWriter} {threshold : Nat}
variable {matcherDone : Bool} {reports appended : List OutboundReportMsg}

def reportFile (reports : List OutboundReportMsg) : Bytes :=
  header ++ (reports.map csvRow).flatten

structure Wrote (w : CsvReportWriter) (matcherDone : Bool) (reports : List OutboundReportMsg)
    (appended : List OutboundReportMsg) : Prop where
  written : w.outputFile ++ w.writeBatch = reportFile appended
  flushed : w.returned → w.writeBatch = []
  knows   : w.Knows matcherDone reports

namespace Wrote

theorem start : Wrote {} matcherDone reports [] where
  written := rfl
  flushed := nofun
  knows   := trivial

theorem congr (h : Wrote w matcherDone reports appended)
    (hd : matcherDone → matcherDone' = matcherDone ∧ reports' = reports) :
    Wrote w matcherDone' reports' appended where
  written := h.written
  flushed := h.flushed
  knows   := by
    have := h.knows
    unfold Knows at *
    split <;> simp_all

theorem goto (h : Wrote w matcherDone reports appended)
    (hw : w'.outputFile = w.outputFile ∧ w'.writeBatch = w.writeBatch)
    (hr : w'.returned → w.returned) (hk : w'.Knows matcherDone' reports') :
    Wrote w' matcherDone' reports' appended where
  written := by rw [hw.left, hw.right, h.written]
  flushed := fun hr' => hw.right ▸ h.flushed (hr hr')
  knows   := hk

end Wrote

theorem reportFile_append (reports : List OutboundReportMsg) (report : OutboundReportMsg) :
    reportFile (reports ++ [report]) = reportFile reports ++ csvRow report := by
  simp [reportFile]

theorem append_written (threshold : Nat) (w : CsvReportWriter) (message : OutboundReportMsg) :
    (w.append threshold message).outputFile ++ (w.append threshold message).writeBatch =
      w.outputFile ++ w.writeBatch ++ csvRow message := by
  simp only [append]
  split <;> simp

theorem step_wrote (h : Wrote w shared.state.matcherDone shared.outbound.items appended)
    (hs : w.step threshold shared = some (w', shared')) : ∃ appended',
      Wrote w' shared'.state.matcherDone shared'.outbound.items appended' ∧
      (appended' ++ w'.held ++ shared'.outbound.items = appended ++ w.held ++ shared.outbound.items) ∧
      (shared'.inbound = shared.inbound) ∧ (shared'.state = shared.state) := by
  obtain ⟨batch, file, location⟩ := w
  cases location
  case checkDone =>
    cases hs
    refine ⟨appended, h.goto ⟨rfl, rfl⟩ ?_ ?_, ?_, rfl, rfl⟩
    all_goals by_cases hd : shared.state.matcherDone <;> simp [returned, Knows, held, hd]
  case checkEmpty =>
    have hd : shared.state.matcherDone := h.knows
    have he := Fifo.isEmpty_iff (q := shared.outbound)
    cases hs
    refine ⟨appended, h.goto ⟨rfl, rfl⟩ ?_ ?_, ?_, rfl, rfl⟩
    all_goals by_cases hi : shared.outbound.isEmpty <;> simp_all [returned, Knows, held]
  case pop =>
    simp only [step] at hs
    split at hs
    case h_1 =>
      cases hs
      exact ⟨appended, h.goto ⟨rfl, rfl⟩ nofun trivial, rfl, rfl, rfl⟩
    case h_2 message outbound hp =>
      cases hs
      exact ⟨appended, h.goto ⟨rfl, rfl⟩ nofun trivial, by simp [held, Fifo.items_pop hp], rfl, rfl⟩
  case append message =>
    cases hs
    refine ⟨appended ++ [message], ⟨?_, nofun, trivial⟩, by simp [held], rfl, rfl⟩
    rw [reportFile_append, ← h.written]
    exact append_written ..
  case flush =>
    cases hs
    exact ⟨appended, ⟨by simpa using h.written, fun _ => rfl, h.knows⟩, rfl, rfl, rfl⟩
  all_goals contradiction

end CsvReportWriter
