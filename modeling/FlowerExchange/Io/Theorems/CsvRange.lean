import FlowerExchange.Lib.Machine
import FlowerExchange.Lib.Words
import FlowerExchange.Io.Theorems.CsvReader

inductive Lines : Bytes → List Bytes → Prop
  | nil : Lines [] []
  | last (hn : line ≠ []) (h : 10 ∉ line) : Lines line [line]
  | cons (h : 10 ∉ line) : Lines rest lines → Lines (line ++ 10 :: rest) (line :: lines)

theorem lines_getlines (stream : Bytes) : Lines stream (getlines stream) := by
  induction hn : stream.length using Nat.strong_induction_on generalizing stream
  case h n hi =>
    by_cases hm : 10 ∈ stream
    case pos =>
      obtain ⟨line, rest, rfl, h⟩ := List.eq_append_cons_of_mem hm
      rw [getlines_append h]
      refine .cons h <| hi rest.length ?_ rest rfl
      simp only [← hn, List.length_append, List.length_cons]
      omega
    case neg =>
      cases stream
      case nil => exact .nil
      case cons c cs =>
        have hs := List.cons_ne_nil c cs
        rw [getlines_last hs hm]
        exact .last hs hm

namespace IStream

theorem getline_line {line : Bytes} (h : 10 ∉ line) (rest old : Bytes) :
    getline { rest := line ++ 10 :: rest } old = ({ rest := rest }, line) := by
  have hl : ∀ c ∈ line, decide (c ≠ 10) = true := fun c hc => by
    simpa using fun he : c = 10 => h (he ▸ hc)
  have ht : (line ++ 10 :: rest).takeWhile (· ≠ 10) = line := by
    rw [List.takeWhile_append_of_pos hl]
    simp
  have hd : (line ++ 10 :: rest).dropWhile (· ≠ 10) = 10 :: rest := by
    rw [List.dropWhile_append_of_pos hl]
    simp
  have hm : 10 ∈ line ++ 10 :: rest := by simp
  simp only [IStream.getline, good, Bool.not_false, Bool.and_self, Bool.not_true, Bool.false_eq_true,
    if_false, if_pos hm, ht, hd, List.tail_cons]

theorem getline_last {line : Bytes} (h : 10 ∉ line) (old : Bytes) :
    getline { rest := line } old = ({ rest := [], eof := true, fail := line.isEmpty }, line) := by
  simp [getline, good, h]

end IStream

namespace CSVIterator

open IStream

variable {stream line rest : Bytes} {lines : List Bytes} {row : CSVRow}

theorem next_line (h : 10 ∉ line) :
    next ⟨some { rest := line ++ 10 :: rest }, row⟩ = ⟨some { rest := rest }, CSVRow.ofLine line⟩ := by
  simp [next, CSVRow.readNextRow, getline_line h]

theorem next_last (hn : line ≠ []) (h : 10 ∉ line) :
    next ⟨some { rest := line }, row⟩ = ⟨some { rest := [], eof := true }, CSVRow.ofLine line⟩ := by
  simp [next, CSVRow.readNextRow, getline_last h, hn]

theorem next_nil : (next ⟨some { rest := [] }, row⟩).stream = none := by
  simp [next, CSVRow.readNextRow, getline_last List.not_mem_nil]

theorem next_eof : (next ⟨some { rest := rest, eof := true }, row⟩).stream = none := by
  simp [next, CSVRow.readNextRow, IStream.getline, good]

theorem step_none {it : CSVIterator} (h : it.stream = none) : step it = none := by
  simp [step, equal, h, sentinel]

theorem step_some (stream : IStream) (row : CSVRow) :
    step ⟨some stream, row⟩ = some (next ⟨some stream, row⟩, row) := by
  simp [step, equal]

theorem loop_next (h : Lines stream lines) (row : CSVRow) (hn : lines.length < n) :
    Machine.loop step n (next ⟨some { rest := stream }, row⟩) = (lines.map CSVRow.ofLine, true) := by
  induction h generalizing row n
  case nil =>
    obtain ⟨n, rfl⟩ := Nat.exists_eq_add_of_lt hn
    rw [Machine.loop_none (step_none next_nil)]
    rfl
  case last line hne h =>
    obtain ⟨n, rfl⟩ := Nat.exists_eq_add_of_lt hn
    rw [next_last hne h, Machine.loop_some (step_some ..), List.length_singleton, Nat.add_comm 1 n,
      Machine.loop_none (step_none next_eof)]
    rfl
  case cons line rest lines h _ hi =>
    cases n
    case zero   => contradiction
    case succ n =>
      rw [next_line h, Machine.loop_some (step_some ..), hi _ (Nat.lt_of_succ_lt_succ hn)]
      rfl

theorem loop_eq (stream : Bytes) (hn : (getlines stream).length < n) :
    Machine.loop step n (ofStream { rest := stream }) = (csvRange stream, true) :=
  loop_next (lines_getlines stream) _ hn

end CSVIterator

theorem Except.forall₂_of_mapM {f : α → Except ε β} (h : xs.mapM f = .ok ys) :
    List.Forall₂ (fun x y => f x = .ok y) xs ys := by
  induction xs generalizing ys
  case nil =>
    cases h
    exact .nil
  case cons x xs hi =>
    rw [List.mapM_cons] at h
    obtain ⟨y, hy, h⟩ := Except.bind_eq_ok h
    obtain ⟨ys, hys, h⟩ := Except.bind_eq_ok h
    cases h
    exact .cons hy (hi hys)

namespace CSVRow

structure Reads (line : Bytes) (row : CSVRow) : Prop where
  size   : row.size = 1 + (dropCarriageReturn line).count 44
  throws : ∀ i, (∃ f, row.field i = .error f) ↔ row.size ≤ i
  beyond : ∀ i ≥ row.size, row.field i = .error .outOfRange
  joined : ∃ fs : List Bytes, (∀ i (h : i < fs.length), row.field i = .ok fs[i]) ∧
    (fs.length = row.size) ∧ (∀ f ∈ fs, 44 ∉ f) ∧ ([44].intercalate fs = dropCarriageReturn line)

theorem field_beyond {row : CSVRow} (h : i ≥ row.size) : row.field i = .error .outOfRange := by
  rw [field, if_pos h]
  rfl

theorem field_of_fields {row : CSVRow} (h : row.fields = .ok fs) :
    (fs.length = row.size) ∧ ∀ i (h : i < fs.length), row.field i = .ok fs[i] := by
  have hf := Except.forall₂_of_mapM h
  have hl : fs.length = row.size := by simpa using hf.length_eq.symm
  refine ⟨hl, fun i hi => ?_⟩
  simpa using hf.get (by simpa [← hl] using hi) hi

theorem reads_ofLine {line : Bytes} (h : line.length < 2 ^ 31) : Reads line (ofLine line) := by
  obtain ⟨hlen, hf⟩ := field_of_fields <| fields_ofLine h
  have hsize : (ofLine line).size = 1 + (dropCarriageReturn line).count 44 := by
    rw [← hlen, List.splitOn_eq_splitOnP, Words.length_splitOnP, Nat.add_comm]
    rfl
  refine ⟨hsize, fun i => ⟨?_, fun hi => ⟨_, field_beyond hi⟩⟩, fun i => field_beyond,
    (dropCarriageReturn line).splitOn 44, hf, hlen, fun f hm hc => ?_, List.intercalate_splitOn 44⟩
  · rintro ⟨f, hi⟩
    by_contra hlt
    rw [hf i (hlen ▸ Nat.lt_of_not_le hlt)] at hi
    contradiction
  · have := Words.not_sep_of_mem_splitOnP hm 44 hc
    simp at this

end CSVRow

-- A loop over the rows of a stream ends, and has read each of its lines once and in order by then.
theorem csvRange_reads (stream : Bytes) (h : ∀ line ∈ getlines stream, line.length < 2 ^ 31) :
    Lines stream (getlines stream) ∧ ∃ rows,
      (∀ n > rows.length, Machine.loop CSVIterator.step n (.ofStream { rest := stream }) = (rows, true)) ∧
      List.Forall₂ CSVRow.Reads (getlines stream) rows := by
  refine ⟨lines_getlines stream, csvRange stream, fun n hn => CSVIterator.loop_eq stream ?_, ?_⟩
  · simpa [csvRange] using hn
  · rw [csvRange, List.forall₂_map_right_iff, List.forall₂_same]
    exact fun line hl => CSVRow.reads_ofLine (h line hl)

theorem csvRange_reads_mixed :
    let stream := ascii "a,,b\r\n\n,c"
    (getlines stream = [ascii "a,,b\r", [], ascii ",c"]) ∧ ∃ rows,
      (∀ n > rows.length, Machine.loop CSVIterator.step n (.ofStream { rest := stream }) = (rows, true)) ∧
      List.Forall₂ CSVRow.Reads (getlines stream) rows := by
  intro stream
  have hl : getlines stream = [ascii "a,,b\r", [], ascii ",c"] := by decide +kernel
  refine ⟨hl, (csvRange_reads stream ?_).right⟩
  rw [hl]
  decide +kernel
