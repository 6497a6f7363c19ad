import FlowerExchange.Common.Theorems.TextBuffer
import FlowerExchange.Io.CsvReportWriter
import FlowerExchange.Io.Theorems.AcceptedFormat
import FlowerExchange.Io.Theorems.CsvReader

open Decimal

def Separable (text : Bytes) : Prop :=
  44 ∉ text ∧ 10 ∉ text

instance : Decidable (Separable text) :=
  inferInstanceAs <| Decidable (_ ∧ _)

theorem AmountText.separable (h : AmountText text) : Separable text :=
  ⟨h.not_mem (by decide), h.not_mem (by decide)⟩

theorem amountText_toChars (i : Int) : AmountText (toChars i) := by
  have sign : AmountText [45] := by simp [AmountText]
  rw [toChars]
  split
  case isTrue  => exact sign.append <| amountText_decimal _
  case isFalse => exact amountText_decimal _

theorem length_toChars_le {i : Int} (h : i.natAbs < 2 ^ 31) : (toChars i).length ≤ 11 := by
  have : (decimal i.natAbs).length ≤ 10 := length_decimal_le (h.trans (by norm_num)) (by omega)
  rw [toChars]
  split
  case isTrue =>
    rw [List.length_cons]
    omega
  case isFalse => omega

theorem stringViewToInt_decimal (h : n ≤ intLimit) : stringViewToInt (decimal n) = .ok n := by
  have hd : DenotesInt (decimal n) n :=
    denotesInt_digits isDigit_decimal (by simp [decimal]) (by rw [value_decimal])
  rw [stringViewToInt_of_denotes hd, clamp_of_abs_le (by simpa using h)]

theorem stringViewToInt_toChars {n : Nat} (h : n ≤ intLimit) : stringViewToInt (toChars n) = .ok n := by
  have ht : toChars n = decimal n := by simp [toChars]
  rw [ht, stringViewToInt_decimal h]

def AmountIn (n : Nat) (text : Bytes) : Prop :=
  AmountText text ∧ text.length < n

theorem amountIn_nil (hn : 0 < n) : AmountIn n [] :=
  ⟨nofun, hn⟩

theorem amountIn_fitted (h : AmountText text) (hn : 0 < n) : AmountIn n (fitted n text) := by
  rw [fitted]
  split
  case isTrue hl => exact ⟨h, hl⟩
  case isFalse   => exact amountIn_nil hn

theorem amountIn_formatTicksToBuffer (ticks : PriceTick) (hn : 0 < n) :
    AmountIn n (formatTicksToBuffer ticks n) := by
  rw [formatTicksToBuffer_eq]
  exact amountIn_fitted (amountText_centsText ticks) hn

theorem amountIn_formatCentsToBuffer (unspecified : ℚ → Int64) (price : ℚ) (hn : 0 < n) :
    AmountIn n (formatCentsToBuffer unspecified price n) := by
  rw [formatCentsToBuffer_eq]
  split
  case isTrue  => exact amountIn_nil hn
  case isFalse => exact amountIn_fitted (amountText_centsText _) hn

theorem amountIn_formatPriceToBuffer (unspecified : ℚ → Int64) (price : Double) (hn : 0 < n) :
    AmountIn n (formatPriceToBuffer unspecified price n) := by
  have hz : n ≠ 0 := hn.ne'
  have ht (ticks : PriceTick) := amountIn_formatTicksToBuffer ticks hn
  have hc (q : ℚ) := amountIn_formatCentsToBuffer unspecified q hn
  simp only [formatPriceToBuffer, if_neg hz]
  repeat' split
  all_goals first | exact ht _ | exact hc _ | exact amountIn_nil hn

namespace OutboundReportMsg

def columns (message : OutboundReportMsg) : List Bytes :=
  [message.oid.text, message.coid.text, message.instrument.text, toChars message.side,
    message.execStatus.text, toChars message.quantity, message.priceText.text, message.reason.text,
    message.timestamp.text]

def Fits (message : OutboundReportMsg) : Prop :=
  message.side.natAbs < 2 ^ 31 ∧ message.quantity.natAbs < 2 ^ 31

structure Encodable (message : OutboundReportMsg) : Prop where
  oid        : message.oidLen = .ofNat message.oid.text.length
  coid       : message.coidLen = .ofNat message.coid.text.length
  instrument : message.instrumentLen = .ofNat message.instrument.text.length
  execStatus : message.execStatusLen = .ofNat message.execStatus.text.length
  priceText  : message.priceTextLen = .ofNat message.priceText.text.length
  reason     : message.reasonLen = .ofNat message.reason.text.length
  timestamp  : message.timestampLen = .ofNat message.timestamp.text.length
  numbers    : message.side.natAbs < 2 ^ 31 ∧ message.quantity.natAbs < 2 ^ 31
  separable  : ∀ text ∈ message.columns, Separable text
  lineEnd    : 13 ∉ message.timestamp.text

end OutboundReportMsg

namespace CsvReportWriter

variable {message : OutboundReportMsg}

theorem span_eq {n : Nat} (s : CStr n) (hn : n ≤ 256) : span s (.ofNat s.text.length) = s.text := by
  have := s.fits
  rw [span, UInt8.toNat_ofNat', Nat.mod_eq_of_lt (by omega)]
  exact List.take_left

theorem writeSideToBuffer_eq (side : Int) : writeSideToBuffer side = toChars side := by
  rw [writeSideToBuffer]
  split
  case isTrue h => exact h ▸ by decide
  case isFalse =>
    split
    case isTrue h => exact h ▸ by decide
    case isFalse  => rfl

theorem writeQuantityToBuffer_eq (quantity : Int) : writeQuantityToBuffer quantity = toChars quantity := by
  rw [writeQuantityToBuffer]
  split
  case isTrue h =>
    have hl : (decimal quantity.toNat).length ≤ 4 :=
      length_decimal_le (by have := h.right; rw [RuntimeConfig.maxQuantity] at this; omega) (by omega)
    have hq : quantity.toNat = quantity.natAbs := by omega
    rw [kQuantityText, if_pos hl, toChars, if_neg h.left.not_gt, hq]
  case isFalse => rfl

theorem csvRow_eq (h : message.Encodable) : csvRow message = [44].intercalate message.columns ++ [10] := by
  have comma : ascii "," = [44] := rfl
  simp only [csvRow, h.oid, h.coid, h.instrument, h.execStatus, h.priceText, h.reason, h.timestamp,
    Nat.reduceLeDiff, span_eq, writeSideToBuffer_eq, writeQuantityToBuffer_eq, comma, List.append_assoc,
    List.cons_append, List.nil_append, OutboundReportMsg.columns, List.intercalate_cons_cons,
    List.intercalate_singleton]

theorem length_span_le {n : Nat} (s : CStr n) (length : UInt8) : (span s length).length ≤ n := by
  have := s.fits
  rw [span, List.length_take, List.length_append, List.length_replicate]
  omega

theorem length_csvRow_le {message : OutboundReportMsg} (h : message.Fits) :
    (csvRow message).length ≤ 320 := by
  have := length_span_le message.oid message.oidLen
  have := length_span_le message.coid message.coidLen
  have := length_span_le message.instrument message.instrumentLen
  have := length_span_le message.execStatus message.execStatusLen
  have := length_span_le message.priceText message.priceTextLen
  have := length_span_le message.reason message.reasonLen
  have := length_span_le message.timestamp message.timestampLen
  have := length_toChars_le h.left
  have := length_toChars_le h.right
  have comma : (ascii ",").length = 1 := rfl
  simp only [csvRow, writeSideToBuffer_eq, writeQuantityToBuffer_eq, List.length_append, comma,
    List.length_cons, List.length_nil]
  omega

theorem foldlM_writeToRow (parts : List Bytes) (h : (row ++ parts.flatten).length ≤ 320) :
    parts.foldlM writeToRow row = .ok (row ++ parts.flatten) := by
  induction parts generalizing row
  case nil => simp
  case cons part parts hi =>
    have hw : writeToRow row part = .ok (row ++ part) := by
      simp only [List.flatten_cons, List.length_append] at h
      exact if_pos (by omega)
    have hl : (row ++ part ++ parts.flatten).length ≤ 320 := by simpa using h
    simpa [List.foldlM_cons, hw] using hi hl

theorem appendCsvRow_eq (h : message.Fits) (destination : Bytes) :
    appendCsvRow destination message = .ok (destination ++ csvRow message) := by
  have hf : (rowParts message).flatten = csvRow message := by
    simp only [rowParts, csvRow, List.flatten_cons, List.flatten_nil, List.append_nil, List.append_assoc]
  have hl : ([] ++ (rowParts message).flatten).length ≤ 320 := by
    rw [List.nil_append, hf]
    exact length_csvRow_le h
  simp only [appendCsvRow, foldlM_writeToRow _ hl, hf, List.nil_append, Except.ok_bind, Except.pure_eq_ok]

theorem mem_of_mem_intercalate {sep : Bytes} {texts : List Bytes} (h : c ∈ sep.intercalate texts) :
    c ∈ sep ∨ ∃ text ∈ texts, c ∈ text := by
  induction texts
  case nil => contradiction
  case cons text texts hi =>
    cases texts
    case nil =>
      rw [List.intercalate_singleton] at h
      exact .inr ⟨text, .head _, h⟩
    case cons =>
      rw [List.intercalate_cons_cons] at h
      rcases List.mem_append.mp h with h | h
      · rcases List.mem_append.mp h with h | h
        · exact .inr ⟨text, .head _, h⟩
        · exact .inl h
      · rcases hi h with h | ⟨text', ht, h⟩
        · exact .inl h
        · exact .inr ⟨text', .tail _ ht, h⟩

theorem csvRange_csvRow (h : message.Encodable) (rest : Bytes) :
    (csvRange (csvRow message ++ rest)).map CSVRow.fields =
      .ok message.columns :: (csvRange rest).map CSVRow.fields := by
  let line := [44].intercalate message.columns
  have hrow : csvRow message ++ rest = line ++ 10 :: rest := by simp [csvRow_eq h, line]
  have hlen : line.length < 2 ^ 31 := by
    have hl : (line ++ [10]).length ≤ 320 := csvRow_eq h ▸ length_csvRow_le h.numbers
    rw [List.length_append] at hl
    omega
  have hn : 10 ∉ line := by
    intro hm
    rcases mem_of_mem_intercalate hm with hm | ⟨text, ht, hm⟩
    · exact absurd hm (by decide)
    · exact h.separable text ht |>.right hm
  -- The timestamp is at the end of the line.
  have hdrop : CSVRow.dropCarriageReturn line = line := by
    have hl : line = [44].intercalate message.columns.dropLast ++ 44 :: message.timestamp.text := by
      simp [line, OutboundReportMsg.columns]
    rw [hl]
    exact CSVRow.dropCarriageReturn_append _ nofun <|
      List.mem_cons.not.mpr <| not_or.mpr ⟨by decide, h.lineEnd⟩
  rw [csvRange, hrow, getlines_append hn, List.map_cons, List.map_cons, CSVRow.fields_ofLine hlen, hdrop,
    List.splitOn_intercalate 44 (fun text ht => (h.separable text ht).left) nofun]
  rfl

theorem appendCsvRow_all {messages : List OutboundReportMsg} (h : ∀ message ∈ messages, message.Encodable) :
    ∃ bytes, (∀ destination, messages.foldlM appendCsvRow destination = .ok (destination ++ bytes)) ∧
      (csvRange bytes).map CSVRow.fields = messages.map fun message => .ok message.columns := by
  induction messages
  case nil => exact ⟨[], by simp, rfl⟩
  case cons message messages hi =>
    have ⟨hm, h⟩ := List.forall_mem_cons.mp h
    have ⟨bytes, ha, hr⟩ := hi h
    refine ⟨csvRow message ++ bytes, fun destination => ?_, ?_⟩
    · rw [List.foldlM_cons, appendCsvRow_eq hm.numbers, Except.ok_bind, ha, List.append_assoc]
    · rw [csvRange_csvRow hm, hr, List.map_cons]

end CsvReportWriter
