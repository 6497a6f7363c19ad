import FlowerExchange.Common.Theorems.Parsing
import FlowerExchange.Io.CsvOrderProducer
import FlowerExchange.Io.Theorems.CsvReader
import FlowerExchange.Matching.Theorems.Conservation

open Decimal RuntimeConfig

structure CSVRow.Denotes (row : CSVRow) (instrument : Bytes) (side quantity : Int) (price : ℚ) : Prop where
  instrument : row.field 1 = .ok instrument
  side       : ∃ text, row.field 2 = .ok text ∧ DenotesInt text side
  quantity   : ∃ text, row.field 3 = .ok text ∧ DenotesInt text quantity
  price      : ∃ text, row.field 4 = .ok text ∧ Decimal.Denotes text price

structure Documented (instrument : Bytes) (side quantity : Int) (price : ℚ) : Prop where
  instrument : instrument ∈ validInstrumentNames
  side       : side = 1 ∨ side = 2
  quantity   : 10 ∣ quantity ∧ 10 ≤ quantity ∧ quantity ≤ 1000
  price      : (∃ n : Int, price = n * (1 / 100)) ∧ 1 / 100 ≤ price ∧ price ≤ 1000

-- The order is in the range of the format, as far as the text of its instrument goes up to a NUL byte
-- and its price need not be a multiple of the tick size.
structure InRange (instrument : Bytes) (side quantity : Int) (price : ℚ) : Prop where
  instrument : instrument.takeWhile (· ≠ 0) ∈ validInstrumentNames
  side       : side = 1 ∨ side = 2
  quantity   : 10 ∣ quantity ∧ 10 ≤ quantity ∧ quantity ≤ 1000
  price      : 0 < price ∧ price ≤ 1000

theorem castInt_le (n : Nat) : castInt n ≤ intMax := by
  have := CSVRow.castInt_lt n
  simp only [intMax]
  omega

namespace CSVRow

theorem commaPositions_le (pos : Nat) (line : Bytes) : ∀ n ∈ commaPositions pos line, n ≤ intMax := by
  induction line generalizing pos
  case nil => nofun
  case cons c _ hi =>
    simp only [commaPositions]
    split
    · intro n hn
      rcases List.mem_cons.mp hn with he | hn
      · exact he ▸ castInt_le pos
      · exact hi _ n hn
    · exact hi _

theorem ofLine_positions_le (text : Bytes) : ∀ n ∈ (ofLine text).fieldPositions, n ≤ intMax := by
  intro n hn
  simp only [ofLine, List.cons_append, List.mem_cons, List.mem_append, List.not_mem_nil, or_false] at hn
  rcases hn with he | hn | he
  · exact he ▸ by decide
  · exact commaPositions_le _ _ n hn
  · exact he ▸ castInt_le _

theorem field_length_le {text sv : Bytes} (h : (ofLine text).field index = .ok sv) :
    sv.length ≤ intLimit := by
  obtain ⟨first, last, _, hl, _, rfl⟩ := field_eq_ok h
  have hle := ofLine_positions_le text last <| List.mem_of_getElem? hl
  rw [intMax_eq] at hle
  rw [List.length_take]
  omega

end CSVRow

namespace CsvOrderProducer

variable {row : CSVRow} {sequence : UInt64} {m : InboundOrderMsg}

theorem copyText_eq (source : Bytes) : (copyText source : CStr (n + 1)) = .copy source := by
  ext1
  exact List.take_takeWhile.symm.trans (copyLoop_eq source n).symm

theorem message_eq_ok (h : message row sequence = .ok m) : ∃ instrument side quantity price,
    row.Denotes instrument side quantity price := by
  obtain ⟨_, _, h⟩ := Except.bind_eq_ok h
  obtain ⟨instrument, hi, h⟩ := Except.bind_eq_ok h
  obtain ⟨side, hs, h⟩ := Except.bind_eq_ok h
  obtain ⟨_, hs', h⟩ := Except.bind_eq_ok h
  obtain ⟨quantity, hq, h⟩ := Except.bind_eq_ok h
  obtain ⟨_, hq', h⟩ := Except.bind_eq_ok h
  obtain ⟨price, hp, h⟩ := Except.bind_eq_ok h
  obtain ⟨_, hp', h⟩ := Except.bind_eq_ok h
  have ⟨s, hs'⟩ := denotes_of_stringViewToInt hs'
  have ⟨q, hq'⟩ := denotes_of_stringViewToInt hq'
  have ⟨man, e, hp'⟩ := scientific_of_stringViewToDouble hp'
  exact ⟨instrument, s, q, _, hi, ⟨side, hs, hs'⟩, ⟨quantity, hq, hq'⟩, price, hp, man, e, hp', rfl⟩

theorem message_fields {text : Bytes} (h : message (.ofLine text) sequence = .ok m)
    (hd : (CSVRow.ofLine text).Denotes instrument side quantity price) :
    m.instrument = .copy instrument ∧ m.side = clamp intLimit side ∧
      m.quantity = clamp intLimit quantity ∧ ∃ sv man e, Scientific sv man e ∧
        sv.length ≤ intLimit ∧ price = man * 10 ^ e ∧ m.price = .finite (man * 10 ^ clamp intLimit e) := by
  obtain ⟨hi, ⟨_, hs, hs'⟩, ⟨_, hq, hq'⟩, ⟨sv, hp, man, e, hp', hv⟩⟩ := hd
  have hlen := CSVRow.field_length_le hp
  simp only [message, hi, hs, hq, hp, Except.ok_bind, stringViewToInt_of_denotes hs',
    stringViewToInt_of_denotes hq', stringViewToDouble_of_scientific hp'] at h
  obtain ⟨_, _, h⟩ := Except.bind_eq_ok h
  cases h
  exact ⟨copyText_eq _, rfl, rfl, sv, man, e, hp', hlen, hv, rfl⟩

end CsvOrderProducer

theorem validInstrumentNames_fit : ∀ name ∈ validInstrumentNames, name.length < 31 ∧ 0 ∉ name := by
  decide

theorem copy_mem_names (instrument : Bytes) :
    (CStr.copy instrument : CStr 32).text ∈ validInstrumentNames ↔
      instrument.takeWhile (· ≠ 0) ∈ validInstrumentNames := by
  simp only [CStr.copy, copyLoop_eq]
  constructor <;> intro h <;> have hl := (validInstrumentNames_fit _ h).left
  · rw [List.length_take] at hl
    rwa [List.take_of_length_le (by omega)] at h
  · rwa [List.take_of_length_le (by omega)]

theorem mem_names_iff (instrument : Bytes) : instrument ∈ validInstrumentNames ↔
    instrument.takeWhile (· ≠ 0) ∈ validInstrumentNames ∧ 0 ∉ instrument := by
  have noNul (h : 0 ∉ instrument) : instrument.takeWhile (· ≠ 0) = instrument :=
    List.takeWhile_eq_self_iff.mpr fun c hc => by
      simp only [decide_eq_true_eq]
      exact fun h' => h (h' ▸ hc)
  refine ⟨fun h => ?_, fun ⟨h, hn⟩ => noNul hn ▸ h⟩
  have hn := (validInstrumentNames_fit _ h).right
  exact ⟨(noNul hn).symm ▸ h, hn⟩

theorem clamp_side (side : Int) : (∃ s : Side, clamp intLimit side = s.toInt) ↔ side = 1 ∨ side = 2 := by
  simp only [clamp, intLimit]
  constructor
  · rintro ⟨s, hs⟩
    cases s <;> simp only [Side.toInt] at hs <;> omega
  · rintro (rfl | rfl)
    · exact ⟨.buy, rfl⟩
    · exact ⟨.sell, rfl⟩

theorem clamp_quantity (quantity : Int) :
    (10 ∣ clamp intLimit quantity ∧ 10 ≤ clamp intLimit quantity ∧ clamp intLimit quantity ≤ 1000) ↔
      (10 ∣ quantity ∧ 10 ≤ quantity ∧ quantity ≤ 1000) := by
  simp only [clamp, intLimit]
  omega

theorem clamp_price (h : Scientific sv m e) (hl : sv.length ≤ intLimit) :
    ((0 < m * 10 ^ clamp intLimit e ∧ m * 10 ^ clamp intLimit e ≤ 1000) ↔
      (0 < m * 10 ^ e ∧ m * 10 ^ e ≤ 1000)) ∧
    (1 / 100 ≤ m * 10 ^ e → m * 10 ^ e ≤ 1000 → m * 10 ^ clamp intLimit e = m * 10 ^ e) := by
  have pos (k : Int) : 0 < m * (10 : ℚ) ^ k ↔ 0 < m := mul_pos_iff_of_pos_right <| zpow_pos (by norm_num) k
  simp only [pos]
  rcases le_or_gt m 0 with hm | hm
  case inl =>
    have hn := mt (pos e).mp hm.not_gt
    exact ⟨by simp [hm.not_gt], fun hp => by linarith⟩
  case inr =>
    rcases h.clamp_cases hm (by decide) hl with he | ⟨h₁, h₂⟩ | ⟨h₁, h₂⟩
    · rw [he]
      exact ⟨.rfl, fun _ _ => rfl⟩
    · exact ⟨by simp [h₁.not_ge, h₂.not_ge], fun _ hp => by linarith⟩
    · refine ⟨?_, fun hp _ => by linarith⟩
      have : m * (10 : ℚ) ^ clamp intLimit e ≤ 1000 := by linarith
      have : m * (10 : ℚ) ^ e ≤ 1000 := by linarith
      tauto

theorem documented_iff : Documented instrument side quantity price ↔
    InRange instrument side quantity price ∧ 0 ∉ instrument ∧ ∃ n : Int, price * 100 = n := by
  constructor
  · intro ⟨hi, hs, hq, ⟨n, hn⟩, hp, hp'⟩
    have ⟨hi, hz⟩ := mem_names_iff instrument |>.mp hi
    exact ⟨⟨hi, hs, hq, by linarith, hp'⟩, hz, n, by rw [hn]; ring⟩
  · intro ⟨⟨hi, hs, hq, hp, hp'⟩, hz, n, hn⟩
    have : (1 : ℚ) ≤ n := by
      have : (0 : ℚ) < n := by linarith
      exact_mod_cast this
    exact ⟨mem_names_iff instrument |>.mpr ⟨hi, hz⟩, hs, hq, ⟨n, by linarith⟩, by linarith, hp'⟩

namespace CsvOrderProducer

variable {row : CSVRow} {sequence : UInt64} {m : InboundOrderMsg}

theorem instrumentType_ne_count_iff (message : InboundOrderMsg) :
    message.instrumentType ≠ .count ↔ message.instrument.text ∈ validInstrumentNames := by
  rw [← parseInstrument_isSome_iff, InboundOrderMsg.instrumentType]
  cases h : parseInstrument message.instrument.text
  case none   => simp
  case some i => simpa using fun hc => parseInstrument_ne_count (hc ▸ h)

theorem validate_iff {text : Bytes} (h : message (.ofLine text) sequence = .ok m)
    (hd : (CSVRow.ofLine text).Denotes instrument side quantity price) :
    m.validate = none ↔ InRange instrument side quantity price := by
  have ⟨hi, hs, hq, sv, man, e, hsci, hlen, hp, hp'⟩ := message_fields h hd
  rw [InboundOrderMsg.validate, validateOrder_eq_none_iff, instrumentType_ne_count_iff, hi,
    copy_mem_names, hs, hq, hp', clamp_side, clamp_quantity]
  have hrange := (clamp_price hsci hlen).left
  rw [← hp] at hrange
  constructor
  · rintro ⟨hi, hs, hq, _, ⟨⟩, hp⟩
    exact ⟨hi, hs, hq, hrange.mp hp⟩
  · rintro ⟨hi, hs, hq, hp⟩
    exact ⟨hi, hs, hq, _, rfl, hrange.mpr hp⟩

theorem newOrder_price {text : Bytes} (h : message (.ofLine text) sequence = .ok m)
    (hd : (CSVRow.ofLine text).Denotes instrument side quantity price)
    (hf : Documented instrument side quantity price) (unspecified : ℚ → Int64) (s : OrderProcessor) :
    1 ≤ (s.newOrder unspecified m).price ∧ (s.newOrder unspecified m).price ≤ maxValidTick ∧
      ticksToDouble (s.newOrder unspecified m).price = price := by
  have ⟨_, _, _, sv, man, e, hsci, hlen, hp, hp'⟩ := message_fields h hd
  have ⟨⟨n, hn⟩, hle, hge⟩ := hf.price
  have heq := (clamp_price hsci hlen).right (hp ▸ hle) (hp ▸ hge)
  have hround : price * 100 = (n : ℚ) := by
    rw [hn]
    ring
  have h₁ : 1 ≤ n := by
    have : (1 : ℚ) ≤ n := by linarith
    exact_mod_cast this
  have h₂ : n ≤ 100000 := by
    have : (n : ℚ) ≤ 100000 := by linarith
    exact_mod_cast this
  have htick : (s.newOrder unspecified m).price = n.toNat := by
    simp only [OrderProcessor.newOrder, Order.new]
    rw [hp', heq, ← hp, doubleToTicks_finite (by linarith) hge, hround, roundHalfAway_intCast (by omega)]
  have hcast : ((n.toNat : Nat) : ℚ) = n := by
    have : ((n.toNat : Int) : ℚ) = n := by rw [Int.toNat_of_nonneg (by omega)]
    exact_mod_cast this
  rw [htick]
  have hpos : 1 ≤ n.toNat := by omega
  have hmax : n.toNat ≤ 100000 := by omega
  exact ⟨hpos, hmax, by rw [ticksToDouble, tickSize, hcast, hn]⟩

end CsvOrderProducer

def Rejected (emitted : List Emission) : Prop :=
  ∃ e ∈ emitted, e.output.execStatus.text = execStatusToString .rejected

theorem Exchange.step_execStatus (hm : e ∈ (Exchange.step unspecified x (.consume a)).2) :
    e.output.execStatus.text = execStatusToString e.report.status := by
  obtain ⟨r, hr, rfl⟩ := List.mem_map.mp (map_records ▸ hm)
  obtain ⟨_, _, _, _, hf, _⟩ := records_filled hr
  rw [hf]
  exact execStatusToString_copy _

theorem Exchange.step_rejected_iff (unspecified : ℚ → Int64) (x : Exchange) (a : Arrival) :
    Rejected (x.step unspecified (.consume a)).2 ↔ a.message.validate ≠ none := by
  cases hm : a.message.placement
  case error reason =>
    have hv := InboundOrderMsg.placement_eq_error_iff.mp hm
    have hs : (CStr.copy (execStatusToString .rejected) : CStr 16).text = execStatusToString .rejected :=
      execStatusToString_copy .rejected
    simp [Rejected, step_reject hm, hv, InboundOrderMsg.rejectEmission, InboundOrderMsg.rejection,
      fillOutboundFields, copyText, hs]
  case ok p =>
    have hv := InboundOrderMsg.validate_of_placement hm
    simp only [hv, ne_eq, not_true_eq_false, iff_false]
    rintro ⟨e, he, hs⟩
    have hstatus := execStatusToString_injective <| (step_execStatus he).symm.trans hs
    obtain ⟨r, hr, rfl⟩ := List.mem_map.mp (map_records ▸ he)
    exact records_status hm hr hstatus

-- The order is allocated and processed by the engine, and nothing else happens to the processor.
def OrderProcessor.Enters (s : OrderProcessor) (message : InboundOrderMsg) (timestamp now : CStr 20)
    (order : Order) (s' : OrderProcessor) (emitted : List Emission) : Prop :=
  ∃ pool ptr matcher out,
    (s.matcher.orderPool.allocate order = .ok (pool, ptr)) ∧ (pool.read ptr = .ok order) ∧
    ({ s.matcher with orderPool := pool }.processOrder (MatchingEngine.releasing message.reportEmission)
      ptr (some timestamp.text) now = .ok (matcher, out)) ∧
    (s' = ⟨s.nextOid + 1, matcher⟩) ∧ (emitted = out.emitted)

theorem OrderProcessor.Agrees.enters {s : OrderProcessor} {message : InboundOrderMsg}
    {timestamp now : CStr 20} (hs : s.Agrees x) (hv : message.validate = none)
    (h : s.consumeMessage unspecified message timestamp now = .ok (s', emitted)) :
    s.Enters message timestamp now (s.newOrder unspecified message) s' emitted := by
  have hv : validateOrder ((parseInstrument message.instrument.text).getD .count) message.side
      message.price message.quantity = none := hv
  simp only [consumeMessage, hv] at h
  obtain ⟨⟨pool, ptr⟩, halloc, h⟩ := Except.bind_eq_ok h
  obtain ⟨⟨matcher, out⟩, hproc, h⟩ := Except.bind_eq_ok h
  cases h
  obtain ⟨_, _, models⟩ := hs
  obtain ⟨_, _, halloc', _, _, hheap⟩ :=
    MemPool.allocate_spec (s.newOrder unspecified message) models.represents.wf
  cases halloc.symm.trans halloc'
  have hread : pool.heap ptr = some (s.newOrder unspecified message) := by
    rw [hheap, Function.update_self]
  exact ⟨pool, ptr, matcher, out, halloc, MemPool.read_eq hread, hproc, rfl, rfl⟩

theorem denotesInt_digits (h : Digits ds) (hn : ds ≠ []) (hv : value ds = v) : DenotesInt ds v := by
  have : DenotesInt ([] ++ ([] ++ (ds ++ []))) (1 * value ds) := .mk nofun .none h hn nofun
  simpa [hv] using this

theorem denotes_point (cs ds : Bytes) (h : Digits cs ∧ Digits ds) (hn : cs ++ ds ≠ [])
    (hq : (value (cs ++ ds) / 10 ^ ds.length : ℚ) = q) : Decimal.Denotes (cs ++ 46 :: ds) q := by
  have hm : Mantissa (cs ++ 46 :: ds) q := hq ▸ .point h.left h.right hn
  have : Scientific ([] ++ ([] ++ (cs ++ 46 :: ds ++ ([] ++ [])))) ((1 : Int) * q) 0 :=
    .mk nofun .none hm .none nofun
  exact ⟨q, 0, by simpa using this, by simp⟩

-- A row is accepted exactly when it has the documented format, and its order enters the engine with the
-- price of the row in ticks, exactly when no order in range has a NUL byte behind the name of its instrument
-- or a price between two ticks.
theorem OrderProcessor.accepts_documented_iff (unspecified : ℚ → Int64) (events : List Event)
    (text : Bytes) (sequence : UInt64) (timestamp now : CStr 20)
    (h : CsvOrderProducer.message (.ofLine text) sequence = .ok message) : ∃ s s' emitted,
      Reached unspecified events s ∧
      s.consumeMessage unspecified message timestamp now = .ok (s', emitted) ∧
      (∃ instrument side quantity price,
        (CSVRow.ofLine text).Denotes instrument side quantity price) ∧
      ∀ instrument side quantity price, (CSVRow.ofLine text).Denotes instrument side quantity price →
        (((¬Rejected emitted ↔ Documented instrument side quantity price) ∧
          (¬Rejected emitted → ∃ order, s.Enters message timestamp now order s' emitted ∧
            1 ≤ order.price ∧ order.price ≤ maxValidTick ∧ ticksToDouble order.price = price)) ↔
        (InRange instrument side quantity price → 0 ∉ instrument ∧ ∃ n : Int, price * 100 = n)) := by
  obtain ⟨s, hs, hagrees⟩ := reached_agrees unspecified events
  obtain ⟨s', hstep, _⟩ := step_agrees unspecified (.consume ⟨message, timestamp, now⟩) hagrees
  refine ⟨s, s', _, hs, hstep, CsvOrderProducer.message_eq_ok h, fun instrument side quantity price hd => ?_⟩
  have hvalid := CsvOrderProducer.validate_iff h hd
  rw [Exchange.step_rejected_iff, not_not, hvalid, documented_iff]
  constructor
  · rintro ⟨hiff, _⟩ hr
    exact (hiff.mp hr).right
  · refine fun hc => ⟨⟨fun hr => ⟨hr, hc hr⟩, And.left⟩, fun hr => ?_⟩
    exact ⟨_, hagrees.enters (hvalid.mpr hr) hstep,
      CsvOrderProducer.newOrder_price h hd (documented_iff.mpr ⟨hr, hc hr⟩) unspecified s⟩

theorem OrderProcessor.accepts_documented_row :
    let text := ascii "a,Rose,1,10,1.00"
    let message : InboundOrderMsg := ⟨.copy (ascii "a"), .copy (ascii "Rose"), 1, 10, .finite 1, 1⟩
    CsvOrderProducer.message (.ofLine text) 1 = .ok message ∧ ∃ s s' emitted,
      Reached (fun _ => 0) [] s ∧
      s.consumeMessage (fun _ => 0) message default default = .ok (s', emitted) ∧ ¬Rejected emitted ∧
      ∃ order, s.Enters message default default order s' emitted ∧ ticksToDouble order.price = 1 := by
  intro text message
  have h : CsvOrderProducer.message (.ofLine text) 1 = .ok message := by decide +kernel
  have hd : (CSVRow.ofLine text).Denotes (ascii "Rose") 1 10 1 :=
    ⟨by decide +kernel,
      ⟨ascii "1", by decide +kernel, denotesInt_digits (by decide) (by decide) (by decide)⟩,
      ⟨ascii "10", by decide +kernel, denotesInt_digits (by decide) (by decide) (by decide)⟩,
      ascii "1.00", by decide +kernel,
      denotes_point (ascii "1") (ascii "00") (by decide) (by decide) (by decide +kernel)⟩
  have documented : Documented (ascii "Rose") 1 10 1 :=
    ⟨by decide, .inl rfl, by decide, ⟨100, by norm_num⟩, by norm_num, by norm_num⟩
  obtain ⟨s, s', emitted, hs, hc, _, hiff⟩ :=
    accepts_documented_iff (fun _ => 0) [] text 1 default default h
  obtain ⟨haccepted, henters⟩ := (hiff _ _ _ _ hd).mpr fun _ => ⟨by decide, 100, by norm_num⟩
  obtain ⟨order, horder, _, _, hprice⟩ := henters (haccepted.mpr documented)
  exact ⟨h, s, s', emitted, hs, hc, haccepted.mpr documented, order, horder, hprice⟩

-- A row is accepted though its price is less than half of a tick. Its order enters the engine at tick 0.
theorem OrderProcessor.accepts_undocumented_row :
    let text := ascii "a,Rose,1,10,0.004"
    let message : InboundOrderMsg := ⟨.copy (ascii "a"), .copy (ascii "Rose"), 1, 10, .finite (4 / 1000), 1⟩
    CsvOrderProducer.message (.ofLine text) 1 = .ok message ∧
    (CSVRow.ofLine text).Denotes (ascii "Rose") 1 10 (4 / 1000) ∧ ∃ s s' emitted,
      Reached (fun _ => 0) [] s ∧
      s.consumeMessage (fun _ => 0) message default default = .ok (s', emitted) ∧
      ¬Rejected emitted ∧ ¬Documented (ascii "Rose") 1 10 (4 / 1000) ∧
      ∃ order, s.Enters message default default order s' emitted ∧ order.price = 0 := by
  intro text message
  have h : CsvOrderProducer.message (.ofLine text) 1 = .ok message := by decide +kernel
  have hd : (CSVRow.ofLine text).Denotes (ascii "Rose") 1 10 (4 / 1000) :=
    ⟨by decide +kernel,
      ⟨ascii "1", by decide +kernel, denotesInt_digits (by decide) (by decide) (by decide)⟩,
      ⟨ascii "10", by decide +kernel, denotesInt_digits (by decide) (by decide) (by decide)⟩,
      ascii "0.004", by decide +kernel,
      denotes_point (ascii "0") (ascii "004") (by decide) (by decide) (by decide +kernel)⟩
  have valid : message.validate = none := by decide +kernel
  obtain ⟨s, hs, hagrees⟩ := reached_agrees (fun _ => 0) []
  obtain ⟨s', hstep, _⟩ := step_agrees (fun _ => 0) (.consume ⟨message, default, default⟩) hagrees
  refine ⟨h, hd, s, s', _, hs, hstep, ?_, fun hf => ?_, _, hagrees.enters valid hstep, ?_⟩
  · rw [Exchange.step_rejected_iff]
    exact not_not.mpr valid
  · have := hf.price.right.left
    norm_num at this
  · have : doubleToTicks (fun _ => 0) (.finite (4 / 1000)) = 0 := by decide +kernel
    exact this
