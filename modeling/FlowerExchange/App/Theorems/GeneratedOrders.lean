import FlowerExchange.App.Theorems.FileProcessingPipeline
import FlowerExchange.Io.OrderGenerator
import FlowerExchange.Io.Theorems.CsvRange
import FlowerExchange.Io.Theorems.PushedReports

open CsvOrderProducer Decimal

namespace OrderGenerator

variable {c : Choice} {choices : List Choice} {i : Nat}

def Choice.message (c : Choice) (i : Nat) : InboundOrderMsg where
  coid       := .copy (decimal i)
  instrument := .copy c.flower
  side       := c.side
  quantity   := c.quantity * 10
  price      := .finite (c.cents / 100)
  seq        := .ofNat i

theorem digits_decimal (n : Nat) : Digits (decimal n) :=
  isDigit_decimal

theorem length_decimal_digit : ∀ d < 10, (decimal d).length = 1 := by
  decide

theorem decimal_ne_nil (n : Nat) : decimal n ≠ [] := by
  simp [decimal]

theorem priceText_point (cents : Nat) : ∃ ds : Bytes, (priceText cents = decimal (cents / 100) ++ 46 :: ds) ∧
    Digits ds ∧ ds.length ≤ 2 ∧ (value (decimal (cents / 100) ++ ds) / 10 ^ ds.length : ℚ) = cents / 100 := by
  have h₁ := length_decimal_digit (cents % 100 / 10) (by omega)
  have h₂ := length_decimal_digit (cents % 100 % 10) (by omega)
  refine ⟨_, rfl, ?_⟩
  split
  case isTrue h =>
    have hv : cents = 10 * (cents / 100 * 10 ^ 1 + cents % 100 / 10) := by omega
    have hq : (cents : ℚ) = 10 * (cents / 100 * 10 ^ 1 + cents % 100 / 10 : Nat) := by exact_mod_cast hv
    refine ⟨digits_decimal _, by omega, ?_⟩
    rw [value_append, h₁, value_decimal, value_decimal, hq]
    ring
  case isFalse h =>
    have hv : cents = cents / 100 * 10 ^ (1 + 1) + (cents % 100 / 10 * 10 ^ 1 + cents % 100 % 10) := by omega
    have hl : (decimal (cents % 100 / 10) ++ decimal (cents % 100 % 10)).length = 1 + 1 := by
      rw [List.length_append, h₁, h₂]
    refine ⟨fun c hc => (List.mem_append.mp hc).elim (digits_decimal _ c) (digits_decimal _ c), by omega, ?_⟩
    rw [value_append, value_append, hl, h₂, value_decimal, value_decimal, value_decimal, ← hv]
    norm_num

theorem stringViewToDouble_priceText (cents : Nat) :
    stringViewToDouble (priceText cents) = .ok (.finite (cents / 100)) := by
  obtain ⟨ds, ht, hd, _, hv⟩ := priceText_point cents
  have hm : Mantissa (priceText cents) (cents / 100) :=
    ht ▸ hv ▸ .point (digits_decimal _) hd (by simp [decimal_ne_nil])
  have hs : Scientific ([] ++ ([] ++ (priceText cents ++ ([] ++ [])))) ((1 : Int) * (cents / 100)) 0 :=
    .mk nofun .none hm .none nofun
  simpa [clamp] using stringViewToDouble_of_scientific hs

theorem flowers_separable : ∀ flower ∈ flowers, Separable flower ∧ flower.length ≤ 8 := by
  decide

theorem amountText_priceText (cents : Nat) : AmountText (priceText cents) := by
  obtain ⟨ds, ht, hd, _⟩ := priceText_point cents
  rw [ht]
  refine (amountText_decimal _).append fun c hc => ?_
  rcases List.mem_cons.mp hc with rfl | hc
  · exact .inr <| .inr rfl
  · exact .inl <| hd c hc

theorem fields_separable (i : Nat) (c : Choice) : ∀ text ∈ fields i c, Separable text := by
  simp only [fields, List.forall_mem_cons]
  have number (n : Nat) : Separable (decimal n) := (amountText_decimal n).separable
  exact ⟨number _, (flowers_separable _ c.flowerMem).left, number _, number _,
    (amountText_priceText _).separable, nofun⟩

theorem length_fields (hi : i < 10 ^ 63) : ([44].intercalate (fields i c) ++ [13]).length < 2 ^ 31 := by
  have h₁ := length_decimal_le hi (by omega)
  have h₂ := (flowers_separable _ c.flowerMem).right
  have h₃ : (decimal c.side).length ≤ 1 := by
    have := c.sideMem
    simp only [List.mem_cons, List.not_mem_nil, or_false] at this
    exact length_decimal_le (by omega) (by omega)
  have h₄ : (decimal (c.quantity * 10)).length ≤ 4 := by
    have := c.quantityIn
    exact length_decimal_le (by omega) (by omega)
  have h₅ : (priceText c.cents).length ≤ 7 := by
    have := c.centsIn
    obtain ⟨ds, ht, _, hl, _⟩ := priceText_point c.cents
    have : (decimal (c.cents / 100)).length ≤ 4 := length_decimal_le (by omega) (by omega)
    rw [ht, List.length_append, List.length_cons]
    omega
  simp only [fields, List.intercalate_cons_cons, List.intercalate_singleton, List.length_append,
    List.length_cons, List.length_nil]
  omega

theorem csvRange_writerow {texts : List Bytes} (h : ∀ text ∈ texts, Separable text) (rest : Bytes) :
    csvRange (writerow texts ++ rest) = .ofLine ([44].intercalate texts ++ [13]) :: csvRange rest := by
  have hn : 10 ∉ [44].intercalate texts ++ [13] := by
    intro hm
    rcases List.mem_append.mp hm with hm | hm
    · rcases CsvReportWriter.mem_of_mem_intercalate hm with hm | ⟨text, ht, hm⟩
      · exact absurd hm (by decide)
      · exact (h text ht).right hm
    · exact absurd hm (by decide)
  have hrow : writerow texts ++ rest = [44].intercalate texts ++ [13] ++ 10 :: rest := by simp [writerow]
  rw [csvRange, hrow, getlines_append hn]
  rfl

theorem fields_writerow {texts : List Bytes} (h : ∀ text ∈ texts, Separable text) (hn : texts ≠ [])
    (hl : ([44].intercalate texts ++ [13]).length < 2 ^ 31) :
    (CSVRow.ofLine ([44].intercalate texts ++ [13])).fields = .ok texts := by
  have hdrop : CSVRow.dropCarriageReturn ([44].intercalate texts ++ [13]) = [44].intercalate texts := by
    simp [CSVRow.dropCarriageReturn]
  rw [CSVRow.fields_ofLine hl, hdrop, List.splitOn_intercalate 44 (fun text ht => (h text ht).left) hn]

theorem message_row (c : Choice) (hi : i < 10 ^ 63) :
    let row := CSVRow.ofLine ([44].intercalate (fields i c) ++ [13])
    row.size = 5 ∧ message row (.ofNat i) = .ok (c.message i) := by
  intro row
  have hfields := fields_writerow (fields_separable i c) (by simp [fields]) (length_fields hi)
  obtain ⟨hsize, hfield⟩ := CSVRow.field_of_fields hfields
  have h₀ : row.field 0 = .ok (decimal i) := hfield 0 (by simp [fields])
  have h₁ : row.field 1 = .ok c.flower := hfield 1 (by simp [fields])
  have h₂ : row.field 2 = .ok (decimal c.side) := hfield 2 (by simp [fields])
  have h₃ : row.field 3 = .ok (decimal (c.quantity * 10)) := hfield 3 (by simp [fields])
  have h₄ : row.field 4 = .ok (priceText c.cents) := hfield 4 (by simp [fields])
  have hside : c.side ≤ intLimit := by
    have := c.sideMem
    simp only [List.mem_cons, List.not_mem_nil, or_false] at this
    simp only [intLimit]
    omega
  have hquantity : c.quantity * 10 ≤ intLimit := by
    have := c.quantityIn
    simp only [intLimit]
    omega
  refine ⟨hsize.symm, ?_⟩
  simp only [message, h₀, h₁, h₂, h₃, h₄, Except.ok_bind, stringViewToInt_decimal hside,
    stringViewToInt_decimal hquantity, stringViewToDouble_priceText, copyText_eq]
  rfl

theorem messages_writeRows (choices : List Choice) (h : i + choices.length ≤ 10 ^ 63) :
    messages (.ofNat i) ((csvRange (writeRows i choices)).filter (5 ≤ ·.size)) =
      .ok (choices.mapIdx fun k c => c.message (i + k)) := by
  induction choices generalizing i
  case nil => rfl
  case cons c choices hi =>
    rw [List.length_cons] at h
    have ⟨hsize, hm⟩ := message_row c (i := i) (by omega)
    have hnext : (UInt64.ofNat i) + 1 = .ofNat (i + 1) := by simp
    rw [writeRows, csvRange_writerow (fields_separable i c), List.filter_cons, hsize, if_pos (by simp), messages,
      hm, hnext, hi (by omega), List.mapIdx_cons]
    simp only [Nat.add_assoc, Nat.add_comm 1]
    rfl

structure Choice.Placed (c : Choice) (p : Placement) : Prop where
  instrument : instrumentToString p.instrument = c.flower
  side       : p.side.toInt = c.side
  quantity   : p.quantity = c.quantity * 10
  tick       : p.tick = c.cents

theorem Choice.placement (c : Choice) (i : Nat) : ∃ p, ((c.message i).placement = .ok p) ∧ c.Placed p := by
  obtain ⟨side, hside⟩ : ∃ side : Side, side.toInt = c.side := by
    have := c.sideMem
    simp only [List.mem_cons, List.not_mem_nil, or_false] at this
    rcases this with h | h
    · exact ⟨.buy, by simp [h, Side.toInt]⟩
    · exact ⟨.sell, by simp [h, Side.toInt]⟩
  obtain ⟨instrument, hi⟩ := Option.isSome_iff_exists.mp <| parseInstrument_isSome_iff.mpr c.flowerMem
  obtain ⟨hname, hcount⟩ := parseInstrument_eq_some_iff.mp hi
  have := c.quantityIn
  have := c.centsIn
  have hpos : (0 : ℚ) < c.cents := by
    have : 0 < c.cents := by omega
    exact_mod_cast this
  have hle : (c.cents : ℚ) ≤ 100000 := by
    have : c.cents ≤ 100000 := by omega
    exact_mod_cast this
  let p : Placement := {
    instrument  := ⟨instrument, hcount⟩
    side
    price       := c.cents / 100
    quantity    := c.quantity * 10
    pricePos    := by positivity
    priceLe     := by linarith
    quantityDvd := Nat.dvd_mul_left ..
    quantityPos := by omega
    quantityLe  := by omega
  }
  have hround : p.price * 100 = ((c.cents : Int) : ℚ) := by
    simp only [p, Int.cast_natCast]
    ring
  refine ⟨p, InboundOrderMsg.placement_eq_ok_iff.mpr ⟨?_, hside, rfl, by simp [p, Choice.message]⟩,
    hname.symm, hside, rfl, ?_⟩
  · rw [InboundOrderMsg.instrumentType, Choice.message, hname, instrumentToString_copy, ← hname, hi]
    rfl
  · rw [Placement.tick, hround, roundHalfAway_intCast (by omega)]
    rfl

theorem Choice.message_coid (c : Choice) (h : i < 10 ^ 63) : (c.message i).coid.text = decimal i :=
  copy_amount ⟨amountText_decimal i, Nat.lt_succ_of_le <| length_decimal_le h (by omega)⟩

theorem length_writeRows_le (i : Nat) (choices : List Choice) :
    choices.length ≤ (writeRows i choices).length := by
  induction choices generalizing i
  case nil => exact Nat.zero_le _
  case cons c choices hi =>
    have := hi (i + 1)
    simp only [writeRows, writerow, List.length_append, List.length_cons, List.length_nil]
    omega

variable {file : InputFile}

theorem length_choices_lt (h : file.bytes = generateOrderAndAppendToCsv choices) : choices.length < 2 ^ 63 := by
  have := file.fits
  have := length_writeRows_le 1 choices
  rw [h, generateOrderAndAppendToCsv, List.length_append] at *
  omega

theorem fileMessages_generated (h : file.bytes = generateOrderAndAppendToCsv choices) :
    fileMessages (some file) = .ok (choices.mapIdx fun k c => c.message (1 + k)) := by
  have hlt := length_choices_lt h
  have hheader : ∀ text ∈ ["id", "flower", "side", "quantity", "price"].map ascii, Separable text := by decide
  have hrows := messages_writeRows (i := 1) choices (by omega)
  rw [fileMessages, orderRows, h, generateOrderAndAppendToCsv, csvRange_writerow hheader, List.tail_cons]
  exact hrows

end OrderGenerator

theorem Exchange.history_accepts {unspecified : ℚ → Int64} {arrivals : List Arrival}
    (h : ∀ a ∈ arrivals, ∃ p, a.message.placement = .ok p) :
    ∀ chunk ∈ (history unspecified arrivals).2, chunk ≠ [] ∧ ∀ r ∈ chunk, r.status ≠ .rejected := by
  intro chunk hc
  obtain ⟨k, hk⟩ := List.mem_iff_getElem?.mp hc
  obtain ⟨a, ha, rfl⟩ := history_chunk hk
  obtain ⟨p, hp⟩ := h a (List.mem_of_getElem? ha)
  refine ⟨?_, fun r hr => records_status hp hr⟩
  rcases records_pairs unspecified (history unspecified (arrivals.take k)).1 a with ⟨_, hn⟩ | ⟨r, hr, _⟩
  · exact hn
  · rw [hr]
    exact List.cons_ne_nil _ _

open CsvReportWriter FileProcessingPipeline

-- What the script writes is what the program reads: each row gives the order that was chosen for it, no order
-- is rejected, and none is lost, whatever the order of the steps of the threads is.
theorem OrderGenerator.generated_accepted (e : Environment) (before : List OrderProcessor.Event)
    {choices : List Choice} {file : InputFile} (h : file.bytes = generateOrderAndAppendToCsv choices) :
    ∃ messages s₀ s, ∃ emitted : List (List Emission),
      (fileMessages (some file) = .ok messages) ∧ (messages.length = choices.length) ∧
      (∀ k message c, messages[k]? = some message → choices[k]? = some c →
        message.coid.text = decimal (k + 1) ∧ ∃ p, message.placement = .ok p ∧ c.Placed p) ∧
      OrderProcessor.Reached e.unspecified before s₀ ∧
      (Machine.run (OrderProcessor.step e.unspecified) (messages.map (.consume <| e.times.arrival ·))
        s₀.reset = .ok (s, emitted)) ∧
      (∀ es ∈ emitted, es ≠ [] ∧ ¬Rejected es ∧ ∀ emission ∈ es, emission.Told) ∧
      ∀ {m n} (inbound : InboundOrderQueue m) (outbound : OutboundReportQueue n) schedule,
        let p := (start inbound outbound s₀ (some file)).run e schedule
        (p.writer.returned → p.writer.outputFile = reportFile (emitted.flatten.map Emission.output)) ∧
        (p.ended → p.shared.state.consumedOrders.toNat = choices.length) := by
  have hlt := length_choices_lt h
  have hm := fileMessages_generated h
  obtain ⟨s₀, s, hs₀, hrun, hw⟩ := file_reports e before hm
  refine ⟨_, s₀, s, _, hm, List.length_mapIdx, ?_, hs₀, hrun, ?_, fun inbound outbound schedule =>
    ⟨hw inbound outbound schedule, fun he => ?_⟩⟩
  · intro k message c hk hc
    rw [List.getElem?_mapIdx, hc, Option.map_some, Option.some.injEq] at hk
    have hklt := (List.getElem?_eq_some_iff.mp hc).choose
    rw [← hk, Nat.add_comm 1 k]
    exact ⟨c.message_coid (by omega), c.placement _⟩
  · intro es hes
    obtain ⟨chunk, hc, rfl⟩ := List.mem_map.mp hes
    have accepted : ∀ a ∈ (choices.mapIdx fun k c => c.message (1 + k)).map e.times.arrival,
        ∃ p, a.message.placement = .ok p := by
      intro a ha
      obtain ⟨message, hmem, rfl⟩ := List.mem_map.mp ha
      obtain ⟨k, hk⟩ := List.mem_iff_getElem?.mp hmem
      rw [List.getElem?_mapIdx, Option.map_eq_some_iff] at hk
      obtain ⟨c, _, rfl⟩ := hk
      obtain ⟨p, hp, _⟩ := c.placement (1 + k)
      exact ⟨p, hp⟩
    obtain ⟨hn, hr⟩ := Exchange.history_accepts accepted chunk hc
    have told : ∀ r ∈ chunk, r.emission.Told := by
      intro r hmem
      obtain ⟨_, _, hab⟩ := Exchange.history_conserved _ _ |>.about r (List.mem_flatten_of_mem hc hmem)
      exact hab.told
    refine ⟨by simpa using hn, ?_, List.forall_mem_map.mpr told⟩
    rintro ⟨emission, hem, hrej⟩
    obtain ⟨r, hmem, rfl⟩ := List.mem_map.mp hem
    exact hr r hmem <| execStatusToString_injective <| (told r hmem).execStatus.symm.trans hrej
  · obtain ⟨_, _, _, _, hf⟩ := run_flows (start_flows inbound outbound s₀ hm (e := e)) schedule
    obtain ⟨hcount, _⟩ := hf.ended he
    rw [hcount, List.length_mapIdx, UInt64.toNat_ofNat', Nat.mod_eq_of_lt (by omega)]

theorem OrderGenerator.generated_accepted_roses :
    let choices : List Choice := [
      ⟨ascii "Rose", 1, 7, 1250, by decide, by decide, by decide, by decide⟩,
      ⟨ascii "Rose", 2, 100, 100000, by decide, by decide, by decide, by decide⟩,
      ⟨ascii "Orchid", 2, 1, 9999, by decide, by decide, by decide, by decide⟩]
    let bytes := ascii "id,flower,side,quantity,price" ++ [13, 10] ++ ascii "1,Rose,1,70,12.5" ++ [13, 10] ++
      ascii "2,Rose,2,1000,1000.0" ++ [13, 10] ++ ascii "3,Orchid,2,10,99.99" ++ [13, 10]
    let file : InputFile := ⟨bytes, by decide +kernel⟩
    let e : Environment := ⟨fun _ => 0, fun _ => default, 4194304⟩
    (bytes = generateOrderAndAppendToCsv choices) ∧ ∃ messages s₀ s, ∃ emitted : List (List Emission),
      (fileMessages (some file) = .ok messages) ∧ (messages.length = 3) ∧
      (∀ k message c, messages[k]? = some message → choices[k]? = some c →
        message.coid.text = decimal (k + 1) ∧ ∃ p, message.placement = .ok p ∧ c.Placed p) ∧
      OrderProcessor.Reached e.unspecified [] s₀ ∧
      (Machine.run (OrderProcessor.step e.unspecified) (messages.map (.consume <| e.times.arrival ·))
        s₀.reset = .ok (s, emitted)) ∧
      (∀ es ∈ emitted, es ≠ [] ∧ ¬Rejected es ∧ ∀ emission ∈ es, emission.Told) ∧
      ∀ {m n} (inbound : InboundOrderQueue m) (outbound : OutboundReportQueue n) schedule,
        let p := (start inbound outbound s₀ (some file)).run e schedule
        (p.writer.returned → p.writer.outputFile = reportFile (emitted.flatten.map Emission.output)) ∧
        (p.ended → p.shared.state.consumedOrders.toNat = 3) := by
  intro choices bytes file e
  have h : file.bytes = generateOrderAndAppendToCsv choices := by decide +kernel
  exact ⟨h, generated_accepted e [] h⟩
