import FlowerExchange.Matching.Theorems.Conservation

def orderId (i : Nat) : Bytes :=
  ascii "ord" ++ Decimal.decimal i

theorem orderId_injective : Function.Injective orderId :=
  fun _ _ h => Decimal.decimal_injective <| List.append_cancel_left h

theorem formatOrderId_eq (id : UInt64) : formatOrderId 32 id = orderId id.toNat := by
  have hl : (Decimal.decimal id.toNat).length ≤ 20 :=
    Decimal.length_decimal_le (id.toNat_lt.trans (by norm_num)) (by omega)
  have : 3 + (Decimal.decimal id.toNat).length ≤ 32 - 1 := by omega
  simp [formatOrderId, orderId, this]

theorem copy_orderId {i : Nat} (h : i < 2 ^ 64) : (CStr.copy (orderId i) : CStr 32).text = orderId i := by
  have hl : (Decimal.decimal i).length ≤ 20 :=
    Decimal.length_decimal_le (h.trans (by norm_num)) (by omega)
  have hn : 0 ∉ orderId i :=
    List.mem_append.not.mpr <| not_or.mpr ⟨by decide, (amountText_decimal i).not_mem (by decide)⟩
  refine CStr.copy_of_fits ?_ hn
  simp [orderId, ascii]
  omega

theorem InboundOrderMsg.ids_oid (message : InboundOrderMsg) (n : Nat) :
    (message.ids n).oid.text = orderId ((n + 1) % 2 ^ 64) := by
  have hlt : (n + 1) % 2 ^ 64 < 2 ^ 64 := Nat.mod_lt _ (by norm_num)
  rw [ids, formatOrderId_eq, UInt64.toNat_ofNat', copy_orderId hlt]

inductive Trades : List ExecStatus → Prop
  | pfill (n : Nat) : Trades (.replicate n .pfill)
  | fill (n : Nat)  : Trades (.replicate n .pfill ++ [.fill])

inductive LifeCycle (message : InboundOrderMsg) : List ExecStatus → Prop
  | reject : (message.validate ≠ none) → LifeCycle message [.rejected]
  | rests  : (message.validate = none) → (Trades l) → LifeCycle message (.new :: l)
  | trades : (message.validate = none) → (l ≠ []) → (Trades l) → LifeCycle message l

def reportsOf (j : Nat) (records : List Record) : List Record :=
  records.filter (·.owner = j)

theorem mem_reportsOf : r ∈ reportsOf j l ↔ r ∈ l ∧ r.owner = j := by
  simp [reportsOf]

-- A single report about something else can come before the reports about trades.
inductive Started : List Record → Prop
  | single : (r.emission.report.isTrade = false) → (∀ t ∈ l, t.emission.report.isTrade) → Started (r :: l)
  | trades : (l ≠ []) → (∀ t ∈ l, t.emission.report.isTrade) → Started l

theorem Started.append (h : Started l) (hl : ∀ r ∈ l', r.emission.report.isTrade) :
    Started (l ++ l') := by
  cases h
  case single hr hs =>
    exact .single hr fun r hr => (List.mem_append.mp hr).elim (hs r) (hl r)
  case trades hn hs =>
    exact .trades (by simp [hn]) fun r hr => (List.mem_append.mp hr).elim (hs r) (hl r)

theorem Started.ne_nil (h : Started l) : l ≠ [] := by
  cases h
  case single => nofun
  case trades hn _ => exact hn

theorem TradePairs.isTrade (h : TradePairs k l) : ∀ r ∈ l, r.emission.report.isTrade ∧ r.owner ≤ k := by
  induction h
  case nil => exact List.forall_mem_nil _
  case pair ho ho' ht ht' _ _ _ _ _ _ hi =>
    rintro r (_ | ⟨_, _ | ⟨_, hr⟩⟩)
    · exact ⟨ht, ho.le⟩
    · exact ⟨ht', ho'.le⟩
    · exact hi r hr

theorem TradePairs.started (h : TradePairs k l) (hn : l ≠ []) : Started (reportsOf k l) := by
  have ht : ∀ r ∈ reportsOf k l, r.emission.report.isTrade := fun r hr =>
    h.isTrade r (mem_reportsOf.mp hr).left |>.left
  refine .trades ?_ ht
  cases h
  case nil => contradiction
  case pair ho _ _ _ _ _ _ _ _ _ => simp [reportsOf, ho]

theorem reportsOf_append (j : Nat) (l l' : List Record) :
    reportsOf j (l ++ l') = reportsOf j l ++ reportsOf j l' :=
  List.filter_append ..

theorem ofOwner_entries (j : Nat) (records : List Record) :
    Entry.ofOwner j (entries records) = entries (reportsOf j records) := by
  induction records
  case nil => rfl
  case cons r records hi =>
    simp only [entries, reportsOf] at hi ⊢
    by_cases ht : r.emission.report.isTrade <;> by_cases hj : r.owner = j <;>
      simp [Record.entry?, Entry.ofOwner_cons, ht, hj, hi]

theorem Trades.of_entries (hl : ∀ r ∈ l, r.emission.report.isTrade)
    (h : (entries l).map Entry.last = .replicate n false ∨
      (entries l).map Entry.last = .replicate n false ++ [true]) : Trades (l.map Record.status) := by
  have hs : l.map Record.status =
      ((entries l).map Entry.last).map fun last => if last then .fill else .pfill := by
    clear h
    induction l
    case nil => rfl
    case cons r l hi =>
      have hr := hl r <| .head _
      have hi := hi fun r hr => hl r <| .tail _ hr
      simp only [entries] at hi ⊢
      simp only [List.filterMap_cons, Record.entry?, hr, if_true, List.map_cons, hi, decide_eq_true_eq]
      rw [← Record.status_of_isTrade hr]
  rw [hs]
  rcases h with h | h <;> rw [h]
  · simpa using Trades.pfill n
  · simpa using Trades.fill n

theorem Record.not_rejected_of_isTrade {r : Record} (h : r.emission.report.isTrade) :
    r.status ≠ .rejected := by
  rw [r.status_of_isTrade h]
  split <;> nofun

theorem Started.lifeCycle {message : InboundOrderMsg} (h : Started l)
    (hr : ∀ r ∈ l, r.status = .rejected ↔ message.validate ≠ none)
    (hl : (entries l).map Entry.last = .replicate n false ∨
      (entries l).map Entry.last = .replicate n false ++ [true]) :
    LifeCycle message (l.map Record.status) := by
  cases h
  case single l r ht hs =>
    have he : entries (r :: l) = entries l := by simp [entries, Record.entry?, ht]
    rw [he] at hl
    by_cases hv : message.validate = none
    case pos =>
      have hne : r.status ≠ .rejected := fun h => hr r (.head _) |>.mp h hv
      have hnew : r.status = .new := by
        cases hstatus : r.status <;> simp_all [Record.status, ExecutionReport.isTrade]
      rw [List.map_cons, hnew]
      exact .rests hv <| .of_entries hs hl
    case neg =>
      have hrej {t} (ht : t ∈ r :: l) : t.status = .rejected := hr t ht |>.mpr hv
      cases l
      case nil       => simpa [hrej] using LifeCycle.reject hv
      case cons t l' =>
        exact absurd (hrej <| .tail _ <| .head _) <| Record.not_rejected_of_isTrade <| hs t <| .head _
  case trades hn hs =>
    obtain ⟨t, ht⟩ := List.exists_mem_of_ne_nil _ hn
    have hv : message.validate = none := by_contra fun hv =>
      Record.not_rejected_of_isTrade (hs t ht) <| hr t ht |>.mpr hv
    exact .trades hv (by simpa using hn) <| .of_entries hs hl

namespace Exchange

variable {arrivals : List Arrival} {x : Exchange} {a : Arrival} {r : Record}

theorem records_started (unspecified : ℚ → Int64) (x : Exchange) (a : Arrival) :
    Started (reportsOf x.now (x.records unspecified a)) := by
  rcases records_pairs unspecified x a with ⟨hp, hn⟩ | ⟨r, hr, ho, ht⟩
  · exact hp.started hn
  · rw [hr]
    simpa [reportsOf, ho] using Started.single ht (List.forall_mem_nil _)

theorem records_continued (hr : r ∈ x.records unspecified a) (ho : r.owner ≠ x.now) :
    r.emission.report.isTrade := by
  rcases records_pairs unspecified x a with ⟨hp, _⟩ | ⟨r', hr', ho', _⟩
  · exact hp.isTrade r hr |>.left
  · rw [hr', List.mem_singleton] at hr
    exact absurd ho' (hr ▸ ho)

theorem reportsOf_eq_nil (unspecified : ℚ → Int64) (h : arrivals.length ≤ j) :
    reportsOf j (history unspecified arrivals).2.flatten = [] := by
  refine List.filter_eq_nil_iff.mpr fun r hr => ?_
  have ⟨a, ha, _⟩ := history_conserved unspecified arrivals |>.about r hr
  have := (List.getElem?_eq_some_iff.mp ha).choose
  simp only [decide_eq_true_eq]
  omega

theorem history_started (unspecified : ℚ → Int64) (h : j < arrivals.length) :
    Started (reportsOf j (history unspecified arrivals).2.flatten) := by
  induction arrivals using List.reverseRecOn
  case nil => contradiction
  case append_singleton arrivals a hi =>
    have hn := history_now unspecified arrivals
    rw [history_snoc, List.flatten_append, List.flatten_singleton, reportsOf_append]
    rw [List.length_append, List.length_singleton] at h
    rcases Nat.lt_succ_iff_lt_or_eq.mp h with hj | rfl
    · refine (hi hj).append fun r hr => ?_
      have ⟨hr, ho⟩ := mem_reportsOf.mp hr
      exact records_continued hr (by omega)
    · rw [reportsOf_eq_nil unspecified le_rfl, List.nil_append]
      exact hn ▸ records_started unspecified _ a

theorem history_lifeCycle (unspecified : ℚ → Int64) (ha : arrivals[j]? = some a) :
    LifeCycle a.message <| (reportsOf j (history unspecified arrivals).2.flatten).map Record.status := by
  have ⟨_, replay, _⟩ := history_backed unspecified arrivals
  have ⟨n, lasts⟩ := replay.lasts j
  rw [ofOwner_entries] at lasts
  have started := history_started unspecified (List.getElem?_eq_some_iff.mp ha).choose
  refine started.lifeCycle (fun r hr => ?_) lasts
  have ⟨hr, ho⟩ := mem_reportsOf.mp hr
  have ⟨b, hb, hab⟩ := history_conserved unspecified arrivals |>.about r hr
  rw [ho, ha] at hb
  cases hb
  exact hab.rejected

end Exchange

structure Emission.Concerns (e : Emission) (j : Nat) (a : Arrival) : Prop where
  oid        : e.output.oid.text = orderId (j + 1)
  coid       : e.output.coid = a.message.coid
  side       : e.output.side = a.message.side
  instrument : a.message.validate = none → e.output.instrument.text = a.message.instrument.text
  told       : e.Told

structure TellsLives (arrivals : List Arrival) (emitted : List (List Emission)) : Prop where
  distinct  : ∀ i < arrivals.length, ∀ j < arrivals.length, orderId (i + 1) = orderId (j + 1) → i = j
  concerns  : ∀ k, ∀ chunk : List Emission, emitted[k]? = some chunk → ∀ e ∈ chunk,
    ∃! j, j ≤ k ∧ ∃ a, arrivals[j]? = some a ∧ e.Concerns j a
  answered  : ∀ k < arrivals.length, ∃ chunk : List Emission, emitted[k]? = some chunk ∧
    ∃ e ∈ chunk, e.output.oid.text = orderId (k + 1)
  lifeCycle : ∀ j, ∀ a : Arrival, arrivals[j]? = some a → LifeCycle a.message
    ((emitted.flatten.filter (·.output.oid.text = orderId (j + 1))).map (·.report.status))

theorem InboundOrderMsg.instrument_text {message : InboundOrderMsg} (h : message.placement = .ok p) :
    instrumentToString p.instrument = message.instrument.text := by
  have hi := InboundOrderMsg.placement_eq_ok h |>.left
  rw [instrumentType] at hi
  cases hp : parseInstrument message.instrument.text
  case none   => exact absurd (by simpa [hp] using hi) p.instrument.property
  case some i =>
    rw [hi, hp]
    exact parseInstrument_eq_some_iff.mp hp |>.left.symm

theorem Record.About.concerns {r : Record} (h : r.About a) (ho : r.owner + 1 < 2 ^ 64) :
    r.emission.Concerns r.owner a where
  oid           := by rw [h.oid, a.message.ids_oid, Nat.mod_eq_of_lt ho]
  coid          := h.coid
  side          := h.side
  instrument hv := by
    cases hp : a.message.placement
    case error => exact absurd (hv.symm.trans <| InboundOrderMsg.placement_eq_error_iff.mp hp) nofun
    case ok p  => rw [(h.instrument p hp).right.right, InboundOrderMsg.instrument_text hp]
  told          := h.told

namespace Exchange

variable {arrivals : List Arrival}

theorem history_concerns (unspecified : ℚ → Int64) (h : arrivals.length < 2 ^ 64)
    (hr : r ∈ (history unspecified arrivals).2.flatten) :
    r.emission.output.oid.text = orderId (r.owner + 1) := by
  have ⟨a, ha, hab⟩ := history_conserved unspecified arrivals |>.about r hr
  have := (List.getElem?_eq_some_iff.mp ha).choose
  exact hab.concerns (by omega) |>.oid

theorem history_tellsLives (unspecified : ℚ → Int64) (h : arrivals.length < 2 ^ 64) :
    TellsLives arrivals ((history unspecified arrivals).2.map (·.map Record.emission)) where
  distinct i _ j _ he := Nat.succ_injective <| orderId_injective he
  concerns k chunk hc e he := by
    rw [List.getElem?_map] at hc
    obtain ⟨records, hr, rfl⟩ := Option.map_eq_some_iff.mp hc
    obtain ⟨r, hr', rfl⟩ := List.mem_map.mp he
    obtain ⟨a, ha, rfl⟩ := history_chunk hr
    have ⟨b, hb, hk, hab⟩ := history_about ha hr'
    have hlt := (List.getElem?_eq_some_iff.mp hb).choose
    have hcon := hab.concerns (by omega)
    refine ⟨r.owner, ⟨hk, b, hb, hcon⟩, ?_⟩
    rintro j ⟨_, _, _, hj⟩
    exact Nat.succ_injective <| orderId_injective <| hj.oid.symm.trans hcon.oid
  answered k hk := by
    have hc := history_getElem? unspecified <| List.getElem?_eq_getElem hk
    have hs := records_started unspecified (history unspecified <| arrivals.take k).1 arrivals[k]
    have ⟨r, hr⟩ := List.exists_mem_of_ne_nil _ hs.ne_nil
    have ⟨hr, ho⟩ := mem_reportsOf.mp hr
    rw [history_now, List.length_take, Nat.min_eq_left hk.le] at ho
    refine ⟨_, by rw [List.getElem?_map, hc, Option.map_some], r.emission, List.mem_map_of_mem hr, ?_⟩
    exact ho ▸ history_concerns unspecified h (List.mem_flatten.mpr ⟨_, List.mem_of_getElem? hc, hr⟩)
  lifeCycle j a ha := by
    have hl := history_lifeCycle unspecified ha
    have he : (history unspecified arrivals).2.flatten.filter
        (fun r => r.emission.output.oid.text = orderId (j + 1)) =
          reportsOf j (history unspecified arrivals).2.flatten :=
      List.filter_congr fun r hr => decide_eq_decide.mpr <| by
        rw [history_concerns unspecified h hr, orderId_injective.eq_iff, Nat.succ_inj]
    rw [← List.map_flatten, List.filter_map, List.map_map]
    exact he ▸ hl

theorem history_not_tellsLives (unspecified : ℚ → Int64) (h : arrivals.length = 2 ^ 64) :
    ¬TellsLives arrivals ((history unspecified arrivals).2.map (·.map Record.emission)) := by
  intro hl
  have ⟨chunk, hc, e, he, ho⟩ := hl.answered (2 ^ 64 - 1) (by omega)
  rw [List.getElem?_map] at hc
  obtain ⟨records, hr, rfl⟩ := Option.map_eq_some_iff.mp hc
  obtain ⟨r, hr', rfl⟩ := List.mem_map.mp he
  obtain ⟨a, ha, rfl⟩ := history_chunk hr
  have ⟨b, _, _, hab⟩ := history_about ha hr'
  rw [hab.oid, b.message.ids_oid] at ho
  have := orderId_injective ho
  omega

end Exchange

namespace OrderProcessor

-- The histories of fewer than 2⁶⁴ messages.
theorem order_lives_told (unspecified : ℚ → Int64) (before : List Event) (arrivals : List Arrival)
    (h : arrivals.length < 2 ^ 64) : ∃ s₀ emitted, Reached unspecified (before ++ [.reset]) s₀ ∧
      TellsLives arrivals emitted ∧ ∀ k ≤ arrivals.length, ∃ s,
        (Machine.run (step unspecified) ((arrivals.take k).map .consume) s₀ =
          .ok (s, emitted.take k)) ∧
        (k < arrivals.length → formatOrderId 32 s.nextOid = orderId (k + 1)) := by
  have ⟨s₀, hs₀, hrun⟩ := run_history unspecified before
  refine ⟨s₀, _, hs₀, Exchange.history_tellsLives unspecified h, fun k hk => ?_⟩
  have ⟨s, lv, loose, hrun, hm⟩ := hrun (arrivals.take k)
  refine ⟨s, by rw [hrun, Exchange.history_take, List.map_take], fun hlt => ?_⟩
  rw [formatOrderId_eq, hm.nextOid, Exchange.history_now, List.length_take, Nat.min_eq_left hk,
    UInt64.toNat_ofNat', Nat.mod_eq_of_lt (by omega)]

theorem order_lives_told_trade :
    let sell : InboundOrderMsg := ⟨.copy (ascii "c1"), .copy (ascii "Rose"), 2, 10, .finite 1, 1⟩
    let buy  : InboundOrderMsg := ⟨.copy (ascii "c2"), .copy (ascii "Rose"), 1, 20, .finite 1, 2⟩
    let arrivals : List Arrival := [⟨sell, default, default⟩, ⟨buy, default, default⟩]
    arrivals.length < 2 ^ 64 ∧ ∃ s₀ emitted,
      Reached (fun _ => 0) ([] ++ [.reset]) s₀ ∧ TellsLives arrivals emitted ∧
      ∀ k ≤ 2, ∃ s,
        (Machine.run (step fun _ => 0) ((arrivals.take k).map .consume) s₀ = .ok (s, emitted.take k)) ∧
        (k < 2 → formatOrderId 32 s.nextOid = orderId (k + 1)) := by
  intro sell buy arrivals
  exact ⟨by decide, order_lives_told (fun _ => 0) [] arrivals (by decide)⟩

-- There is a run in which the 2⁶⁴-th message does not get an ID of its own.
theorem order_ids_wrap :
    let sell : InboundOrderMsg := ⟨.copy (ascii "c1"), .copy (ascii "Rose"), 2, 10, .finite 1, 1⟩
    let arrivals : List Arrival := .replicate (2 ^ 64) ⟨sell, default, default⟩
    ∃ s₀ s emitted, Reached (fun _ => 0) [.reset] s₀ ∧
      (Machine.run (step fun _ => 0) (arrivals.map .consume) s₀ = .ok (s, emitted)) ∧
      ¬TellsLives arrivals emitted := by
  intro sell arrivals
  have hl : arrivals.length = 2 ^ 64 := List.length_replicate
  have ⟨s₀, hs₀, hrun⟩ := run_history (fun _ => 0) []
  have ⟨s, _, _, hrun, _⟩ := hrun arrivals
  exact ⟨s₀, s, _, hs₀, hrun, Exchange.history_not_tellsLives _ hl⟩

end OrderProcessor
