import FlowerExchange.Matching.Independence
import FlowerExchange.Matching.Theorems.Relabel
import FlowerExchange.Matching.Theorems.Runs

open Resting

theorem OrderIds.report_untimed (ids : OrderIds) (i side price quantity status timestamp) :
    (ids.report i side price quantity status timestamp).untimed =
      ids.report i side price quantity status default :=
  rfl

theorem ownedReports_untimed :
    (ownedReports k ids i side timestamp q l).map (Prod.map id ExecutionReport.untimed) =
      ownedReports k ids i side default q l := by
  induction l generalizing q
  case nil => rfl
  case cons hi => simp [ownedReports, OrderIds.report_untimed, hi]

theorem InboundOrderMsg.reportEmission_withOid (message : InboundOrderMsg) (report : ExecutionReport)
    (oid : CStr 32) :
    (message.reportEmission report).withOid oid = message.reportEmission (report.withOid oid) := by
  simp [reportEmission, Emission.withOid, OutboundReportMsg.withOid, ExecutionReport.withOid,
    fillOutboundFields, copyText, CStr.copy_text]

def Relabeling.refl (P : Type) [LinearOrder P] : Relabeling P P where
  side       := id
  price      := id
  proper _   := True
  opposite _ := rfl
  better _ _ := .rfl

def renumberIds (number : Nat → Nat) (stamp : Nat) (ids : OrderIds) : Nat × OrderIds :=
  (number stamp, ids.withOid <| oidAt (number stamp))

theorem ownedReports_relabel (number : Nat → Nat) (k ids i side timestamp q l) :
    ownedReports (number k) (ids.withOid <| oidAt (number k)) i side timestamp q
        (l.map <| Prod.map (relabel id (renumberIds number)) id) =
      (ownedReports k ids i side timestamp q l).map fun (j, report) =>
        (number j, report.withOid <| oidAt (number j)) := by
  induction l generalizing q
  case nil => rfl
  case cons hi =>
    simp only [ownedReports, List.map_cons, hi]
    rfl

namespace Exchange

variable {unspecified : ℚ → Int64} {x y : Exchange} {a b : Arrival} {p : Placement}
variable {arrivals : List Arrival} {number : Nat → Nat} {i : Instrument}

theorem placeOwned_untimed (message : InboundOrderMsg) (timestamp : CStr 20) :
    (x.placeOwned message p timestamp).map (Prod.map id ExecutionReport.untimed) =
      x.placeOwned message p default := by
  rw [placeOwned, List.map_append, ownedReports_untimed, placeOwned]
  split <;> rfl

theorem records_untimed_accept (h : a.message.placement = .ok p) :
    (x.records unspecified a).map Record.untimed =
      (x.placeOwned a.message p default).map fun (j, report) =>
        Record.untimed ⟨j, a.message.reportEmission report⟩ := by
  rw [records_accept h, ← placeOwned_untimed _ a.time, List.map_map, List.map_map]
  rfl

theorem recordStep_untimed (h : a.message = b.message) :
    (x.recordStep unspecified a).1 = (x.recordStep unspecified b).1 ∧
      (x.recordStep unspecified a).2.map Record.untimed =
        (x.recordStep unspecified b).2.map Record.untimed := by
  cases hm : a.message.placement
  case error reason =>
    have hm' := h ▸ hm
    simp only [recordStep, step_reject hm, step_reject hm', records_reject hm, records_reject hm', h]
    exact ⟨trivial, rfl⟩
  case ok p =>
    have hm' := h ▸ hm
    simp only [recordStep, step_accept hm, step_accept hm', records_untimed_accept hm,
      records_untimed_accept hm', h]
    exact ⟨trivial, trivial⟩

theorem history_untimed (unspecified : ℚ → Int64) {arrivals arrivals' : List Arrival}
    (h : arrivals.map Arrival.message = arrivals'.map Arrival.message) :
    (history unspecified arrivals).1 = (history unspecified arrivals').1 ∧
      (history unspecified arrivals).2.map (·.map Record.untimed) =
        (history unspecified arrivals').2.map (·.map Record.untimed) := by
  rw [← List.forall₂_eq_eq_eq, List.forall₂_map_left_iff, List.forall₂_map_right_iff] at h
  rw [← List.forall₂_eq_eq_eq, List.forall₂_map_left_iff, List.forall₂_map_right_iff]
  exact Machine.exec_rel (R := Eq) (fun hx hm => hx ▸ recordStep_untimed hm) h rfl

theorem records_instrument (hr : r ∈ x.records unspecified a) :
    (∀ p, a.message.placement = .ok p → r.emission.report.instrument = p.instrument) ∧
      (a.message.validate ≠ none → r.emission.report.instrument = .count) := by
  cases hm : a.message.placement
  case error reason =>
    rw [records_reject hm, List.mem_singleton] at hr
    refine ⟨fun _ h => (nomatch h), fun _ => ?_⟩
    rw [hr]
    rfl
  case ok p =>
    refine ⟨fun p' hp => ?_, fun hv => absurd (InboundOrderMsg.validate_of_placement hm) hv⟩
    obtain rfl := Except.ok.inj hp
    rw [records_accept hm] at hr
    obtain ⟨⟨j, report⟩, hj, rfl⟩ := List.mem_map.mp hr
    rcases List.mem_append.mp hj with hj | hj
    · obtain ⟨_, _, _, _, ⟨_, rfl⟩ | ⟨_, rfl⟩⟩ := mem_ownedReports hj <;> rfl
    · split at hj
      case isTrue =>
        rw [List.mem_singleton, Prod.mk.injEq] at hj
        rw [hj.right]
        rfl
      case isFalse => contradiction

theorem recordsOn_eq (i : Instrument) (arrivals : List Arrival) :
    recordsOn i arrivals (history unspecified arrivals).2.flatten =
      (history unspecified arrivals).2.flatten.filter fun r =>
        r.emission.report.instrument = i.val := by
  refine List.filter_congr fun r hr => ?_
  obtain ⟨k, a, ha, hr⟩ := mem_history hr
  obtain ⟨b, hb, _, about⟩ := history_about ha hr
  simp only [hb, Option.any_some]
  cases hm : b.message.placement
  case ok p =>
    have hi := about.instrument p hm |>.left
    rw [Bool.eq_iff_iff, Arrival.places_of_ok hm, hi, decide_eq_true_eq, Subtype.ext_iff]
  case error reason =>
    have hs : r.status = .rejected := about.rejected.mpr <| by
      simp [InboundOrderMsg.placement_eq_error_iff.mp hm]
    have hv : a.message.validate ≠ none := by
      cases hm : a.message.placement
      case error => simp [InboundOrderMsg.placement_eq_error_iff.mp hm]
      case ok    => exact absurd hs <| records_status hm hr
    rw [Arrival.places_of_error hm, (records_instrument hr).right hv]
    exact (decide_eq_false i.property.symm).symm

theorem placeOwned_relabel (message : InboundOrderMsg) (timestamp : CStr 20)
    (h : Market.Relabeled (.refl Nat) (renumberIds number) p.instrument x y) (hn : y.now = number x.now) :
    y.placeOwned message p timestamp = (x.placeOwned message p timestamp).map fun (j, report) =>
      (number j, report.withOid <| oidAt (number j)) := by
  have ht : y.placeTrades p = (x.placeTrades p).map (Prod.map (relabel id (renumberIds number)) id) :=
    h.trades (e := .refl Nat) trivial p.side p.quantity
  have hids : message.ids y.now = (message.ids x.now).withOid (oidAt (number x.now)) := by
    rw [hn]
    rfl
  rw [placeOwned, hids, hn, ht, ownedReports_relabel, placeOwned, List.map_append]
  by_cases hnil : x.placeTrades p = []
  · simp [hnil]
    rfl
  · simp [hnil]

theorem filter_records_eq_nil (unspecified : ℚ → Int64) (x : Exchange) (h : ¬a.places i) :
    ((x.records unspecified a).filter fun r => r.emission.report.instrument = i.val) = [] := by
  refine List.filter_eq_nil_iff.mpr fun r hr he => ?_
  have he := of_decide_eq_true he
  have ⟨hok, herror⟩ := records_instrument hr
  cases hm : a.message.placement
  case error reason =>
    have hv := InboundOrderMsg.placement_eq_error_iff.mp hm
    exact i.property <| he.symm.trans <| herror <| by simp [hv]
  case ok p =>
    exact h <| Arrival.places_of_ok hm |>.mpr <| Subtype.ext <| (hok p hm).symm.trans he

theorem filter_records_eq_self (unspecified : ℚ → Int64) (x : Exchange)
    (h : a.message.placement = .ok p) :
    ((x.records unspecified a).filter fun r => r.emission.report.instrument = p.instrument.val) =
      x.records unspecified a :=
  List.filter_eq_self.mpr fun _ hr => decide_eq_true <| (records_instrument hr).left p h

theorem relabeled_step_ne (h : Market.Relabeled (.refl Nat) (renumberIds number) i x y)
    (ha : ¬a.places i) :
    Market.Relabeled (.refl Nat) (renumberIds number) i (x.step unspecified (.consume a)).1 y := by
  cases hm : a.message.placement
  case error reason =>
    rw [step_reject hm]
    exact ⟨h.proper, h.resting⟩
  case ok p =>
    rw [step_accept hm]
    exact h.submit_ne fun hi => ha <| Arrival.places_of_ok hm |>.mpr hi.symm

theorem relabeled_place (h : Market.Relabeled (.refl Nat) (renumberIds number) p.instrument x y)
    (hn : y.now = number x.now) (message : InboundOrderMsg) :
    Market.Relabeled (.refl Nat) (renumberIds number) p.instrument (x.place message p)
      (y.place message p) := by
  have hids : renumberIds number x.now (message.ids x.now) = (y.now, message.ids y.now) := by
    rw [hn]
    rfl
  exact h.submit (e := .refl Nat) trivial hids p.side p.quantity

theorem history_filter (unspecified : ℚ → Int64) (arrivals : List Arrival)
    (h : ∀ k ≤ arrivals.length, number k = rank i arrivals k) :
    Market.Relabeled (.refl Nat) (renumberIds number) i (history unspecified arrivals).1
        (history unspecified (arrivals.filter (Arrival.places i))).1 ∧
      (history unspecified (arrivals.filter (Arrival.places i))).2.flatten =
        ((history unspecified arrivals).2.flatten.filter fun r =>
          r.emission.report.instrument = i.val).map (Record.renumber number) := by
  induction arrivals using List.reverseRecOn
  case nil => exact ⟨⟨fun _ _ hr => (nomatch hr), fun _ => rfl⟩, rfl⟩
  case append_singleton arrivals a hi =>
    have hk {k} (hk : k ≤ arrivals.length) : number k = rank i arrivals k := by
      rw [h k (by simp; omega), rank_append hk]
    obtain ⟨hx, hr⟩ := hi fun _ => hk
    rw [List.filter_append, history_snoc]
    simp only [List.flatten_append, List.flatten_singleton, List.filter_append, List.map_append]
    by_cases ha : a.places i
    case neg =>
      rw [List.filter_cons_of_neg ha, List.filter_nil, List.append_nil,
        filter_records_eq_nil unspecified _ ha, List.map_nil, List.append_nil]
      exact ⟨relabeled_step_ne hx ha, hr⟩
    case pos =>
      have hn : (history unspecified (arrivals.filter (Arrival.places i))).1.now =
          number (history unspecified arrivals).1.now := by
        rw [history_now, history_now, hk le_rfl, rank_length]
      cases hm : a.message.placement
      case error => simp [Arrival.places_of_error hm] at ha
      case ok p =>
        obtain rfl := Arrival.places_of_ok hm |>.mp ha
        rw [List.filter_cons_of_pos ha, List.filter_nil, history_snoc,
          filter_records_eq_self unspecified _ hm, List.flatten_append, List.flatten_singleton, hr,
          step_accept hm, step_accept hm]
        refine ⟨relabeled_place hx hn a.message, congrArg _ ?_⟩
        rw [records_accept hm, records_accept hm, placeOwned_relabel _ _ hx hn, List.map_map,
          List.map_map]
        refine List.map_congr_left fun x _ => ?_
        simp [Record.renumber, InboundOrderMsg.reportEmission_withOid]

end Exchange

namespace OrderProcessor

-- Files do not influence each other. Whatever has happened before a reset, the messages that follow
-- have the same reports as if a new processor had got them, at whatever time it did.
theorem files_independent (unspecified : ℚ → Int64) (before : List Event) {arrivals arrivals' : List Arrival}
    (h : arrivals.map Arrival.message = arrivals'.map Arrival.message) :
    ∃ s₀ s s' emitted emitted', Reached unspecified (before ++ [.reset]) s₀ ∧
      (Machine.run (step unspecified) (arrivals.map .consume) s₀ = .ok (s, emitted)) ∧
      (Machine.run (step unspecified) (arrivals'.map .consume) new = .ok (s', emitted')) ∧
      (emitted.map (·.map Emission.untimed) = emitted'.map (·.map Emission.untimed)) := by
  have ⟨s₀, hs₀, hrun⟩ := run_history unspecified before
  have ⟨s, _, _, hrun, _⟩ := hrun arrivals
  have ⟨s', hrun', _⟩ := run_agrees unspecified (arrivals'.map .consume) ⟨_, _, new_models⟩
  rw [Exchange.history_exec] at hrun'
  have ⟨_, hr⟩ := Exchange.history_untimed unspecified h
  refine ⟨s₀, s, s', _, _, hs₀, hrun, hrun', ?_⟩
  have hview := congrArg (List.map (List.map Record.emission)) hr
  simpa [Function.comp_def, Record.untimed] using hview

theorem files_independent_leftover :
    let sell : InboundOrderMsg := ⟨.copy (ascii "c1"), .copy (ascii "Rose"), 2, 10, .finite 1, 1⟩
    let buy : InboundOrderMsg := ⟨.copy (ascii "c2"), .copy (ascii "Rose"), 1, 10, .finite 1, 1⟩
    ∃ s₀ s s' emitted emitted',
      Reached (fun _ => 0) ([.consume ⟨sell, default, default⟩] ++ [.reset]) s₀ ∧
      (Machine.run (step fun _ => 0) ([⟨buy, default, default⟩].map .consume) s₀ = .ok (s, emitted)) ∧
      (Machine.run (step fun _ => 0) ([⟨buy, .copy (ascii "today"), default⟩].map .consume) new =
        .ok (s', emitted')) ∧
      (emitted.map (·.map Emission.untimed) = emitted'.map (·.map Emission.untimed)) :=
  files_independent (fun _ => 0) _ rfl

structure Untouched (s s' : OrderProcessor) : Prop where
  nextOid   : s'.nextOid = s.nextOid + 1
  buyBooks  : s'.matcher.buyBooks = s.matcher.buyBooks
  sellBooks : s'.matcher.sellBooks = s.matcher.sellBooks
  orders    : s'.matcher.orderPool = s.matcher.orderPool
  reports   : s'.matcher.reportPool.heap = s.matcher.reportPool.heap

theorem history_owned (h : r ∈ (Exchange.history unspecified arrivals).2.flatten) :
    ∃ a, (arrivals[r.owner]? = some a) ∧ r.About a := by
  obtain ⟨k, b, hb, hr⟩ := Exchange.mem_history h
  obtain ⟨a, ha, _, about⟩ := Exchange.history_about hb hr
  exact ⟨a, ha, about⟩

theorem Models.untouched {s : OrderProcessor} {x : Exchange} {a : Arrival} (h : Models s lv x loose)
    (unspecified : ℚ → Int64) (hv : a.message.validate ≠ none) :
    ∃ s' emission, (s.step unspecified (.consume a) = .ok (s', [emission])) ∧ s.Untouched s' := by
  obtain ⟨reason, hr⟩ := Option.ne_none_iff_exists'.mp hv
  have hm := InboundOrderMsg.placement_eq_error_iff.mpr hr
  obtain ⟨reportPool, hs, _, hp⟩ := h.reject unspecified hm
  rw [Exchange.step_reject hm] at hs
  exact ⟨_, _, hs, rfl, rfl, rfl, rfl, hp.trans h.reports.right.symm⟩

-- The instruments do not interfere. The records about the orders that are accepted on one of them are,
-- but for the numbers of the messages and the times, those that there would be if no other messages
-- had arrived.
theorem instruments_independent (unspecified : ℚ → Int64) (before before' : List Event)
    (i : Instrument) {arrivals arrivals' : List Arrival}
    (h : arrivals'.map Arrival.message =
      (arrivals.filter (Arrival.places i)).map Arrival.message) :
    ∃ s₀ s₀' s s' emitted, ∃ records : List (List Record), Reached unspecified (before ++ [.reset]) s₀ ∧
      Reached unspecified (before' ++ [.reset]) s₀' ∧
      (Machine.run (step unspecified) (arrivals.map .consume) s₀ =
        .ok (s, records.map (·.map Record.emission))) ∧
      (Machine.run (step unspecified) (arrivals'.map .consume) s₀' = .ok (s', emitted)) ∧
      (∀ r ∈ records.flatten, ∃ a, (arrivals[r.owner]? = some a) ∧ r.About a) ∧
      (StrictMonoOn (rank i arrivals) { k | arrivals[k]?.any (Arrival.places i) }) ∧
      (emitted.flatten.map Emission.untimed = (recordsOn i arrivals records.flatten).map fun r =>
        (r.renumber (rank i arrivals)).emission.untimed) ∧
      (∀ events a, a.message.validate ≠ none → ∃ s s' emission, Reached unspecified events s ∧
        (s.step unspecified (.consume a) = .ok (s', [emission])) ∧ s.Untouched s') := by
  obtain ⟨s₀, hs₀, hrun⟩ := run_history unspecified before
  obtain ⟨s₀', hs₀', hrun'⟩ := run_history unspecified before'
  obtain ⟨s, _, _, hrun, _⟩ := hrun arrivals
  obtain ⟨s', _, _, hrun', _⟩ := hrun' arrivals'
  refine ⟨s₀, s₀', s, s', _, _, hs₀, hs₀', hrun, hrun', fun _ => history_owned, ?_, ?_, ?_⟩
  · intro j hj k _ hlt
    obtain ⟨a, ha, hp⟩ := Option.any_eq_true _ _ |>.mp hj
    exact rank_lt ha hp hlt
  · have ⟨_, hr⟩ := Exchange.history_untimed unspecified h
    have ⟨_, hf⟩ := Exchange.history_filter (i := i) unspecified arrivals fun _ _ => rfl
    have he := congrArg (fun l => l.flatten.map Record.emission) hr
    simp only [← List.map_flatten, List.map_map, hf] at he ⊢
    rw [Exchange.recordsOn_eq]
    exact he
  · intro events a hv
    obtain ⟨s, hs, _, _, hm⟩ := reached_agrees unspecified events
    obtain ⟨s', emission, hstep, hu⟩ := hm.untouched unspecified hv
    exact ⟨s, s', emission, hs, hstep, hu⟩

theorem instruments_independent_rose :
    let message (instrument : String) (quantity : Int) : InboundOrderMsg :=
      ⟨.copy (ascii "c1"), .copy (ascii instrument), 2, quantity, .finite 1, 1⟩
    let arrivals := [message "Lotus" 10, message "Rose" 5, message "Rose" 10].map
      (Arrival.mk · default default)
    ∃ s₀ s₀' s s' emitted, ∃ records : List (List Record), Reached (fun _ => 0) [.reset] s₀ ∧
      Reached (fun _ => 0) [.reset] s₀' ∧
      (Machine.run (step fun _ => 0) (arrivals.map .consume) s₀ =
        .ok (s, records.map (·.map Record.emission))) ∧
      (Machine.run (step fun _ => 0) [.consume ⟨message "Rose" 10, default, default⟩] s₀' =
        .ok (s', emitted)) ∧
      (emitted.flatten.map Emission.untimed =
        (recordsOn ⟨.rose, nofun⟩ arrivals records.flatten).map fun r =>
          (r.renumber (rank ⟨.rose, nofun⟩ arrivals)).emission.untimed) := by
  intro message arrivals
  have h : [message "Rose" 10] =
      (arrivals.filter <| Arrival.places ⟨.rose, nofun⟩).map Arrival.message := by
    decide +kernel
  obtain ⟨s₀, s₀', s, s', emitted, records, hs₀, hs₀', hrun, hrun', _, _, he, _⟩ :=
    instruments_independent (fun _ => 0) [] [] ⟨.rose, nofun⟩
      (show [⟨message "Rose" 10, default, default⟩].map Arrival.message = _ from h)
  exact ⟨s₀, s₀', s, s', emitted, records, hs₀, hs₀', hrun, hrun', he⟩

end OrderProcessor
