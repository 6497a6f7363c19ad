import FlowerExchange.Matching.EngineRun

open Function

namespace MatchingEngine

variable [OrderBook B] [LawfulOrderBook B] {s : MatchingEngine B}
variable {lv : Side → Instrument → Levels} {loose : Addr → Option Order}

theorem processOrder_zero (sink : ReportSink ω)
    (h : Represents maxTicks s.orderPool s.book lv m loose) (ho : loose incoming = some o)
    (hi : o.instrument = (i : Instrument)) (hq : o.quantity = 0) (ts : Option Bytes)
    (now : CStr 20) : ∃ pool,
      (s.processOrder sink.emit incoming ts now =
        .ok ({ s with orderPool := pool }, ⟨[], none⟩)) ∧
      Represents maxTicks pool s.book lv m (update loose incoming none) := by
  have hread := h.heap_loose ho
  have ⟨pool, hsettle, h'⟩ := settle_zero sink ts now i [] h ho hq
  have hloop (fuel : Nat) : matchLoop sink.emit ts now incoming o.side.opposite i (fuel + 1) s =
      .ok (s, []) := matchLoop_of_stop (matchPass_of_zero hread hq) fuel
  refine ⟨pool, ?_, h'⟩
  simp only [processOrder, MemPool.read_eq hread, Except.ok_bind, hi, instrumentIndex_eq, hloop,
    hsettle]

end MatchingEngine

namespace Caller

variable {B : Type} [OrderBook B] [LawfulOrderBook B] {maxTicks : Nat} {sink : ReportSink ω}
variable {s : Caller B} {t : Session maxTicks} {m : Market Instrument Nat OrderIds}
variable {orders : List Order} {o : Order} {i : Instrument} {n : Nat}

-- The engine holds what the market holds, and the given orders wait to be processed.
def Has (maxTicks : Nat) (sink : ReportSink ω) (s : Caller B) (m : Market Instrument Nat OrderIds)
    (orders : List Order) : Prop :=
  ∃ lv loose, Represents maxTicks s.engine.orderPool s.engine.book lv m.resting loose ∧
    (sink.Inv s.engine.reportPool) ∧ (s.pending.Nodup) ∧
    List.Forall₂ (fun a o => loose a = some o) s.pending orders

variable (maxTicks) in
theorem has_new (capacity : Nat) (h : sink.Inv reportPool) :
    Has maxTicks sink (.new maxTicks capacity reportPool : Caller B) .empty [] := by
  have hb : (Caller.new maxTicks capacity reportPool : Caller B).engine.book =
      fun _ _ => OrderBook.new maxTicks := by
    ext1 side
    cases side <;> rfl
  refine ⟨fun _ _ _ => [], (MemPool.new capacity).heap, ?_, h, List.nodup_nil, .nil⟩
  rw [hb]
  exact .fresh (MemPool.new_wf capacity)

theorem Has.allocate (h : Has maxTicks sink s m orders) (o : Order) : ∃ pool ptr,
    (s.engine.orderPool.allocate o = .ok (pool, ptr)) ∧
      Has maxTicks sink ⟨{ s.engine with orderPool := pool }, s.pending ++ [ptr]⟩ m (orders ++ [o]) := by
  have ⟨lv, loose, h, inv, hd, hp⟩ := h
  have ⟨pool, a, hm, wf, ha, hh⟩ := MemPool.allocate_spec o h.wf
  have hna : a ∉ s.pending := by
    intro hm
    have ⟨n, hn, he⟩ := List.mem_iff_getElem.mp hm
    have := h.heap_loose <| hp.get hn (hp.length_eq ▸ hn)
    simp [he, ha] at this
  refine ⟨pool, a, hm, lv, update loose a (some o), ?_, inv, ?_, ?_⟩
  · rw [book_withPools]
    exact h.allocate ha wf hh
  · simpa [List.nodup_append', hd] using hna
  · refine List.rel_append (List.forall₂_iff_get.mpr ⟨hp.length_eq, fun n hn hn' => ?_⟩) <|
      .cons (update_self ..) .nil
    rw [update_of_ne <| ne_of_mem_of_not_mem (List.get_mem ..) hna]
    exact hp.get hn hn'

theorem pending_getElem? {pending : List Addr} {loose : Addr → Option Order}
    (hp : List.Forall₂ (fun a o => loose a = some o) pending orders) (ho : orders[n]? = some o) :
    ∃ a, pending[n]? = some a ∧ loose a = some o := by
  obtain ⟨hn', rfl⟩ := List.getElem?_eq_some_iff.mp ho
  have hn := hp.length_eq ▸ hn'
  exact ⟨pending[n], List.getElem?_eq_getElem hn, hp.get hn hn'⟩

theorem pending_eraseIdx {pending : List Addr} {loose : Addr → Option Order} (hd : pending.Nodup)
    (hp : List.Forall₂ (fun a o => loose a = some o) pending orders) (hn : pending[n]? = some a) :
    List.Forall₂ (fun b o => update loose a none b = some o) (pending.eraseIdx n)
      (orders.eraseIdx n) := by
  obtain ⟨hn, rfl⟩ := List.getElem?_eq_some_iff.mp hn
  have hne : ∀ a ∈ pending.eraseIdx n, a ≠ pending[n] := by
    rintro a ha rfl
    have ⟨k, hk, he⟩ := List.mem_eraseIdx_iff_getElem?.mp ha
    have ⟨hk', he⟩ := List.getElem?_eq_some_iff.mp he
    exact hk <| hd.getElem_inj_iff.mp he
  have : List.Forall₂ (fun a o => loose a = some o) (pending.eraseIdx n) (orders.eraseIdx n) := by
    simp only [List.eraseIdx_eq_take_drop_succ]
    exact List.rel_append (List.forall₂_take n hp) (List.forall₂_drop (n + 1) hp)
  refine List.forall₂_iff_get.mpr ⟨this.length_eq, fun k hk hk' => ?_⟩
  rw [update_of_ne <| hne _ <| List.get_mem ..]
  exact this.get hk hk'

theorem Has.process (h : Has maxTicks sink s m orders) (ho : orders[n]? = some o)
    (hi : o.instrument = i) (hp : o.price < maxTicks) (hq : 0 < o.quantity.toNat) (ts : Option Bytes)
    (now : CStr 20) : ∃ ptr engine out,
      let time := ExecutionReport.timestampField ts now
      (s.pending[n]? = some ptr) ∧
      (s.engine.processOrder sink.emit ptr ts now = .ok (engine, out)) ∧
      (out.emitted =
        (m.reports o.side i o.price o.quantity.toNat o.ids time).map sink.view) ∧
      (List.Forall₂ (MatchingEngine.Trade.Reports sink.view) out.trades (tradeReports o.ids i o.side
        time o.quantity.toNat (m.trades o.side i o.price o.quantity.toNat))) ∧
      Has maxTicks sink ⟨engine, s.pending.eraseIdx n⟩
        (m.submit o.side i o.price o.quantity.toNat o.ids) (orders.eraseIdx n) := by
  have ⟨lv, loose, h, inv, hd, hpending⟩ := h
  have ⟨ptr, hptr, hl⟩ := pending_getElem? hpending ho
  have ⟨engine, out, lv', hproc, hemit, htrades, inv', h'⟩ :=
    MatchingEngine.processOrder_spec sink ts now m h inv hl hi hp hq
  exact ⟨ptr, engine, out, hptr, hproc, hemit, htrades, lv', _, h', inv', hd.eraseIdx n,
    pending_eraseIdx hd hpending hptr⟩

theorem Has.process_zero (h : Has maxTicks sink s m orders) (ho : orders[n]? = some o)
    (hi : o.instrument = i) (hq : o.quantity = 0) (ts : Option Bytes) (now : CStr 20) :
    ∃ ptr engine,
      (s.pending[n]? = some ptr) ∧
      (s.engine.processOrder sink.emit ptr ts now = .ok (engine, ⟨[], none⟩)) ∧
      Has maxTicks sink ⟨engine, s.pending.eraseIdx n⟩ m (orders.eraseIdx n) := by
  have ⟨lv, loose, h, inv, hd, hpending⟩ := h
  have ⟨ptr, hptr, hl⟩ := pending_getElem? hpending ho
  have ⟨pool, hproc, h'⟩ := MatchingEngine.processOrder_zero sink h hl hi hq ts now
  refine ⟨ptr, _, hptr, hproc, lv, _, ?_, inv, hd.eraseIdx n, pending_eraseIdx hd hpending hptr⟩
  rw [book_withPools]
  exact h'

def Agrees (sink : ReportSink ω) (s : Caller B) (t : Session maxTicks) : Prop :=
  Has maxTicks sink s t.market (t.pending.map NewOrder.order)

variable (maxTicks) in
theorem agrees_new (capacity : Nat) (h : sink.Inv reportPool) :
    Agrees sink (.new maxTicks capacity reportPool : Caller B) (.empty : Session maxTicks) :=
  has_new maxTicks capacity h

theorem step_allocate (h : Agrees sink s t) (new : NewOrder maxTicks) : ∃ s',
    (s.step sink.emit (.allocate new) = .ok (s', none)) ∧
      Agrees sink s' (t.step (.allocate new)).1 := by
  have ⟨pool, ptr, hm, h⟩ := h.allocate new.order
  refine ⟨⟨{ s.engine with orderPool := pool }, s.pending ++ [ptr]⟩, by simp [step, hm], ?_⟩
  simpa [Agrees, Session.step] using h

theorem step_process {new : NewOrder maxTicks} (h : Agrees sink s t)
    (ht : t.pending[n]? = some new) (ts : Option Bytes) (now : CStr 20) : ∃ ptr engine out,
      let time := ExecutionReport.timestampField ts now
      (s.pending[n]? = some ptr) ∧
      (s.engine.processOrder sink.emit ptr ts now = .ok (engine, out)) ∧
      (out.emitted = (Session.reports t.market new time).map sink.view) ∧
      (List.Forall₂ (MatchingEngine.Trade.Reports sink.view) out.trades
        (tradeReports new.order.ids new.instrument new.side time new.quantity.toNat
          (t.market.trades new.side new.instrument new.price new.quantity.toNat))) ∧
      Agrees sink ⟨engine, s.pending.eraseIdx n⟩ (t.step (.process n ts now)).1 := by
  have ho : (t.pending.map NewOrder.order)[n]? = some new.order := by simp [ht]
  by_cases hq : new.quantity = 0
  case pos =>
    obtain ⟨ptr, engine, hptr, hproc, h'⟩ := h.process_zero ho rfl hq ts now
    refine ⟨ptr, engine, _, hptr, hproc, ?_, ?_, ?_⟩
    · simp [Session.reports, hq, MatchingEngine.Outcome.emitted]
    · simp [Market.trades, hq, tradeReports]
    · obtain ⟨lv, loose, rep, rest⟩ := h'
      refine ⟨lv, loose, ?_, ?_⟩
      · simpa [Session.step, ht, Session.submit, hq, Market.submit_zero] using rep
      · simpa [Session.step, ht, List.eraseIdx_map] using rest
  case neg =>
    have hpos : 0 < new.quantity.toNat := Nat.pos_of_ne_zero fun he => hq <| UInt16.toNat_inj.mp he
    obtain ⟨ptr, engine, out, hptr, hproc, hemit, htrades, h'⟩ :=
      h.process ho rfl new.inBook hpos ts now
    refine ⟨ptr, engine, out, hptr, hproc, ?_, htrades, ?_⟩
    · rw [Session.reports, if_neg hq]
      exact hemit
    · rw [List.eraseIdx_map] at h'
      simp only [Agrees, Session.step, ht]
      exact h'

theorem step_agrees (command : Command maxTicks) (h : Agrees sink s t) : ∃ s',
    (s.step sink.emit command = .ok (s', (t.step command).2.map (·.map sink.view))) ∧
      Agrees sink s' (t.step command).1 := by
  cases command
  case allocate new => exact step_allocate h new
  case process n ts now =>
    cases ht : t.pending[n]?
    case none =>
      have ⟨_, _, _, _, _, hp⟩ := h
      have hs : s.pending[n]? = none := by
        rw [List.getElem?_eq_none_iff, hp.length_eq, List.length_map]
        exact List.getElem?_eq_none_iff.mp ht
      exact ⟨s, by simp [step, Session.step, hs, ht], by simpa [Session.step, ht] using h⟩
    case some new =>
      have ⟨ptr, engine, out, hs, hproc, hemit, _, h'⟩ := step_process h ht ts now
      exact ⟨_, by simp [step, Session.step, hs, hproc, hemit, ht], h'⟩

theorem run_agrees (commands : List (Command maxTicks)) (h : Agrees sink s t) : ∃ s',
    (Machine.run (step sink.emit) commands s =
      .ok (s', (Machine.exec Session.step commands t).2.map (Option.map (List.map sink.view)))) ∧
    Agrees sink s' (Machine.exec Session.step commands t).1 :=
  Machine.run_of_simulation (Option.map (List.map sink.view)) (fun command => step_agrees command) h

end Caller
