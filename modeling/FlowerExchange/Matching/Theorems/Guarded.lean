import FlowerExchange.Matching.Guarded
import FlowerExchange.Matching.Theorems.OrderProcessor
import FlowerExchange.Matching.Theorems.Termination

open Function Resting RuntimeConfig MatchingEngine

namespace Guarded

theorem lift_bind {x : Except Fault α} {f : α → Except Fault β} {f' : α → Except Hazard β}
    (h : ∀ a, x = .ok a → f' a = liftM (f a)) : (liftM x >>= f') = liftM (x >>= f) :=
  Except.mapError_bind h

theorem lift_ok {x : Except Fault α} (h : x = .ok a) : (liftM x : Except Hazard α) = .ok a := by
  rw [h]
  rfl

section

variable {book : BitmaskOrderBook} {bits : BitVec 64}

theorem shiftLeft_eq (h : n < 64) : shiftLeft bits n = .ok (bits <<< n) :=
  ensure_bind h _

theorem ctz_eq (h : bits ≠ 0#64) : ctz bits = .ok bits.ctz.toNat :=
  ensure_bind h _

theorem clz_eq (h : bits ≠ 0#64) : clz bits = .ok bits.clz.toNat :=
  ensure_bind h _

theorem keepFromNext_eq (h : n < 64) : keepFromNext bits n =
    .ok (if n < 63 then bits &&& ~~~((1#64 <<< (n + 1)) - 1#64) else 0#64) := by
  simp only [keepFromNext]
  split
  case isTrue h => rw [shiftLeft_eq (by omega)]; rfl
  case isFalse  => rfl

theorem keepBelow_eq (h : n < 64) : keepBelow bits n =
    .ok (if n > 0 then bits &&& ((1#64 <<< n) - 1#64) else 0#64) := by
  simp only [keepBelow]
  split
  case isTrue  => rw [shiftLeft_eq h]; rfl
  case isFalse => rfl

theorem findNextFrom_eq (book : BitmaskOrderBook) (tick : Nat) :
    findNextFrom book tick = .ok (book.findNextFrom tick) := by
  simp only [findNextFrom, BitmaskOrderBook.findNextFrom]
  by_cases hw : tick / 64 ≥ book.mask.length
  case pos =>
    rw [if_pos hw, List.getElem?_eq_none hw]
    rfl
  case neg =>
    have hlt : tick / 64 < book.mask.length := Nat.not_le.mp hw
    have hget : book.mask[tick / 64]? = some book.mask[tick / 64] := List.getElem?_eq_getElem hlt
    have hbit : tick % 64 < 64 := Nat.mod_lt _ (by decide)
    obtain ⟨bits, hbits⟩ : ∃ bits, bits = if tick % 64 < 63
      then book.mask[tick / 64] &&& ~~~((1#64 <<< (tick % 64 + 1)) - 1#64) else 0#64 := ⟨_, rfl⟩
    rw [if_neg hw, lift_ok (elementAt_eq hget), Except.ok_bind, keepFromNext_eq hbit, Except.ok_bind,
      hget]
    simp only [← hbits]
    split
    case isTrue hz  => rw [ctz_eq hz]; rfl
    case isFalse hz =>
      rw [ensure_bind (Nat.succ_le_of_lt hlt)]
      cases hk : (book.mask.drop (tick / 64 + 1)).findIdx? (· ≠ 0#64)
      case none   => rfl
      case some k =>
        have ⟨hl, hne, _⟩ := List.findIdx?_eq_some_iff_getElem.mp hk
        simp only [List.length_drop] at hl
        simp only [List.getElem_drop, decide_eq_true_eq] at hne
        have hi : tick / 64 + 1 + k < book.mask.length := by omega
        have hget : book.mask[tick / 64 + 1 + k]? = some book.mask[tick / 64 + 1 + k] :=
          List.getElem?_eq_getElem hi
        simp only [lift_ok (elementAt_eq hget), Except.ok_bind, ctz_eq hne, List.getD_eq_getElem _ _ hi,
          Except.pure_eq_ok]

theorem findPrevWord_eq {mask : List (BitVec 64)} {i : Nat} (hi : i ≤ mask.length) :
    findPrevWord mask i = .ok (BitmaskOrderBook.findPrevWord mask i) := by
  induction i
  case zero => rfl
  case succ i hind =>
    have hget : mask[i]? = some mask[i] := List.getElem?_eq_getElem hi
    rw [findPrevWord, BitmaskOrderBook.findPrevWord, lift_ok (elementAt_eq hget), Except.ok_bind,
      List.getD_eq_getElem _ _ hi]
    split
    case isTrue hz  => rw [clz_eq hz]; rfl
    case isFalse hz => exact hind (by omega)

theorem findPrevFrom_eq (book : BitmaskOrderBook) (tick : Nat) :
    findPrevFrom book tick = .ok (book.findPrevFrom tick) := by
  simp only [findPrevFrom, BitmaskOrderBook.findPrevFrom]
  by_cases he : book.mask.isEmpty
  case pos => simp [he]
  case neg =>
    have hpos : 0 < book.mask.length := by
      simpa [List.isEmpty_iff, List.length_pos_iff] using he
    have hbit : tick % 64 < 64 := Nat.mod_lt _ (by decide)
    obtain ⟨word, hword⟩ : ∃ word, word = if tick / 64 ≥ book.mask.length
      then book.mask.length - 1 else tick / 64 := ⟨_, rfl⟩
    have hlt : word < book.mask.length := by
      by_cases hge : tick / 64 ≥ book.mask.length
      case pos =>
        rw [hword, if_pos hge]
        omega
      case neg =>
        rw [hword, if_neg hge]
        exact Nat.not_le.mp hge
    have hget : book.mask[word]? = some book.mask[word] := List.getElem?_eq_getElem hlt
    obtain ⟨bits, hbits⟩ : ∃ bits, bits = if tick % 64 > 0
      then book.mask[word] &&& ((1#64 <<< (tick % 64)) - 1#64) else 0#64 := ⟨_, rfl⟩
    rw [if_neg he, if_neg he, ← hword, lift_ok (elementAt_eq hget), Except.ok_bind,
      keepBelow_eq hbit, Except.ok_bind, List.getD_eq_getElem _ _ hlt, ← hbits]
    split
    case isTrue hz  => rw [clz_eq hz]; rfl
    case isFalse hz => exact findPrevWord_eq hlt.le

end

section

variable {book : BitmaskOrderBook} {pool : MemPool Order} {tick : Nat}

theorem addOrderKnownValid_eq (ht : tick < orderBookTickCapacity) (order : Option Addr) :
    addOrderKnownValid book pool tick order = liftM (book.addOrderKnownValid pool tick order) := by
  rw [addOrderKnownValid.eq_def, ensure_bind ht]
  cases order
  case none => rfl
  case some order =>
    refine lift_bind fun pool _ => lift_bind fun head _ => ?_
    cases head
    case none =>
      refine lift_bind fun levels _ => lift_bind fun tails _ => ?_
      rw [shiftLeft_eq (Nat.mod_lt _ (by decide)), Except.ok_bind]
      exact lift_bind fun bits _ => lift_bind fun mask _ => rfl
    case some =>
      refine lift_bind fun tail _ => ?_
      cases tail
      case none => rfl
      case some => exact lift_bind fun pool _ => lift_bind fun tails _ => rfl

theorem peekOrderKnownValid_eq (ht : tick < orderBookTickCapacity) :
    peekOrderKnownValid book tick = liftM (book.peekOrderKnownValid tick) :=
  ensure_bind ht _

theorem moveBestFirst_eq : moveBestFirst book tick =
    .ok (if book.bestFirst = (tick : Int) then { book with bestFirst := book.findNextFrom tick }
      else book) := by
  simp only [moveBestFirst, findNextFrom_eq]
  split <;> rfl

theorem moveBestLast_eq : moveBestLast book tick =
    .ok (if book.bestLast = (tick : Int) then { book with bestLast := book.findPrevFrom tick }
      else book) := by
  simp only [moveBestLast, findPrevFrom_eq]
  split <;> rfl

theorem popOrderKnownValid_eq (ht : tick < orderBookTickCapacity) :
    popOrderKnownValid book pool tick = liftM (book.popOrderKnownValid pool tick) := by
  rw [popOrderKnownValid, ensure_bind ht]
  refine lift_bind fun head _ => ?_
  cases head
  case none => rfl
  case some head =>
    refine lift_bind fun order _ => lift_bind fun levels _ => lift_bind fun pool _ => ?_
    cases order.next
    case some => rfl
    case none =>
      refine lift_bind fun tails _ => ?_
      rw [shiftLeft_eq (Nat.mod_lt _ (by decide)), Except.ok_bind]
      refine lift_bind fun bits _ => lift_bind fun mask _ => ?_
      simp only [moveBestFirst_eq, moveBestLast_eq, Except.ok_bind]
      rfl

end

section

variable {s : MatchingEngine BitmaskOrderBook} {emit : Emit ω} {ts : Option Bytes} {now : CStr 20}
variable {lv : Side → Instrument → Levels} {m : Side → Instrument → List (Resting Nat OrderIds)}
variable {loose : Addr → Option Order} {incoming : Addr} {opp : Side} {i : Instrument} {o : Order}

theorem bestLevel_lt (h : Represents orderBookTickCapacity s.orderPool s.book lv m loose)
    (opp : Side) (i : Instrument) (side : Side) (hb : ¬bestLevel (s.book opp i) side < 0) :
    (bestLevel (s.book opp i) side).toNat < orderBookTickCapacity := by
  rcases bestLevel_spec (h.rep opp i) side with ⟨-, he⟩ | ⟨t, ht, -, he⟩
  case inl => omega
  case inr =>
    rw [he]
    exact LawfulOrderBook.rep_bound (h.rep opp i) ht

theorem peek_ne (h : Represents orderBookTickCapacity s.orderPool s.book lv m loose)
    (ho : loose incoming = some o) (ht : t < orderBookTickCapacity)
    (hp : (s.book opp i).peekOrderKnownValid t = .ok (some a)) : a ≠ incoming := by
  rintro rfl
  have hpeek := LawfulOrderBook.peek_spec (h.rep opp i) ht |>.symm.trans hp
  have hm : a ∈ lv opp i t := List.mem_of_mem_head? <| Except.ok.inj hpeek
  exact h.not_mem_of_loose ho opp i t hm

theorem matchPass_eq (h : Represents orderBookTickCapacity s.orderPool s.book lv m loose)
    (ho : loose incoming = some o) : matchPass emit ts now incoming opp i s =
      liftM (MatchingEngine.matchPass emit ts now incoming opp i s) := by
  have hread := MemPool.read_eq <| h.heap_loose ho
  refine lift_bind fun order horder => ?_
  by_cases hq : order.quantity = 0
  case pos =>
    rw [if_pos hq, if_pos hq]
    rfl
  case neg =>
    rw [if_neg hq, if_neg hq]
    by_cases hb : bestLevel (s.book opp i) order.side < 0
    case pos =>
      simp only [if_pos hb]
      rfl
    case neg =>
      have ht := bestLevel_lt h opp i order.side hb
      simp only [if_neg hb]
      generalize (bestLevel (s.book opp i) order.side).toNat = best at ht
      by_cases hc : !crosses best order.price order.side
      case pos =>
        simp only [if_pos hc]
        rfl
      case neg =>
        simp only [if_neg hc]
        rw [peekOrderKnownValid_eq ht]
        refine lift_bind fun resting hpeek => ?_
        cases resting
        case none => rfl
        case some a =>
          have hne := peek_ne h ho ht hpeek
          refine lift_bind fun x hx => ?_
          rw [lift_ok horder, Except.ok_bind, ensure_bind Std.min_le_left]
          refine lift_bind fun pool₁ hmod => ?_
          rw [lift_ok (MemPool.read_modify_ne hmod hne |>.trans hx), Except.ok_bind,
            ensure_bind Std.min_le_right]
          refine lift_bind fun pool₂ _ => lift_bind fun order _ => lift_bind fun other _ => ?_
          refine lift_bind fun reported₁ _ => lift_bind fun reported₂ _ => ?_
          by_cases hz : other.quantity = 0
          case pos =>
            rw [if_pos hz, if_pos hz, popOrderKnownValid_eq ht]
            exact lift_bind fun popped _ => lift_bind fun pool _ => rfl
          case neg =>
            rw [if_neg hz, if_neg hz]
            rfl

theorem settle_eq (h : Represents orderBookTickCapacity s.orderPool s.book lv m loose)
    (ho : loose incoming = some o) (hp : o.price < orderBookTickCapacity) (trades : List (Trade ω)) :
    settle s emit ts now incoming i trades = liftM (s.settle emit ts now incoming i trades) := by
  refine lift_bind fun order horder => ?_
  have he : order = o := Except.ok.inj <| horder.symm.trans <| MemPool.read_eq <| h.heap_loose ho
  subst he
  by_cases hq : order.quantity > 0
  case neg =>
    rw [if_neg hq, if_neg hq]
    exact lift_bind fun pool _ => rfl
  case pos =>
    rw [if_pos hq, if_pos hq, addOrderKnownValid_eq hp]
    refine lift_bind fun added _ => ?_
    by_cases ht : trades.isEmpty
    case neg =>
      simp only [if_neg ht]
      rfl
    case pos =>
      simp only [if_pos ht]
      exact lift_bind fun order _ => lift_bind fun reported _ => rfl

end

def Serves (sink : ReportSink ω) (incoming : Addr) (o : Order) (i : Instrument)
    (s : MatchingEngine BitmaskOrderBook) : Prop :=
  ∃ lv m loose k, (Represents orderBookTickCapacity s.orderPool s.book lv m loose) ∧
    (sink.Inv s.reportPool) ∧ (loose incoming = some { o with quantity := k }) ∧
    Sorted o.side.opposite.better (m o.side.opposite i)

namespace Serves

variable {sink : ReportSink ω} {incoming : Addr} {o : Order} {i : Instrument}
variable {s : MatchingEngine BitmaskOrderBook}

variable (ts : Option Bytes) (now : CStr 20)

theorem pass (h : Serves sink incoming o i s) (hi : o.instrument = i) :
    (MatchingEngine.matchPass sink.emit ts now incoming o.side.opposite i s = .ok (s, .stop)) ∨
    ∃ s' t, (MatchingEngine.matchPass sink.emit ts now incoming o.side.opposite i s =
      .ok (s', .trade t)) ∧ Serves sink incoming o i s' := by
  have h : Serving orderBookTickCapacity sink incoming o i s := h
  rcases h.pass ts now hi with hstop | ⟨s', t, hpass, h', _⟩
  case inl => exact .inl hstop
  case inr => exact .inr ⟨s', t, hpass, h'⟩

theorem loop (h : Serves sink incoming o i s) (hi : o.instrument = i) (fuel : Nat) :
    (matchLoop sink.emit ts now incoming o.side.opposite i fuel s =
      liftM (MatchingEngine.matchLoop sink.emit ts now incoming o.side.opposite i fuel s)) ∧
    ∀ s' trades, MatchingEngine.matchLoop sink.emit ts now incoming o.side.opposite i fuel s =
      .ok (s', trades) → Serves sink incoming o i s' := by
  induction fuel generalizing s
  case zero => exact ⟨rfl, fun _ _ h => by contradiction⟩
  case succ fuel hind =>
    have hpass : matchPass sink.emit ts now incoming o.side.opposite i s =
        liftM (MatchingEngine.matchPass sink.emit ts now incoming o.side.opposite i s) := by
      obtain ⟨_, _, _, _, h, _, ho, _⟩ := h
      exact matchPass_eq h ho
    rcases h.pass ts now hi with hstop | ⟨s₁, t, htrade, h₁⟩
    case inl =>
      rw [hstop] at hpass
      have hloop := matchLoop_of_stop hstop fuel
      refine ⟨?_, fun s' trades hr => ?_⟩
      · rw [matchLoop, hpass, hloop]
        rfl
      · cases hloop.symm.trans hr
        exact h
    case inr =>
      obtain ⟨heq, hserves⟩ := hind h₁
      refine ⟨?_, fun s' trades hr => ?_⟩
      · rw [matchLoop, MatchingEngine.matchLoop, hpass, htrade, lift_ok rfl]
        simp only [Except.ok_bind]
        rw [heq]
        exact lift_bind fun _ _ => rfl
      · rw [MatchingEngine.matchLoop, htrade, Except.ok_bind] at hr
        obtain ⟨⟨s₂, _⟩, hloop, hr⟩ := Except.bind_eq_ok hr
        cases hr
        exact hserves _ _ hloop

theorem process (h : Serves sink incoming o i s) (hi : o.instrument = i)
    (hp : o.price < orderBookTickCapacity) : processOrder s sink.emit incoming ts now =
      liftM (s.processOrder sink.emit incoming ts now) := by
  refine lift_bind fun order horder => ?_
  obtain ⟨hside, hinstr⟩ : order.side = o.side ∧ order.instrument = o.instrument := by
    obtain ⟨_, _, _, k, h, _, ho, _⟩ := h
    cases horder.symm.trans <| MemPool.read_eq <| h.heap_loose ho
    exact ⟨rfl, rfl⟩
  have hlt : order.instrument.toNat < 5 := by
    rw [hinstr, hi]
    exact InstrumentType.toNat_lt_iff _ |>.mpr i.property
  rw [ensure_bind hlt]
  refine lift_bind fun i' hi' => ?_
  rw [hinstr, hi, instrumentIndex_eq] at hi'
  cases hi'
  simp only [hside]
  obtain ⟨heq, hserves⟩ := h.loop ts now hi (order.quantity.toNat + s.orderPool.totalCapacity + 1)
  rw [heq]
  refine lift_bind fun matched hloop => ?_
  obtain ⟨_, _, _, _, h₁, _, ho₁, _⟩ := hserves matched.1 matched.2 hloop
  exact settle_eq h₁ ho₁ hp matched.2

end Serves

open OrderProcessor

variable {unspecified : ℚ → Int64} {s : OrderProcessor} {x : Exchange}
variable {lv : Side → Instrument → Levels} {loose : Addr → Option Order} {a : Arrival}

variable (unspecified) in
theorem consume_reject (hm : a.message.placement = .error reason) :
    step unspecified s (.consume a) = liftM (s.step unspecified (.consume a)) := by
  have hv : validateOrder ((parseInstrument a.message.instrument.text).getD .count) a.message.side
      a.message.price a.message.quantity = some reason := InboundOrderMsg.placement_eq_error_iff.mp hm
  simp only [step, consumeMessage, OrderProcessor.step, OrderProcessor.consumeMessage, hv]
  exact lift_bind fun _ _ => rfl

variable (unspecified) in
theorem consume_accept (h : Models s lv x loose) (hm : a.message.placement = .ok p) :
    step unspecified s (.consume a) = liftM (s.step unspecified (.consume a)) := by
  have hv : validateOrder ((parseInstrument a.message.instrument.text).getD .count) a.message.side
      a.message.price a.message.quantity = none := InboundOrderMsg.validate_of_placement hm
  let order : Order := .new (formatOrderId 32 s.nextOid) a.message.coid.text p.instrument p.side p.tick
    (.ofNat p.quantity)
  have hnew : s.newOrder unspecified a.message = order := newOrder_eq unspecified s hm
  have hq : (order.quantity.toNat : Int) = a.message.quantity := by
    obtain ⟨_, _, _, hq⟩ := InboundOrderMsg.placement_eq_ok hm
    exact hq ▸ congrArg Nat.cast p.toNat_quantity
  simp only [step, consumeMessage, OrderProcessor.step, OrderProcessor.consumeMessage, hv, hnew]
  rw [ensure_bind hq]
  refine lift_bind fun allocated halloc => ?_
  obtain ⟨pool, ptr⟩ := allocated
  obtain ⟨pool', ptr', halloc', wf, ha, hh⟩ := MemPool.allocate_spec order h.represents.wf
  cases halloc.symm.trans halloc'
  let engine : MatchingEngine BitmaskOrderBook := { s.matcher with orderPool := pool }
  have hserves : Serves (.releasing a.message.reportEmission) ptr order p.instrument engine := by
    refine ⟨lv, x.resting, update loose ptr (some order), order.quantity, ?_, h.reports,
      update_self .., x.sorted _ _⟩
    rw [book_withPools]
    exact h.represents.allocate ha wf hh
  have hproc : processOrder engine (releasing a.message.reportEmission) ptr
      (some a.timestamp.text) a.now = liftM (engine.processOrder _ ptr _ _) :=
    hserves.process _ _ rfl p.tick_lt
  rw [hproc]
  exact lift_bind fun _ _ => rfl

variable (unspecified) in
theorem step_eq (h : Agrees s x) (event : Event) :
    step unspecified s event = liftM (s.step unspecified event) := by
  obtain ⟨lv, loose, h⟩ := h
  cases event
  case reset => rfl
  case consume a =>
    cases hm : a.message.placement
    case error => exact consume_reject unspecified hm
    case ok    => exact consume_accept unspecified h hm

-- Whatever happens, no assertion fails.
theorem assertions_hold (unspecified : ℚ → Int64) (events : List Event) : ∃ s emitted,
    (Machine.run (step unspecified) events .new = .ok (s, emitted)) ∧
      Machine.run (OrderProcessor.step unspecified) events .new = .ok (s, emitted) := by
  obtain ⟨s, hrun, _⟩ := run_agrees unspecified events ⟨_, _, new_models⟩
  refine ⟨s, _, ?_, hrun⟩
  have hg : Machine.run (step unspecified) events .new =
      liftM (Machine.run (OrderProcessor.step unspecified) events .new) := by
    refine Machine.run_mapError (P := fun s => ∃ x, Agrees s x) ?step ?kept ⟨_, _, _, new_models⟩
    case step =>
      rintro s event ⟨x, h⟩
      exact step_eq unspecified h event
    case kept =>
      rintro s event s' o ⟨x, h⟩ hs
      obtain ⟨_, hs', h'⟩ := step_agrees unspecified event h
      cases hs.symm.trans hs'
      exact ⟨_, h'⟩
  rw [hg, hrun]
  rfl

end Guarded
