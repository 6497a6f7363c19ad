import FlowerExchange.Matching.Symmetry
import FlowerExchange.Matching.Theorems.EngineRun
import FlowerExchange.Matching.Theorems.Relabel
import FlowerExchange.Matching.Theorems.Walk

open Function Resting

theorem better_mirror {M p q : Nat} (hp : p ≤ M) (hq : q ≤ M) (s : Side) :
    s.opposite.better (M - p) (M - q) ↔ s.better p q := by
  cases s <;> simp only [Side.opposite, Side.better] <;> omega

def Relabeling.mirror (M : Nat) : Relabeling Nat Nat where
  side       := Side.opposite
  price      := (M - ·)
  proper     := (· ≤ M)
  opposite _ := rfl
  better hp hq := better_mirror hp hq _

theorem tradeReports_mirror (M : Nat) (ids i side timestamp q l) :
    tradeReports ids i side.opposite timestamp q (l.map <| Prod.map (relabel (M - ·) Prod.mk) id) =
      (tradeReports ids i side timestamp q l).map
        (Prod.map (ExecutionReport.mirror M) (ExecutionReport.mirror M)) := by
  induction l generalizing q
  case nil => rfl
  case cons hi =>
    simp only [tradeReports, List.map_cons, hi]
    rfl

variable {M : Nat} {s s' : Session (M + 1)} {m m' : Market Instrument Nat OrderIds}

structure Session.Mirrored (s s' : Session (M + 1)) : Prop where
  now       : s'.market.now = s.market.now
  relabeled : ∀ i, Market.Relabeled (.mirror M) Prod.mk i s.market s'.market
  pending   : s'.pending = s.pending.map NewOrder.mirror

theorem Market.Relabeled.reports {i : Instrument} {price : Nat}
    (h : Market.Relabeled (.mirror M) Prod.mk i m m')
    (hp : price ≤ M) (side : Side) (quantity : Nat) (ids : OrderIds) (timestamp : CStr 20) :
    m'.reports side.opposite i (M - price) quantity ids timestamp =
      (m.reports side i price quantity ids timestamp).map (ExecutionReport.mirror M) := by
  have ht : m'.trades side.opposite i (M - price) quantity =
      (m.trades side i price quantity).map (Prod.map (relabel (M - ·) Prod.mk) id) :=
    h.trades (e := .mirror M) hp side quantity
  simp only [Market.reports, ht, tradeReports_mirror, List.map_eq_nil_iff, List.map_append,
    List.flatMap_map, List.map_flatMap]
  congr 1
  split <;> rfl

namespace Session.Mirrored

theorem empty : Mirrored (.empty : Session (M + 1)) .empty where
  now         := rfl
  relabeled _ := ⟨fun _ _ hr => (nomatch hr), fun _ => rfl⟩
  pending     := rfl

theorem submit (h : Mirrored s s') (new : NewOrder (M + 1)) (i : Instrument) :
    Market.Relabeled (.mirror M) Prod.mk i (Session.submit s.market new)
      (Session.submit s'.market new.mirror) := by
  have hp : new.price ≤ M := Nat.le_of_lt_succ new.inBook
  by_cases hi : i = new.instrument
  case pos =>
    subst hi
    exact (h.relabeled new.instrument).submit (e := .mirror M) hp
      (congrArg (·, new.order.ids) h.now.symm) new.side new.quantity.toNat
  case neg => exact (h.relabeled i).submit_ne hi |>.submit_ne' hi

theorem reports (h : Mirrored s s') (new : NewOrder (M + 1)) (timestamp : CStr 20) :
    Session.reports s'.market new.mirror timestamp =
      (Session.reports s.market new timestamp).map (ExecutionReport.mirror M) := by
  have hp : new.price ≤ M := Nat.le_of_lt_succ new.inBook
  have hq : new.mirror.quantity = new.quantity := rfl
  rw [Session.reports, Session.reports, hq]
  split
  · rfl
  · exact (h.relabeled new.instrument).reports hp new.side new.quantity.toNat new.order.ids timestamp

theorem step (h : Mirrored s s') (command : Command (M + 1)) :
    Mirrored (s.step command).1 (s'.step command.mirror).1 ∧
      (s'.step command.mirror).2 =
        (s.step command).2.map (List.map <| ExecutionReport.mirror M) := by
  cases command
  case allocate new =>
    refine ⟨⟨h.now, h.relabeled, ?_⟩, rfl⟩
    simp [Session.step, Command.mirror, h.pending]
  case process n ts now =>
    simp only [Session.step, Command.mirror, h.pending, List.getElem?_map]
    cases s.pending[n]?
    case none => exact ⟨h, rfl⟩
    case some new =>
      refine ⟨⟨congrArg (· + 1) h.now, h.submit new, ?_⟩, congrArg some <| h.reports new _⟩
      simp [List.eraseIdx_map]

theorem exec (h : Mirrored s s') (commands : List (Command (M + 1))) :
    Mirrored (Machine.exec Session.step commands s).1
        (Machine.exec Session.step (commands.map Command.mirror) s').1 ∧
      (Machine.exec Session.step (commands.map Command.mirror) s').2 =
        (Machine.exec Session.step commands s).2.map
          (Option.map <| List.map <| ExecutionReport.mirror M) := by
  have hi : List.Forall₂ (fun command command' => command' = command.mirror) commands
      (commands.map Command.mirror) := by
    rw [List.forall₂_map_right_iff, List.forall₂_same]
    exact fun _ _ => rfl
  have ⟨h, ho⟩ := Machine.exec_rel (R := Mirrored)
    (O := fun o o' => o' = Option.map (List.map <| ExecutionReport.mirror M) o)
    (fun h hi => hi ▸ h.step _) hi h
  refine ⟨h, ?_⟩
  rw [← List.forall₂_eq_eq_eq, List.forall₂_map_right_iff]
  exact ho.flip

end Session.Mirrored

theorem IsBest.mirror {better better' : Nat → Nat → Prop} [IsStrictTotalOrder Nat better']
    {S S' : Set Nat} {i j : Int} (h : IsBest better S i) (h' : IsBest better' S' j)
    (hM : ∀ t ∈ S, t ≤ M) (hS : ∀ u, u ∈ S' ↔ ∃ t ∈ S, M - t = u)
    (hb : ∀ t ≤ M, ∀ u ≤ M, better' (M - u) (M - t) → better u t) : j = mirrorTick M i := by
  rcases h with ⟨rfl, rfl⟩ | ⟨t, ht, hbest, rfl⟩
  case inl =>
    have he : S' = ∅ := Set.eq_empty_iff_forall_notMem.mpr fun u hu => by
      simpa using (hS u).mp hu
    exact h'.unique <| .inl ⟨he, rfl⟩
  case inr =>
    have htM := hM t ht
    have hj : j = (M - t : Nat) := h'.eq_of_mem ((hS _).mpr ⟨t, ht, rfl⟩) fun u hu hbu => by
      obtain ⟨v, hv, rfl⟩ := (hS u).mp hu
      exact hbest v hv <| hb t htM v (hM v hv) hbu
    rw [hj, mirrorTick]
    omega

namespace MatchingEngine

structure MirroredBooks (M : Nat) (s s' : MatchingEngine BitmaskOrderBook) : Prop where
  levels : ∀ side i, ∀ t ≤ M, ∃ l l', s.Walk side i t l ∧ s'.Walk side.opposite i (M - t) l' ∧
    List.Forall₂ (fun a a' => ∃ o o', (s.orderPool.heap a = some o) ∧
      (s'.orderPool.heap a' = some o') ∧ (o'.unlinked = (o.mirror M).unlinked)) l l'
  first  : ∀ side i, (s'.book side.opposite i).findLast = mirrorTick M (s.book side i).findFirst
  last   : ∀ side i, (s'.book side.opposite i).findFirst = mirrorTick M (s.book side i).findLast

variable {s s' : MatchingEngine BitmaskOrderBook} {lv lv' : Side → Instrument → Levels}
variable {loose loose' : Addr → Option Order}

theorem mirrored_order (h : Holds heap side i a r)
    (h' : Holds heap' side.opposite i a' (relabel (M - ·) Prod.mk r)) :
    ∃ o o', (heap a = some o) ∧ (heap' a' = some o') ∧ (o'.unlinked = (o.mirror M).unlinked) := by
  have ⟨o, ho, hs, hi, hr⟩ := h
  have ⟨o', ho', hs', hi', hr'⟩ := h'
  have hp : o'.price = M - o.price :=
    (congrArg Resting.price hr').trans <|
      congrArg (fun r : Resting Nat OrderIds => M - r.price) hr.symm
  have hq : o'.quantity.toNat = o.quantity.toNat :=
    (congrArg Resting.quantity hr').trans <| congrArg Resting.quantity hr.symm
  have hd : o'.ids = o.ids := (congrArg Resting.data hr').trans <| congrArg Resting.data hr.symm
  refine ⟨o, o', ho, ho', Order.ext ?_ ?_ ?_ ?_ ?_ ?_ rfl⟩
  · exact congrArg OrderIds.oid hd
  · exact congrArg OrderIds.coid hd
  · exact hi'.trans hi.symm
  · exact hs'.trans <| congrArg Side.opposite hs.symm
  · exact hp
  · exact UInt16.toNat_inj.mp hq

theorem active_mirror (h : Represents (M + 1) s.orderPool s.book lv m.resting loose)
    (h' : Represents (M + 1) s'.orderPool s'.book lv' m'.resting loose')
    (hm : ∀ i, Market.Relabeled (.mirror M) Prod.mk i m m') (side : Side) (i : Instrument) :
    (∀ t ∈ (lv side i).active, t ≤ M) ∧
      ∀ u, u ∈ (lv' side.opposite i).active ↔ ∃ t ∈ (lv side i).active, M - t = u := by
  have hr : m'.resting side.opposite i = (m.resting side i).map (relabel (M - ·) Prod.mk) :=
    (hm i).resting side
  refine ⟨fun t ht => ?_, fun u => ?_⟩
  · have ⟨r, hr, hp⟩ := h.mem_active_iff.mp ht
    exact hp ▸ (hm i).proper side r hr
  · rw [h'.mem_active_iff, hr]
    constructor
    · intro ⟨r', hr', hp⟩
      obtain ⟨r, hr, rfl⟩ := List.mem_map.mp hr'
      exact ⟨r.price, h.mem_active_iff.mpr ⟨r, hr, rfl⟩, hp⟩
    · intro ⟨t, ht, hu⟩
      obtain ⟨r, hr, rfl⟩ := h.mem_active_iff.mp ht
      exact ⟨_, List.mem_map_of_mem hr, hu⟩

theorem mirroredBooks (h : Represents (M + 1) s.orderPool s.book lv m.resting loose)
    (h' : Represents (M + 1) s'.orderPool s'.book lv' m'.resting loose')
    (hm : ∀ i, Market.Relabeled (.mirror M) Prod.mk i m m') : s.MirroredBooks M s' where
  levels side i t ht := by
    have hl : level (M - t) (m'.resting side.opposite i) =
        (level t (m.resting side i)).map (relabel (M - ·) Prod.mk) := by
      rw [show m'.resting side.opposite i = _ from (hm i).resting side]
      refine level_relabel fun r hr => ?_
      have hr : r.price ≤ M := (hm i).proper side r hr
      omega
    have hw := h.holds side i t
    have hw' := h'.holds side.opposite i (M - t)
    rw [hl, List.forall₂_map_right_iff] at hw'
    refine ⟨_, _, h.walk_self side i t, h'.walk_self side.opposite i (M - t), ?_⟩
    have hlen := hw.length_eq.trans hw'.length_eq.symm
    refine List.forall₂_iff_get.mpr ⟨hlen, fun n hn hn' => ?_⟩
    exact mirrored_order (hw.get hn (hw.length_eq ▸ hn)) (hw'.get hn' (hw.length_eq ▸ hn))
  first side i := by
    have ⟨hle, hS⟩ := active_mirror h h' hm side i
    exact IsBest.mirror (LawfulOrderBook.first_spec <| h.rep side i)
      (LawfulOrderBook.last_spec <| h'.rep side.opposite i) hle hS (by omega)
  last side i := by
    have ⟨hle, hS⟩ := active_mirror h h' hm side i
    exact IsBest.mirror (LawfulOrderBook.last_spec <| h.rep side i)
      (LawfulOrderBook.first_spec <| h'.rep side.opposite i) hle hS (by omega)

-- Mirrored orders have mirrored reports, and end in mirrored books.
theorem processOrder_mirrored (sink : ReportSink ω) (M capacity capacity' : Nat)
    (reportPool reportPool' : { pool // sink.Inv pool }) (commands : List (Command (M + 1))) :
    ∃ (s s' : Caller BitmaskOrderBook) (reports : List (Option (List ExecutionReport))),
      (Machine.run (Caller.step sink.emit) commands (.new (M + 1) capacity reportPool) =
        .ok (s, reports.map <| Option.map <| List.map sink.view)) ∧
      (Machine.run (Caller.step sink.emit) (commands.map Command.mirror)
        (.new (M + 1) capacity' reportPool') =
          .ok (s', reports.map <| Option.map <| List.map (sink.view <| ·.mirror M))) ∧
      (s.engine.MirroredBooks M s'.engine) := by
  have ⟨s, hrun, h⟩ := Caller.run_agrees commands <|
    Caller.agrees_new (B := BitmaskOrderBook) (M + 1) capacity reportPool.property
  have ⟨s', hrun', h'⟩ := Caller.run_agrees (commands.map Command.mirror) <|
    Caller.agrees_new (B := BitmaskOrderBook) (M + 1) capacity' reportPool'.property
  have ⟨hm, hr⟩ := Session.Mirrored.exec .empty commands
  have ⟨_, _, rep, _⟩ := h
  have ⟨_, _, rep', _⟩ := h'
  refine ⟨s, s', _, hrun, ?_, mirroredBooks rep rep' hm.relabeled⟩
  rw [hrun', hr]
  simp [Function.comp_def]

end MatchingEngine
