import FlowerExchange.Lib.Ledger
import FlowerExchange.Lib.Machine
import FlowerExchange.Matching.Exchange

def ExecutionReport.isTrade (report : ExecutionReport) : Bool :=
  report.status = .fill || report.status = .pfill

structure Record where
  owner    : Nat
  emission : Emission
deriving DecidableEq

def Record.status (r : Record) : ExecStatus :=
  r.emission.report.status

-- A report about a trade draws on the quantity of its order. The order is filled by the last one.
def Record.entry? (r : Record) : Option (Entry Nat) :=
  if r.emission.report.isTrade
  then some ⟨r.owner, r.emission.report.quantity.toNat, r.status = .fill⟩
  else none

def ownedReports (k : Nat) (ids : OrderIds) (i : Instrument) (side : Side) (timestamp : CStr 20) :
    Nat → List (Resting Nat OrderIds × Nat) → List (Nat × ExecutionReport)
  | _, []          => []
  | q, (r, n) :: l =>
    (k, ids.report i side r.price n (tradeStatus (q - n)) timestamp) ::
    (r.stamp, r.data.report i side.opposite r.price n (tradeStatus (r.quantity - n)) timestamp) ::
    ownedReports k ids i side timestamp (q - n) l

namespace Exchange

def placeTrades (x : Exchange) (p : Placement) : List (Resting Nat OrderIds × Nat) :=
  x.trades p.side p.instrument p.tick p.quantity

def placeOwned (x : Exchange) (message : InboundOrderMsg) (p : Placement) (timestamp : CStr 20) :
    List (Nat × ExecutionReport) :=
  let ids := message.ids x.now
  ownedReports x.now ids p.instrument p.side timestamp p.quantity (x.placeTrades p) ++
    if x.placeTrades p = []
    then [(x.now, ids.report p.instrument p.side p.tick p.quantity .new timestamp)]
    else []

def records (unspecified : ℚ → Int64) (x : Exchange) (a : Arrival) : List Record :=
  match a.message.placement with
  | .error reason =>
    [⟨x.now, a.message.rejectEmission unspecified <| a.message.rejection x.now reason a.time⟩]
  | .ok p =>
    x.placeOwned a.message p a.time |>.map fun (j, report) => ⟨j, a.message.reportEmission report⟩

def recordStep (unspecified : ℚ → Int64) (x : Exchange) (a : Arrival) : Exchange × List Record :=
  ((x.step unspecified (.consume a)).1, x.records unspecified a)

def history (unspecified : ℚ → Int64) (arrivals : List Arrival) : Exchange × List (List Record) :=
  Machine.exec (recordStep unspecified) arrivals .empty

variable {x : Exchange} {a : Arrival} {p : Placement}

theorem map_ownedReports (k ids i side timestamp q l) :
    (ownedReports k ids i side timestamp q l).map Prod.snd =
      (tradeReports ids i side timestamp q l).flatMap fun x => [x.1, x.2] := by
  induction l generalizing q
  case nil => rfl
  case cons hi => simp [ownedReports, tradeReports, hi]

theorem map_placeOwned (message : InboundOrderMsg) (timestamp : CStr 20) :
    (x.placeOwned message p timestamp).map Prod.snd = x.placeReports message p timestamp := by
  rw [placeOwned, List.map_append, map_ownedReports]
  by_cases h : x.placeTrades p = []
  all_goals
    have h' := h
    rw [placeTrades] at h'
    simp [placeReports, Market.reports, placeTrades, h']

theorem records_reject (h : a.message.placement = .error reason) :
    x.records unspecified a = [⟨x.now,
      a.message.rejectEmission unspecified <| a.message.rejection x.now reason a.time⟩] := by
  simp [records, h]

theorem records_accept (h : a.message.placement = .ok p) :
    x.records unspecified a = (x.placeOwned a.message p a.time).map fun (j, report) =>
      ⟨j, a.message.reportEmission report⟩ := by
  simp [records, h]

theorem map_records : (x.records unspecified a).map Record.emission =
    (x.step unspecified (.consume a)).2 := by
  cases h : a.message.placement
  case error => simp [records_reject h, step_reject h]
  case ok p  => simp [records_accept h, step_accept h, ← map_placeOwned]

theorem history_exec (arrivals : List Arrival) :
    Machine.exec (step unspecified) (arrivals.map .consume) .empty =
      ((history unspecified arrivals).1,
        (history unspecified arrivals).2.map (·.map Record.emission)) := by
  rw [history]
  generalize (Market.empty : Exchange) = x
  induction arrivals generalizing x
  case nil => rfl
  case cons hi => simp [recordStep, map_records, hi]

theorem history_snoc (arrivals : List Arrival) (a : Arrival) :
    history unspecified (arrivals ++ [a]) =
      (((history unspecified arrivals).1.step unspecified (.consume a)).1,
        (history unspecified arrivals).2 ++ [(history unspecified arrivals).1.records unspecified a]) :=
  Machine.exec_snoc

end Exchange
