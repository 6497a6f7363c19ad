import FlowerExchange.Matching.OrderProcessor
import FlowerExchange.Matching.Theorems.MatchingEngine

open RuntimeConfig

@[ext]
structure Placement where
  instrument    : Instrument
  side          : Side
  price         : ℚ
  quantity      : Nat
  pricePos      : 0 < price
  priceLe       : price ≤ 1000
  quantityDvd   : 10 ∣ quantity
  quantityPos   : 0 < quantity
  quantityLe    : quantity ≤ 1000
deriving DecidableEq

def Placement.tick (p : Placement) : Nat :=
  (roundHalfAway <| p.price * 100).toNat

def Double.value : Double → ℚ
  | finite q => q
  | _        => 0

namespace InboundOrderMsg

def instrumentType (message : InboundOrderMsg) : InstrumentType :=
  (parseInstrument message.instrument.text).getD .count

def validate (message : InboundOrderMsg) : Option Bytes :=
  validateOrder message.instrumentType message.side message.price message.quantity

def validPlacement (message : InboundOrderMsg) (h : message.validate = none) : Placement where
  instrument  := ⟨message.instrumentType, validateOrder_eq_none_iff.mp h |>.left⟩
  side        := if message.side = Side.buy.toInt then .buy else .sell
  price       := message.price.value
  quantity    := message.quantity.toNat
  pricePos    := by
    have ⟨_, _, _, _, hp, h, _⟩ := validateOrder_eq_none_iff.mp h
    rwa [hp]
  priceLe     := by
    have ⟨_, _, _, _, hp, _, h⟩ := validateOrder_eq_none_iff.mp h
    rwa [hp]
  quantityDvd := by
    have ⟨_, _, ⟨h, _, _⟩, _⟩ := validateOrder_eq_none_iff.mp h
    omega
  quantityPos := by
    have ⟨_, _, ⟨_, h, _⟩, _⟩ := validateOrder_eq_none_iff.mp h
    omega
  quantityLe  := by
    have ⟨_, _, ⟨_, _, h⟩, _⟩ := validateOrder_eq_none_iff.mp h
    omega

def placement (message : InboundOrderMsg) : Except Bytes Placement :=
  match h : message.validate with
  | some reason => .error reason
  | none        => .ok (message.validPlacement h)

def ids (message : InboundOrderMsg) (n : Nat) : OrderIds where
  oid  := .copy <| formatOrderId 32 (.ofNat (n + 1))
  coid := message.coid

def rejection (message : InboundOrderMsg) (n : Nat) (reason : Bytes) (timestamp : CStr 20) :
    ExecutionReport where
  oid        := (message.ids n).oid
  coid       := message.coid
  instrument := .count
  side       := if message.side = Side.sell.toInt then .sell else .buy
  price      := 0
  quantity   := .ofNat message.quantity.toNat
  status     := .rejected
  reason     := .copy reason
  timestamp  := timestamp

variable {message : InboundOrderMsg} {p : Placement} {reason : Bytes}

theorem placement_eq_error_iff :
    (message.placement = .error reason) ↔ message.validate = some reason := by
  rw [placement]
  split <;> simp_all

theorem validate_of_placement (h : message.placement = .ok p) : message.validate = none := by
  cases hv : message.validate
  case none => rfl
  case some reason => simp [placement_eq_error_iff.mpr hv] at h

theorem placement_eq_ok_iff : (message.placement = .ok p) ↔
    (p.instrument = message.instrumentType) ∧ (p.side.toInt = message.side) ∧
      (message.price = .finite p.price) ∧ ((p.quantity : Int) = message.quantity) := by
  constructor
  · intro h
    have hv := validate_of_placement h
    obtain ⟨_, ⟨s, hs⟩, ⟨_, hq, _⟩, ⟨_, hp, _⟩⟩ := validateOrder_eq_none_iff.mp hv
    rw [placement] at h
    split at h
    case h_1 => contradiction
    case h_2 =>
      cases h
      refine ⟨rfl, ?_, ?_, ?_⟩
      · cases s <;> simp [validPlacement, hs, Side.toInt]
      · simp [validPlacement, hp, Double.value]
      · simp only [validPlacement]
        omega
  · rintro ⟨hi, hs, hp, hq⟩
    have hv : message.validate = none := by
      have hd : (10 : Int) ∣ p.quantity := by exact_mod_cast p.quantityDvd
      have := p.quantityPos
      have := p.quantityLe
      exact validateOrder_eq_none_iff.mpr ⟨hi ▸ p.instrument.property, ⟨p.side, hs.symm⟩,
        hq ▸ ⟨hd, by omega, by omega⟩, p.price, hp, p.pricePos, p.priceLe⟩
    rw [placement]
    split
    case h_1 reason h => cases hv.symm.trans h
    case h_2 =>
      refine congrArg Except.ok <| Placement.ext ?_ ?_ ?_ ?_
      · exact Subtype.ext hi.symm
      · cases hside : p.side <;> simp [validPlacement, ← hs, hside, Side.toInt]
      · simp [validPlacement, hp, Double.value]
      · simp only [validPlacement]
        omega

alias ⟨placement_eq_ok, _⟩ := placement_eq_ok_iff

end InboundOrderMsg

-- The markets for all instruments, in which the orders of the accepted messages are placed. The clock
-- of the market counts the messages.
abbrev Exchange := Market Instrument Nat OrderIds

namespace Exchange

def place (x : Exchange) (message : InboundOrderMsg) (p : Placement) : Exchange :=
  x.submit p.side p.instrument p.tick p.quantity (message.ids x.now)

def placeReports (x : Exchange) (message : InboundOrderMsg) (p : Placement) (timestamp : CStr 20) :
    List ExecutionReport :=
  x.reports p.side p.instrument p.tick p.quantity (message.ids x.now) timestamp

def step (unspecified : ℚ → Int64) (x : Exchange) : OrderProcessor.Event → Exchange × List Emission
  | .reset => (.empty, [])
  | .consume a =>
    match a.message.placement with
    | .error reason =>
      (x.skip, [a.message.rejectEmission unspecified <| a.message.rejection x.now reason a.time])
    | .ok p => (x.place a.message p, (x.placeReports a.message p a.time).map a.message.reportEmission)

variable {x : Exchange} {a : Arrival}

theorem place_resting (message : InboundOrderMsg) (p : Placement) :
    (x.place message p).resting =
      x.restingAfter p.side p.instrument p.tick p.quantity (message.ids x.now) :=
  rfl

theorem step_reject (h : a.message.placement = .error reason) :
    x.step unspecified (.consume a) =
      (x.skip, [a.message.rejectEmission unspecified <| a.message.rejection x.now reason a.time]) := by
  simp [step, h]

theorem step_accept (h : a.message.placement = .ok p) :
    x.step unspecified (.consume a) =
      (x.place a.message p, (x.placeReports a.message p a.time).map a.message.reportEmission) := by
  simp [step, h]

end Exchange
