import FlowerExchange.Common.Memory

namespace RuntimeConfig

def tickSize : ℚ := 1 / 100

def quantityMultiple : Int := 10
def minQuantity : Int := 10
def maxQuantity : Int := 1000

def minValidPrice : ℚ := 0
def orderBookTickCapacity : Nat := 100001
def maxValidTick : Nat := orderBookTickCapacity - 1
def maxValidPrice : ℚ := maxValidTick * tickSize

def orderPoolInitialCapacity : Nat := 65536
def reportPoolInitialCapacity : Nat := 8192

end RuntimeConfig

abbrev PriceTick := Nat

-- The values of type `double`. Arithmetic on them is read as exact.
inductive Double
  | nan
  | posInf
  | negInf
  | finite (q : ℚ)
deriving DecidableEq

namespace Double

def isFinite : Double → Bool
  | finite _ => true
  | _        => false

end Double

inductive Side
  | buy
  | sell
deriving DecidableEq

namespace Side

def toInt : Side → Int
  | buy  => 1
  | sell => 2

def opposite : Side → Side
  | buy  => sell
  | sell => buy

@[simp]
theorem opposite_opposite (s : Side) : s.opposite.opposite = s := by
  cases s <;> rfl

@[simp]
theorem opposite_ne (s : Side) : s.opposite ≠ s := by
  cases s <;> simp [opposite]

theorem ne_opposite (s : Side) : s ≠ s.opposite :=
  s.opposite_ne.symm

theorem eq_or_eq_opposite (s t : Side) : t = s ∨ t = s.opposite := by
  cases s <;> cases t <;> simp [opposite]

def better [LinearOrder P] : Side → P → P → Prop
  | buy  => (· > ·)
  | sell => (· < ·)

instance [LinearOrder P] : (s : Side) → DecidableRel (s.better (P := P))
  | buy  => inferInstanceAs <| DecidableRel (· > ·)
  | sell => inferInstanceAs <| DecidableRel (· < ·)

instance [LinearOrder P] : (s : Side) → IsStrictTotalOrder P s.better
  | buy  => inferInstanceAs <| IsStrictTotalOrder P (· > ·)
  | sell => inferInstanceAs <| IsStrictTotalOrder P (· < ·)

end Side

inductive InstrumentType
  | rose
  | lavender
  | lotus
  | tulip
  | orchid
  | count
deriving DecidableEq

namespace InstrumentType

def toNat : InstrumentType → Nat
  | rose     => 0
  | lavender => 1
  | lotus    => 2
  | tulip    => 3
  | orchid   => 4
  | count    => 5

theorem toNat_lt_iff : (i : InstrumentType) → (i.toNat < 5 ↔ i ≠ count)
  | rose | lavender | lotus | tulip | orchid | count => by decide

end InstrumentType

abbrev Instrument := { i : InstrumentType // i ≠ .count }

inductive ExecStatus
  | new
  | rejected
  | fill
  | pfill
deriving DecidableEq

def validInstrumentNames : List Bytes :=
  [ascii "Rose", ascii "Lavender", ascii "Lotus", ascii "Tulip", ascii "Orchid"]

def instrumentToString : InstrumentType → Bytes
  | .rose     => ascii "Rose"
  | .lavender => ascii "Lavender"
  | .lotus    => ascii "Lotus"
  | .tulip    => ascii "Tulip"
  | .orchid   => ascii "Orchid"
  | .count    => ascii "UNKNOWN"

def execStatusToString : ExecStatus → Bytes
  | .new      => ascii "New"
  | .rejected => ascii "Reject"
  | .fill     => ascii "Fill"
  | .pfill    => ascii "Pfill"

-- `none` is the result `false`, which leaves the output argument as it was.
def parseInstrument (instrument : Bytes) : Option InstrumentType :=
  if instrument = ascii "Rose" then some .rose
  else if instrument = ascii "Lavender" then some .lavender
  else if instrument = ascii "Lotus" then some .lotus
  else if instrument = ascii "Tulip" then some .tulip
  else if instrument = ascii "Orchid" then some .orchid
  else none

theorem execStatusToString_injective : Function.Injective execStatusToString := by
  intro s t
  cases s <;> cases t <;> decide

theorem parseInstrument_ne_count : parseInstrument text ≠ some .count := by
  simp only [parseInstrument]
  repeat' split
  all_goals simp

theorem parseInstrument_eq_some_iff :
    (parseInstrument text = some i) ↔ (text = instrumentToString i ∧ i ≠ .count) := by
  constructor
  · intro h
    refine ⟨?_, fun hc => parseInstrument_ne_count (hc ▸ h)⟩
    simp only [parseInstrument] at h
    repeat' split at h
    all_goals first | contradiction | (cases h; assumption)
  · rintro ⟨rfl, hi⟩
    cases i <;> first | contradiction | decide

theorem parseInstrument_isSome_iff : (parseInstrument text).isSome ↔ text ∈ validInstrumentNames := by
  simp only [parseInstrument, validInstrumentNames, List.mem_cons, List.not_mem_nil, or_false]
  repeat' split
  all_goals simp_all

@[ext]
structure Order where
  oid        : CStr 32
  coid       : CStr 64
  instrument : InstrumentType
  side       : Side
  price      : PriceTick
  quantity   : UInt16
  next       : Option Addr
deriving DecidableEq

namespace Order

instance : Inhabited Order where
  default := ⟨default, default, .count, .buy, 0, 0, none⟩

def new (oid coid : Bytes) (instrument : InstrumentType) (side : Side) (price : PriceTick)
    (quantity : UInt16) : Order where
  oid        := .copy oid
  coid       := .copy coid
  instrument := instrument
  side       := side
  price      := price
  quantity   := quantity
  next       := none

end Order

@[ext]
structure ExecutionReport where
  oid        : CStr 32
  coid       : CStr 64
  instrument : InstrumentType
  side       : Side
  price      : PriceTick
  quantity   : UInt16
  status     : ExecStatus
  reason     : CStr 50
  timestamp  : CStr 20
deriving DecidableEq

namespace ExecutionReport

instance : Inhabited ExecutionReport where
  default := ⟨default, default, .count, .buy, 0, 0, .new, default, default⟩

-- `now` is what `fill_current_timestamp` writes when there is no timestamp text, or an empty one.
def timestampField (timestampText : Option Bytes) (now : CStr 20) : CStr 20 :=
  match timestampText with
  | none => now
  | some text => if text.headD 0 ≠ 0 then .copy text else now

def new (oid coid : Bytes) (instrument : InstrumentType) (side : Side) (price : PriceTick)
    (quantity : UInt16) (status : ExecStatus) (reasonText : Bytes) (timestampText : Option Bytes)
    (now : CStr 20) : ExecutionReport where
  oid        := .copy oid
  coid       := .copy coid
  instrument := instrument
  side       := side
  price      := price
  quantity   := quantity
  status     := status
  reason     := .copy reasonText
  timestamp  := timestampField timestampText now

end ExecutionReport
