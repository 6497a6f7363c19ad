import FlowerExchange.Matching.History

def ExecutionReport.untimed (report : ExecutionReport) : ExecutionReport :=
  { report with timestamp := default }

def OutboundReportMsg.untimed (message : OutboundReportMsg) : OutboundReportMsg :=
  { message with timestamp := default, timestampLen := 0 }

def Emission.untimed (emission : Emission) : Emission where
  report := emission.report.untimed
  output := emission.output.untimed

def Record.untimed (r : Record) : Record :=
  { r with emission := r.emission.untimed }

def ExecutionReport.withOid (oid : CStr 32) (report : ExecutionReport) : ExecutionReport :=
  { report with oid := oid }

def OutboundReportMsg.withOid (oid : CStr 32) (message : OutboundReportMsg) : OutboundReportMsg :=
  { message with oid := oid, oidLen := .ofNat oid.text.length }

def Emission.withOid (oid : CStr 32) (emission : Emission) : Emission where
  report := emission.report.withOid oid
  output := emission.output.withOid oid

def OrderIds.withOid (oid : CStr 32) (ids : OrderIds) : OrderIds :=
  { ids with oid := oid }

def oidAt (k : Nat) : CStr 32 :=
  .copy <| formatOrderId 32 (.ofNat (k + 1))

def Record.renumber (number : Nat → Nat) (r : Record) : Record where
  owner    := number r.owner
  emission := r.emission.withOid <| oidAt (number r.owner)

def Arrival.places (i : Instrument) (a : Arrival) : Bool :=
  match a.message.placement with
  | .ok p    => p.instrument = i
  | .error _ => false

-- The number of a message when only those are counted that are accepted on the instrument.
def rank (i : Instrument) (arrivals : List Arrival) (k : Nat) : Nat :=
  (arrivals.take k).countP (Arrival.places i)

def recordsOn (i : Instrument) (arrivals : List Arrival) (records : List Record) : List Record :=
  records.filter fun r => arrivals[r.owner]?.any (Arrival.places i)

namespace Arrival

variable {i : Instrument} {a : Arrival} {p : Placement}

theorem places_of_ok (h : a.message.placement = .ok p) : a.places i ↔ p.instrument = i := by
  simp [places, h]

theorem places_of_error (h : a.message.placement = .error reason) : a.places i = false := by
  simp [places, h]

end Arrival

section

variable {i : Instrument} {arrivals : List Arrival} {a : Arrival} {j k : Nat}

theorem rank_append (h : k ≤ arrivals.length) : rank i (arrivals ++ l) k = rank i arrivals k := by
  rw [rank, List.take_append_of_le_length h, rank]

theorem rank_length : rank i arrivals arrivals.length = (arrivals.filter (Arrival.places i)).length := by
  rw [rank, List.take_length, List.countP_eq_length_filter]

theorem rank_mono : Monotone (rank i arrivals) :=
  fun _ _ h => List.Sublist.countP_le (List.take_sublist_take_left h)

theorem rank_succ (h : arrivals[k]? = some a) (ha : a.places i) :
    rank i arrivals (k + 1) = rank i arrivals k + 1 := by
  simp [rank, List.take_add_one, h, ha]

theorem rank_lt (h : arrivals[j]? = some a) (ha : a.places i) (hj : j < k) :
    rank i arrivals j < rank i arrivals k :=
  calc
    rank i arrivals j < rank i arrivals (j + 1) := rank_succ h ha ▸ Nat.lt_succ_self _
    _ ≤ rank i arrivals k                       := rank_mono hj

end
