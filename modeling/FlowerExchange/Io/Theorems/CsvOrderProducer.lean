import FlowerExchange.Io.CsvOrderProducer

namespace CsvOrderProducer

-- The rows of a file that are orders: the ones after the first line that have all the fields. There are
-- none when the file could not be opened.
def orderRows : Option InputFile → List CSVRow
  | none      => []
  | some file => (csvRange file.bytes).tail.filter (5 ≤ ·.size)

def messages (sequence : UInt64) : List CSVRow → Except Fault (List InboundOrderMsg)
  | []          => return []
  | row :: rows => return (← message row sequence) :: (← messages (sequence + 1) rows)

def fileMessages (file : Option InputFile) : Except Fault (List InboundOrderMsg) :=
  messages 1 (orderRows file)

theorem messages_cons_inv {sequence : UInt64} (h : messages sequence (row :: rows) = .ok ms) :
    ∃ m ms', message row sequence = .ok m ∧ messages (sequence + 1) rows = .ok ms' ∧ ms = m :: ms' := by
  obtain ⟨m, hm, h⟩ := Except.bind_eq_ok h
  obtain ⟨ms', hms, h⟩ := Except.bind_eq_ok h
  cases h
  exact ⟨m, ms', hm, hms, rfl⟩

theorem length_messages {sequence : UInt64} (h : messages sequence rows = .ok ms) :
    ms.length = rows.length := by
  induction rows generalizing sequence ms
  case nil =>
    cases h
    rfl
  case cons hi =>
    obtain ⟨m, ms', hm, hms, rfl⟩ := messages_cons_inv h
    simp [hi hms]

theorem length_getlines_le (stream : Bytes) : (getlines stream).length ≤ stream.length := by
  induction stream
  case nil => rfl
  case cons c cs hi =>
    simp only [getlines]
    split
    case isTrue => simpa using hi
    case isFalse =>
      split
      case h_1        => simp
      case h_2 _ _ hl =>
        rw [hl] at hi
        exact Nat.le_succ_of_le hi

theorem length_orderRows_lt (file : Option InputFile) : (orderRows file).length < 2 ^ 63 := by
  cases file
  case none => decide
  case some file =>
    have h₁ := List.length_filter_le (5 ≤ ·.size) (csvRange file.bytes).tail
    have h₂ := length_getlines_le file.bytes
    have h₃ := file.fits
    rw [List.length_tail, csvRange, List.length_map] at h₁
    rw [orderRows, csvRange]
    omega

inductive Offers (total : UInt64) (state : PipelineState) :
    CsvOrderProducer → List (Option InboundOrderMsg) → Prop
  | start : (fileMessages file = .ok ms) → (.ofNat ms.length = total) →
    (state.producedOrders = 0) → Offers total state (.start file) (ms.map some ++ [none])
  | read {sequence : UInt64} : (messages sequence (rows.filter (5 ≤ ·.size)) = .ok ms) →
    (produced + .ofNat ms.length = total) →
    Offers total state (.read rows sequence produced) (ms.map some ++ [none])
  | push {sequence : UInt64} : (messages sequence (rows.filter (5 ≤ ·.size)) = .ok ms) →
    (produced + .ofNat ms.length = total) →
    Offers total state (.push m rows sequence produced) (some m :: (ms.map some ++ [none]))
  | publishEndOfStream : (produced.getD state.producedOrders = total) →
    Offers total state (.publishEndOfStream produced) [none]
  | storeProduced : Offers total state (.storeProduced total) []
  | storeDone : (state.producedOrders = total) → Offers total state .storeDone []
  | ended : (state.producedOrders = total) → Offers total state .ended []

variable {m n : Nat} {shared shared' : Shared m n} {state state' : PipelineState} {total : UInt64}
variable {t t' : CsvOrderProducer} {offered : List (Option InboundOrderMsg)}

theorem Offers.congr (h : Offers total state t offered)
    (hs : state'.producedOrders = state.producedOrders) : Offers total state' t offered := by
  cases h
  case start hm hn hp        => exact .start hm hn (hs ▸ hp)
  case read hm hn            => exact .read hm hn
  case push hm hn            => exact .push hm hn
  case publishEndOfStream hp => exact .publishEndOfStream (hs ▸ hp)
  case storeProduced         => exact .storeProduced
  case storeDone hp          => exact .storeDone (hs ▸ hp)
  case ended hp              => exact .ended (hs ▸ hp)

theorem step_offers (h : Offers total shared.state t offered)
    (hs : t.step shared = some (t', shared')) : ∃ offered',
      Offers total shared'.state t' offered' ∧
      (shared'.inbound.items ++ offered' = shared.inbound.items ++ offered) ∧
      (shared'.outbound = shared.outbound) ∧
      (shared'.state.matcherDone = shared.state.matcherDone) ∧
      (shared'.state.consumedOrders = shared.state.consumedOrders) := by
  cases h
  case start file ms hm hn hp =>
    cases file <;> cases hs
    case none =>
      cases hm
      exact ⟨_, .publishEndOfStream (by simp [hp, ← hn]), rfl, rfl, rfl, rfl⟩
    case some =>
      exact ⟨_, .read hm (by simp [hn]), rfl, rfl, rfl, rfl⟩
  case read ms produced rows sequence hm hn =>
    cases rows
    case nil =>
      cases hs
      cases hm
      exact ⟨_, .publishEndOfStream (by simpa using hn), rfl, rfl, rfl, rfl⟩
    case cons row rows =>
      simp only [step] at hs
      split at hs
      case isTrue hsize =>
        cases hs
        rw [List.filter_cons_of_neg (by simpa using hsize)] at hm
        exact ⟨_, .read hm hn, rfl, rfl, rfl, rfl⟩
      case isFalse hsize =>
        rw [List.filter_cons_of_pos (by simpa using hsize)] at hm
        obtain ⟨m, ms', hr, hms, rfl⟩ := messages_cons_inv hm
        simp only [hr] at hs
        cases hs
        refine ⟨_, .push hms ?_, rfl, rfl, rfl, rfl⟩
        rw [← hn, List.length_cons, UInt64.ofNat_add, UInt64.add_assoc, UInt64.add_comm 1]
        rfl
  case push hm hn =>
    obtain ⟨inbound, hp, hs⟩ := Option.bind_eq_some_iff.mp hs
    cases hs
    exact ⟨_, .read hm hn, by simp [Fifo.items_push hp], rfl, rfl, rfl⟩
  case publishEndOfStream produced hn =>
    obtain ⟨inbound, hp, hs⟩ := Option.bind_eq_some_iff.mp hs
    cases hs
    refine ⟨[], ?_, by simp [Fifo.items_push hp], rfl, rfl, rfl⟩
    cases produced
    case none => exact .storeDone hn
    case some => exact hn ▸ .storeProduced
  case storeProduced =>
    cases hs
    exact ⟨_, .storeDone rfl, rfl, rfl, rfl, rfl⟩
  case storeDone hp =>
    cases hs
    exact ⟨_, .ended hp, rfl, rfl, rfl, rfl⟩
  case ended => contradiction

end CsvOrderProducer
