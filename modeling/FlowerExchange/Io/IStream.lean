import FlowerExchange.Common.Memory

def getlines : Bytes → List Bytes
  | []      => []
  | c :: cs =>
    if c = 10 then
      [] :: getlines cs
    else
      match getlines cs with
      | []         => [[c]]
      | line :: ls => (c :: line) :: ls

theorem getlines_cons (c : UInt8) (cs : Bytes) :
    getlines (c :: cs) =
      (c :: cs).takeWhile (· ≠ 10) :: getlines ((c :: cs).dropWhile (· ≠ 10)).tail := by
  induction cs generalizing c
  case nil => by_cases hc : c = 10 <;> simp [getlines, hc]
  case cons d cs hi =>
    by_cases hc : c = 10
    case pos => simp [getlines, hc]
    case neg => rw [getlines, if_neg hc, hi]; simp [hc]

theorem getlines_last {line : Bytes} (hn : line ≠ []) (h : 10 ∉ line) : getlines line = [line] := by
  have hl : ∀ c ∈ line, decide (c ≠ 10) = true := fun c hc => by
    simpa using fun he : c = 10 => h (he ▸ hc)
  cases line
  case nil => contradiction
  case cons c cs =>
    rw [getlines_cons, List.takeWhile_eq_self_iff.mpr hl, List.dropWhile_eq_nil_iff.mpr hl]
    rfl

structure IStream where
  rest : Bytes
  eof  : Bool := false
  fail : Bool := false

namespace IStream

def good (stream : IStream) : Bool :=
  !stream.eof && !stream.fail

-- Reads a line into a string, which keeps what it holds when the stream is not good.
def getline (stream : IStream) (line : Bytes) : IStream × Bytes :=
  if !stream.good then
    ({ stream with fail := true }, line)
  else if 10 ∈ stream.rest then
    ({ stream with rest := (stream.rest.dropWhile (· ≠ 10)).tail }, stream.rest.takeWhile (· ≠ 10))
  else
    ({ rest := [], eof := true, fail := stream.rest.isEmpty }, stream.rest)

end IStream
