import FlowerExchange.Io.IStream

def castInt (n : Nat) : Int :=
  (n : Int).bmod 4294967296

structure CSVRow where
  line           : Bytes
  fieldPositions : List Int
deriving DecidableEq

namespace CSVRow

def commaPositions (pos : Nat) : Bytes → List Int
  | []      => []
  | c :: cs => if c = 44 then castInt pos :: commaPositions (pos + 1) cs else commaPositions (pos + 1) cs

def dropCarriageReturn (line : Bytes) : Bytes :=
  if line.getLast? = some 13 then line.dropLast else line

def ofLine (line : Bytes) : CSVRow where
  line           := dropCarriageReturn line
  fieldPositions :=
    -1 :: commaPositions 0 (dropCarriageReturn line) ++ [castInt (dropCarriageReturn line).length]

def size (row : CSVRow) : Nat :=
  row.fieldPositions.length - 1

-- The operator `[]`. A view that does not lie within the line is a fault.
def field (row : CSVRow) (index : Nat) : Except Fault Bytes := do
  if index ≥ row.size then
    throw .outOfRange
  let first := (← elementAt row.fieldPositions index) + 1
  let last ← elementAt row.fieldPositions (index + 1)
  if 0 ≤ first ∧ first ≤ last ∧ last ≤ row.line.length then
    return (row.line.drop first.toNat).take (last - first).toNat
  else
    throw .indexOutOfBounds

end CSVRow

def csvRange (stream : Bytes) : List CSVRow :=
  (getlines stream).map CSVRow.ofLine

def CSVRow.readNextRow (row : CSVRow) (stream : IStream) : IStream × CSVRow :=
  let (stream, line) := stream.getline row.line
  (stream, ofLine line)

-- An iterator has a pointer to the stream until a read has failed.
structure CSVIterator where
  stream : Option IStream
  row    : CSVRow

namespace CSVIterator

def next (it : CSVIterator) : CSVIterator :=
  match it.stream with
  | none => it
  | some stream =>
    let (stream, row) := it.row.readNextRow stream
    { stream := if stream.fail then none else some stream, row := row }

def ofStream (stream : IStream) : CSVIterator :=
  next { stream := if stream.good then some stream else none, row := ⟨[], []⟩ }

def sentinel : CSVIterator where
  stream := none
  row    := ⟨[], []⟩

def equal (it rhs : CSVIterator) : Bool :=
  it.stream.isNone && rhs.stream.isNone

def step (it : CSVIterator) : Option (CSVIterator × CSVRow) :=
  if it.equal sentinel then none else some (it.next, it.row)

end CSVIterator
