import FlowerExchange.Io.IStream
import FlowerExchange.Lib.Machine

def isSpace (c : UInt8) : Bool :=
  c = 32 || 9 ≤ c && c ≤ 13

-- The operator `>>`. The text is empty when there is none.
def extract (text : Bytes) : Bytes × Bytes :=
  let text := text.dropWhile isSpace
  (text.takeWhile (!isSpace ·), text.dropWhile (!isSpace ·))

structure Application where
  input     : IStream
  userInput : Bytes := []

namespace Application

def requested (userInput : Bytes) : Option Bytes :=
  let (command, input) := extract userInput
  let (path, _) := extract input
  if command = ascii "PROCESS" ∧ path ≠ [] then some path else none

-- An iteration, with the path that `process_file` is called with. There is none after `QUIT`.
def step (app : Application) : Option (Application × Option Bytes) :=
  let (input, userInput) := app.input.getline app.userInput
  if userInput = ascii "QUIT" then none else some (⟨input, userInput⟩, requested userInput)

def run (n : Nat) (app : Application) : List Bytes × Bool :=
  let (calls, returned) := Machine.loop step n app
  (calls.reduceOption, returned)

end Application
