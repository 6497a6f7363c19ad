import FlowerExchange.Common.Parsing

open Decimal

inductive Trap
  | fault (fault : Fault)
  | overflow
deriving DecidableEq

-- The functions that read numbers once more, with the cursor of the source and with arithmetic on values
-- of type `int`. An access to a character takes a proof that it lies in the text.
namespace Cursor

def toInt (n : Int) : Except Trap Int :=
  if -intMax - 1 ≤ n ∧ n ≤ intMax then .ok n else .error .overflow

def isAt (p : UInt8 → Bool) (sv : Bytes) (i : Nat) : Bool :=
  if h : i < sv.length then p sv[i] else false

def skipWhile (p : UInt8 → Bool) (sv : Bytes) (i : Nat) : Nat :=
  if h : i < sv.length then
    if p sv[i] then skipWhile p sv (i + 1) else i
  else
    i
termination_by sv.length - i

def signAt (sv : Bytes) (i : Nat) (h : i < sv.length) : Bool × Nat :=
  (sv[i] = 45, if sv[i] = 45 ∨ sv[i] = 43 then i + 1 else i)

-- The inner loop over the digits that a value which is too large does not take in.
def lastDigit (sv : Bytes) (i : Nat) : Nat :=
  if h : i + 1 < sv.length then
    if isDigit sv[i + 1] then lastDigit sv (i + 1) else i
  else
    i
termination_by sv.length - i

def intLoop (sv : Bytes) (i : Nat) (result : Int) : Except Trap (Nat × Int) :=
  if h : i < sv.length then
    if isDigit sv[i] then do
      let digit ← toInt (sv[i].toNat - 48)
      let room ← toInt (intMax - digit)
      if result > room / 10 then
        return (lastDigit sv i + 1, intMax)
      else do
        let product ← toInt (result * 10)
        let result ← toInt (product + digit)
        intLoop sv (i + 1) result
    else
      return (i, result)
  else
    return (i, result)
termination_by sv.length - i

def stringViewToInt (sv : Bytes) : Except Trap Int :=
  if sv.isEmpty then
    throw (.fault .invalidArgument)
  else if h : skipWhile isBlank sv 0 < sv.length then
    let (negative, i) := signAt sv (skipWhile isBlank sv 0) h
    if !isAt isDigit sv i then
      throw (.fault .invalidArgument)
    else do
      let (i, result) ← intLoop sv i 0
      if skipWhile isBlank sv i ≠ sv.length then
        throw (.fault .invalidArgument)
      else if negative then
        toInt (-result)
      else
        return result
  else
    throw (.fault .invalidArgument)

def wholeLoop (sv : Bytes) (i : Nat) (hasDigit : Bool) (value : ℚ) : Nat × Bool × ℚ :=
  if h : i < sv.length then
    if isDigit sv[i]
    then wholeLoop sv (i + 1) true (value * 10 + digitValue sv[i])
    else (i, hasDigit, value)
  else
    (i, hasDigit, value)
termination_by sv.length - i

def fractionLoop (sv : Bytes) (i : Nat) (hasDigit : Bool) (value place : ℚ) : Nat × Bool × ℚ :=
  if h : i < sv.length then
    if isDigit sv[i]
    then fractionLoop sv (i + 1) true (value + digitValue sv[i] * place) (place * (1 / 10))
    else (i, hasDigit, value)
  else
    (i, hasDigit, value)
termination_by sv.length - i

def exponentLoop (sv : Bytes) (i : Nat) (exponent : Int) : Except Trap (Nat × Int) :=
  if h : i < sv.length then
    if isDigit sv[i] then do
      let digit ← toInt (sv[i].toNat - 48)
      let room ← toInt (intMax - digit)
      if exponent ≤ room / 10 then do
        let product ← toInt (exponent * 10)
        let exponent ← toInt (product + digit)
        exponentLoop sv (i + 1) exponent
      else
        exponentLoop sv (i + 1) intMax
    else
      return (i, exponent)
  else
    return (i, exponent)
termination_by sv.length - i

def exponentPart (sv : Bytes) (i : Nat) (value : ℚ) : Except Trap (Nat × ℚ) :=
  let (expNegative, i) := if h : i < sv.length then signAt sv i h else (false, i)
  if !isAt isDigit sv i then
    throw (.fault .invalidArgument)
  else do
    let (i, exponent) ← exponentLoop sv i 0
    let signedExponent ← if expNegative then toInt (-exponent) else pure exponent
    return (i, value * (10 : ℚ) ^ signedExponent)

def applyExponent (sv : Bytes) (i : Nat) (value : ℚ) : Except Trap (Nat × ℚ) :=
  if isAt (fun c => c = 101 || c = 69) sv i then exponentPart sv (i + 1) value else return (i, value)

def mantissa (sv : Bytes) (i : Nat) : Nat × Bool × ℚ :=
  let (i, hasDigit, value) := wholeLoop sv i false 0
  if isAt (· = 46) sv i then fractionLoop sv (i + 1) hasDigit value (1 / 10) else (i, hasDigit, value)

def stringViewToDouble (sv : Bytes) : Except Trap Double :=
  if sv.isEmpty then
    throw (.fault .invalidArgument)
  else if h : skipWhile isBlank sv 0 < sv.length then
    let (negative, i) := signAt sv (skipWhile isBlank sv 0) h
    let (i, hasDigit, value) := mantissa sv i
    if !hasDigit then
      throw (.fault .invalidArgument)
    else do
      let (i, value) ← applyExponent sv i value
      if skipWhile isBlank sv i ≠ sv.length then
        throw (.fault .invalidArgument)
      else
        return .finite (if negative then -value else value)
  else
    throw (.fault .invalidArgument)

end Cursor
