import FlowerExchange.Lib.Numeral
import FlowerExchange.Common.Types

open Decimal

def intMax : Int := 2147483647

def skipBlanks (sv : Bytes) : Bytes :=
  sv.dropWhile isBlank

def takeSign : Bytes → Bool × Bytes
  | 45 :: sv => (true, sv)
  | 43 :: sv => (false, sv)
  | sv       => (false, sv)

def startsWithDigit (sv : Bytes) : Bool :=
  sv.head?.any isDigit

-- The digits of an integer, and the text behind them. Too large values become `intMax`.
def intDigits : Int → Bytes → Int × Bytes
  | result, [] => (result, [])
  | result, c :: sv =>
    if isDigit c then
      let digit : Int := digitValue c
      if result > (intMax - digit) / 10 then
        (intMax, sv.dropWhile isDigit)
      else
        intDigits (result * 10 + digit) sv
    else
      (result, c :: sv)

def stringViewToInt (sv : Bytes) : Except Fault Int := do
  let sv := skipBlanks sv
  if sv.isEmpty then
    throw .invalidArgument
  let (negative, sv) := takeSign sv
  if !startsWithDigit sv then
    throw .invalidArgument
  let (result, sv) := intDigits 0 sv
  if !(skipBlanks sv).isEmpty then
    throw .invalidArgument
  return if negative then -result else result

def wholeDigits : ℚ → Bytes → ℚ × Bytes
  | value, [] => (value, [])
  | value, c :: sv =>
    if isDigit c then wholeDigits (value * 10 + digitValue c) sv else (value, c :: sv)

def fractionDigits : ℚ → ℚ → Bytes → ℚ × Bytes
  | value, _, [] => (value, [])
  | value, place, c :: sv =>
    if isDigit c
    then fractionDigits (value + digitValue c * place) (place * (1 / 10)) sv
    else (value, c :: sv)

def exponentDigits : Int → Bytes → Int × Bytes
  | exponent, [] => (exponent, [])
  | exponent, c :: sv =>
    if isDigit c then
      let digit : Int := digitValue c
      if exponent ≤ (intMax - digit) / 10
      then exponentDigits (exponent * 10 + digit) sv
      else exponentDigits intMax sv
    else
      (exponent, c :: sv)

def mantissa (sv : Bytes) : ℚ × Bool × Bytes :=
  let (value, rest) := wholeDigits 0 sv
  match rest with
  | 46 :: rest =>
    let (value, rest') := fractionDigits value (1 / 10) rest
    (value, startsWithDigit sv || startsWithDigit rest, rest')
  | _ => (value, startsWithDigit sv, rest)

def applyExponent (value : ℚ) : Bytes → Except Fault (ℚ × Bytes)
  | [] => return (value, [])
  | c :: sv => do
    if c = 101 ∨ c = 69 then
      let (expNegative, sv) := takeSign sv
      if !startsWithDigit sv then
        throw .invalidArgument
      let (exponent, sv) := exponentDigits 0 sv
      let signedExponent := if expNegative then -exponent else exponent
      return (value * (10 : ℚ) ^ signedExponent, sv)
    else
      return (value, c :: sv)

def stringViewToDouble (sv : Bytes) : Except Fault Double := do
  let sv := skipBlanks sv
  if sv.isEmpty then
    throw .invalidArgument
  let (negative, sv) := takeSign sv
  let (value, hasDigit, sv) := mantissa sv
  if !hasDigit then
    throw .invalidArgument
  let (value, sv) ← applyExponent value sv
  if !(skipBlanks sv).isEmpty then
    throw .invalidArgument
  return .finite (if negative then -value else value)
