import FlowerExchange.Lib.Decimal

-- The ways in which a step of the program can go wrong: the exceptions that the source throws, and
-- the memory errors that it does not check for.
inductive Fault
  | invalidArgument
  | outOfRange
  | foreignPointer
  | doubleFree
  | nullPointer
  | badAddress
  | useAfterFree
  | indexOutOfBounds
  | diverges
deriving DecidableEq

namespace Except

@[simp]
theorem ok_bind (x : α) (f : α → Except ε β) : (ok x >>= f) = f x :=
  rfl

@[simp]
theorem pure_eq_ok (x : α) : (pure x : Except ε α) = ok x :=
  rfl

theorem bind_eq_ok {x : Except ε α} {f : α → Except ε β} (h : (x >>= f) = ok y) :
    ∃ a, x = ok a ∧ f a = ok y := by
  cases x
  case error => contradiction
  case ok a  => exact ⟨a, rfl, h⟩

end Except

-- The address of an object: the memory chunk in which it lies, and its offset there in bytes.
@[ext]
structure Addr where
  chunk  : Nat
  offset : Nat
deriving DecidableEq

-- An access to an element of an array or a vector, which the source does not check.
def elementAt (xs : List α) (i : Nat) : Except Fault α :=
  match xs[i]? with
  | some x => .ok x
  | none   => .error .indexOutOfBounds

def setElementAt (xs : List α) (i : Nat) (x : α) : Except Fault (List α) :=
  if i < xs.length then .ok (xs.set i x) else .error .indexOutOfBounds

theorem elementAt_eq (h : xs[i]? = some x) : elementAt xs i = .ok x := by
  simp [elementAt, h]

theorem setElementAt_eq (h : i < xs.length) : setElementAt xs i x = .ok (xs.set i x) := by
  simp [setElementAt, h]

abbrev Bytes := List UInt8

def ascii (s : String) : Bytes :=
  s.toList.map fun c => UInt8.ofNat c.toNat

-- The copy loops of the source: they stop at the terminator of `source`, and at `maxCopy` bytes.
def copyLoop : Bytes → Nat → Bytes
  | [], _ | _, 0     => []
  | c :: cs, maxCopy + 1 => if c = 0 then [] else c :: copyLoop cs maxCopy

theorem copyLoop_eq (source : Bytes) (n : Nat) :
    copyLoop source n = (source.takeWhile (· ≠ 0)).take n := by
  induction source generalizing n
  case nil => simp [copyLoop]
  case cons c _ hi =>
    cases n
    case zero => simp [copyLoop]
    case succ =>
      by_cases h : c = 0
      · simp [copyLoop, h]
      · simp [copyLoop, h, hi]

-- A NUL-terminated text that is stored in an array of `n` chars.
@[ext]
structure CStr (n : Nat) where
  text  : Bytes
  fits  : text.length < n
  noNul : 0 ∉ text
deriving DecidableEq

namespace CStr

def copy {n : Nat} (source : Bytes) : CStr (n + 1) where
  text  := copyLoop source n
  fits  := by simp [copyLoop_eq]
  noNul := by
    intro h
    rw [copyLoop_eq] at h
    simpa using List.mem_takeWhile_imp <| List.mem_of_mem_take h

instance : Inhabited (CStr (n + 1)) where
  default := copy []

theorem copy_text (s : CStr (n + 1)) : copy s.text = s := by
  have ht : s.text.takeWhile (· ≠ 0) = s.text :=
    List.takeWhile_eq_self_iff.mpr fun c hc => by
      simp only [decide_eq_true_eq]
      exact fun h => s.noNul (h ▸ hc)
  ext1
  have hf := s.fits
  simp only [copy, copyLoop_eq, ht]
  exact List.take_of_length_le (by omega)

theorem copy_of_fits {n : Nat} {text : Bytes} (h : text.length < n + 1) (hn : 0 ∉ text) :
    (copy text : CStr (n + 1)).text = text :=
  congrArg CStr.text <| copy_text ⟨text, h, hn⟩

end CStr
