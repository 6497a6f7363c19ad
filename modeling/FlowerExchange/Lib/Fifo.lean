import Mathlib

@[ext]
structure Fifo (α : Type _) (capacity : Nat) where
  items : List α
  fits  : items.length ≤ capacity

namespace Fifo

variable {α : Type _} {capacity : Nat} {q q' : Fifo α capacity} {x : α}

def empty : Fifo α capacity where
  items := []
  fits  := Nat.zero_le _

def isEmpty (q : Fifo α capacity) : Bool :=
  q.items.isEmpty

def push (q : Fifo α capacity) (x : α) : Option (Fifo α capacity) :=
  if h : q.items.length < capacity
  then some ⟨q.items ++ [x], by simp; omega⟩
  else none

def pop : Fifo α capacity → Option (α × Fifo α capacity)
  | ⟨[], _⟩      => none
  | ⟨x :: xs, h⟩ => some (x, ⟨xs, Nat.le_of_succ_le h⟩)

theorem items_push (h : q.push x = some q') : q'.items = q.items ++ [x] := by
  rw [push] at h
  split at h
  case isTrue  => exact Option.some.inj h ▸ rfl
  case isFalse => contradiction

theorem items_pop (h : q.pop = some (x, q')) : q.items = x :: q'.items := by
  obtain ⟨_ | ⟨y, ys⟩, _⟩ := q
  · contradiction
  · cases h
    rfl

theorem items_pop_none (h : q.pop = none) : q.items = [] := by
  obtain ⟨_ | ⟨y, ys⟩, _⟩ := q
  · rfl
  · contradiction

theorem isEmpty_iff : q.isEmpty ↔ q.items = [] :=
  List.isEmpty_iff

def clear (q : Fifo α capacity) : Fifo α capacity :=
  match _h : q.pop with
  | none         => q
  | some (_, q') => clear q'
termination_by q.items.length
decreasing_by simp [items_pop _h]

theorem items_clear (q : Fifo α capacity) : q.clear.items = [] := by
  induction q using clear.induct
  case case1 q h      => rw [clear]; split <;> simp_all [items_pop_none]
  case case2 q _ _ h hi => rw [clear]; split <;> simp_all

end Fifo

theorem stream_inj {l l' : List α} {rest : List (Option α)}
    (h : l.map some ++ none :: rest = l'.map some ++ [none]) : l = l' ∧ rest = [] := by
  induction l generalizing l' <;> cases l'
  case cons.cons hi _ _ =>
    have ⟨hx, h⟩ := List.cons.inj h
    have ⟨hl, hr⟩ := hi h
    exact ⟨Option.some.inj hx ▸ hl ▸ rfl, hr⟩
  all_goals simp_all
