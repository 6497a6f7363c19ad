import FlowerExchange.Common.Timestamp
import FlowerExchange.Lib.Lock

inductive Agent (ρ : Type)
  | owner
  | worker
  | reader (r : ρ)
deriving DecidableEq

inductive RefreshLocation
  | fill
  | lock (next : Bytes)
  | copy (next : Bytes) (i : Nat)
  | unlock

-- Where the worker is in its loop. When it has ended it can still be joined.
inductive WorkerLocation
  | load
  | refresh (l : RefreshLocation)
  | sleep
  | ended

-- Where the owner is in `start` or `stop`. The destructor stops the worker, too.
inductive OwnerLocation
  | idle
  | start
  | refresh (l : RefreshLocation)
  | spawn
  | stop (destroying : Bool)
  | join (destroying : Bool)
  | destroyed
  | terminated

-- Where a thread is in `snapshot`, with what the array held when it was called and what it holds now.
inductive SnapshotLocation
  | idle
  | lock (given : Bytes)
  | copy (given out : Bytes) (i : Nat)
  | terminate (given out : Bytes)
  | unlock (given out : Bytes)

structure TimestampCache (ρ : Type) where
  mutex            : Option (Agent ρ) := none
  currentTimestamp : Bytes := List.replicate 20 0
  running          : Bool := false
  worker           : Option WorkerLocation := none
  owner            : OwnerLocation := .idle
  readers          : ρ → SnapshotLocation := fun _ => .idle
  readings         : Nat := 0

abbrev TimestampCache.Snapshot := Bytes × Bytes

inductive TimestampCache.Turn (ρ : Type)
  | start
  | stop
  | destroy
  | snapshot (r : ρ) (out : Bytes)
  | thread (a : Agent ρ)

namespace TimestampCache

open Lock

variable {ρ : Type} [DecidableEq ρ]

-- The thread leaves `refresh_once` when there is no location.
def stepRefresh (clock : Nat → ClockReading) (t : TimestampCache ρ) (a : Agent ρ) :
    RefreshLocation → Option (TimestampCache ρ × Option RefreshLocation × Option (Access Snapshot))
  | .fill =>
    let next := fillCurrentTimestamp (clock t.readings) (List.replicate 20 0)
    some ({ t with readings := t.readings + 1 }, some (.lock next), none)
  | .lock next =>
    match t.mutex with
    | none   => some ({ t with mutex := some a }, some (.copy next 0), none)
    | some _ => none
  | .copy next i =>
    if i < 20 then
      some ({ t with currentTimestamp := t.currentTimestamp.set i (next.getD i 0) },
        some (.copy next (i + 1)), none)
    else
      some (t, some .unlock, none)
  | .unlock => some ({ t with mutex := none }, none, some .write)

-- Where `stop` returns to. An object whose thread can still be joined must not be destroyed.
def stopped (worker : Option WorkerLocation) : Bool → OwnerLocation
  | false => .idle
  | true  => if worker.isSome then .terminated else .destroyed

def stepOwner (clock : Nat → ClockReading) (t : TimestampCache ρ) :
    Option (TimestampCache ρ × Option (Access Snapshot)) :=
  match t.owner with
  | .start =>
    if t.running then
      some ({ t with owner := .idle }, none)
    else
      some ({ t with running := true, owner := .refresh .fill }, none)
  | .refresh l =>
    match t.stepRefresh clock .owner l with
    | none                       => none
    | some (t', some l', access) => some ({ t' with owner := .refresh l' }, access)
    | some (t', none, access)    => some ({ t' with owner := .spawn }, access)
  | .spawn =>
    -- Nothing may be assigned to a thread that can still be joined.
    if t.worker.isSome then
      some ({ t with owner := .terminated }, none)
    else
      some ({ t with worker := some .load, owner := .idle }, none)
  | .stop destroying =>
    if t.running then
      some ({ t with running := false, owner := .join destroying }, none)
    else
      some ({ t with owner := stopped t.worker destroying }, none)
  | .join destroying =>
    match t.worker with
    | none        => some ({ t with owner := stopped none destroying }, none)
    | some .ended => some ({ t with worker := none, owner := stopped none destroying }, none)
    | some _      => none
  | .idle | .destroyed | .terminated => none

def stepWorker (clock : Nat → ClockReading) (t : TimestampCache ρ) :
    Option (TimestampCache ρ × Option (Access Snapshot)) :=
  match t.worker with
  | some .load =>
    some ({ t with worker := some (if t.running then .refresh .fill else .ended) }, none)
  | some (.refresh l) =>
    match t.stepRefresh clock .worker l with
    | none                       => none
    | some (t', some l', access) => some ({ t' with worker := some (.refresh l') }, access)
    | some (t', none, access)    => some ({ t' with worker := some .sleep }, access)
  | some .sleep        => some ({ t with worker := some .load }, none)
  | none | some .ended => none

def moveReader (t : TimestampCache ρ) (r : ρ) (l : SnapshotLocation) : TimestampCache ρ :=
  { t with readers := Function.update t.readers r l }

def stepReader (t : TimestampCache ρ) (r : ρ) :
    Option (TimestampCache ρ × Option (Access Snapshot)) :=
  match t.readers r with
  | .idle => none
  | .lock given =>
    match t.mutex with
    | none   => some (moveReader { t with mutex := some (.reader r) } r (.copy given given 0), none)
    | some _ => none
  | .copy given out i =>
    if i < min 20 out.length then
      some (t.moveReader r (.copy given (out.set i (t.currentTimestamp.getD i 0)) (i + 1)), none)
    else if min 20 out.length = out.length then
      some (t.moveReader r (.terminate given out), none)
    else
      some (t.moveReader r (.unlock given out), none)
  | .terminate given out =>
    some (t.moveReader r (.unlock given (out.set (out.length - 1) 0)), none)
  | .unlock given out =>
    some (moveReader { t with mutex := none } r .idle, some (.read (given, out)))

def stepThread (clock : Nat → ClockReading) (t : TimestampCache ρ) :
    Agent ρ → Option (TimestampCache ρ × Option (Access Snapshot))
  | .owner    => t.stepOwner clock
  | .worker   => t.stepWorker clock
  | .reader r => t.stepReader r

def step (clock : Nat → ClockReading) (t : TimestampCache ρ) :
    Turn ρ → Option (TimestampCache ρ × Option (Access Snapshot))
  | .start =>
    match t.owner with
    | .idle => some ({ t with owner := .start }, none)
    | _     => none
  | .stop =>
    match t.owner with
    | .idle => some ({ t with owner := .stop false }, none)
    | _     => none
  | .destroy =>
    match t.owner with
    | .idle => some ({ t with owner := .stop true }, none)
    | _     => none
  | .snapshot r out =>
    match t.readers r with
    | .idle =>
      if out.length = 0 then
        some (t, some (.read (out, out)))
      else
        some (t.moveReader r (.lock out), none)
    | _     => none
  | .thread a => t.stepThread clock a

-- A turn that cannot be taken is lost.
def turn (clock : Nat → ClockReading) (t : TimestampCache ρ) (i : Turn ρ) :
    TimestampCache ρ × Option (Access Snapshot) :=
  (t.step clock i).getD (t, none)

end TimestampCache
