import FlowerExchange.Common.MemPool

open NodeSize

namespace MemPool

variable {T : Type} [NodeSize T]

def findChunk (pool : MemPool T) (idx lo hi : Nat) : Except Fault Nat :=
  if lo + 1 < hi then do
    let mid := lo + (hi - lo) / 2
    let offset ← elementAt pool.chunkOffsets mid
    if offset ≤ idx then pool.findChunk idx mid hi else pool.findChunk idx lo mid
  else
    return lo
termination_by hi - lo

def resolveIndex (pool : MemPool T) (idx : Nat) : Except Fault (Nat × Nat) :=
  if idx ≥ pool.totalCapacity then
    throw .outOfRange
  else do
    let lo ← pool.findChunk idx 0 pool.chunks.length
    let offset ← elementAt pool.chunkOffsets lo
    return (lo, idx - offset)

def scanIndex (pool : MemPool T) (ptr : Addr) : List (List (Node T)) → Nat → Except Fault Nat
  | [], _ => throw .foreignPointer
  | chunk :: chunks, ci =>
    if ptr.chunk = ci ∧ ptr.offset < chunk.length * sizeofNode T then do
      let offset ← elementAt pool.chunkOffsets ci
      return offset + ptr.offset / sizeofNode T
    else
      pool.scanIndex ptr chunks (ci + 1)

def getIndex (pool : MemPool T) (ptr : Addr) : Except Fault Nat :=
  pool.scanIndex ptr pool.chunks 0

def get (pool : MemPool T) (idx : Nat) : Except Fault Addr := do
  let (ci, i) ← pool.resolveIndex idx
  let chunk ← elementAt pool.chunks ci
  let _ ← elementAt chunk i
  return slotAddr T ci i

end MemPool

-- A call that can throw an exception, with what it has made of the pool by then.
abbrev PoolAction (T : Type) := EStateM Fault (MemPool T)

namespace PoolAction

variable {T : Type} [NodeSize T]

def ofExcept (r : Except Fault α) : PoolAction T α :=
  match r with
  | .ok x    => return x
  | .error f => throw f

def allocate [Inhabited T] (obj : T) : PoolAction T Addr := do
  if (← get).freeListHead.isNone then
    modify MemPool.grow
  match (← get).freeListHead with
  | none => throw .nullPointer
  | some block =>
    match (← get).node? block with
    | none => throw .badAddress
    | some n =>
      modify fun pool => { pool.setNode block ⟨obj, false, none⟩ with freeListHead := n.next }
      return block

def deallocateImpl : Option Addr → PoolAction T Unit
  | none => return ()
  | some ptr => do
    match MemPool.findNode ptr (← get).chunks 0 with
    | none => throw .foreignPointer
    | some freed =>
      match (← get).node? freed with
      | none => throw .badAddress
      | some n =>
        if n.isFree then
          throw .doubleFree
        modify fun pool =>
          { pool.setNode freed ⟨n.obj, true, pool.freeListHead⟩ with freeListHead := some freed }

def deallocateIndex (idx : Nat) : PoolAction T Unit := do
  let (ci, i) ← ofExcept <| (← get).resolveIndex idx
  let chunk ← ofExcept <| elementAt (← get).chunks ci
  let _ ← ofExcept <| elementAt chunk i
  deallocateImpl <| some (MemPool.slotAddr T ci i)

end PoolAction

inductive PoolCall (T : Type)
  | allocate (obj : T)
  | deallocate (ptr : Option Addr)
  | deallocateIndex (idx : Nat)

namespace PoolCall

variable {T : Type} [NodeSize T] [Inhabited T]

def action : PoolCall T → PoolAction T (Option Addr)
  | allocate obj => do
    let ptr ← PoolAction.allocate obj
    return some ptr
  | deallocate ptr => do
    PoolAction.deallocateImpl ptr
    return none
  | deallocateIndex idx => do
    PoolAction.deallocateIndex idx
    return none

-- Exceptions are caught by the user, who goes on with the pool as it is then.
def step (pool : MemPool T) (call : PoolCall T) : MemPool T × Except Fault (Option Addr) :=
  match call.action.run pool with
  | .ok ptr pool  => (pool, .ok ptr)
  | .error f pool => (pool, .error f)

end PoolCall
