import FlowerExchange.Lib.Linked
import FlowerExchange.Common.Memory

-- The size of the nodes in which a pool stores objects of type `T`. An object is the first member of
-- its node, so both have the same address.
class NodeSize (T : Type) where
  sizeofNode     : Nat
  sizeofNode_pos : 0 < sizeofNode

open NodeSize

structure Node (T : Type) where
  obj    : T
  isFree : Bool        := true
  next   : Option Addr := none

structure MemPool (T : Type) where
  initialCapacity : Nat
  totalCapacity   : Nat
  chunks          : List (List (Node T))
  chunkOffsets    : List Nat
  freeListHead    : Option Addr

namespace MemPool

variable {T : Type} [NodeSize T]

def slotAddr (T : Type) [NodeSize T] (chunk i : Nat) : Addr where
  chunk  := chunk
  offset := i * sizeofNode T

def node? (pool : MemPool T) (a : Addr) : Option (Node T) :=
  if a.offset % sizeofNode T = 0
  then pool.chunks[a.chunk]? >>= fun chunk => chunk[a.offset / sizeofNode T]?
  else none

def setNode (pool : MemPool T) (a : Addr) (n : Node T) : MemPool T :=
  { pool with chunks := pool.chunks.modify a.chunk (·.set (a.offset / sizeofNode T) n) }

section

variable [Inhabited T]

def addChunk (pool : MemPool T) (count : Nat) : MemPool T :=
  let chunk := pool.chunks.length
  let node (i : Nat) : Node T := {
    obj  := default
    next := if i + 1 < count then some (slotAddr T chunk (i + 1)) else pool.freeListHead
  }
  { pool with
    chunks        := pool.chunks ++ [(List.range count).map node]
    chunkOffsets  := pool.chunkOffsets ++ [pool.totalCapacity]
    freeListHead  := some (slotAddr T chunk 0)
    totalCapacity := pool.totalCapacity + count }

def new (initialCapacity : Nat) : MemPool T :=
  let capacity := if initialCapacity > 0 then initialCapacity else 256
  addChunk ⟨capacity, 0, [], [], none⟩ capacity

def maxChunkSize : Nat := 4000000

def grow (pool : MemPool T) : MemPool T :=
  pool.addChunk <| min maxChunkSize (max pool.initialCapacity pool.totalCapacity)

def allocate (pool : MemPool T) (obj : T) : Except Fault (MemPool T × Addr) :=
  let pool := if pool.freeListHead.isNone then pool.grow else pool
  match pool.freeListHead with
  | none => .error .nullPointer
  | some block =>
    match pool.node? block with
    | none   => .error .badAddress
    | some n => .ok ({ pool.setNode block ⟨obj, false, none⟩ with freeListHead := n.next }, block)

end

def findNode (ptr : Addr) : List (List (Node T)) → Nat → Option Addr
  | [], _ => none
  | chunk :: chunks, ci =>
    if chunk.isEmpty then
      findNode ptr chunks (ci + 1)
    else if ptr.chunk ≠ ci ∨ ptr.offset ≥ chunk.length * sizeofNode T then
      findNode ptr chunks (ci + 1)
    else if ptr.offset % sizeofNode T ≠ 0 then
      findNode ptr chunks (ci + 1)
    else if ptr.offset / sizeofNode T ≥ chunk.length then
      findNode ptr chunks (ci + 1)
    else if slotAddr T ci (ptr.offset / sizeofNode T) ≠ ptr then
      findNode ptr chunks (ci + 1)
    else
      some <| slotAddr T ci (ptr.offset / sizeofNode T)

def deallocate (pool : MemPool T) : Option Addr → Except Fault (MemPool T)
  | none => .ok pool
  | some ptr =>
    match findNode ptr pool.chunks 0 with
    | none => .error .foreignPointer
    | some freed =>
      match pool.node? freed with
      | none => .error .badAddress
      | some n =>
        if n.isFree then
          .error .doubleFree
        else
          .ok { pool.setNode freed ⟨n.obj, true, pool.freeListHead⟩ with freeListHead := some freed }

-- An access to the object at an address. Objects exist only in nodes that are allocated.
def read (pool : MemPool T) (ptr : Addr) : Except Fault T :=
  match pool.node? ptr with
  | none   => .error .badAddress
  | some n => if n.isFree then .error .useAfterFree else .ok n.obj

def modify (pool : MemPool T) (ptr : Addr) (f : T → T) : Except Fault (MemPool T) :=
  match pool.node? ptr with
  | none   => .error .badAddress
  | some n => if n.isFree then .error .useAfterFree else .ok <| pool.setNode ptr { n with obj := f n.obj }

-- The abstract view of a pool: the objects that are allocated, by their addresses.
def heap (pool : MemPool T) (a : Addr) : Option T :=
  (pool.node? a).bind fun n => if n.isFree then none else some n.obj

def freeLinks (pool : MemPool T) (a : Addr) : Option (Option Addr) :=
  (pool.node? a).bind fun n => if n.isFree then some n.next else none

structure WF (pool : MemPool T) : Prop where
  positive : 0 < pool.initialCapacity
  free     : ∃ l, Linked pool.freeLinks pool.freeListHead l ∧ ∀ a, (pool.freeLinks a).isSome → a ∈ l

end MemPool
