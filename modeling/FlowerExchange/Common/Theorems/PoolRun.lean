import FlowerExchange.Lib.Machine
import FlowerExchange.Common.PoolRun
import FlowerExchange.Common.Theorems.MemPool

open Function NodeSize

namespace MemPool

variable {T : Type} [NodeSize T] {pool pool' : MemPool T} {a b : Addr} {n : Node T} {idx : Nat}

def sizes (pool : MemPool T) : List Nat :=
  pool.chunks.map List.length

structure Tiled (pool : MemPool T) : Prop where
  total   : pool.totalCapacity = pool.sizes.sum
  offsets : pool.chunkOffsets = (List.range pool.sizes.length).map fun ci => (pool.sizes.take ci).sum

-- The slot at the address has the index: so many slots come before it.
def HasIndex (pool : MemPool T) (idx : Nat) (a : Addr) : Prop :=
  ∃ ci i size, (pool.sizes[ci]? = some size) ∧ i < size ∧ (a = slotAddr T ci i) ∧
    (idx = (pool.sizes.take ci).sum + i)

theorem sizes_setNode : (pool.setNode a n).sizes = pool.sizes := by
  refine List.ext_getElem? fun ci => ?_
  simp only [sizes, setNode, List.getElem?_map, List.getElem?_modify]
  cases pool.chunks[ci]? <;> by_cases h : a.chunk = ci <;> simp [h]

theorem sizes_addChunk [Inhabited T] (pool : MemPool T) (count : Nat) :
    (pool.addChunk count).sizes = pool.sizes ++ [count] := by
  simp [sizes, addChunk]

namespace Tiled

theorem setNode (h : pool.Tiled) : (pool.setNode a n).Tiled where
  total   := by rw [sizes_setNode]; exact h.total
  offsets := by rw [sizes_setNode]; exact h.offsets

omit [NodeSize T] in
theorem setHead (h : pool.Tiled) (head : Option Addr) : { pool with freeListHead := head }.Tiled :=
  ⟨h.total, h.offsets⟩

theorem addChunk [Inhabited T] (h : pool.Tiled) (count : Nat) : (pool.addChunk count).Tiled := by
  have hs := sizes_addChunk pool count
  constructor
  · rw [hs, List.sum_append, List.sum_singleton, ← h.total]
    rfl
  · have ho : (pool.addChunk count).chunkOffsets = pool.chunkOffsets ++ [pool.totalCapacity] := rfl
    rw [ho, h.offsets, hs, List.length_append, List.length_singleton, List.range_succ,
      List.map_append, h.total]
    refine congrArg₂ _ (List.map_congr_left fun ci hc => ?_) (by simp)
    rw [List.take_append_of_le_length (List.mem_range.mp hc).le]

theorem new [Inhabited T] (capacity : Nat) : (MemPool.new capacity : MemPool T).Tiled :=
  addChunk ⟨rfl, rfl⟩ _

omit [NodeSize T] in
theorem offset (h : pool.Tiled) (hc : ci < pool.sizes.length) :
    elementAt pool.chunkOffsets ci = .ok (pool.sizes.take ci).sum := by
  refine elementAt_eq ?_
  rw [h.offsets]
  simp [hc]

omit [NodeSize T] in
-- By induction on the number of chunks that are left: the index lies in one of them.
theorem findChunk (h : pool.Tiled) (hlt : lo < hi) (hhi : hi ≤ pool.sizes.length)
    (hle : (pool.sizes.take lo).sum ≤ idx) (hidx : idx < (pool.sizes.take hi).sum) : ∃ ci,
      (pool.findChunk idx lo hi = .ok ci) ∧ ci < pool.sizes.length ∧
      (pool.sizes.take ci).sum ≤ idx ∧ idx < (pool.sizes.take (ci + 1)).sum := by
  obtain ⟨k, hk⟩ : ∃ k, k = hi - lo := ⟨_, rfl⟩
  induction k using Nat.strong_induction_on generalizing lo hi
  case h k hind =>
    rw [MemPool.findChunk]
    by_cases hlo : lo + 1 < hi
    case neg =>
      obtain rfl : hi = lo + 1 := by omega
      rw [if_neg hlo]
      exact ⟨lo, rfl, by omega, hle, hidx⟩
    case pos =>
      let mid := lo + (hi - lo) / 2
      have hmid : lo < mid ∧ mid < hi := by omega
      rw [if_pos hlo]
      simp only [h.offset (by omega : mid < pool.sizes.length), Except.ok_bind, mid]
      split
      case isTrue hm  => exact hind (hi - mid) (by omega) hmid.right hhi hm hidx rfl
      case isFalse hm => exact hind (mid - lo) (by omega) hmid.left (by omega) hle (by omega) rfl

theorem resolveIndex (h : pool.Tiled) (hidx : idx < pool.totalCapacity) : ∃ ci i chunk,
    (pool.resolveIndex idx = .ok (ci, i)) ∧ (pool.chunks[ci]? = some chunk) ∧ i < chunk.length ∧
      pool.HasIndex idx (slotAddr T ci i) := by
  have hidx' : idx < (pool.sizes.take pool.sizes.length).sum := by
    rwa [List.take_length, ← h.total]
  have hpos : 0 < pool.sizes.length := by
    by_contra hz
    simp [Nat.eq_zero_of_not_pos hz] at hidx'
  obtain ⟨ci, hfind, hc, hle, hlt⟩ := h.findChunk hpos le_rfl (by simp) hidx'
  rw [List.sum_take_succ _ _ hc] at hlt
  have hlen : pool.sizes.length = pool.chunks.length := List.length_map _
  have hc' : ci < pool.chunks.length := hlen ▸ hc
  have hsize : pool.sizes[ci] = pool.chunks[ci].length := by simp [sizes]
  refine ⟨ci, idx - (pool.sizes.take ci).sum, pool.chunks[ci], ?_, List.getElem?_eq_getElem hc',
    by omega, ci, _, _, List.getElem?_eq_getElem hc, by omega, rfl, by omega⟩
  rw [MemPool.resolveIndex, if_neg (by omega), ← hlen, hfind, Except.ok_bind, h.offset hc]
  rfl

end Tiled

theorem heap_eq_none_iff : (pool.heap a = none) ↔ ∀ n, pool.node? a = some n → n.isFree := by
  simp only [heap, Option.bind_eq_none_iff]
  refine forall₂_congr fun n _ => ?_
  cases n.isFree <;> simp

theorem findNode_some {chunks : List (List (Node T))} {ci : Nat} (h : findNode a chunks ci = some b) :
    (b = a) ∧ (a.offset % sizeofNode T = 0) ∧ ci ≤ a.chunk ∧
      ∃ chunk, chunks[a.chunk - ci]? = some chunk ∧ a.offset / sizeofNode T < chunk.length := by
  induction chunks generalizing ci
  case nil => simp [findNode] at h
  case cons chunk chunks hi =>
    have later (h : findNode a chunks (ci + 1) = some b) : (b = a) ∧ (a.offset % sizeofNode T = 0) ∧
        ci ≤ a.chunk ∧ ∃ chunk', (chunk :: chunks)[a.chunk - ci]? = some chunk' ∧
          a.offset / sizeofNode T < chunk'.length := by
      obtain ⟨hb, hm, hle, chunk', hc, hlt⟩ := hi h
      refine ⟨hb, hm, by omega, chunk', ?_, hlt⟩
      rw [show a.chunk - ci = a.chunk - (ci + 1) + 1 by omega, List.getElem?_cons_succ, hc]
    rw [findNode] at h
    split at h
    case isTrue => exact later h
    case isFalse =>
      split at h
      case isTrue => exact later h
      case isFalse hci =>
        split at h
        case isTrue => exact later h
        case isFalse hm =>
          split at h
          case isTrue => exact later h
          case isFalse hlt =>
            split at h
            case isTrue => exact later h
            case isFalse he =>
              obtain rfl : a.chunk = ci := by_contra fun hn => hci <| .inl hn
              have he := not_not.mp he
              exact ⟨(Option.some.inj h).symm.trans he, not_not.mp hm, le_rfl, chunk, by simp,
                Nat.lt_of_not_ge hlt⟩

theorem deallocate_foreign (h : pool.node? a = none) :
    pool.deallocate (some a) = .error .foreignPointer := by
  have hf : findNode a pool.chunks 0 = none := by
    refine Option.eq_none_iff_forall_not_mem.mpr fun b hb => ?_
    obtain ⟨_, hm, _, chunk, hc, hlt⟩ := findNode_some hb
    have hn : pool.node? a = some _ :=
      node?_eq_some_iff.mpr ⟨hm, chunk, hc, List.getElem?_eq_getElem hlt⟩
    simp [h] at hn
  simp [deallocate, hf]

theorem deallocate_free (h : pool.node? a = some n) (hf : n.isFree) :
    pool.deallocate (some a) = .error .doubleFree := by
  have ⟨hm, chunk, hc, hn⟩ := node?_eq_some_iff.mp h
  have hfind : findNode a pool.chunks 0 = some a :=
    findNode_eq hm (Nat.zero_le _) ⟨chunk, hc, (List.getElem?_eq_some_iff.mp hn).choose⟩
  simp [deallocate, hfind, h, hf]

end MemPool

namespace PoolAction

variable {T : Type} [NodeSize T] {pool pool' : MemPool T} {a : Addr} {obj : T}

omit [NodeSize T] in
@[simp]
theorem ofExcept_ok (x : α) : (ofExcept (.ok x) : PoolAction T α) = pure x :=
  rfl

omit [NodeSize T] in
@[simp]
theorem ofExcept_error (f : Fault) (pool : MemPool T) :
    (ofExcept (.error f) : PoolAction T α).run pool = .error f pool :=
  rfl

theorem deallocateImpl_run (pool : MemPool T) (ptr : Option Addr) :
    (deallocateImpl ptr).run pool =
      match pool.deallocate ptr with
      | .ok pool' => .ok () pool'
      | .error f  => .error f pool := by
  cases ptr
  case none => rfl
  case some a =>
    simp only [deallocateImpl, MemPool.deallocate, EStateM.run_bind, EStateM.run_get]
    cases MemPool.findNode a pool.chunks 0
    case none => rfl
    case some freed =>
      simp only [EStateM.run_bind, EStateM.run_get]
      cases pool.node? freed
      case none => rfl
      case some n => by_cases hf : n.isFree <;> simp [hf]

theorem allocate_run [Inhabited T] (h : pool.allocate obj = .ok (pool', a)) :
    (allocate obj).run pool = .ok a pool' := by
  rw [MemPool.allocate] at h
  by_cases hh : pool.freeListHead.isNone
  case' pos =>
    simp only [if_pos hh] at h
    simp only [allocate, EStateM.run_bind, EStateM.run_get, if_pos hh, EStateM.run_modify]
    generalize pool.grow = pool at h
  case' neg =>
    simp only [if_neg hh] at h
    simp only [allocate, EStateM.run_bind, EStateM.run_get, if_neg hh]
  all_goals
    cases hb : pool.freeListHead
    case none => simp [hb] at h
    case some block =>
      cases hn : pool.node? block
      case none => simp [hb, hn] at h
      case some n =>
        simp only [hb, hn, Except.ok.injEq, Prod.mk.injEq] at h
        obtain ⟨rfl, rfl⟩ := h
        simp [hn]

end PoolAction

namespace MemPool

variable {T : Type} [NodeSize T] [Inhabited T] {pool pool' : MemPool T} {a : Addr} {idx : Nat}

omit [Inhabited T] in
theorem WF.freeList (wf : pool.WF) : ∃ l,
    Linked (fun a => (pool.node? a).map Node.next) pool.freeListHead l ∧ l.Nodup ∧
      ∀ a, a ∈ l ↔ ∃ n, pool.node? a = some n ∧ n.isFree := by
  obtain ⟨l, hl, hall⟩ := wf.free
  have mem_iff (a : Addr) : a ∈ l ↔ ∃ n, pool.node? a = some n ∧ n.isFree := by
    constructor
    · intro hm
      obtain ⟨next, hn⟩ := Option.isSome_iff_exists.mp <| hl.mem_isSome hm
      obtain ⟨n, hn, hf, _⟩ := freeLinks_eq_some_iff.mp hn
      exact ⟨n, hn, hf⟩
    · rintro ⟨n, hn, hf⟩
      exact hall a <| by simp [freeLinks_eq_some_iff.mpr ⟨n, hn, hf, rfl⟩]
  refine ⟨l, hl.congr fun a ha => ?_, hl.nodup, mem_iff⟩
  obtain ⟨n, hn, hf⟩ := mem_iff a |>.mp ha
  rw [freeLinks_eq_some_iff.mpr ⟨n, hn, hf, rfl⟩, hn, Option.map_some]

structure Ready (pool : MemPool T) : Prop where
  wf    : pool.WF
  tiled : pool.Tiled

def Frees (pool : MemPool T) (a : Addr) (f : Fault)
    (r : MemPool T × Except Fault (Option Addr)) : Prop :=
  if (pool.heap a).isSome
  then ∃ pool', (r = (pool', .ok none)) ∧ pool'.heap = update pool.heap a none
  else r = (pool, .error f)

structure Live (pool : MemPool T) : Prop where
  freeList : ∃ l, Linked (fun a => (pool.node? a).map Node.next) pool.freeListHead l ∧ l.Nodup ∧
    ∀ a, a ∈ l ↔ ∃ n, pool.node? a = some n ∧ n.isFree
  allocate : ∀ obj, ∃ pool' a, (PoolCall.step pool (.allocate obj) = (pool', .ok (some a))) ∧
    (pool.heap a = none) ∧ (pool'.heap = update pool.heap a (some obj))
  null     : PoolCall.step pool (.deallocate none) = (pool, .ok none)
  pointer  : ∀ a, pool.Frees a (if (pool.node? a).isSome then .doubleFree else .foreignPointer)
    (PoolCall.step pool (.deallocate (some a)))
  index    : ∀ idx < pool.totalCapacity, ∃ a, pool.HasIndex idx a ∧ (pool.node? a).isSome ∧
    pool.Frees a .doubleFree (PoolCall.step pool (.deallocateIndex idx))
  beyond   : ∀ idx ≥ pool.totalCapacity,
    PoolCall.step pool (.deallocateIndex idx) = (pool, .error .outOfRange)

theorem Tiled.grow (h : pool.Tiled) : pool.grow.Tiled :=
  h.addChunk _

theorem allocate_cases (hs : pool.allocate obj = .ok (pool', a)) : ∃ grown n next,
    (grown = pool ∨ grown = pool.grow) ∧
      pool' = { grown.setNode a n with freeListHead := next } := by
  rw [MemPool.allocate] at hs
  obtain ⟨grown, hg⟩ : ∃ grown, grown = if pool.freeListHead.isNone then pool.grow else pool := ⟨_, rfl⟩
  simp only [← hg] at hs
  have hg : grown = pool ∨ grown = pool.grow := by
    split at hg
    · exact .inr hg
    · exact .inl hg
  cases hb : grown.freeListHead
  case none => simp [hb] at hs
  case some block =>
    cases hn : grown.node? block
    case none => simp [hb, hn] at hs
    case some n =>
      simp only [hb, hn, Except.ok.injEq, Prod.mk.injEq] at hs
      obtain ⟨rfl, rfl⟩ := hs
      exact ⟨grown, _, _, hg, rfl⟩

omit [Inhabited T] in
theorem deallocate_cases (hs : pool.deallocate ptr = .ok pool') :
    pool' = pool ∨ ∃ b n next, pool' = { pool.setNode b n with freeListHead := next } := by
  cases ptr
  case none =>
    cases hs
    exact .inl rfl
  case some a =>
    rw [MemPool.deallocate] at hs
    cases hf : findNode a pool.chunks 0
    case none => simp [hf] at hs
    case some freed =>
      cases hn : pool.node? freed
      case none => simp [hf, hn] at hs
      case some n =>
        by_cases hfree : n.isFree
        case pos => simp [hf, hn, hfree] at hs
        case neg =>
          simp only [hf, hn, if_neg hfree, Except.ok.injEq] at hs
          exact .inr ⟨freed, _, _, hs.symm⟩

theorem Tiled.allocate (h : pool.Tiled) (hs : pool.allocate obj = .ok (pool', a)) : pool'.Tiled := by
  obtain ⟨grown, n, next, hg, rfl⟩ := allocate_cases hs
  rcases hg with rfl | rfl
  · exact h.setNode.setHead _
  · exact h.grow.setNode.setHead _

omit [Inhabited T] in
theorem Tiled.deallocate (h : pool.Tiled) (hs : pool.deallocate ptr = .ok pool') : pool'.Tiled := by
  rcases deallocate_cases hs with rfl | ⟨_, _, _, rfl⟩
  · exact h
  · exact h.setNode.setHead _

namespace Ready

theorem new (capacity : Nat) : (MemPool.new capacity : MemPool T).Ready :=
  ⟨new_wf capacity, .new capacity⟩

theorem step_allocate (hs : pool.allocate obj = .ok (pool', a)) :
    PoolCall.step pool (.allocate obj) = (pool', .ok (some a)) := by
  simp [PoolCall.step, PoolCall.action, PoolAction.allocate_run hs]

theorem allocate (h : pool.Ready) (obj : T) : ∃ pool' a,
    (PoolCall.step pool (.allocate obj) = (pool', .ok (some a))) ∧ (pool.heap a = none) ∧
      (pool'.heap = update pool.heap a (some obj)) ∧ pool'.Ready := by
  obtain ⟨pool', a, hs, wf, ha, hh⟩ := allocate_spec obj h.wf
  exact ⟨pool', a, step_allocate hs, ha, hh, wf, h.tiled.allocate hs⟩

theorem step_deallocate (pool : MemPool T) (ptr : Option Addr) :
    PoolCall.step pool (.deallocate ptr) =
      match pool.deallocate ptr with
      | .ok pool' => (pool', .ok none)
      | .error f  => (pool, .error f) := by
  simp only [PoolCall.step, PoolCall.action, EStateM.run_bind, PoolAction.deallocateImpl_run]
  cases pool.deallocate ptr <;> rfl

theorem pointer (h : pool.Ready) (a : Addr) :
    pool.Frees a (if (pool.node? a).isSome then .doubleFree else .foreignPointer)
        (PoolCall.step pool (.deallocate (some a))) ∧
      (PoolCall.step pool (.deallocate (some a))).1.Ready := by
  rw [step_deallocate, Frees]
  cases ho : pool.heap a
  case some o =>
    obtain ⟨pool', hs, wf, hh⟩ := deallocate_spec h.wf ho
    simp only [hs, Option.isSome_some, if_true]
    exact ⟨⟨pool', rfl, hh⟩, wf, h.tiled.deallocate hs⟩
  case none =>
    cases hn : pool.node? a
    case none => simp [deallocate_foreign hn, h]
    case some n => simp [deallocate_free hn (heap_eq_none_iff.mp ho n hn), h]

theorem step_index (h : pool.Ready) (hidx : idx < pool.totalCapacity) : ∃ a,
    pool.HasIndex idx a ∧ (pool.node? a).isSome ∧
      (PoolCall.step pool (.deallocateIndex idx) = PoolCall.step pool (.deallocate (some a))) := by
  obtain ⟨ci, i, chunk, hs, hc, hi, hindex⟩ := h.tiled.resolveIndex hidx
  refine ⟨slotAddr T ci i, hindex, ?_, ?_⟩
  · have hn : pool.node? (slotAddr T ci i) = some _ := node?_eq_some_iff.mpr
      ⟨slotAddr_mod ci i, chunk, hc, by rw [slotAddr_div]; exact List.getElem?_eq_getElem hi⟩
    simp [hn]
  · have hchunk : elementAt pool.chunks ci = .ok chunk := elementAt_eq hc
    have hnode : elementAt chunk i = .ok chunk[i] := elementAt_eq <| List.getElem?_eq_getElem hi
    simp [PoolCall.step, PoolCall.action, PoolAction.deallocateIndex, hs, hchunk, hnode]

theorem step_beyond (pool : MemPool T) (hidx : idx ≥ pool.totalCapacity) :
    PoolCall.step pool (.deallocateIndex idx) = (pool, .error .outOfRange) := by
  have hs : pool.resolveIndex idx = .error .outOfRange := if_pos hidx
  simp [PoolCall.step, PoolCall.action, PoolAction.deallocateIndex, hs]

theorem step (h : pool.Ready) (call : PoolCall T) : (PoolCall.step pool call).1.Ready := by
  cases call
  case allocate obj =>
    obtain ⟨pool', a, hs, _, _, h'⟩ := h.allocate obj
    exact hs ▸ h'
  case deallocate ptr =>
    cases ptr
    case none   => exact h
    case some a => exact (h.pointer a).right
  case deallocateIndex idx =>
    rcases Nat.lt_or_ge idx pool.totalCapacity with hidx | hidx
    · obtain ⟨a, _, _, hs⟩ := h.step_index hidx
      exact hs ▸ (h.pointer a).right
    · exact step_beyond pool hidx ▸ h

theorem live (h : pool.Ready) : pool.Live where
  freeList := h.wf.freeList
  allocate obj := by
    obtain ⟨pool', a, hs, ha, hh, _⟩ := h.allocate obj
    exact ⟨pool', a, hs, ha, hh⟩
  null := rfl
  pointer a := (h.pointer a).left
  index idx hidx := by
    obtain ⟨a, hindex, ha, hs⟩ := h.step_index hidx
    have hp := (h.pointer a).left
    rw [if_pos ha] at hp
    exact ⟨a, hindex, ha, hs ▸ hp⟩
  beyond idx hidx := step_beyond pool hidx

end Ready

-- Whatever has been called, the pool is the set of its live slots.
theorem run_live (capacity : Nat) (calls : List (PoolCall T)) :
    (Machine.exec PoolCall.step calls (MemPool.new capacity)).1.Live :=
  Ready.live <| Machine.exec_invariant (fun call h => h.step call) (.new capacity)

end MemPool
