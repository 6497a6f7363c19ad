import FlowerExchange.Common.Theorems.PoolRun

open NodeSize

namespace MemPool

variable {T : Type} [NodeSize T] {pool pool' : MemPool T} {a b : Addr} {idx : Nat}

def slots (pool : MemPool T) : Set Addr :=
  { a | (pool.node? a).isSome }

theorem mem_slots_iff : a ∈ pool.slots ↔ ∃ idx, pool.HasIndex idx a := by
  constructor
  case mp =>
    intro ha
    obtain ⟨n, hn⟩ := Option.isSome_iff_exists.mp ha
    obtain ⟨hm, chunk, hc, hi⟩ := node?_eq_some_iff.mp hn
    have hlt := (List.getElem?_eq_some_iff.mp hi).choose
    exact ⟨_, a.chunk, _, chunk.length, by simp [sizes, hc], hlt, eq_slotAddr hm, rfl⟩
  case mpr =>
    rintro ⟨_, ci, i, size, hs, hi, rfl, _⟩
    simp only [sizes, List.getElem?_map, Option.map_eq_some_iff] at hs
    obtain ⟨chunk, hc, rfl⟩ := hs
    have hn : pool.node? (slotAddr T ci i) = some _ := node?_eq_some_iff.mpr
      ⟨slotAddr_mod ci i, chunk, hc, by rw [slotAddr_div]; exact List.getElem?_eq_getElem hi⟩
    exact Option.isSome_iff_exists.mpr ⟨_, hn⟩

namespace HasIndex

omit [NodeSize T] in
theorem bounds (hs : pool.sizes[ci]? = some size) (hi : i < size) :
    (pool.sizes.take (ci + 1)).sum = (pool.sizes.take ci).sum + size ∧
      (pool.sizes.take ci).sum + i < (pool.sizes.take (ci + 1)).sum := by
  obtain ⟨hc, rfl⟩ := List.getElem?_eq_some_iff.mp hs
  rw [List.sum_take_succ _ _ hc]
  omega

theorem unique (ha : pool.HasIndex idx a) (hb : pool.HasIndex idx b) : a = b := by
  obtain ⟨ci, i, _, hs, hi, rfl, hidx⟩ := ha
  obtain ⟨cj, j, _, hs', hj, rfl, hidx'⟩ := hb
  have mono := List.monotone_sum_take pool.sizes
  have hbi := bounds hs hi
  have hbj := bounds hs' hj
  rcases Nat.lt_trichotomy ci cj with h | rfl | h
  · have := mono (Nat.succ_le_of_lt h)
    simp only [Nat.succ_eq_add_one] at this
    omega
  · obtain rfl : i = j := by omega
    rfl
  · have := mono (Nat.succ_le_of_lt h)
    simp only [Nat.succ_eq_add_one] at this
    omega

theorem lt_total (tiled : pool.Tiled) (h : pool.HasIndex idx a) : idx < pool.totalCapacity := by
  obtain ⟨ci, i, _, hs, hi, _, rfl⟩ := h
  have hlen := (List.getElem?_eq_some_iff.mp hs).choose
  have hle := List.monotone_sum_take pool.sizes (Nat.succ_le_of_lt hlen)
  simp only [List.take_length, ← tiled.total, Nat.succ_eq_add_one] at hle
  have := bounds hs hi
  omega

theorem scanIndex_eq {chunks : List (List (Node T))} {ci : Nat} (hc : ci ≤ a.chunk)
    (hn : chunks[a.chunk - ci]? = some chunk) (hlt : a.offset < chunk.length * sizeofNode T)
    (ho : elementAt pool.chunkOffsets a.chunk = .ok offset) :
    pool.scanIndex a chunks ci = .ok (offset + a.offset / sizeofNode T) := by
  induction chunks generalizing ci
  case nil => simp at hn
  case cons c chunks hi =>
    rw [scanIndex]
    by_cases he : a.chunk = ci
    case pos =>
      subst he
      simp only [Nat.sub_self, List.getElem?_cons_zero, Option.some.injEq] at hn
      rw [hn, if_pos ⟨rfl, hlt⟩, ho]
      rfl
    case neg =>
      rw [if_neg fun h => he h.left]
      refine hi (by omega) ?_
      rwa [show a.chunk - ci = a.chunk - (ci + 1) + 1 by omega, List.getElem?_cons_succ] at hn

theorem getIndex (tiled : pool.Tiled) (h : pool.HasIndex idx a) : pool.getIndex a = .ok idx := by
  obtain ⟨ci, i, size, hs, hi, rfl, rfl⟩ := h
  have hlen := (List.getElem?_eq_some_iff.mp hs).choose
  simp only [sizes, List.getElem?_map, Option.map_eq_some_iff] at hs
  obtain ⟨chunk, hc, rfl⟩ := hs
  have hlt : (slotAddr T ci i).offset < chunk.length * sizeofNode T :=
    Nat.mul_lt_mul_of_pos_right hi sizeofNode_pos
  rw [MemPool.getIndex, scanIndex_eq (Nat.zero_le _) hc hlt (tiled.offset hlen), slotAddr_div]
  rfl

theorem mono (hp : pool.sizes <+: pool'.sizes) (h : pool.HasIndex idx a) : pool'.HasIndex idx a := by
  obtain ⟨ci, i, size, hs, hi, ha, hidx⟩ := h
  have hlen := (List.getElem?_eq_some_iff.mp hs).choose
  obtain ⟨sizes, hp⟩ := hp
  refine ⟨ci, i, size, ?_, hi, ha, ?_⟩
  · rw [← hp, List.getElem?_append_left hlen, hs]
  · rw [← hp, List.take_append_of_le_length hlen.le, hidx]

end HasIndex

structure Indexed (pool : MemPool T) : Prop where
  bijective : Set.BijOn pool.getIndex pool.slots (.ok '' Set.Iio pool.totalCapacity)
  get       : ∀ idx < pool.totalCapacity, ∃ a ∈ pool.slots,
    (pool.get idx = .ok a) ∧ pool.getIndex a = .ok idx
  beyond    : ∀ idx ≥ pool.totalCapacity, pool.get idx = .error .outOfRange

theorem Tiled.get (tiled : pool.Tiled) (hidx : idx < pool.totalCapacity) :
    ∃ a, (pool.get idx = .ok a) ∧ pool.HasIndex idx a := by
  obtain ⟨ci, i, chunk, hs, hc, hi, hindex⟩ := tiled.resolveIndex hidx
  refine ⟨slotAddr T ci i, ?_, hindex⟩
  have hchunk : elementAt pool.chunks ci = .ok chunk := elementAt_eq hc
  have hnode : elementAt chunk i = .ok chunk[i] := elementAt_eq <| List.getElem?_eq_getElem hi
  simp [MemPool.get, hs, hchunk, hnode]

theorem Tiled.indexed (tiled : pool.Tiled) : pool.Indexed where
  bijective := by
    refine ⟨fun a ha => ?_, fun a ha b hb hab => ?_, fun r hr => ?_⟩
    · obtain ⟨idx, ha⟩ := mem_slots_iff.mp ha
      exact ⟨idx, ha.lt_total tiled, (ha.getIndex tiled).symm⟩
    · obtain ⟨idx, ha⟩ := mem_slots_iff.mp ha
      obtain ⟨idx', hb⟩ := mem_slots_iff.mp hb
      rw [ha.getIndex tiled, hb.getIndex tiled, Except.ok.injEq] at hab
      subst hab
      exact ha.unique hb
    · obtain ⟨idx, hidx, rfl⟩ := hr
      obtain ⟨a, _, ha⟩ := tiled.get hidx
      exact ⟨a, mem_slots_iff.mpr ⟨idx, ha⟩, ha.getIndex tiled⟩
  get idx hidx := by
    obtain ⟨a, hget, ha⟩ := tiled.get hidx
    exact ⟨a, mem_slots_iff.mpr ⟨idx, ha⟩, hget, ha.getIndex tiled⟩
  beyond idx hidx := by
    have hs : pool.resolveIndex idx = .error .outOfRange := if_pos hidx
    rw [MemPool.get, hs]
    rfl

section

variable [Inhabited T]

theorem Ready.step_sizes (h : pool.Ready) (call : PoolCall T) :
    pool.sizes <+: (PoolCall.step pool call).1.sizes := by
  have pointer (ptr : Option Addr) : pool.sizes <+: (PoolCall.step pool (.deallocate ptr)).1.sizes := by
    rw [step_deallocate]
    cases hs : pool.deallocate ptr
    case error => exact List.prefix_refl _
    case ok pool' =>
      rcases deallocate_cases hs with rfl | ⟨b, n, next, rfl⟩
      · exact List.prefix_refl _
      · have hsizes : (pool.setNode b n).sizes = pool.sizes := sizes_setNode
        exact hsizes ▸ List.prefix_refl _
  cases call
  case allocate obj =>
    obtain ⟨pool', a, hs, _⟩ := allocate_spec obj h.wf
    rw [step_allocate hs]
    obtain ⟨grown, n, next, hg, rfl⟩ := allocate_cases hs
    have hsizes : grown.sizes = (grown.setNode a n).sizes := sizes_setNode.symm
    rcases hg with rfl | rfl
    · exact hsizes ▸ List.prefix_refl _
    · have hgrow := sizes_addChunk pool (min maxChunkSize (max pool.initialCapacity pool.totalCapacity))
      exact ⟨_, hgrow.symm.trans hsizes⟩
  case deallocate ptr => exact pointer ptr
  case deallocateIndex idx =>
    rcases Nat.lt_or_ge idx pool.totalCapacity with hidx | hidx
    · obtain ⟨a, _, _, hs⟩ := h.step_index hidx
      exact hs ▸ pointer (some a)
    · rw [step_beyond pool hidx]

-- Whatever has been called, the indices number the slots, and whatever is called from then on, the slots
-- keep theirs.
theorem run_indexed (capacity : Nat) (calls later : List (PoolCall T)) :
    let pool := (Machine.exec PoolCall.step calls (MemPool.new capacity)).1
    let pool' := (Machine.exec PoolCall.step later pool).1
    pool.Indexed ∧
      (∀ idx ≥ pool.totalCapacity,
        PoolCall.step pool (.deallocateIndex idx) = (pool, .error .outOfRange)) ∧
      (∀ a ∈ pool.slots, a ∈ pool'.slots ∧ pool'.getIndex a = pool.getIndex a) := by
  intro pool pool'
  have ready : pool.Ready := Machine.exec_invariant (fun call h => h.step call) (.new capacity)
  have hrun : pool'.Ready ∧ pool.sizes <+: pool'.sizes :=
    Machine.exec_invariant (P := fun p : MemPool T => p.Ready ∧ pool.sizes <+: p.sizes)
      (fun call h => ⟨h.left.step call, h.right.trans <| h.left.step_sizes call⟩)
      ⟨ready, List.prefix_refl _⟩
  refine ⟨ready.tiled.indexed, fun idx => Ready.step_beyond pool, fun a ha => ?_⟩
  obtain ⟨idx, ha⟩ := mem_slots_iff.mp ha
  have ha' : pool'.HasIndex idx a := ha.mono hrun.right
  exact ⟨mem_slots_iff.mpr ⟨idx, ha'⟩, by rw [ha.getIndex ready.tiled, ha'.getIndex hrun.left.tiled]⟩

end

end MemPool
