import FlowerExchange.Common.Theorems.PoolIndex

open Function NodeSize

namespace MemPool

variable {T : Type} [NodeSize T] {pool pool' : MemPool T} {a : Addr} {initial peak : Nat}

def live (pool : MemPool T) : Set Addr :=
  { a | (pool.heap a).isSome }

noncomputable def liveCount (pool : MemPool T) : Nat :=
  pool.live.ncard

theorem live_subset : pool.live ⊆ pool.slots := by
  intro a ha
  obtain ⟨o, ho⟩ := Option.isSome_iff_exists.mp ha
  obtain ⟨n, hn, _⟩ := heap_eq_some_iff.mp ho
  exact Option.isSome_iff_exists.mpr ⟨n, hn⟩

theorem Tiled.finite_slots (h : pool.Tiled) : pool.slots.Finite :=
  h.indexed.bijective.finite_iff_finite.mpr <| (Set.finite_Iio _).image _

theorem Tiled.finite_live (h : pool.Tiled) : pool.live.Finite :=
  h.finite_slots.subset live_subset

theorem Tiled.ncard_slots (h : pool.Tiled) : pool.slots.ncard = pool.totalCapacity := by
  rw [h.indexed.bijective.ncard_eq, Set.ncard_image_of_injective _ fun _ _ => Except.ok.inj,
    Set.ncard_eq_toFinset_card']
  simp

theorem Tiled.liveCount_le (h : pool.Tiled) : pool.liveCount ≤ pool.totalCapacity :=
  h.ncard_slots ▸ Set.ncard_le_ncard live_subset h.finite_slots

theorem Ready.liveCount_of_full (h : pool.Ready) (hh : pool.freeListHead = none) :
    pool.liveCount = pool.totalCapacity := by
  rw [← h.tiled.ncard_slots]
  refine congrArg Set.ncard <| live_subset.antisymm fun a ha => ?_
  obtain ⟨n, hn⟩ := Option.isSome_iff_exists.mp ha
  obtain ⟨l, hl, hall⟩ := h.wf.free
  have hnil := Linked.none_iff.mp (hh ▸ hl)
  cases hf : n.isFree
  case true  => simpa [hnil] using hall a (by simp [freeLinks_eq_some_iff.mpr ⟨n, hn, hf, rfl⟩])
  case false =>
    have ho : pool.heap a = some n.obj := heap_eq_some_iff.mpr ⟨n, hn, by simp [hf], rfl⟩
    exact Option.isSome_iff_exists.mpr ⟨_, ho⟩

theorem liveCount_allocate {obj : T} (h : pool.Tiled) (ha : pool.heap a = none)
    (hh : pool'.heap = update pool.heap a (some obj)) : pool'.liveCount = pool.liveCount + 1 := by
  have hl : pool'.live = insert a pool.live := by
    ext b
    by_cases hb : b = a
    · subst hb; simp [live, hh]
    · simp [live, hh, hb]
  have hn : a ∉ pool.live := by simp [live, ha]
  rw [liveCount, liveCount, hl, Set.ncard_insert_of_notMem hn h.finite_live]

section

variable [Inhabited T]

theorem allocate_total {obj : T} (hs : pool.allocate obj = .ok (pool', a)) :
    pool'.initialCapacity = pool.initialCapacity ∧ pool'.totalCapacity =
      if pool.freeListHead.isNone
      then pool.totalCapacity + min maxChunkSize (max pool.initialCapacity pool.totalCapacity)
      else pool.totalCapacity := by
  rw [MemPool.allocate] at hs
  by_cases hh : pool.freeListHead.isNone
  case' pos =>
    simp only [if_pos hh] at hs ⊢
    have hg : pool.grow.initialCapacity = pool.initialCapacity ∧ pool.grow.totalCapacity =
      pool.totalCapacity + min maxChunkSize (max pool.initialCapacity pool.totalCapacity) := ⟨rfl, rfl⟩
    generalize pool.grow = grown at hs hg
  case' neg =>
    simp only [if_neg hh] at hs ⊢
    have hg : pool.initialCapacity = pool.initialCapacity ∧ pool.totalCapacity = pool.totalCapacity := ⟨rfl, rfl⟩
    generalize pool = grown at hs hg
  all_goals
    split at hs
    case h_1 => contradiction
    case h_2 =>
      split at hs
      case h_1 => contradiction
      case h_2 =>
        cases hs
        exact hg

structure SameSlots (pool pool' : MemPool T) : Prop where
  initial : pool'.initialCapacity = pool.initialCapacity
  total   : pool'.totalCapacity = pool.totalCapacity
  sizes   : pool'.sizes = pool.sizes
  offsets : pool'.chunkOffsets = pool.chunkOffsets

omit [NodeSize T] [Inhabited T] in
theorem SameSlots.refl (pool : MemPool T) : SameSlots pool pool :=
  ⟨rfl, rfl, rfl, rfl⟩

omit [NodeSize T] [Inhabited T] in
theorem SameSlots.trans {pool'' : MemPool T} (h : SameSlots pool pool') (h' : SameSlots pool' pool'') :
    SameSlots pool pool'' :=
  ⟨h'.initial.trans h.initial, h'.total.trans h.total, h'.sizes.trans h.sizes, h'.offsets.trans h.offsets⟩

omit [NodeSize T] [Inhabited T] in
theorem Tiled.congr (h : pool.Tiled) (hs : SameSlots pool pool') : pool'.Tiled where
  total   := by rw [hs.total, hs.sizes, h.total]
  offsets := by rw [hs.offsets, hs.sizes, h.offsets]

omit [Inhabited T] in
theorem sameSlots_setNode (pool : MemPool T) (a : Addr) (n : Node T) (head : Option Addr) :
    SameSlots pool { pool.setNode a n with freeListHead := head } where
  initial := rfl
  total   := rfl
  sizes   := sizes_setNode (n := n)
  offsets := rfl

omit [Inhabited T] in
theorem SameSlots.modify {f : T → T} (hs : pool.modify a f = .ok pool') : SameSlots pool pool' := by
  rw [MemPool.modify] at hs
  split at hs
  case h_1 => contradiction
  case h_2 =>
    split at hs
    case isTrue => contradiction
    case isFalse =>
      cases hs
      exact sameSlots_setNode pool a _ pool.freeListHead

omit [Inhabited T] in
theorem SameSlots.deallocate {ptr : Option Addr} (hs : pool.deallocate ptr = .ok pool') :
    SameSlots pool pool' := by
  rcases deallocate_cases hs with rfl | ⟨b, n, head, rfl⟩
  · exact .refl _
  · exact sameSlots_setNode pool b n head

structure Bounded (initial peak : Nat) (pool : MemPool T) : Prop where
  ready : pool.Ready
  begun : pool.initialCapacity = initial
  base  : initial ≤ pool.totalCapacity
  total : pool.totalCapacity = initial ∨
    initial < peak ∧ pool.totalCapacity < peak + min peak maxChunkSize

namespace Bounded

theorem new (capacity peak : Nat) :
    Bounded (if capacity > 0 then capacity else 256) peak (MemPool.new capacity : MemPool T) where
  ready := .new capacity
  begun := rfl
  base  := Nat.le_add_left ..
  total := .inl <| Nat.zero_add _

omit [Inhabited T] in
theorem congr (h : Bounded initial peak pool) (wf : pool'.WF) (hs : SameSlots pool pool') :
    Bounded initial peak pool' where
  ready := ⟨wf, h.ready.tiled.congr hs⟩
  begun := hs.initial.trans h.begun
  base  := hs.total ▸ h.base
  total := hs.total ▸ h.total

omit [Inhabited T] in
theorem mono (h : Bounded initial peak pool) (hle : peak ≤ peak') : Bounded initial peak' pool where
  ready := h.ready
  begun := h.begun
  base  := h.base
  total := by
    have := h.total
    omega

theorem allocate (h : Bounded initial peak pool) {obj : T} (hs : pool.allocate obj = .ok (pool', a))
    (hp : pool'.liveCount ≤ peak) : Bounded initial peak pool' := by
  obtain ⟨pool₁, a₁, hs₁, wf, ha, hh⟩ := allocate_spec obj h.ready.wf
  cases hs.symm.trans hs₁
  have hr : pool'.Ready := ⟨wf, h.ready.tiled.allocate hs⟩
  have ⟨hi, ht⟩ := allocate_total hs
  by_cases hf : pool.freeListHead.isNone
  case neg =>
    rw [if_neg hf] at ht
    exact ⟨hr, hi.trans h.begun, ht ▸ h.base, ht ▸ h.total⟩
  case pos =>
    -- The object is one more than the pool has had slots for.
    have hfull := h.ready.liveCount_of_full <| Option.isNone_iff_eq_none.mp hf
    have hlive := liveCount_allocate h.ready.tiled ha hh
    have := h.base
    rw [if_pos hf, h.begun] at ht
    exact ⟨hr, hi.trans h.begun, by omega, .inr ⟨by omega, by omega⟩⟩

theorem deallocate (h : Bounded initial peak pool) (ptr : Option Addr) :
    Bounded initial peak (PoolCall.step pool (.deallocate ptr)).1 := by
  refine h.congr (h.ready.step _).wf ?_
  rw [Ready.step_deallocate]
  split
  case h_1 hs => exact .deallocate hs
  case h_2    => exact .refl _

theorem step (h : Bounded initial peak pool) (call : PoolCall T)
    (hp : (PoolCall.step pool call).1.liveCount ≤ peak) :
    Bounded initial peak (PoolCall.step pool call).1 := by
  cases call
  case allocate obj =>
    obtain ⟨pool', a, hs, _⟩ := allocate_spec obj h.ready.wf
    rw [Ready.step_allocate hs] at hp ⊢
    exact h.allocate hs hp
  case deallocate ptr => exact h.deallocate ptr
  case deallocateIndex idx =>
    rcases Nat.lt_or_ge idx pool.totalCapacity with hidx | hidx
    · obtain ⟨a, _, _, hs⟩ := h.ready.step_index hidx
      exact hs ▸ h.deallocate (some a)
    · exact Ready.step_beyond pool hidx ▸ h

theorem run (capacity : Nat) (calls : List (PoolCall T))
    (hp : ∀ k ≤ calls.length,
      (Machine.exec PoolCall.step (calls.take k) (MemPool.new capacity)).1.liveCount ≤ peak) :
    Bounded (if capacity > 0 then capacity else 256) peak
      (Machine.exec PoolCall.step calls (MemPool.new capacity)).1 := by
  induction calls using List.reverseRecOn
  case nil => exact .new capacity peak
  case append_singleton calls call hi =>
    have h := hi fun k hk => by
      have := hp k (by rw [List.length_append]; omega)
      rwa [List.take_append_of_le_length hk] at this
    have := hp (calls ++ [call]).length le_rfl
    rw [List.take_length, Machine.exec_snoc] at this
    rw [Machine.exec_snoc]
    exact h.step call this

end Bounded

theorem Ready.total_le (h : pool.Ready) (calls : List (PoolCall T)) :
    pool.totalCapacity ≤ (Machine.exec PoolCall.step calls pool).1.totalCapacity := by
  refine Machine.exec_invariant (P := fun p : MemPool T => p.Ready ∧ pool.totalCapacity ≤ p.totalCapacity)
    (fun {p} call hp => ⟨hp.left.step call, hp.right.trans ?_⟩) ⟨h, le_rfl⟩ |>.right
  rw [hp.left.tiled.total, (hp.left.step call).tiled.total]
  exact (hp.left.step_sizes call).sublist.sum_le_sum fun _ _ => Nat.zero_le _

noncomputable def peakCount (capacity : Nat) (calls : List (PoolCall T)) : Nat :=
  (Finset.range (calls.length + 1)).sup fun k =>
    (Machine.exec PoolCall.step (calls.take k) (MemPool.new capacity)).1.liveCount

-- A pool takes less than twice the place that it needs at its fullest, unless what it has from the beginning
-- is enough, in which case it does not grow. It is never too small.
theorem run_capacity (capacity : Nat) (calls : List (PoolCall T)) :
    let initial := if capacity > 0 then capacity else 256
    let peak := peakCount capacity calls
    let pool := (Machine.exec PoolCall.step calls (MemPool.new capacity)).1
    peak ≤ pool.totalCapacity ∧
      if peak ≤ initial
      then pool.totalCapacity = initial
      else pool.totalCapacity < peak + min peak maxChunkSize := by
  intro initial peak pool
  let after (calls : List (PoolCall T)) := (Machine.exec PoolCall.step calls (MemPool.new capacity)).1
  have h : Bounded initial peak pool := .run capacity calls fun k hk =>
    Finset.le_sup (f := fun k => (after (calls.take k)).liveCount) (Finset.mem_range_succ_iff.mpr hk)
  constructor
  case left =>
    refine Finset.sup_le fun k _ => ?_
    have hr : (after (calls.take k)).Ready := Machine.exec_invariant (fun call h => h.step call) (.new capacity)
    have hle := hr.total_le (calls.drop k)
    have hrun : pool = (Machine.exec PoolCall.step (calls.drop k) (after (calls.take k))).1 := by
      simp only [pool, after]
      conv_lhs => rw [← List.take_append_drop k calls, Machine.exec_append]
    exact hr.tiled.liveCount_le.trans <| hrun ▸ hle
  case right =>
    have := h.total
    split <;> omega

end

end MemPool
