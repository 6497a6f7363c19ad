import FlowerExchange.Common.MemPool

namespace MemPool

open NodeSize Function

variable {T : Type} [NodeSize T] {pool pool' : MemPool T} {a b : Addr} {n m : Node T} {o : T}

theorem slotAddr_div (c i : Nat) : (slotAddr T c i).offset / sizeofNode T = i :=
  Nat.mul_div_cancel i sizeofNode_pos

theorem slotAddr_mod (c i : Nat) : (slotAddr T c i).offset % sizeofNode T = 0 :=
  Nat.mul_mod_left ..

theorem eq_slotAddr (h : a.offset % sizeofNode T = 0) :
    a = slotAddr T a.chunk (a.offset / sizeofNode T) := by
  ext1
  · rfl
  · exact (Nat.div_mul_cancel <| Nat.dvd_of_mod_eq_zero h).symm

theorem node?_eq_some_iff :
    (pool.node? a = some n) ↔ (a.offset % sizeofNode T = 0 ∧
      ∃ chunk, pool.chunks[a.chunk]? = some chunk ∧ chunk[a.offset / sizeofNode T]? = some n) := by
  simp only [node?]
  split <;> simp_all [Option.bind_eq_some_iff]

theorem node?_setNode_self (h : pool.node? a = some m) : (pool.setNode a n).node? a = some n := by
  have ⟨ha, chunk, hc, hm⟩ := node?_eq_some_iff.mp h
  have hl := (List.getElem?_eq_some_iff.mp hm).choose
  exact node?_eq_some_iff.mpr ⟨ha, _, by simp [setNode, hc], List.getElem?_set_self hl⟩

theorem node?_setNode_ne (h : pool.node? a = some m) (hb : b ≠ a) :
    (pool.setNode a n).node? b = pool.node? b := by
  have ha := (node?_eq_some_iff.mp h).left
  simp only [node?, setNode]
  split
  case isFalse => rfl
  case isTrue hm =>
    by_cases hc : b.chunk = a.chunk
    case neg => simp [Ne.symm hc]
    case pos =>
      have hd : a.offset / sizeofNode T ≠ b.offset / sizeofNode T := fun hd =>
        hb <| (eq_slotAddr (T := T) hm).trans <| hc ▸ hd ▸ (eq_slotAddr ha).symm
      rw [hc, List.getElem?_modify]
      cases pool.chunks[a.chunk]? <;> simp [List.getElem?_set_ne hd]

theorem heap_eq_some_iff : (pool.heap a = some o) ↔ ∃ n, pool.node? a = some n ∧ !n.isFree ∧ n.obj = o := by
  simp only [heap, Option.bind_eq_some_iff]
  refine exists_congr fun n => and_congr_right fun _ => ?_
  cases n.isFree <;> simp

theorem freeLinks_eq_some_iff :
    (pool.freeLinks a = some l) ↔ ∃ n, pool.node? a = some n ∧ n.isFree ∧ n.next = l := by
  simp only [freeLinks, Option.bind_eq_some_iff]
  refine exists_congr fun n => and_congr_right fun _ => ?_
  cases n.isFree <;> simp

theorem heap_of_free (h : (pool.freeLinks a).isSome) : pool.heap a = none := by
  have ⟨l, h⟩ := Option.isSome_iff_exists.mp h
  have ⟨n, hn, hf, _⟩ := freeLinks_eq_some_iff.mp h
  simp [heap, hn, hf]

theorem freeLinks_of_heap (h : pool.heap a = some o) : pool.freeLinks a = none := by
  have ⟨n, hn, hf, _⟩ := heap_eq_some_iff.mp h
  simp_all [freeLinks]

theorem heap_congr (h : pool'.node? a = pool.node? a) : pool'.heap a = pool.heap a := by
  simp [heap, h]

theorem freeLinks_congr (h : pool'.node? a = pool.node? a) : pool'.freeLinks a = pool.freeLinks a := by
  simp [freeLinks, h]

theorem read_eq (h : pool.heap a = some o) : pool.read a = .ok o := by
  have ⟨n, hn, hf, ho⟩ := heap_eq_some_iff.mp h
  simp_all [read]

theorem read_modify_ne (h : pool.modify a f = .ok pool') (hb : b ≠ a) : pool'.read b = pool.read b := by
  simp only [modify] at h
  split at h
  case h_1 => contradiction
  case h_2 n hn =>
    split at h
    case isTrue  => contradiction
    case isFalse =>
      cases h
      simp only [read, node?_setNode_ne hn hb]

theorem modify_spec (f : T → T) (wf : pool.WF) (h : pool.heap a = some o) :
    ∃ pool', (pool.modify a f = .ok pool') ∧ pool'.WF ∧ pool'.heap = update pool.heap a (some (f o)) := by
  have ⟨n, hn, hf, ho⟩ := heap_eq_some_iff.mp h
  let pool' := pool.setNode a { n with obj := f n.obj }
  have hs : pool'.node? a = some { n with obj := f n.obj } := node?_setNode_self hn
  have hne : ∀ b, b ≠ a → pool'.node? b = pool.node? b := fun b hb => node?_setNode_ne hn hb
  have hl : pool'.freeLinks = pool.freeLinks := by
    ext1 b
    by_cases hb : b = a
    case neg => exact freeLinks_congr <| hne b hb
    case pos => subst hb; simp_all [freeLinks]
  refine ⟨pool', by simp_all [modify, pool'], ⟨wf.positive, hl ▸ wf.free⟩, ?_⟩
  ext1 b
  by_cases hb : b = a
  case neg => rw [update_of_ne hb, heap_congr <| hne b hb]
  case pos => subst hb; simp_all [heap]

theorem findNode_eq (h : a.offset % sizeofNode T = 0) {chunks : List (List (Node T))} {ci : Nat} :
    (hc : ci ≤ a.chunk) → (hn : ∃ chunk, chunks[a.chunk - ci]? = some chunk ∧
      a.offset / sizeofNode T < chunk.length) → findNode a chunks ci = some a := by
  intro hc ⟨chunk, hn, hl⟩
  induction chunks generalizing ci
  case nil => simp at hn
  case cons c cs hi =>
    rcases Nat.eq_or_lt_of_le hc with he | hlt
    case inr =>
      have hn' : cs[a.chunk - (ci + 1)]? = some chunk := by
        rw [show a.chunk - ci = a.chunk - (ci + 1) + 1 by omega] at hn
        simpa using hn
      have hne : a.chunk ≠ ci := by omega
      simp [findNode, hne, hi hlt hn']
    case inl =>
      have hce : c = chunk := by simpa [he] using hn
      subst hce he
      have ho : ¬a.offset ≥ c.length * sizeofNode T := by
        rw [ge_iff_le, Nat.not_le]
        exact (Nat.div_lt_iff_lt_mul sizeofNode_pos).mp hl
      have hne : ¬c.isEmpty := by
        simp only [List.isEmpty_iff]
        rintro rfl
        simp at hl
      simp [findNode, hne, ho, h, Nat.not_le.mpr hl, ← eq_slotAddr h]

theorem deallocate_spec (wf : pool.WF) (h : pool.heap a = some o) :
    ∃ pool', (pool.deallocate (some a) = .ok pool') ∧ pool'.WF ∧ pool'.heap = update pool.heap a none := by
  have ⟨n, hn, hf, ho⟩ := heap_eq_some_iff.mp h
  have ⟨ha, chunk, hc, hm⟩ := node?_eq_some_iff.mp hn
  have hfind : findNode a pool.chunks 0 = some a :=
    findNode_eq ha (Nat.zero_le _) ⟨chunk, hc, (List.getElem?_eq_some_iff.mp hm).choose⟩
  let freed : Node T := ⟨n.obj, true, pool.freeListHead⟩
  let pool' := { pool.setNode a freed with freeListHead := some a }
  have hs : pool'.node? a = some freed := node?_setNode_self hn
  have hne : ∀ b, b ≠ a → pool'.node? b = pool.node? b := fun b hb => node?_setNode_ne hn hb
  have ⟨l, hl, hall⟩ := wf.free
  have hal : a ∉ l := fun m => by simpa [freeLinks_of_heap h] using hl.mem_isSome m
  refine ⟨pool', by simp_all [deallocate, pool', freed], ⟨wf.positive, a :: l, ?_, fun b hb => ?_⟩, ?_⟩
  · refine .cons (n := pool.freeListHead) (by simp [freeLinks, hs, freed]) <| hl.congr fun b hb => ?_
    exact freeLinks_congr <| hne b fun he => hal (he ▸ hb)
  · by_cases he : b = a
    case pos => exact he ▸ .head _
    case neg => exact .tail _ <| hall b <| freeLinks_congr (hne b he) ▸ hb
  · ext1 b
    by_cases hb : b = a
    case neg => rw [update_of_ne hb, heap_congr <| hne b hb]
    case pos => subst hb; simp [heap, hs, freed]

section

variable [Inhabited T] {count : Nat}

theorem node?_addChunk_of_lt (h : a.chunk < pool.chunks.length) :
    (pool.addChunk count).node? a = pool.node? a := by
  simp [node?, addChunk, List.getElem?_append_left h]

omit [Inhabited T] in
theorem node?_of_ge (h : pool.chunks.length ≤ a.chunk) : pool.node? a = none := by
  simp [node?, List.getElem?_eq_none h]

variable (pool) in
theorem node?_addChunk_slot {i : Nat} (h : i < count) :
    (pool.addChunk count).node? (slotAddr T pool.chunks.length i) = some ⟨default, true,
      if i + 1 < count then some (slotAddr T pool.chunks.length (i + 1)) else pool.freeListHead⟩ := by
  refine node?_eq_some_iff.mpr ⟨slotAddr_mod .., _, List.getElem?_concat_length, ?_⟩
  simp [slotAddr_div, h]

theorem node?_addChunk_of_ge (h : pool.chunks.length ≤ a.chunk)
    (hn : (pool.addChunk count).node? a = some n) :
    n.isFree ∧ ∃ i < count, a = slotAddr T pool.chunks.length i := by
  have ⟨ha, chunk, hc, hm⟩ := node?_eq_some_iff.mp hn
  have hl := (List.getElem?_eq_some_iff.mp hc).choose
  simp only [addChunk, List.length_append, List.length_singleton] at hl
  have he : a.chunk = pool.chunks.length := by omega
  simp only [addChunk, he, List.getElem?_concat_length, Option.some.injEq] at hc
  subst hc
  simp only [List.getElem?_map, Option.map_eq_some_iff, List.getElem?_eq_some_iff, List.getElem_range,
    List.length_range] at hm
  have ⟨i, ⟨hlt, hi⟩, hnode⟩ := hm
  exact ⟨hnode ▸ rfl, _, hlt, he ▸ eq_slotAddr ha⟩

theorem heap_addChunk : (pool.addChunk count).heap = pool.heap := by
  ext1 a
  rcases Nat.lt_or_ge a.chunk pool.chunks.length with h | h
  · exact heap_congr <| node?_addChunk_of_lt h
  · cases hn : (pool.addChunk count).node? a
    case none => simp [heap, hn, node?_of_ge h]
    case some => simp [heap, hn, node?_of_ge h, (node?_addChunk_of_ge h hn).left]

theorem addChunk_wf (hp : 0 < pool.initialCapacity) (hc : 0 < count) (hh : pool.freeListHead = none)
    (hf : ∀ a, pool.freeLinks a = none) : (pool.addChunk count).WF := by
  let slot := slotAddr T pool.chunks.length
  refine ⟨hp, (List.range count).map slot, ?_, fun a ha => ?_⟩
  · have hd : (pool.addChunk count).freeListHead = ((List.range count).map slot).head? := by
      simp [addChunk, List.head?_range, Nat.ne_of_gt hc, slot]
    rw [hd]
    refine Linked.of_getElem fun i hi => ?_
    have hi : i < count := by simpa using hi
    have hs := node?_addChunk_slot pool hi
    simp only [List.getElem_map, List.getElem_range, List.getElem?_map]
    rcases Nat.lt_or_ge (i + 1) count with hn | hn
    · simp [freeLinks, hs, hn, slot]
    · simp [freeLinks, hs, Nat.not_lt.mpr hn, hh, slot]
  · have ⟨l, ha⟩ := Option.isSome_iff_exists.mp ha
    have ⟨n, hn, hfree, hl⟩ := freeLinks_eq_some_iff.mp ha
    rcases Nat.lt_or_ge a.chunk pool.chunks.length with h | h
    · rw [node?_addChunk_of_lt h] at hn
      exact absurd (freeLinks_eq_some_iff.mpr ⟨n, hn, hfree, hl⟩) (by simp [hf])
    · have ⟨i, hi, he⟩ := (node?_addChunk_of_ge h hn).right
      exact he ▸ List.mem_map_of_mem (List.mem_range.mpr hi)

theorem new_wf (capacity : Nat) : (MemPool.new capacity : MemPool T).WF := by
  have hc : 0 < if capacity > 0 then capacity else 256 := by split <;> omega
  exact addChunk_wf hc hc rfl fun a => by simp [freeLinks, node?]

theorem heap_new (capacity : Nat) (a : Addr) : (MemPool.new capacity : MemPool T).heap a = none := by
  rw [MemPool.new, heap_addChunk]
  simp [heap, node?]

theorem grow_wf (wf : pool.WF) (hh : pool.freeListHead = none) : pool.grow.WF := by
  have hp := wf.positive
  refine addChunk_wf hp (by simp [maxChunkSize]; omega) hh fun a => ?_
  have ⟨l, hl, hall⟩ := wf.free
  have hn := Linked.none_iff.mp (hh ▸ hl)
  by_contra hc
  simpa [hn] using hall a (Option.isSome_iff_ne_none.mpr hc)

theorem allocate_spec (obj : T) (wf : pool.WF) :
    ∃ pool' a, (pool.allocate obj = .ok (pool', a)) ∧ pool'.WF ∧ (pool.heap a = none) ∧
      (pool'.heap = update pool.heap a (some obj)) := by
  obtain ⟨grown, hg⟩ : ∃ grown, grown = if pool.freeListHead.isNone then pool.grow else pool := ⟨_, rfl⟩
  have ⟨hwf, hheap, hsome⟩ : grown.WF ∧ grown.heap = pool.heap ∧ grown.freeListHead.isSome := by
    by_cases hh : pool.freeListHead = none
    case pos =>
      have hg : grown = pool.grow := by simp [hg, hh]
      exact ⟨hg ▸ grow_wf wf hh, hg ▸ heap_addChunk, by simp [hg, grow, addChunk]⟩
    case neg =>
      have hg : grown = pool := by simp [hg, hh]
      exact ⟨hg ▸ wf, hg ▸ rfl, by simpa [hg, Option.isSome_iff_ne_none] using hh⟩
  have ⟨a, hh⟩ := Option.isSome_iff_exists.mp hsome
  have ⟨l, hl, hall⟩ := hwf.free
  have ⟨next, l', hle, hlinks, hl'⟩ := (hh ▸ hl).some_elim
  have ⟨n, hn, hfree, hnext⟩ := freeLinks_eq_some_iff.mp hlinks
  let pool' := { grown.setNode a ⟨obj, false, none⟩ with freeListHead := n.next }
  have hs : pool'.node? a = some ⟨obj, false, none⟩ := node?_setNode_self hn
  have hne : ∀ b, b ≠ a → pool'.node? b = grown.node? b := fun b hb => node?_setNode_ne hn hb
  have hal : a ∉ l' := (List.nodup_cons.mp <| hle ▸ hl.nodup).left
  refine ⟨pool', a, ?_, ⟨hwf.positive, l', ?_, fun b hb => ?_⟩, ?_, ?_⟩
  · simp only [allocate, ← hg, hh, hn, pool']
  · refine (hnext ▸ hl' : Linked grown.freeLinks n.next l').congr fun b hb => ?_
    exact freeLinks_congr <| hne b fun he => hal (he ▸ hb)
  · by_cases he : b = a
    case pos => subst he; simp [freeLinks, hs] at hb
    case neg =>
      have hm := hall b <| freeLinks_congr (hne b he) ▸ hb
      simpa [hle, he] using hm
  · rw [← hheap]
    exact heap_of_free (by simp [hlinks])
  · ext1 b
    by_cases hb : b = a
    case neg => rw [update_of_ne hb, heap_congr <| hne b hb, hheap]
    case pos => subst hb; simp [heap, hs]

end

end MemPool
