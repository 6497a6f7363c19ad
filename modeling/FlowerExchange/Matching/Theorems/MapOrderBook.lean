import FlowerExchange.Common.Theorems.MemPool
import FlowerExchange.Matching.MapOrderBook

namespace MapOrderBook

open Function

variable {book : MapOrderBook} {pool : MemPool Order} {heap heap' : Addr → Option Order}
variable {lv : Levels} {t u maxTicks : Nat} {a : Addr}

structure Rep (maxTicks : Nat) (book : MapOrderBook) (heap : Addr → Option Order)
    (lv : Levels) : Prop where
  bound    : ∀ t, lv t ≠ [] → t < maxTicks
  levels   : ∀ t, book.priceLevels[t]? = if lv t = [] then none else some (lv t)
  live     : ∀ t, ∀ a ∈ lv t, (heap a).isSome
  nodup    : ∀ t, (lv t).Nodup
  disjoint : ∀ a t u, a ∈ lv t → a ∈ lv u → t = u

namespace Rep

theorem new : Rep maxTicks (MapOrderBook.new maxTicks) heap (fun _ => []) where
  bound := by simp
  levels := by simp [MapOrderBook.new]
  live := by simp
  nodup := by simp
  disjoint := by simp

theorem congr (rep : Rep maxTicks book heap lv)
    (h : ∀ t, ∀ a ∈ lv t, orderLinks heap' a = orderLinks heap a) : Rep maxTicks book heap' lv :=
  { rep with
    live := fun t a ha => by
      have : (heap' a).isSome = (heap a).isSome := by
        simpa [orderLinks] using congrArg Option.isSome <| h t a ha
      exact this ▸ rep.live t a ha }

theorem mem_iff (rep : Rep maxTicks book heap lv) : t ∈ book.priceLevels ↔ t ∈ lv.active := by
  rw [Std.TreeMap.mem_iff_isSome_getElem?, rep.levels]
  split <;> simp_all [Levels.active]

theorem first (rep : Rep maxTicks book heap lv) : IsBest (· < ·) lv.active book.findFirst := by
  rw [findFirst]
  split
  case h_1 h =>
    have := Std.TreeMap.isEmpty_iff_forall_not_mem.mp <| Std.TreeMap.minKey?_eq_none_iff.mp h
    exact .inl ⟨Set.eq_empty_iff_forall_notMem.mpr fun t ht => this t (rep.mem_iff.mpr ht), rfl⟩
  case h_2 t h =>
    have ⟨hm, hl⟩ := Std.TreeMap.minKey?_eq_some_iff_mem_and_forall.mp h
    refine .of_isLeast ⟨rep.mem_iff.mp hm, fun u hu => ?_⟩
    exact Nat.isLE_compare.mp <| hl u <| rep.mem_iff.mpr hu

theorem last (rep : Rep maxTicks book heap lv) : IsBest (· > ·) lv.active book.findLast := by
  rw [findLast]
  split
  case h_1 h =>
    have := Std.TreeMap.isEmpty_iff_forall_not_mem.mp <| Std.TreeMap.maxKey?_eq_none_iff.mp h
    exact .inl ⟨Set.eq_empty_iff_forall_notMem.mpr fun t ht => this t (rep.mem_iff.mpr ht), rfl⟩
  case h_2 t h =>
    have ⟨hm, hl⟩ := Std.TreeMap.maxKey?_eq_some_iff_mem_and_forall.mp h
    refine .of_isGreatest ⟨rep.mem_iff.mp hm, fun u hu => ?_⟩
    exact Nat.isLE_compare.mp <| hl u <| rep.mem_iff.mpr hu

end Rep

theorem add_spec (wf : pool.WF) (rep : Rep maxTicks book pool.heap lv) (ht : t < maxTicks)
    (ha : pool.heap a = some o) (hn : ∀ u, a ∉ lv u) : ∃ book' pool',
      (book.addOrderKnownValid pool t (some a) = .ok (book', pool')) ∧
      Rep maxTicks book' pool'.heap (update lv t (lv t ++ [a])) ∧
      Relinked (insert a { x | x ∈ lv t }) pool pool' := by
  have ⟨pool', hm, wf', hh⟩ := MemPool.modify_spec (fun o => { o with next := none }) wf ha
  have r : Relinked {a} pool pool' := .of_update wf' ha hh
  have hlevel : book.priceLevels[t]?.getD [] = lv t := by
    rw [rep.levels]
    split <;> simp_all
  have mem (b u) : b ∈ update lv t (lv t ++ [a]) u ↔ b ∈ lv u ∨ (b = a ∧ u = t) := by
    by_cases hu : u = t
    case neg => simp [hu]
    case pos => subst hu; simp
  refine ⟨⟨book.priceLevels.insert t (lv t ++ [a])⟩, pool', ?_, ?_, r.mono (by simp)⟩
  · simp [addOrderKnownValid, hm, hlevel]
  · exact {
      bound u hu := by
        by_cases he : u = t
        · exact he ▸ ht
        · exact rep.bound u (by simpa [he] using hu)
      levels u := by
        rw [Std.TreeMap.getElem?_insert]
        by_cases he : u = t
        · subst he; simp
        · simp [he, Ne.symm he, rep.levels]
      live u b hb := by
        rw [r.isSome_iff]
        rcases mem b u |>.mp hb with hb | ⟨rfl, rfl⟩
        · exact rep.live u b hb
        · simp [ha]
      nodup u := by
        by_cases he : u = t
        · subst he
          have := List.disjoint_singleton.mpr (hn u)
          simpa [List.nodup_append', rep.nodup u] using hn u
        · simpa [he] using rep.nodup u
      disjoint b u v hu hv := by
        rcases mem b u |>.mp hu with h₁ | ⟨h₁, e₁⟩ <;> rcases mem b v |>.mp hv with h₂ | ⟨h₂, e₂⟩
        · exact rep.disjoint b u v h₁ h₂
        · exact absurd (h₂ ▸ h₁) (hn u)
        · exact absurd (h₁ ▸ h₂) (hn v)
        · exact e₁.trans e₂.symm
    }

theorem peek_spec (rep : Rep maxTicks book heap lv) (t : Nat) :
    book.peekOrderKnownValid t = .ok (lv t).head? := by
  rw [peekOrderKnownValid, rep.levels]
  cases lv t <;> simp

theorem pop_nil (rep : Rep maxTicks book pool.heap lv) (hl : lv t = []) :
    book.popOrderKnownValid pool t = .ok (book, pool, none) := by
  simp [popOrderKnownValid, rep.levels, hl]

theorem pop_cons (wf : pool.WF) (rep : Rep maxTicks book pool.heap lv) (hl : lv t = a :: l) :
    ∃ book' pool',
      (book.popOrderKnownValid pool t = .ok (book', pool', some a)) ∧
      Rep maxTicks book' pool'.heap (update lv t l) ∧
      Relinked {a} pool pool' ∧ orderLinks pool'.heap a = some none := by
  have hsub (b u) (h : b ∈ update lv t l u) : b ∈ lv u := by
    by_cases hu : u = t
    · subst hu; simp_all
    · simpa [hu] using h
  have ⟨o, ho⟩ := Option.isSome_iff_exists.mp <| rep.live t a (by simp [hl])
  have ⟨pool', hm, wf', hh⟩ := MemPool.modify_spec (fun o => { o with next := none }) wf ho
  have r : Relinked {a} pool pool' := .of_update wf' ho hh
  let levels := if l.isEmpty then book.priceLevels.erase t else book.priceLevels.insert t l
  refine ⟨⟨levels⟩, pool', ?_, ?_, r, by simp [hh, orderLinks]⟩
  · simp only [popOrderKnownValid, rep.levels, hl, List.cons_ne_nil, if_false, hm, Except.ok_bind,
      levels]
    split <;> rfl
  · exact {
      bound u hu := rep.bound u fun he => hu <| List.eq_nil_iff_forall_not_mem.mpr fun b hb => by
        simpa [he] using hsub b u hb
      levels u := by
        simp only [levels]
        by_cases he : u = t
        · subst he; cases l <;> simp
        · split <;>
            simp [Std.TreeMap.getElem?_insert, Std.TreeMap.getElem?_erase, he, Ne.symm he, rep.levels]
      live u b hb := by
        rw [r.isSome_iff]
        exact rep.live u b <| hsub b u hb
      nodup u := by
        by_cases he : u = t
        · subst he; simpa using (hl ▸ rep.nodup u).of_cons
        · simpa [he] using rep.nodup u
      disjoint b u v hu hv := rep.disjoint b u v (hsub b u hu) (hsub b v hv)
    }

instance : LawfulOrderBook MapOrderBook where
  Rep := Rep
  rep_new := .new
  rep_bound rep := rep.bound _
  rep_live rep := rep.live _ _
  rep_nodup rep := rep.nodup _
  rep_disjoint rep := rep.disjoint _ _ _
  rep_congr := .congr
  add_null := rfl
  add_spec := add_spec
  peek_spec rep _ := peek_spec rep _
  pop_nil rep _ := pop_nil rep
  pop_cons wf rep _ := pop_cons wf rep
  first_spec := Rep.first
  last_spec := Rep.last

end MapOrderBook
