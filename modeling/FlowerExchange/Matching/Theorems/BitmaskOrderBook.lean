import FlowerExchange.Lib.WordMask
import FlowerExchange.Common.Theorems.MemPool
import FlowerExchange.Matching.BitmaskOrderBook

namespace BitmaskOrderBook

open WordMask Function

variable {book : BitmaskOrderBook} {pool : MemPool Order} {heap heap' : Addr → Option Order}
variable {lv : Levels} {t u maxTicks : Nat} {a : Addr}

theorem lt_word_iff {j : Nat} (_ : j < 64) : (t < t / 64 * 64 + j) ↔ (t % 64 < j) := by
  omega

theorem word_lt_iff {j : Nat} (_ : j < 64) : (t / 64 * 64 + j < t) ↔ (j < t % 64) := by
  omega

theorem findNextFrom_spec (book : BitmaskOrderBook) (t : Nat) :
    IsBest (· < ·) { u | t < u ∧ Mem book.mask u } (book.findNextFrom t) := by
  have empty (h : ∀ u, t < u → ¬Mem book.mask u) : { u | t < u ∧ Mem book.mask u } = ∅ :=
    Set.eq_empty_iff_forall_notMem.mpr fun u ⟨ht, hu⟩ => h u ht hu
  simp only [findNextFrom]
  split
  case h_1 hn =>
    refine .inl ⟨empty fun u ht hu => ?_, rfl⟩
    have hl := List.getElem?_eq_none_iff.mp hn
    have := hu.div_lt
    omega
  case h_2 bits hw =>
    -- The members above `t` in the word of `t` itself.
    obtain ⟨b, hb⟩ : ∃ b, b = if t % 64 < 63
      then bits &&& ~~~((1#64 <<< (t % 64 + 1)) - 1#64) else 0#64 := ⟨_, rfl⟩
    have hmem : ∀ j < 64, b.getLsbD j = true ↔
        (t < t / 64 * 64 + j ∧ Mem book.mask (t / 64 * 64 + j)) := by
      intro j hj
      rw [mem_word hw hj, lt_word_iff hj, hb]
      split
      case isTrue h  => rw [BitVec.getLsbD_keep_above (by omega)]; simp [and_comm]
      case isFalse h => simp; omega
    have hle : ∀ u, t < u → Mem book.mask u → t / 64 ≤ u / 64 := fun u _ _ => by omega
    rw [← hb]
    split
    case isTrue hz =>
      exact_mod_cast IsBest.of_isLeast <| isLeast_word hmem hle hz
    case isFalse hz =>
      have hz : b = 0#64 := not_not.mp hz
      have hword : ∀ u, t < u → Mem book.mask u → t / 64 < u / 64 := by
        intro u ht hu
        by_contra hc
        have hd : t / 64 * 64 + u % 64 = u := by omega
        have := hmem (u % 64) (by omega) |>.mpr ⟨by omega, hd.symm ▸ hu⟩
        simp [hz] at this
      split
      case h_1 hn =>
        refine .inl ⟨empty fun u ht hu => ?_, rfl⟩
        have ⟨x, hx, hbit⟩ := hu
        have hlt := hword u ht hu
        have hx' : x ∈ book.mask.drop (t / 64 + 1) :=
          List.mem_of_getElem? (i := u / 64 - (t / 64 + 1)) <| by
            rw [List.getElem?_drop, show t / 64 + 1 + (u / 64 - (t / 64 + 1)) = u / 64 by omega, hx]
        have := List.findIdx?_eq_none_iff.mp hn x hx'
        simp_all
      case h_2 k hk =>
        have ⟨hl, hne, hbelow⟩ := List.findIdx?_eq_some_iff_getElem.mp hk
        simp only [List.length_drop] at hl
        have hi : t / 64 + 1 + k < book.mask.length := by omega
        have hget : book.mask[t / 64 + 1 + k]? = some book.mask[t / 64 + 1 + k] :=
          List.getElem?_eq_getElem hi
        simp only [List.getElem_drop, decide_eq_true_eq] at hne hbelow
        rw [List.getD_eq_getElem _ _ hi]
        have hmem : ∀ j < 64, book.mask[t / 64 + 1 + k].getLsbD j = true ↔
            (t < (t / 64 + 1 + k) * 64 + j ∧ Mem book.mask ((t / 64 + 1 + k) * 64 + j)) := by
          intro j hj
          have : t < (t / 64 + 1 + k) * 64 + j := by omega
          simp [mem_word hget hj, this]
        have hle : ∀ u, t < u → Mem book.mask u → t / 64 + 1 + k ≤ u / 64 := by
          intro u ht hu
          by_contra hc
          have hlt := hword u ht hu
          have hz := hbelow (u / 64 - (t / 64 + 1)) (by omega)
          simp only [not_not, show t / 64 + 1 + (u / 64 - (t / 64 + 1)) = u / 64 by omega] at hz
          exact not_mem_of_zero_word (List.getElem?_eq_some_iff.mpr ⟨hu.div_lt, hz⟩) hu
        exact_mod_cast IsBest.of_isLeast <| isLeast_word hmem hle hne

theorem findPrevWord_spec {i : Nat} {mask : List (BitVec 64)} (hi : i ≤ mask.length)
    (hl : ∀ u, u < t → Mem mask u → u / 64 < i) (ht : i ≤ t / 64) :
    IsBest (· > ·) { u | u < t ∧ Mem mask u } (findPrevWord mask i) := by
  induction i
  case zero =>
    exact .inl ⟨Set.eq_empty_iff_forall_notMem.mpr fun u ⟨ht, hu⟩ => by simpa using hl u ht hu, rfl⟩
  case succ i hi' =>
    have hget : mask[i]? = some mask[i] := List.getElem?_eq_getElem hi
    rw [findPrevWord, List.getD_eq_getElem _ _ hi]
    split
    case isTrue hz =>
      have hmem : ∀ j < 64, mask[i].getLsbD j = true ↔ (i * 64 + j < t ∧ Mem mask (i * 64 + j)) := by
        intro j hj
        have : i * 64 + j < t := by omega
        simp [mem_word hget hj, this]
      have hle : ∀ u, u < t → Mem mask u → u / 64 ≤ i :=
        fun u ht hu => Nat.le_of_lt_succ <| hl u ht hu
      exact_mod_cast IsBest.of_isGreatest <| isGreatest_word hmem hle hz
    case isFalse hz =>
      refine hi' (by omega) (fun u ht hu => ?_) (by omega)
      refine lt_of_le_of_ne (Nat.le_of_lt_succ <| hl u ht hu) fun he => ?_
      exact not_mem_of_zero_word (by rw [he, hget, not_not.mp hz]) hu

-- For a tick beyond the end of the mask, this does not hold: the search then leaves out a part of the
-- last word.
theorem findPrevFrom_spec (h : t / 64 < book.mask.length) :
    IsBest (· > ·) { u | u < t ∧ Mem book.mask u } (book.findPrevFrom t) := by
  have hne : ¬book.mask.isEmpty := by
    simp only [List.isEmpty_iff]
    intro he
    simp [he] at h
  have hget : book.mask[t / 64]? = some book.mask[t / 64] := List.getElem?_eq_getElem h
  simp only [findPrevFrom, hne, if_neg (Nat.not_le.mpr h), List.getD_eq_getElem _ _ h]
  obtain ⟨b, hb⟩ : ∃ b, b = if t % 64 > 0
    then book.mask[t / 64] &&& ((1#64 <<< (t % 64)) - 1#64) else 0#64 := ⟨_, rfl⟩
  have hmem : ∀ j < 64, b.getLsbD j = true ↔
      (t / 64 * 64 + j < t ∧ Mem book.mask (t / 64 * 64 + j)) := by
    intro j hj
    rw [mem_word hget hj, word_lt_iff hj, hb]
    split
    case isTrue h  => rw [BitVec.getLsbD_keep_below (by omega)]; simp [and_comm]
    case isFalse h => simp; omega
  rw [← hb]
  simp only [Bool.false_eq_true, if_false]
  split
  case isTrue hz =>
    have hle : ∀ u, u < t → Mem book.mask u → u / 64 ≤ t / 64 := fun u _ _ => by omega
    exact_mod_cast IsBest.of_isGreatest <| isGreatest_word hmem hle hz
  case isFalse hz =>
    refine findPrevWord_spec h.le (fun u ht hu => ?_) le_rfl
    by_contra hc
    have hd : t / 64 * 64 + u % 64 = u := by omega
    have := hmem (u % 64) (by omega) |>.mpr ⟨by omega, hd.symm ▸ hu⟩
    simp [not_not.mp hz] at this

structure Rep (maxTicks : Nat) (book : BitmaskOrderBook) (heap : Addr → Option Order)
    (lv : Levels) : Prop where
  words    : book.mask.length = (maxTicks + 63) / 64
  bound    : ∀ t, lv t ≠ [] → t < maxTicks
  heads    : ∀ t, book.priceLevels[t]? = if t < maxTicks then some (lv t).head? else none
  tails    : ∀ t, book.priceLevelTails[t]? = if t < maxTicks then some (lv t).getLast? else none
  linked   : ∀ t, Linked (orderLinks heap) (lv t).head? (lv t)
  disjoint : ∀ a t u, a ∈ lv t → a ∈ lv u → t = u
  active   : ∀ t, Mem book.mask t ↔ t ∈ lv.active
  first    : IsBest (· < ·) lv.active book.bestFirst
  last     : IsBest (· > ·) lv.active book.bestLast

namespace Rep

theorem new : Rep maxTicks (BitmaskOrderBook.new maxTicks) heap (fun _ => []) where
  words := by simp [BitmaskOrderBook.new]
  bound := by simp
  heads t := by simp [BitmaskOrderBook.new, List.getElem?_replicate]
  tails t := by simp [BitmaskOrderBook.new, List.getElem?_replicate]
  linked t := .nil
  disjoint := by simp
  active t := by simp [BitmaskOrderBook.new, Levels.active, not_mem_replicate_zero]
  first := .inl ⟨by simp [Levels.active], rfl⟩
  last := .inl ⟨by simp [Levels.active], rfl⟩

theorem congr (rep : Rep maxTicks book heap lv)
    (h : ∀ t, ∀ a ∈ lv t, orderLinks heap' a = orderLinks heap a) : Rep maxTicks book heap' lv :=
  { rep with linked := fun t => rep.linked t |>.congr (h t) }

theorem live (rep : Rep maxTicks book heap lv) (h : a ∈ lv t) : (heap a).isSome := by
  simpa [orderLinks] using rep.linked t |>.mem_isSome h

theorem word_lt (rep : Rep maxTicks book heap lv) (h : t < maxTicks) : t / 64 < book.mask.length := by
  rw [rep.words]
  omega

theorem ne_of_mem (hn : ∀ u, a ∉ lv u) (hb : b ∈ lv u) : b ≠ a :=
  fun h => hn u (h ▸ hb)

theorem bound_update (rep : Rep maxTicks book heap lv) (ht : t < maxTicks) :
    ∀ u, update lv t l u ≠ [] → u < maxTicks := by
  intro u hu
  by_cases he : u = t
  · exact he ▸ ht
  · exact rep.bound u (by simpa [he] using hu)

theorem head_next (rep : Rep maxTicks book heap lv) (hl : lv t = a :: l) :
    ∃ o, (heap a = some o) ∧ (o.next = l.head?) ∧ Linked (orderLinks heap) l.head? l := by
  have ⟨n, _, he, hn, k⟩ := (hl ▸ rep.linked t : Linked _ (some a) (a :: l)).some_elim
  injection he with _ he
  subst he
  have ⟨o, ho, hon⟩ := Option.map_eq_some_iff.mp hn
  exact ⟨o, ho, hon.trans k.head_eq, k.head_eq ▸ k⟩

theorem disjoint_sub (rep : Rep maxTicks book heap lv) (hl : l ⊆ lv t) :
    ∀ b u v, b ∈ update lv t l u → b ∈ update lv t l v → u = v := by
  have mem (b u) (h : b ∈ update lv t l u) : b ∈ lv u := by
    by_cases hu : u = t
    · subst hu; exact hl (by simpa using h)
    · simpa [hu] using h
  exact fun b u v hu hv => rep.disjoint b u v (mem b u hu) (mem b v hv)

theorem linked_cut (rep : Rep maxTicks book heap lv) (hl : lv t = a :: l)
    (hc : ∀ b ≠ a, orderLinks heap' b = orderLinks heap b) (u : Nat) :
    Linked (orderLinks heap') (update lv t l u).head? (update lv t l u) := by
  by_cases he : u = t
  case pos =>
    subst he
    have ⟨_, _, _, k⟩ := rep.head_next hl
    have hd := (List.nodup_cons.mp <| hl ▸ (rep.linked u).nodup).left
    simpa using k.congr fun b hb => hc b fun h => hd (h ▸ hb)
  case neg =>
    simp only [update_of_ne he]
    refine rep.linked u |>.congr fun b hb => hc b fun h => ?_
    exact he <| rep.disjoint a u t (h ▸ hb) (hl ▸ .head _)

theorem disjoint_add (rep : Rep maxTicks book heap lv) (hn : ∀ u, a ∉ lv u) :
    ∀ b u v, b ∈ update lv t (lv t ++ [a]) u → b ∈ update lv t (lv t ++ [a]) v → u = v := by
  have mem (b u) (h : b ∈ update lv t (lv t ++ [a]) u) : b ∈ lv u ∨ (b = a ∧ u = t) := by
    by_cases hu : u = t
    case neg => exact .inl (by simpa [hu] using h)
    case pos => subst hu; simpa using h
  intro b u v hu hv
  rcases mem b u hu with h₁ | ⟨h₁, e₁⟩ <;> rcases mem b v hv with h₂ | ⟨h₂, e₂⟩
  · exact rep.disjoint b u v h₁ h₂
  · exact absurd (h₂ ▸ h₁) (hn u)
  · exact absurd (h₁ ▸ h₂) (hn v)
  · exact e₁.trans e₂.symm

end Rep

open BitmaskOrderBook.Rep

theorem add_first_spec (wf : pool.WF) (rep : Rep maxTicks book pool.heap lv) (ht : t < maxTicks)
    (ha : pool.heap a = some o) (hn : ∀ u, a ∉ lv u) (hl : lv t = []) : ∃ book' pool',
      (book.addOrderKnownValid pool t (some a) = .ok (book', pool')) ∧
      Rep maxTicks book' pool'.heap (update lv t [a]) ∧ Relinked {a} pool pool' := by
  have ⟨pool', hm, wf', hh⟩ := MemPool.modify_spec (fun o => { o with next := none }) wf ha
  have hw := rep.word_lt ht
  have hlevels : book.priceLevels[t]? = some none := by simp [rep.heads t, ht, hl]
  have htails : book.priceLevelTails[t]? = some none := by simp [rep.tails t, ht, hl]
  have hlt := (List.getElem?_eq_some_iff.mp hlevels).choose
  have hlt' := (List.getElem?_eq_some_iff.mp htails).choose
  have hbits : book.mask[t / 64]? = some book.mask[t / 64] := List.getElem?_eq_getElem hw
  let book' : BitmaskOrderBook := {
    priceLevels     := book.priceLevels.set t (some a)
    priceLevelTails := book.priceLevelTails.set t (some a)
    mask            := book.mask.set (t / 64) (book.mask[t / 64] ||| 1#64 <<< (t % 64))
    bestFirst       := if book.bestFirst < 0 ∨ (t : Int) < book.bestFirst then t else book.bestFirst
    bestLast        := if book.bestLast < 0 ∨ (t : Int) > book.bestLast then t else book.bestLast
  }
  refine ⟨book', pool', ?_, ?_, .of_update wf' ha hh⟩
  · simp [addOrderKnownValid, hm, elementAt_eq hlevels, setElementAt_eq hlt, setElementAt_eq hlt',
      elementAt_eq hbits, setElementAt_eq hw, book']
  · exact {
      words := by simp [rep.words, book']
      bound := rep.bound_update ht
      heads u := by
        by_cases he : u = t
        · subst he; simp [List.getElem?_set_self hlt, ht, book']
        · simp [List.getElem?_set_ne (Ne.symm he), he, rep.heads u, book']
      tails u := by
        by_cases he : u = t
        · subst he; simp [List.getElem?_set_self hlt', ht, book']
        · simp [List.getElem?_set_ne (Ne.symm he), he, rep.tails u, book']
      linked u := by
        rw [hh, orderLinks_update]
        by_cases he : u = t
        · subst he; simpa using .cons (by simp) .nil
        · simp only [update_of_ne he]
          exact rep.linked u |>.congr fun b hb => update_of_ne (ne_of_mem hn hb) ..
      disjoint := by simpa [hl] using rep.disjoint_add (t := t) hn
      active u := by
        rw [Levels.active_update_cons _ _ (by simp), mem_insert (by decide) hbits, rep.active]
        rfl
      first := by
        have : (book.bestFirst < 0 ∨ (t : Int) < book.bestFirst) ↔
            (book.bestFirst < 0 ∨ t < book.bestFirst.toNat) := by omega
        simp only [Levels.active_update_cons _ _ (List.cons_ne_nil a []), book', this]
        exact rep.first.insert
      last := by
        have : (book.bestLast < 0 ∨ (t : Int) > book.bestLast) ↔
            (book.bestLast < 0 ∨ t > book.bestLast.toNat) := by omega
        simp only [Levels.active_update_cons _ _ (List.cons_ne_nil a []), book', this]
        exact rep.last.insert
    }

theorem add_behind_spec (wf : pool.WF) (rep : Rep maxTicks book pool.heap lv) (ht : t < maxTicks)
    (ha : pool.heap a = some o) (hn : ∀ u, a ∉ lv u) (hl : lv t ≠ []) : ∃ book' pool',
      (book.addOrderKnownValid pool t (some a) = .ok (book', pool')) ∧
      Rep maxTicks book' pool'.heap (update lv t (lv t ++ [a])) ∧
      Relinked (insert a { x | x ∈ lv t }) pool pool' := by
  have ⟨z, hz⟩ : ∃ z, (lv t).getLast? = some z := ⟨_, List.getLast?_eq_some_getLast hl⟩
  have ⟨h, hh⟩ : ∃ h, (lv t).head? = some h := ⟨_, List.head?_eq_some_head hl⟩
  have hzm : z ∈ lv t := List.mem_of_getLast? hz
  have hza : z ≠ a := ne_of_mem hn hzm
  have ⟨oz, hoz⟩ := Option.isSome_iff_exists.mp <| rep.live hzm
  have ⟨pool₁, hm₁, wf₁, hh₁⟩ := MemPool.modify_spec (fun o => { o with next := none }) wf ha
  have hoz₁ : pool₁.heap z = some oz := by rw [hh₁, update_of_ne hza, hoz]
  have ⟨pool₂, hm₂, wf₂, hh₂⟩ := MemPool.modify_spec (fun o => { o with next := some a }) wf₁ hoz₁
  have hlevels : book.priceLevels[t]? = some (some h) := by simp [rep.heads t, ht, hh]
  have htails : book.priceLevelTails[t]? = some (some z) := by simp [rep.tails t, ht, hz]
  have hlt := (List.getElem?_eq_some_iff.mp htails).choose
  have hlinks : orderLinks pool₂.heap =
      update (update (orderLinks pool.heap) a (some none)) z (some (some a)) := by
    rw [hh₂, orderLinks_update, hh₁, orderLinks_update]
  let book' := { book with priceLevelTails := book.priceLevelTails.set t (some a) }
  refine ⟨book', pool₂, ?_, ?_, ?_⟩
  · simp [addOrderKnownValid, hm₁, hm₂, elementAt_eq hlevels, elementAt_eq htails,
      setElementAt_eq hlt, book']
  · exact {
      words := rep.words
      bound := rep.bound_update ht
      heads u := by
        by_cases he : u = t
        · subst he; simp [rep.heads u, ht, hh, book']
        · simp [he, rep.heads u, book']
      tails u := by
        by_cases he : u = t
        · subst he; simp [List.getElem?_set_self hlt, ht, book']
        · simp [List.getElem?_set_ne (Ne.symm he), he, rep.tails u, book']
      linked u := by
        rw [hlinks]
        by_cases he : u = t
        case pos =>
          subst he
          have hend : update (update (orderLinks pool.heap) a (some none)) z (some (some a)) a =
              some none := by
            simp [Ne.symm hza]
          have := rep.linked u |>.append hend (by simp [hz]) fun b hb hbl => by
            rw [update_of_ne (by rintro rfl; exact hbl hz), update_of_ne (ne_of_mem hn hb)]
          simpa using this
        case neg =>
          simp only [update_of_ne he]
          refine rep.linked u |>.congr fun b hb => ?_
          have hbz : b ≠ z := fun h => he <| rep.disjoint z u t (h ▸ hb) hzm
          rw [update_of_ne hbz, update_of_ne (ne_of_mem hn hb)]
      disjoint := rep.disjoint_add hn
      active u := by
        rw [Levels.active_update_cons _ _ (by simp), Set.insert_eq_of_mem hl, ← rep.active]
      first := by
        rw [Levels.active_update_cons _ _ (by simp), Set.insert_eq_of_mem hl]
        exact rep.first
      last := by
        rw [Levels.active_update_cons _ _ (by simp), Set.insert_eq_of_mem hl]
        exact rep.last
    }
  · have r₁ := Relinked.of_update wf₁ ha hh₁
    have r₂ := Relinked.of_update wf₂ hoz₁ hh₂
    exact r₁.mono (by simp) |>.trans <| r₂.mono (by simp [hzm])

theorem add_spec (wf : pool.WF) (rep : Rep maxTicks book pool.heap lv) (ht : t < maxTicks)
    (ha : pool.heap a = some o) (hn : ∀ u, a ∉ lv u) : ∃ book' pool',
      (book.addOrderKnownValid pool t (some a) = .ok (book', pool')) ∧
      Rep maxTicks book' pool'.heap (update lv t (lv t ++ [a])) ∧
      Relinked (insert a { x | x ∈ lv t }) pool pool' := by
  by_cases hl : lv t = []
  case neg => exact add_behind_spec wf rep ht ha hn hl
  case pos =>
    have ⟨book', pool', h, rep', r⟩ := add_first_spec wf rep ht ha hn hl
    exact ⟨book', pool', h, by simpa [hl] using rep', r.mono (by simp)⟩

theorem pop_nil (rep : Rep maxTicks book pool.heap lv) (ht : t < maxTicks) (hl : lv t = []) :
    book.popOrderKnownValid pool t = .ok (book, pool, none) := by
  have hlevels : book.priceLevels[t]? = some none := by simp [rep.heads t, ht, hl]
  simp [popOrderKnownValid, elementAt_eq hlevels]

theorem pop_more (wf : pool.WF) (rep : Rep maxTicks book pool.heap lv) (ht : t < maxTicks)
    (hl : lv t = a :: b :: l) : ∃ book' pool',
      (book.popOrderKnownValid pool t = .ok (book', pool', some a)) ∧
      Rep maxTicks book' pool'.heap (update lv t (b :: l)) ∧
      Relinked {a} pool pool' ∧ orderLinks pool'.heap a = some none := by
  have ⟨o, ho, hon, _⟩ := rep.head_next hl
  have ⟨pool', hm, wf', hh⟩ := MemPool.modify_spec (fun o => { o with next := none }) wf ho
  have hlevels : book.priceLevels[t]? = some (some a) := by simp [rep.heads t, ht, hl]
  have hlt := (List.getElem?_eq_some_iff.mp hlevels).choose
  have hlinks : orderLinks pool'.heap = update (orderLinks pool.heap) a (some none) := by
    rw [hh, orderLinks_update]
  have hactive : Levels.active (update lv t (b :: l)) = lv.active := by
    rw [Levels.active_update_cons _ _ (by simp), Set.insert_eq_of_mem]
    simp [Levels.active, hl]
  let book' := { book with priceLevels := book.priceLevels.set t (some b) }
  refine ⟨book', pool', ?_, ?_, .of_update wf' ho hh, by simp [hlinks]⟩
  · simp [popOrderKnownValid, elementAt_eq hlevels, MemPool.read_eq ho, hon, setElementAt_eq hlt, hm,
      book']
  · exact {
      words := rep.words
      bound := rep.bound_update ht
      heads u := by
        by_cases he : u = t
        · subst he; simp [List.getElem?_set_self hlt, ht, book']
        · simp [List.getElem?_set_ne (Ne.symm he), he, rep.heads u, book']
      tails u := by
        by_cases he : u = t
        · subst he; simp [rep.tails u, ht, hl, book']
        · simp [he, rep.tails u, book']
      linked := rep.linked_cut hl fun c hc => by rw [hlinks, update_of_ne hc]
      disjoint := rep.disjoint_sub (by simp [hl])
      active := hactive ▸ rep.active
      first := hactive ▸ rep.first
      last := hactive ▸ rep.last
    }

theorem pop_last (wf : pool.WF) (rep : Rep maxTicks book pool.heap lv) (ht : t < maxTicks)
    (hl : lv t = [a]) : ∃ book' pool',
      (book.popOrderKnownValid pool t = .ok (book', pool', some a)) ∧
      Rep maxTicks book' pool'.heap (update lv t []) ∧
      Relinked {a} pool pool' ∧ orderLinks pool'.heap a = some none := by
  have ⟨o, ho, hon, _⟩ := rep.head_next hl
  have ⟨pool', hm, wf', hh⟩ := MemPool.modify_spec (fun o => { o with next := none }) wf ho
  have hw := rep.word_lt ht
  have hlevels : book.priceLevels[t]? = some (some a) := by simp [rep.heads t, ht, hl]
  have htails : book.priceLevelTails[t]? = some (some a) := by simp [rep.tails t, ht, hl]
  have hlt := (List.getElem?_eq_some_iff.mp hlevels).choose
  have hlt' := (List.getElem?_eq_some_iff.mp htails).choose
  have hbits : book.mask[t / 64]? = some book.mask[t / 64] := List.getElem?_eq_getElem hw
  have hlinks : orderLinks pool'.heap = update (orderLinks pool.heap) a (some none) := by
    rw [hh, orderLinks_update]
  let book₁ : BitmaskOrderBook := { book with
    priceLevels     := book.priceLevels.set t none
    priceLevelTails := book.priceLevelTails.set t none
    mask            := book.mask.set (t / 64) (book.mask[t / 64] &&& ~~~(1#64 <<< (t % 64)))
  }
  have hactive : ∀ u, Mem book₁.mask u ↔ u ∈ Levels.active (update lv t []) := by
    intro u
    rw [Levels.active_update_nil, mem_erase (by decide) hbits, rep.active, and_comm]
    rfl
  have hsame (p : Nat → Prop) :
      { u | p u ∧ Mem book₁.mask u } = { u | p u ∧ u ∈ lv.active \ {t} } := by
    ext u
    simp [hactive, Levels.active_update_nil]
  let book' : BitmaskOrderBook := { book₁ with
    bestFirst := if book.bestFirst = t then book₁.findNextFrom t else book.bestFirst
    bestLast  := if book.bestLast = t then book₁.findPrevFrom t else book.bestLast
  }
  refine ⟨book', pool', ?_, ?_, .of_update wf' ho hh, by simp [hlinks]⟩
  · simp only [popOrderKnownValid, elementAt_eq hlevels, MemPool.read_eq ho, hon, setElementAt_eq hlt,
      hm, Except.ok_bind, Except.pure_eq_ok, setElementAt_eq hlt', elementAt_eq hbits,
      setElementAt_eq hw, List.head?_nil]
    by_cases hf : book.bestFirst = t
    case pos =>
      simp only [if_pos hf, book', book₁]
      split <;> rfl
    case neg =>
      simp only [if_neg hf, book', book₁]
      split <;> rfl
  · exact {
      words := by simp [rep.words, book', book₁]
      bound := rep.bound_update ht
      heads u := by
        by_cases he : u = t
        · subst he; simp [List.getElem?_set_self hlt, ht, book', book₁]
        · simp [List.getElem?_set_ne (Ne.symm he), he, rep.heads u, book', book₁]
      tails u := by
        by_cases he : u = t
        · subst he; simp [List.getElem?_set_self hlt', ht, book', book₁]
        · simp [List.getElem?_set_ne (Ne.symm he), he, rep.tails u, book', book₁]
      linked := rep.linked_cut hl fun c hc => by rw [hlinks, update_of_ne hc]
      disjoint := rep.disjoint_sub (by simp)
      active := hactive
      first := by
        rw [Levels.active_update_nil]
        exact rep.first.remove <| hsame _ ▸ book₁.findNextFrom_spec t
      last := by
        rw [Levels.active_update_nil]
        have : t / 64 < book₁.mask.length := by simpa [book₁] using hw
        exact rep.last.remove <| hsame (t > ·) ▸ findPrevFrom_spec this
    }

theorem pop_cons (wf : pool.WF) (rep : Rep maxTicks book pool.heap lv) (ht : t < maxTicks)
    (hl : lv t = a :: l) : ∃ book' pool',
      (book.popOrderKnownValid pool t = .ok (book', pool', some a)) ∧
      Rep maxTicks book' pool'.heap (update lv t l) ∧
      Relinked {a} pool pool' ∧ orderLinks pool'.heap a = some none := by
  cases l
  case nil  => exact pop_last wf rep ht hl
  case cons => exact pop_more wf rep ht hl

instance : LawfulOrderBook BitmaskOrderBook where
  Rep := Rep
  rep_new := .new
  rep_bound rep := rep.bound _
  rep_live rep := rep.live
  rep_nodup rep := rep.linked _ |>.nodup
  rep_disjoint rep := rep.disjoint _ _ _
  rep_congr := .congr
  add_null := rfl
  add_spec := add_spec
  peek_spec rep ht := elementAt_eq <| by simp [rep.heads, ht]
  pop_nil := pop_nil
  pop_cons := pop_cons
  first_spec := Rep.first
  last_spec := Rep.last

end BitmaskOrderBook
