import FlowerExchange.Common.Theorems.MemPool
import FlowerExchange.Matching.Market
import FlowerExchange.Matching.MatchingEngine

open Function Resting

@[ext]
structure OrderIds where
  oid  : CStr 32
  coid : CStr 64
deriving DecidableEq

def Order.ids (o : Order) : OrderIds where
  oid  := o.oid
  coid := o.coid

def Order.offer (o : Order) (stamp : Nat) : Resting Nat OrderIds where
  price    := o.price
  stamp    := stamp
  quantity := o.quantity.toNat
  data     := o.ids

@[simp]
theorem Order.offer_price (o : Order) (stamp : Nat) : (o.offer stamp).price = o.price :=
  rfl

def Holds (heap : Addr → Option Order) (side : Side) (i : Instrument) (a : Addr)
    (r : Resting Nat OrderIds) : Prop :=
  ∃ o, (heap a = some o) ∧ (o.side = side) ∧ (o.instrument = i) ∧ (o.offer r.stamp = r)

namespace Holds

variable {heap heap' : Addr → Option Order} {side side' : Side} {i i' : Instrument} {a : Addr}

theorem congr (e : heap' a = heap a) : (Holds heap side i a r) → Holds heap' side i a r
  | ⟨o, ho, h⟩ => ⟨o, e.trans ho, h⟩

theorem relink (e : (heap' a).map Order.unlinked = (heap a).map Order.unlinked) :
    (Holds heap side i a r) → Holds heap' side i a r
  | ⟨o, ho, hs, hi, hr⟩ => by
    rw [ho, Option.map_some] at e
    have ⟨o', ho', he⟩ := Option.map_eq_some_iff.mp e
    simp only [Order.unlinked, Order.mk.injEq] at he
    exact ⟨o', ho', by simp_all, by simp_all, by simp_all [Order.offer, Order.ids]⟩

theorem unique (h : Holds heap side i a r) (h' : Holds heap side' i' a r') :
    side = side' ∧ i = i' ∧ r.price = r'.price := by
  have ⟨o, ho, hs, hi, hr⟩ := h
  have ⟨o', ho', hs', hi', hr'⟩ := h'
  have he : o = o' := Option.some.inj <| ho ▸ ho'
  subst he
  exact ⟨hs ▸ hs', Subtype.ext <| hi ▸ hi', hr ▸ hr' ▸ rfl⟩

end Holds

def setAt (f : Side → Instrument → α) (side : Side) (i : Instrument) (x : α) :
    Side → Instrument → α :=
  fun side' i' => if side' = side ∧ i' = i then x else f side' i'

section

variable {f : Side → Instrument → α} {side side' : Side} {i i' : Instrument} {x y : α}

@[simp]
theorem setAt_self : setAt f side i x side i = x := by
  simp [setAt]

theorem setAt_ne (h : ¬(side' = side ∧ i' = i)) : setAt f side i x side' i' = f side' i' := by
  simp [setAt, h]

@[simp]
theorem setAt_setAt : setAt (setAt f side i x) side i y = setAt f side i y := by
  ext1 side'; ext1 i'
  simp only [setAt]
  split <;> rfl

theorem setAt_of_eq (h : f side i = x) : setAt f side i x = f := by
  ext1 side'; ext1 i'
  simp only [setAt]
  split <;> simp_all

theorem book_withPools (s : MatchingEngine B) (orderPool : MemPool Order)
    (reportPool : MemPool ExecutionReport) :
    ({ s with orderPool := orderPool, reportPool := reportPool } : MatchingEngine B).book = s.book := by
  ext1 side
  cases side <;> rfl

theorem reportPool_setBook (s : MatchingEngine B) (b : B) :
    (s.setBook side i b).reportPool = s.reportPool := by
  cases side <;> rfl

theorem book_setBook (s : MatchingEngine B) (b : B) :
    (s.setBook side i b).book = setAt s.book side i b := by
  ext1 side'; ext1 i'
  cases side <;> cases side' <;> simp [MatchingEngine.setBook, MatchingEngine.book, setAt, update_apply]

end

def Placed (lv : Side → Instrument → Levels) (a : Addr) : Prop :=
  ∃ side i t, a ∈ lv side i t

-- The books hold the queues `m` by way of the nodes `lv`, and `loose` are the other live orders.
structure Represents [OrderBook B] [LawfulOrderBook B] (maxTicks : Nat) (pool : MemPool Order)
    (books : Side → Instrument → B) (lv : Side → Instrument → Levels)
    (m : Side → Instrument → List (Resting Nat OrderIds)) (loose : Addr → Option Order) : Prop where
  wf    : pool.WF
  rep   : ∀ side i, LawfulOrderBook.Rep maxTicks (books side i) pool.heap (lv side i)
  holds : ∀ side i t, List.Forall₂ (Holds pool.heap side i) (lv side i t) (level t (m side i))
  other : ∀ a, ¬Placed lv a → pool.heap a = loose a
  apart : ∀ a, Placed lv a → loose a = none

namespace Represents

variable [OrderBook B] [LawfulOrderBook B] {maxTicks : Nat} {pool pool' : MemPool Order}
variable {books : Side → Instrument → B} {lv : Side → Instrument → Levels}
variable {m : Side → Instrument → List (Resting Nat OrderIds)} {loose loose' : Addr → Option Order}
variable {side side' : Side} {i i' : Instrument} {t t' : Nat} {a : Addr} {o o' : Order}
variable {r : Resting Nat OrderIds} {l : List Addr} {q : List (Resting Nat OrderIds)}

theorem holds_mem (h : Represents maxTicks pool books lv m loose) (ha : a ∈ lv side i t) :
    ∃ r ∈ m side i, (r.price = t) ∧ Holds pool.heap side i a r := by
  have ⟨n, hn, ha⟩ := List.mem_iff_getElem.mp ha
  have hl := h.holds side i t
  have hn' := hl.length_eq ▸ hn
  have hr : (level t (m side i))[n] ∈ level t (m side i) := List.getElem_mem hn'
  have ⟨hm, hp⟩ := List.mem_filter.mp hr
  exact ⟨_, hm, of_decide_eq_true hp, ha ▸ hl.get hn hn'⟩

theorem place_unique (h : Represents maxTicks pool books lv m loose) (ha : a ∈ lv side i t)
    (ha' : a ∈ lv side' i' t') : side = side' ∧ i = i' ∧ t = t' := by
  have ⟨_, _, hp, hh⟩ := h.holds_mem ha
  have ⟨_, _, hp', hh'⟩ := h.holds_mem ha'
  exact hp ▸ hp' ▸ hh.unique hh'

theorem not_placed (h : Represents maxTicks pool books lv m loose) (ha : loose a = some o) :
    ¬Placed lv a :=
  fun hp => by simpa [ha] using h.apart a hp

theorem heap_loose (h : Represents maxTicks pool books lv m loose) (ha : loose a = some o) :
    pool.heap a = some o :=
  (h.other a <| h.not_placed ha).trans ha

theorem not_mem_of_loose (h : Represents maxTicks pool books lv m loose) (ha : loose a = some o)
    (side i t) : a ∉ lv side i t :=
  fun hm => h.not_placed ha ⟨side, i, t, hm⟩

theorem live_iff (h : Represents maxTicks pool books lv m loose) :
    (pool.heap a).isSome ↔ (loose a).isSome ∨ Placed lv a := by
  by_cases hp : Placed lv a
  case neg => simp [hp, h.other a hp]
  case pos =>
    have ⟨_, _, _, hm⟩ := hp
    have ⟨_, _, _, _, ho, _⟩ := h.holds_mem hm
    simp [hp, ho]

theorem frame (h : Represents maxTicks pool books lv m loose) (wf : pool'.WF)
    (hf : ∀ side i t, ∀ a ∈ lv side i t, pool'.heap a = pool.heap a)
    (other : ∀ a, ¬Placed lv a → pool'.heap a = loose' a)
    (apart : ∀ a, Placed lv a → loose' a = none) :
    Represents maxTicks pool' books lv m loose' where
  wf := wf
  rep side i := LawfulOrderBook.rep_congr (h.rep side i) fun t a ha => by
    simp [orderLinks, hf side i t a ha]
  holds side i t := by
    refine List.forall₂_iff_get.mpr ⟨(h.holds side i t).length_eq, fun n hn hn' => ?_⟩
    exact (h.holds side i t).get hn hn' |>.congr <| hf side i t _ <| List.get_mem ..
  other := other
  apart := apart

theorem frame_update (h : Represents maxTicks pool books lv m loose) (ha : ¬Placed lv a)
    (wf : pool'.WF) (hh : pool'.heap = update pool.heap a x) :
    Represents maxTicks pool' books lv m (update loose a x) := by
  refine h.frame wf (fun side i t b hb => ?_) (fun b hb => ?_) fun b hb => ?_
  · rw [hh, update_of_ne <| ne_of_mem_of_not_mem hb fun hm => ha ⟨side, i, t, hm⟩]
  · rw [hh]
    by_cases he : b = a
    · rw [he, update_self, update_self]
    · rw [update_of_ne he, update_of_ne he, h.other b hb]
  · rw [update_of_ne, h.apart b hb]
    rintro rfl
    exact ha hb

theorem allocate (h : Represents maxTicks pool books lv m loose) (ha : pool.heap a = none)
    (wf : pool'.WF) (hh : pool'.heap = update pool.heap a (some o)) :
    Represents maxTicks pool' books lv m (update loose a (some o)) :=
  h.frame_update (fun hp => by simpa [ha] using h.live_iff.mpr (.inr hp)) wf hh

theorem nil_iff (h : Represents maxTicks pool books lv m loose) :
    lv side i t = [] ↔ ∀ r ∈ m side i, r.price ≠ t := by
  have hl := (h.holds side i t).length_eq
  rw [← List.length_eq_zero_iff, hl, List.length_eq_zero_iff, level, List.filter_eq_nil_iff]
  simp

theorem mem_active_iff (h : Represents maxTicks pool books lv m loose) :
    t ∈ (lv side i).active ↔ ∃ r ∈ m side i, r.price = t := by
  simp [Levels.active, h.nil_iff]

theorem head (h : Represents maxTicks pool books lv m loose) (hm : m side i = r :: q) :
    ∃ a l, (lv side i r.price = a :: l) ∧ (Holds pool.heap side i a r) ∧
      List.Forall₂ (Holds pool.heap side i) l (level r.price q) := by
  have hl := h.holds side i r.price
  rw [hm, level_cons, if_pos rfl] at hl
  have ⟨a, l, ha, hq, he⟩ := List.forall₂_cons_right_iff.mp hl
  exact ⟨a, l, he, ha, hq⟩

theorem nodup (h : Represents maxTicks pool books lv m loose) : (lv side i t).Nodup :=
  LawfulOrderBook.rep_nodup (h.rep side i)

theorem modify_head (h : Represents maxTicks pool books lv m loose) (hm : m side i = r :: q)
    (hl : lv side i r.price = a :: l) (ho : pool.heap a = some o) (wf : pool'.WF)
    (hh : pool'.heap = update pool.heap a (some { o with quantity := n })) :
    Represents maxTicks pool' books lv
      (setAt m side i ({ r with quantity := n.toNat } :: q)) loose where
  wf := wf
  rep side' i' := LawfulOrderBook.rep_congr (h.rep side' i') fun t b hb => by
    by_cases hba : b = a
    · subst hba; simp [orderLinks, hh, ho]
    · simp [orderLinks, hh, hba]
  holds side' i' t := by
    have hne {side' i' t b} (hb : b ∈ lv side' i' t) (hp : ¬(side' = side ∧ i' = i ∧ t = r.price)) :
        pool'.heap b = pool.heap b := by
      rw [hh, update_of_ne]
      rintro rfl
      exact hp <| h.place_unique hb (hl ▸ .head _ : b ∈ lv side i r.price)
    by_cases hp : side' = side ∧ i' = i ∧ t = r.price
    case neg =>
      have : level t (setAt m side i ({ r with quantity := n.toNat } :: q) side' i') =
          level t (m side' i') := by
        by_cases hs : side' = side ∧ i' = i
        · obtain ⟨rfl, rfl⟩ := hs
          have ht : r.price ≠ t := fun he => hp ⟨rfl, rfl, he.symm⟩
          simp [hm, level_cons, ht]
        · rw [setAt_ne hs]
      rw [this]
      refine List.forall₂_iff_get.mpr ⟨(h.holds side' i' t).length_eq, fun k hk hk' => ?_⟩
      exact (h.holds side' i' t).get hk hk' |>.congr <| hne (List.get_mem ..) hp
    case pos =>
      obtain ⟨rfl, rfl, rfl⟩ := hp
      obtain ⟨a', l', hl', ⟨o', ho', hs, hi, hr⟩, hq⟩ := h.head hm
      obtain ⟨rfl, rfl⟩ := List.cons.inj <| hl ▸ hl'
      obtain rfl := Option.some.inj <| ho ▸ ho'
      have hd := (List.nodup_cons.mp <| hl ▸ h.nodup).left
      rw [hl, setAt_self, level_cons, if_pos rfl]
      refine .cons ⟨{ o with quantity := n }, by rw [hh, update_self], hs, hi, ?_⟩ ?_
      · rw [← hr]
        rfl
      · refine List.forall₂_iff_get.mpr ⟨hq.length_eq, fun k hk hk' => ?_⟩
        refine hq.get hk hk' |>.congr ?_
        rw [hh, update_of_ne <| ne_of_mem_of_not_mem (List.get_mem ..) hd]
  other b hb := by
    rw [hh, update_of_ne, h.other b hb]
    rintro rfl
    exact hb ⟨side, i, r.price, hl ▸ .head _⟩
  apart := h.apart

theorem mem_pop (h : Represents maxTicks pool books lv m loose) (hl : lv side i t = a :: l) {b : Addr} :
    b ∈ setAt lv side i (update (lv side i) t l) side' i' t' ↔ b ∈ lv side' i' t' ∧ b ≠ a := by
  have ha : a ∈ lv side i t := hl ▸ .head _
  have hd := List.nodup_cons.mp <| hl ▸ h.nodup
  by_cases hs : side' = side ∧ i' = i
  case neg =>
    rw [setAt_ne hs, and_iff_left_of_imp]
    rintro hb rfl
    obtain ⟨hs', hi', _⟩ := h.place_unique hb ha
    exact hs ⟨hs', hi'⟩
  case pos =>
    obtain ⟨rfl, rfl⟩ := hs
    rw [setAt_self]
    by_cases ht : t' = t
    · subst ht
      rw [update_self, hl]
      grind
    · rw [update_of_ne ht, and_iff_left_of_imp]
      rintro hb rfl
      exact ht (h.place_unique hb ha).right.right

theorem pop (h : Represents maxTicks pool books lv m loose) (hm : m side i = r :: q)
    (hl : lv side i r.price = a :: l)
    (rep : LawfulOrderBook.Rep maxTicks book' pool'.heap (update (lv side i) r.price l))
    (k : Relinked {a} pool pool') :
    Represents maxTicks pool' (setAt books side i book')
      (setAt lv side i (update (lv side i) r.price l)) (setAt m side i q)
      (update loose a (pool'.heap a)) := by
  have placed {b} : Placed (setAt lv side i (update (lv side i) r.price l)) b ↔
      Placed lv b ∧ b ≠ a := by
    simp only [Placed, h.mem_pop hl]
    tauto
  have keep {b} (hb : b ≠ a) : pool'.heap b = pool.heap b := k.frame b hb
  exact {
    wf := k.wf
    rep side' i' := by
      by_cases hs : side' = side ∧ i' = i
      · obtain ⟨rfl, rfl⟩ := hs
        simpa using rep
      · rw [setAt_ne hs, setAt_ne hs]
        refine LawfulOrderBook.rep_congr (h.rep side' i') fun t b hb => ?_
        have : b ∈ setAt lv side i (update (lv side i) r.price l) side' i' t := by rwa [setAt_ne hs]
        simp [orderLinks, keep (h.mem_pop hl |>.mp this).right]
    holds side' i' t := by
      have hlists : List.Forall₂ (Holds pool.heap side' i')
          (setAt lv side i (update (lv side i) r.price l) side' i' t)
          (level t (setAt m side i q side' i')) := by
        by_cases hs : side' = side ∧ i' = i
        case neg =>
          rw [setAt_ne hs, setAt_ne hs]
          exact h.holds side' i' t
        case pos =>
          obtain ⟨rfl, rfl⟩ := hs
          rw [setAt_self, setAt_self]
          by_cases ht : t = r.price
          · subst ht
            obtain ⟨_, _, hl', _, hq⟩ := h.head hm
            obtain ⟨rfl, rfl⟩ := List.cons.inj <| hl ▸ hl'
            rwa [update_self]
          · rw [update_of_ne ht]
            have := h.holds side' i' t
            rwa [hm, level_cons, if_neg (Ne.symm ht)] at this
      refine List.forall₂_iff_get.mpr ⟨hlists.length_eq, fun n hn hn' => ?_⟩
      exact hlists.get hn hn' |>.congr <| keep (h.mem_pop hl |>.mp <| List.get_mem ..).right
    other b hb := by
      by_cases he : b = a
      case pos => rw [he, update_self]
      case neg =>
        have : ¬Placed lv b := fun hp => hb <| placed.mpr ⟨hp, he⟩
        rw [update_of_ne he, keep he, h.other b this]
    apart b hb := by
      obtain ⟨hp, he⟩ := placed.mp hb
      rw [update_of_ne he, h.apart b hp]
  }

theorem pop_free (h : Represents maxTicks pool books lv m loose) (hm : m side i = r :: q)
    (hl : lv side i r.price = a :: l) : ∃ book' pool' pool'',
      (OrderBook.popOrderKnownValid (books side i) pool r.price = .ok (book', pool', some a)) ∧
      (pool'.deallocate (some a) = .ok pool'') ∧
      Represents maxTicks pool'' (setAt books side i book')
        (setAt lv side i (update (lv side i) r.price l)) (setAt m side i q) loose := by
  have hbound := LawfulOrderBook.rep_bound (h.rep side i) (hl ▸ List.cons_ne_nil a l)
  have ha : loose a = none := h.apart a ⟨side, i, r.price, hl ▸ .head _⟩
  obtain ⟨x, hx⟩ := Option.isSome_iff_exists.mp <|
    h.live_iff.mpr <| .inr ⟨side, i, r.price, hl ▸ List.mem_cons_self ..⟩
  obtain ⟨book', pool', hpop, rep, k, _⟩ := LawfulOrderBook.pop_cons h.wf (h.rep side i) hbound hl
  have h₁ := h.pop hm hl rep k
  obtain ⟨n, hy⟩ := k.order hx
  obtain ⟨pool'', hfree, wf, hh⟩ := MemPool.deallocate_spec h₁.wf hy
  have h₂ := h₁.frame_update (h₁.not_placed (by rw [update_self, hy])) wf hh
  rw [update_idem, ← ha, update_eq_self] at h₂
  exact ⟨book', pool', pool'', hpop, hfree, h₂⟩

theorem join (h : Represents maxTicks pool books lv m loose) (ha : loose a = some o)
    (hs : o.side = side) (hi : o.instrument = i) (stamp : Nat)
    (sorted : Sorted side.better (m side i))
    (rep : LawfulOrderBook.Rep maxTicks book' pool'.heap
      (update (lv side i) o.price (lv side i o.price ++ [a])))
    (k : Relinked (insert a { x | x ∈ lv side i o.price }) pool pool') :
    Represents maxTicks pool' (setAt books side i book')
      (setAt lv side i (update (lv side i) o.price (lv side i o.price ++ [a])))
      (setAt m side i (enqueue side.better (o.offer stamp) (m side i))) (update loose a none) := by
  have mem {b side' i' t} :
      b ∈ setAt lv side i (update (lv side i) o.price (lv side i o.price ++ [a])) side' i' t ↔
        b ∈ lv side' i' t ∨ (b = a ∧ side' = side ∧ i' = i ∧ t = o.price) := by
    by_cases hs : side' = side ∧ i' = i
    case neg =>
      rw [setAt_ne hs]
      tauto
    case pos =>
      obtain ⟨rfl, rfl⟩ := hs
      by_cases ht : t = o.price
      · subst ht; simp
      · simp [ht]
  have placed {b} : Placed (setAt lv side i
      (update (lv side i) o.price (lv side i o.price ++ [a]))) b ↔ Placed lv b ∨ b = a := by
    simp only [Placed, mem]
    constructor
    · rintro ⟨side', i', t, hm | hm⟩
      · exact .inl ⟨side', i', t, hm⟩
      · exact .inr hm.left
    · rintro (⟨side', i', t, hm⟩ | rfl)
      · exact ⟨side', i', t, .inl hm⟩
      · exact ⟨side, i, o.price, .inr ⟨rfl, rfl, rfl, rfl⟩⟩
  exact {
    wf := k.wf
    rep side' i' := by
      by_cases hs : side' = side ∧ i' = i
      · obtain ⟨rfl, rfl⟩ := hs
        simpa using rep
      · rw [setAt_ne hs, setAt_ne hs]
        refine LawfulOrderBook.rep_congr (h.rep side' i') fun t b hb => ?_
        have : b ∉ insert a { x | x ∈ lv side i o.price } := by
          rintro (rfl | hm)
          · exact h.not_mem_of_loose ha side' i' t hb
          · have ⟨hs', hi', _⟩ := h.place_unique hb hm
            exact hs ⟨hs', hi'⟩
        simp [orderLinks, k.frame b this]
    holds side' i' t := by
      have hlists : List.Forall₂ (Holds pool.heap side' i')
          (setAt lv side i (update (lv side i) o.price (lv side i o.price ++ [a])) side' i' t)
          (level t (setAt m side i (enqueue side.better (o.offer stamp) (m side i)) side' i')) := by
        by_cases hp : side' = side ∧ i' = i
        case neg =>
          rw [setAt_ne hp, setAt_ne hp]
          exact h.holds side' i' t
        case pos =>
          obtain ⟨rfl, rfl⟩ := hp
          rw [setAt_self, setAt_self, level_enqueue sorted, Order.offer_price]
          have hold := h.holds side' i' t
          by_cases ht : t = o.price
          · subst ht
            rw [update_self, if_pos rfl]
            exact List.rel_append hold <| .cons ⟨o, h.heap_loose ha, hs, hi, rfl⟩ .nil
          · rwa [update_of_ne ht, if_neg (Ne.symm ht)]
      refine List.forall₂_iff_get.mpr ⟨hlists.length_eq, fun n hn hn' => ?_⟩
      exact hlists.get hn hn' |>.relink <| k.content _
    other b hb := by
      have hb : ¬Placed lv b ∧ b ≠ a := not_or.mp <| placed.not.mp hb
      have : b ∉ insert a { x | x ∈ lv side i o.price } := by
        rintro (he | hm)
        · exact hb.right he
        · exact hb.left ⟨side, i, o.price, hm⟩
      rw [update_of_ne hb.right, k.frame b this, h.other b hb.left]
    apart b hb := by
      rcases placed.mp hb with hp | rfl
      · rw [update_of_ne, h.apart b hp]
        rintro rfl
        exact h.not_placed ha hp
      · rw [update_self]
  }

theorem fresh (wf : pool.WF) :
    Represents maxTicks pool (fun _ _ => (OrderBook.new maxTicks : B)) (fun _ _ _ => [])
      (fun _ _ => []) pool.heap where
  wf := wf
  rep side i := LawfulOrderBook.rep_new
  holds side i t := .nil
  other a _ := rfl
  apart a h := by simp [Placed] at h

end Represents
