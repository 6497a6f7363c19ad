import FlowerExchange.Common.MemPool
import FlowerExchange.Common.Types

instance : NodeSize Order where
  sizeofNode     := 144
  sizeofNode_pos := by decide

class OrderBook (B : Type) where
  new (maxTicks : Nat) : B
  addOrderKnownValid (book : B) (pool : MemPool Order) (tick : PriceTick) (order : Option Addr) :
    Except Fault (B × MemPool Order)
  peekOrderKnownValid (book : B) (tick : PriceTick) : Except Fault (Option Addr)
  popOrderKnownValid (book : B) (pool : MemPool Order) (tick : PriceTick) :
    Except Fault (B × MemPool Order × Option Addr)
  findFirst (book : B) : Int
  findLast (book : B) : Int

def Order.unlinked (o : Order) : Order :=
  { o with next := none }

def orderLinks (heap : Addr → Option Order) (a : Addr) : Option (Option Addr) :=
  (heap a).map Order.next

theorem orderLinks_update :
    orderLinks (Function.update heap a (some o)) = Function.update (orderLinks heap) a (some o.next) := by
  ext1 b
  by_cases hb : b = a
  · subst hb; simp [orderLinks]
  · simp [orderLinks, hb]

-- The abstract view of a book: the queue of the orders that wait at each tick.
abbrev Levels := Nat → List Addr

namespace Levels

def active (lv : Levels) : Set Nat :=
  { t | lv t ≠ [] }

theorem active_update_cons (lv : Levels) (t : Nat) (h : l ≠ []) :
    active (Function.update lv t l) = insert t lv.active := by
  ext u
  by_cases hu : u = t
  · subst hu; simp [active, h]
  · simp [active, hu]

theorem active_update_nil (lv : Levels) (t : Nat) :
    active (Function.update lv t []) = lv.active \ {t} := by
  ext u
  by_cases hu : u = t
  · subst hu; simp [active]
  · simp [active, hu]

end Levels

def IsBest (better : Nat → Nat → Prop) (s : Set Nat) (i : Int) : Prop :=
  (s = ∅ ∧ i = -1) ∨ (∃ t : Nat, t ∈ s ∧ (∀ u ∈ s, ¬better u t) ∧ i = t)

namespace IsBest

variable {better : Nat → Nat → Prop} {s : Set Nat} {i j : Int} {t u : Nat}

theorem neg_iff (h : IsBest better s i) : i < 0 ↔ s = ∅ := by
  rcases h with ⟨e, rfl⟩ | ⟨t, h, -, rfl⟩
  · simp [e]
  · simp [Set.Nonempty.ne_empty ⟨t, h⟩]

theorem of_isLeast (h : IsLeast s t) : IsBest (· < ·) s t :=
  .inr ⟨t, h.left, fun _ hu => Nat.not_lt.mpr <| h.right hu, rfl⟩

theorem of_isGreatest (h : IsGreatest s t) : IsBest (· > ·) s t :=
  .inr ⟨t, h.left, fun _ hu => Nat.not_lt.mpr <| h.right hu, rfl⟩

variable [IsStrictTotalOrder Nat better]

theorem eq_of_mem (h : IsBest better s i) (m : t ∈ s) (hb : ∀ u ∈ s, ¬better u t) : i = t := by
  rcases h with ⟨rfl, -⟩ | ⟨u, hm, hu, rfl⟩
  · contradiction
  · rcases trichotomous_of better u t with h | h | h
    · exact absurd h (hb u hm)
    · rw [h]
    · exact absurd h (hu t m)

theorem unique (h₁ : IsBest better s i) (h₂ : IsBest better s j) : i = j := by
  rcases h₂ with ⟨e, rfl⟩ | ⟨t, m, hb, rfl⟩
  · rcases h₁ with ⟨-, rfl⟩ | ⟨u, m, -, -⟩
    · rfl
    · exact absurd m (by simp [e])
  · exact h₁.eq_of_mem m hb

theorem insert [DecidableRel better] (h : IsBest better s i) :
    IsBest better (Insert.insert t s) (if i < 0 ∨ better t i.toNat then t else i) := by
  rcases h with ⟨rfl, rfl⟩ | ⟨v, m, hv, rfl⟩
  · exact .inr ⟨t, by simp, by simp [irrefl], by simp⟩
  · by_cases hb : better t v
    case pos =>
      refine .inr ⟨t, by simp, fun u hu => ?_, by simp [hb]⟩
      rcases hu with rfl | hu
      · exact irrefl _
      · exact fun h => hv u hu <| IsTrans.trans _ _ _ h hb
    case neg =>
      refine .inr ⟨v, by simp [m], fun u hu => ?_, by simp [hb]⟩
      rcases hu with rfl | hu
      · exact hb
      · exact hv u hu

theorem remove (h : IsBest better s i) (hj : IsBest better { u | better t u ∧ u ∈ s \ {t} } j) :
    IsBest better (s \ {t}) (if i = t then j else i) := by
  rcases h with ⟨rfl, rfl⟩ | ⟨v, m, hv, rfl⟩
  · rw [if_neg (by omega)]
    exact .inl ⟨by simp, rfl⟩
  · by_cases he : v = t
    case pos =>
      have : { u | better t u ∧ u ∈ s \ {t} } = s \ {t} := by
        ext u
        refine ⟨And.right, fun hu => ⟨?_, hu⟩⟩
        rcases trichotomous_of better u t with h | h | h
        · exact absurd h (he ▸ hv u hu.left)
        · exact absurd h hu.right
        · exact h
      rw [he, if_pos rfl]
      exact this ▸ hj
    case neg =>
      rw [if_neg (by omega)]
      exact .inr ⟨v, ⟨m, he⟩, fun u hu => hv u hu.left, rfl⟩

end IsBest

-- `pool'` differs from `pool` at most in the links of the orders in `touched`.
structure Relinked (touched : Set Addr) (pool pool' : MemPool Order) : Prop where
  wf      : pool'.WF
  frame   : ∀ a ∉ touched, pool'.heap a = pool.heap a
  content : ∀ a, (pool'.heap a).map Order.unlinked = (pool.heap a).map Order.unlinked

namespace Relinked

variable {touched touched' : Set Addr} {pool pool' pool'' : MemPool Order} {a : Addr} {o : Order}

theorem mono (r : Relinked touched pool pool') (h : touched ⊆ touched') :
    Relinked touched' pool pool' where
  wf          := r.wf
  frame a ha  := r.frame a fun hm => ha (h hm)
  content     := r.content

theorem trans (r₁ : Relinked touched pool pool') (r₂ : Relinked touched pool' pool'') :
    Relinked touched pool pool'' where
  wf         := r₂.wf
  frame a ha := r₂.frame a ha |>.trans <| r₁.frame a ha
  content a  := r₂.content a |>.trans <| r₁.content a

theorem of_update (wf : pool'.WF) (h : pool.heap a = some o)
    (hu : pool'.heap = Function.update pool.heap a (some { o with next := n })) :
    Relinked {a} pool pool' where
  wf := wf
  frame b hb := by simp_all
  content b := by
    by_cases hb : b = a
    · subst hb; simp [hu, h, Order.unlinked]
    · simp [hu, hb]

theorem order (r : Relinked touched pool pool') (h : pool.heap a = some o) :
    ∃ n, pool'.heap a = some { o with next := n } := by
  have hc := r.content a
  rw [h, Option.map_some] at hc
  have ⟨o', ho', hu⟩ := Option.map_eq_some_iff.mp hc
  have he : o' = { o with next := o'.next } :=
    congrArg (fun o : Order => { o with next := o'.next }) hu
  exact ⟨o'.next, ho'.trans <| congrArg some he⟩

theorem isSome_iff (r : Relinked touched pool pool') (a : Addr) :
    (pool'.heap a).isSome ↔ (pool.heap a).isSome := by
  have := congrArg Option.isSome <| r.content a
  simpa using this

end Relinked

-- What the matching engine relies on. `Rep maxTicks book heap lv` says that, with orders as in `heap`,
-- the book holds the queues `lv`.
class LawfulOrderBook (B : Type) [OrderBook B] where
  Rep : Nat → B → (Addr → Option Order) → Levels → Prop
  rep_new : Rep maxTicks (OrderBook.new maxTicks) heap (fun _ => [])
  rep_bound : Rep maxTicks book heap lv → lv t ≠ [] → t < maxTicks
  rep_live : Rep maxTicks book heap lv → a ∈ lv t → (heap a).isSome
  rep_nodup : Rep maxTicks book heap lv → (lv t).Nodup
  rep_disjoint : Rep maxTicks book heap lv → a ∈ lv t → a ∈ lv u → t = u
  rep_congr : Rep maxTicks book heap lv →
    (∀ t, ∀ a ∈ lv t, orderLinks heap' a = orderLinks heap a) → Rep maxTicks book heap' lv
  add_null {book : B} : OrderBook.addOrderKnownValid book pool t none = .ok (book, pool)
  add_spec {book : B} : pool.WF → Rep maxTicks book pool.heap lv → t < maxTicks →
    pool.heap a = some o → (∀ u, a ∉ lv u) → ∃ book' pool',
      (OrderBook.addOrderKnownValid book pool t (some a) = .ok (book', pool')) ∧
      Rep maxTicks book' pool'.heap (Function.update lv t (lv t ++ [a])) ∧
      Relinked (insert a { x | x ∈ lv t }) pool pool'
  peek_spec {book : B} : Rep maxTicks book heap lv → t < maxTicks →
    OrderBook.peekOrderKnownValid book t = .ok (lv t).head?
  pop_nil {book : B} : Rep maxTicks book pool.heap lv → t < maxTicks → lv t = [] →
    OrderBook.popOrderKnownValid book pool t = .ok (book, pool, none)
  pop_cons {book : B} : pool.WF → Rep maxTicks book pool.heap lv → t < maxTicks → lv t = a :: l →
    ∃ book' pool',
      (OrderBook.popOrderKnownValid book pool t = .ok (book', pool', some a)) ∧
      Rep maxTicks book' pool'.heap (Function.update lv t l) ∧
      Relinked {a} pool pool' ∧ orderLinks pool'.heap a = some none
  first_spec : Rep maxTicks book heap lv → IsBest (· < ·) lv.active (OrderBook.findFirst book)
  last_spec : Rep maxTicks book heap lv → IsBest (· > ·) lv.active (OrderBook.findLast book)
