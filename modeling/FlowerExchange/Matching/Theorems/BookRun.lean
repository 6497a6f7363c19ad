import FlowerExchange.Common.Theorems.MemPool
import FlowerExchange.Lib.Machine
import FlowerExchange.Matching.BookRun

open Function

theorem MemPool.one_order : ∃ pool : MemPool Order,
    ((MemPool.new 1).allocate default = .ok (pool, ⟨0, 0⟩)) ∧ pool.WF ∧ (pool.heap ⟨0, 0⟩).isSome := by
  obtain ⟨pool, a, halloc, wf, _, hh⟩ := MemPool.allocate_spec (default : Order) (MemPool.new_wf 1)
  have ha : a = ⟨0, 0⟩ := by
    have : (MemPool.new 1).allocate (default : Order) = .ok (_, ⟨0, 0⟩) := rfl
    exact congrArg Prod.snd <| Except.ok.inj <| halloc.symm.trans this
  subst ha
  exact ⟨pool, halloc, wf, by rw [hh, update_self]; rfl⟩

namespace BookCall

variable {B : Type} [OrderBook B] [LawfulOrderBook B] {maxTicks : Nat} {live : Addr → Prop}
variable {s : B × MemPool Order} {lv : Levels}

structure Keeps (maxTicks : Nat) (live : Addr → Prop) (s : B × MemPool Order) (lv : Levels) : Prop where
  wf   : s.2.WF
  rep  : LawfulOrderBook.Rep maxTicks s.1 s.2.heap lv
  live : ∀ a, live a → (s.2.heap a).isSome

-- What a call does to the orders that rest in no queue: one that it pops has no link, and the others
-- are as they were.
structure Frees (call : BookCall) (lv : Levels) (heap heap' : Addr → Option Order) : Prop where
  frame  : ∀ a, (∀ t, a ∉ lv t) → (∀ t, a ∉ lv.after call t) → heap' a = heap a
  popped : ∀ t a, call = .pop t → (lv t).head? = some a → orderLinks heap' a = some none

theorem Frees.refl {call : BookCall} (h : ∀ t, call = .pop t → lv t = []) :
    Frees call lv heap heap where
  frame _ _ _   := rfl
  popped t _ ht hl := by simp [h t ht] at hl

theorem step_spec (h : Keeps maxTicks live s lv) (call : BookCall)
    (ha : lv.Admits maxTicks live call) :
    ∃ s' r, (step s call = .ok (s', r)) ∧ lv.Answers call r ∧
      Keeps maxTicks live s' (lv.after call) ∧ call.Frees lv s.2.heap s'.2.heap := by
  obtain ⟨book, pool⟩ := s
  have ⟨wf, rep, hlive⟩ := h
  cases call
  case add tick order =>
    cases order
    case none =>
      exact ⟨_, .done, by simp [step, LawfulOrderBook.add_null], rfl, h, .refl fun _ ht => nomatch ht⟩
    case some a =>
      have ⟨ht, ha⟩ := ha
      have ⟨hla, hn⟩ := ha a rfl
      have ⟨o, ho⟩ := Option.isSome_iff_exists.mp <| hlive a hla
      have ⟨book', pool', hadd, rep', k⟩ := LawfulOrderBook.add_spec wf rep ht ho hn
      refine ⟨(book', pool'), .done, by simp [step, hadd], rfl,
        ⟨k.wf, rep', fun b hb => k.isSome_iff b |>.mpr <| hlive b hb⟩, fun b hb hb' => ?_,
        fun _ _ ht => nomatch ht⟩
      refine k.frame b fun hm => ?_
      rcases hm with rfl | hm
      · exact hb' tick (by simp [Levels.after])
      · exact hb tick hm
  case peek tick =>
    exact ⟨_, _, by simp [step, LawfulOrderBook.peek_spec rep ha], rfl, h, .refl fun _ ht => nomatch ht⟩
  case pop tick =>
    cases hl : lv tick
    case nil =>
      refine ⟨(book, pool), .order none, by simp [step, LawfulOrderBook.pop_nil rep ha hl],
        by simp [Levels.Answers, hl], ?_, .refl fun t ht => ?_⟩
      · rwa [Levels.after, hl, List.tail_nil, ← hl, update_eq_self]
      · cases ht
        exact hl
    case cons a l =>
      have ⟨book', pool', hpop, rep', k, hnull⟩ := LawfulOrderBook.pop_cons wf rep ha hl
      refine ⟨(book', pool'), .order (some a), by simp [step, hpop], by simp [Levels.Answers, hl],
        ⟨k.wf, ?_, fun b hb => k.isSome_iff b |>.mpr <| hlive b hb⟩, fun b hb _ => ?_,
        fun t b ht hb => ?_⟩
      · rwa [Levels.after, hl, List.tail_cons]
      · refine k.frame b fun hm => ?_
        cases hm
        exact hb tick (hl ▸ .head _)
      · cases ht
        rw [hl, List.head?_cons, Option.some.injEq] at hb
        exact hb ▸ hnull
  case findFirst =>
    exact ⟨_, _, rfl, ⟨_, rfl, LawfulOrderBook.first_spec rep⟩, h, .refl fun _ ht => nomatch ht⟩
  case findLast =>
    exact ⟨_, _, rfl, ⟨_, rfl, LawfulOrderBook.last_spec rep⟩, h, .refl fun _ ht => nomatch ht⟩

theorem step_keeps (h : Keeps maxTicks live s lv) (call : BookCall)
    (ha : lv.Admits maxTicks live call) :
    ∃ s' r, (step s call = .ok (s', r)) ∧ lv.Answers call r ∧ Keeps maxTicks live s' (lv.after call) :=
  have ⟨s', r, hs, hr, h', _⟩ := step_spec h call ha
  ⟨s', r, hs, hr, h'⟩

-- By induction on the calls: a book that is called as it has to be holds the queues that the calls leave.
theorem run_keeps (calls : List BookCall) (h : Keeps maxTicks live s lv)
    (ha : lv.AdmitsAll maxTicks live calls) :
    ∃ s' results, (Machine.run step calls s = .ok (s', results)) ∧
      Keeps maxTicks live s' (calls.foldl Levels.after lv) := by
  induction calls generalizing s lv
  case nil => exact ⟨s, [], rfl, h⟩
  case cons call calls hi =>
    have ⟨_, r, hs, _, h₁⟩ := step_keeps h call ha.left
    have ⟨s', results, hrun, h'⟩ := hi h₁ ha.right
    exact ⟨s', r :: results, Machine.run_cons hs hrun, h'⟩

end BookCall
