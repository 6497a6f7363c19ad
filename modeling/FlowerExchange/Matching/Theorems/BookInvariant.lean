import FlowerExchange.Lib.Machine
import FlowerExchange.Matching.Theorems.BookRun
import FlowerExchange.Matching.Theorems.BitmaskOrderBook

open Function WordMask

namespace BitmaskOrderBook

def head (book : BitmaskOrderBook) (t : Nat) : Option Addr :=
  book.priceLevels[t]?.getD none

def tail (book : BitmaskOrderBook) (t : Nat) : Option Addr :=
  book.priceLevelTails[t]?.getD none

def Chain (book : BitmaskOrderBook) (pool : MemPool Order) (t : Nat) (l : List Addr) : Prop :=
  Linked (orderLinks pool.heap) (book.head t) l

def Rests (book : BitmaskOrderBook) (pool : MemPool Order) (a : Addr) : Prop :=
  ∃ t l, book.Chain pool t l ∧ a ∈ l

structure Sound (maxTicks : Nat) (book : BitmaskOrderBook) (pool : MemPool Order) : Prop where
  levels   : book.priceLevels.length = maxTicks
  tails    : book.priceLevelTails.length = maxTicks
  words    : book.mask.length = (maxTicks + 63) / 64
  mask     : ∀ t, Mem book.mask t ↔ book.head t ≠ none
  high     : ∀ t, maxTicks ≤ t → ¬Mem book.mask t
  chains   : ∀ t, ∃ l, book.Chain pool t l ∧ l.Nodup ∧ book.tail t = l.getLast?
  tail     : ∀ t, book.tail t = none ↔ book.head t = none
  disjoint : ∀ {t u l l' a}, book.Chain pool t l → book.Chain pool u l' → a ∈ l → a ∈ l' → t = u
  first    : IsBest (· < ·) { t | book.head t ≠ none } book.findFirst
  last     : IsBest (· > ·) { t | book.head t ≠ none } book.findLast

variable {book : BitmaskOrderBook} {pool : MemPool Order} {lv : Levels} {maxTicks t : Nat}

theorem length_of_getElem? {xs : List α} {f : Nat → α}
    (h : ∀ t, xs[t]? = if t < n then some (f t) else none) :
    xs.length = n := by
  refine Nat.le_antisymm (List.getElem?_eq_none_iff.mp ?_) (Nat.le_of_not_lt fun hl => ?_)
  · rw [h, if_neg (Nat.lt_irrefl n)]
  · have := h xs.length
    rw [if_pos hl, List.getElem?_eq_none le_rfl] at this
    contradiction

namespace Rep

theorem head_eq (rep : Rep maxTicks book pool.heap lv) (t : Nat) : book.head t = (lv t).head? := by
  rw [head, rep.heads t]
  split
  case isTrue => rfl
  case isFalse ht =>
    have : lv t = [] := by_contra fun hn => ht <| rep.bound t hn
    simp [this]

theorem tail_eq (rep : Rep maxTicks book pool.heap lv) (t : Nat) : book.tail t = (lv t).getLast? := by
  rw [tail, rep.tails t]
  split
  case isTrue => rfl
  case isFalse ht =>
    have : lv t = [] := by_contra fun hn => ht <| rep.bound t hn
    simp [this]

theorem chain_iff (rep : Rep maxTicks book pool.heap lv) : book.Chain pool t l ↔ l = lv t := by
  have hl : book.Chain pool t (lv t) := by
    rw [Chain, rep.head_eq]
    exact rep.linked t
  exact ⟨fun h => h.unique hl, fun h => h ▸ hl⟩

theorem rests_iff (rep : Rep maxTicks book pool.heap lv) : book.Rests pool a ↔ ∃ t, a ∈ lv t where
  mp  := fun ⟨t, _, h, ha⟩ => ⟨t, rep.chain_iff.mp h ▸ ha⟩
  mpr := fun ⟨t, ha⟩ => ⟨t, _, rep.chain_iff.mpr rfl, ha⟩

theorem active_eq (rep : Rep maxTicks book pool.heap lv) : { t | book.head t ≠ none } = lv.active := by
  ext t
  simp [rep.head_eq, Levels.active]

theorem sound (rep : Rep maxTicks book pool.heap lv) : book.Sound maxTicks pool where
  levels   := length_of_getElem? rep.heads
  tails    := length_of_getElem? rep.tails
  words    := rep.words
  mask t   := by
    rw [rep.active t, ← rep.active_eq]
    rfl
  high t h := fun hm => by
    have := rep.bound t <| rep.active t |>.mp hm
    omega
  chains t := ⟨lv t, rep.chain_iff.mpr rfl, (rep.linked t).nodup, rep.tail_eq t⟩
  tail t   := by simp [rep.tail_eq, rep.head_eq]
  disjoint h h' ha ha' := by
    rw [rep.chain_iff] at h h'
    exact rep.disjoint _ _ _ (h ▸ ha) (h' ▸ ha')
  first    := rep.active_eq ▸ rep.first
  last     := rep.active_eq ▸ rep.last

end Rep

end BitmaskOrderBook

namespace BookCall

variable {maxTicks : Nat} {live : Addr → Prop} {s : BitmaskOrderBook × MemPool Order} {lv : Levels}
variable {call : BookCall} {calls : List BookCall} {r : BookResult} {results : List BookResult}
variable {a : Addr}

def Popped (calls : List BookCall) (results : List BookResult) (a : Addr) : Prop :=
  ∃ (k t : Nat), (calls[k]? = some (.pop t)) ∧ (results[k]? = some (.order (some a)))

theorem popped_cons : Popped (call :: calls) (r :: results) a ↔
    ((∃ t, call = .pop t) ∧ r = .order (some a)) ∨ Popped calls results a := by
  constructor
  · rintro ⟨k, t, hc, hr⟩
    cases k
    case zero =>
      simp only [List.getElem?_cons_zero, Option.some.injEq] at hc hr
      exact .inl ⟨⟨t, hc⟩, hr⟩
    case succ k => exact .inr ⟨k, t, hc, hr⟩
  · rintro (⟨⟨t, rfl⟩, rfl⟩ | ⟨k, t, hc, hr⟩)
    · exact ⟨0, t, rfl, rfl⟩
    · exact ⟨k + 1, t, hc, hr⟩

theorem leaves (ha : a ∈ lv t) (hn : ∀ t, a ∉ lv.after call t) :
    ∃ u, call = .pop u ∧ (lv u).head? = some a := by
  replace hn := hn t
  cases call
  case pop tick =>
    by_cases ht : t = tick
    case neg => simp [Levels.after, update_of_ne ht, ha] at hn
    case pos =>
      subst ht
      rw [Levels.after, update_self] at hn
      cases hl : lv t
      case nil => simp [hl] at ha
      case cons b l =>
        rw [hl] at ha hn
        cases ha
        case head    => exact ⟨t, rfl, by rw [hl, List.head?_cons]⟩
        case tail ha => exact absurd ha hn
  case add tick order =>
    cases order
    case none => exact absurd ha hn
    case some b =>
      by_cases ht : t = tick
      case pos => simp [Levels.after, ht ▸ ha, ht] at hn
      case neg => simp [Levels.after, update_of_ne ht, ha] at hn
  case peek | findFirst | findLast => exact absurd ha hn

-- By induction on the calls: those orders among `freed` that rest in no queue have no link, and so do
-- those that are popped from then on.
theorem run_frees (calls : List BookCall) (h : Keeps maxTicks live s lv)
    (ha : lv.AdmitsAll maxTicks live calls) {freed : Addr → Prop}
    (hf : ∀ a, freed a → (∀ t, a ∉ lv t) → orderLinks s.2.heap a = some none) :
    ∃ s' results lv', (Machine.run step calls s = .ok (s', results)) ∧ Keeps maxTicks live s' lv' ∧
      ∀ a, freed a ∨ Popped calls results a → (∀ t, a ∉ lv' t) →
        orderLinks s'.2.heap a = some none := by
  induction calls generalizing s lv freed
  case nil =>
    refine ⟨s, [], lv, rfl, h, fun a hp => hf a <| hp.resolve_right ?_⟩
    rintro ⟨_, _, hc, _⟩
    simp at hc
  case cons call calls hi =>
    obtain ⟨s₁, r, hs, hr, h₁, frees⟩ := step_spec h call ha.left
    have hf₁ : ∀ a, freed a ∨ ((∃ t, call = .pop t) ∧ r = .order (some a)) →
        (∀ t, a ∉ lv.after call t) → orderLinks s₁.2.heap a = some none := by
      rintro a (hp | ⟨⟨t, rfl⟩, rfl⟩) hn
      · by_cases hb : ∃ t, a ∈ lv t
        case pos =>
          obtain ⟨t, ht⟩ := hb
          obtain ⟨u, hc, hu⟩ := leaves ht hn
          exact frees.popped u a hc hu
        case neg =>
          have hb := not_exists.mp hb
          rw [orderLinks, frees.frame a hb hn]
          exact hf a hp hb
      · exact frees.popped t a rfl (BookResult.order.inj hr).symm
    obtain ⟨s', results, lv', hrun, h', hf'⟩ := hi h₁ ha.right hf₁
    refine ⟨s', r :: results, lv', Machine.run_cons hs hrun, h', fun a hp => hf' a ?_⟩
    rw [popped_cons, ← or_assoc] at hp
    exact hp

-- After any calls, the parts of a book fit together, and the orders that have been popped and not
-- added again have no link.
theorem run_sound (maxTicks : Nat) (pool : { pool : MemPool Order // pool.WF })
    (calls : List BookCall)
    (h : Levels.AdmitsAll maxTicks (fun a => (pool.val.heap a).isSome) calls fun _ => []) :
    ∃ (book : BitmaskOrderBook) (pool' : MemPool Order) (results : List BookResult),
      (Machine.run step calls (BitmaskOrderBook.new maxTicks, pool.val) =
        .ok ((book, pool'), results)) ∧
      book.Sound maxTicks pool' ∧
      (∀ a, Popped calls results a → ¬book.Rests pool' a → orderLinks pool'.heap a = some none) := by
  have hk : Keeps maxTicks (fun a => (pool.val.heap a).isSome)
      (BitmaskOrderBook.new maxTicks, pool.val) (fun _ => []) :=
    ⟨pool.property, LawfulOrderBook.rep_new, fun _ => id⟩
  obtain ⟨⟨book, pool'⟩, results, lv, hrun, ⟨_, rep, _⟩, hf⟩ :=
    run_frees calls hk h (fun _ (h : False) _ => h.elim)
  have rep : BitmaskOrderBook.Rep maxTicks book pool'.heap lv := rep
  refine ⟨book, pool', results, hrun, rep.sound, fun a hp hn => hf a (.inr hp) fun t ht => ?_⟩
  exact hn <| rep.rests_iff.mpr ⟨t, ht⟩

theorem run_sound_words :
    let calls (a b : Addr) : List BookCall :=
      [.add 63 (some a), .add 64 (some b), .add 5 none, .pop 63, .pop 63]
    ∃ (pool pool' : MemPool Order) (a b : Addr) (book : BitmaskOrderBook)
      (results : List BookResult), (a ≠ b) ∧
      (Machine.run step (calls a b) (BitmaskOrderBook.new 65, pool) =
        .ok ((book, pool'), results)) ∧
      book.Sound 65 pool' := by
  intro calls
  obtain ⟨pool₁, a, _, wf₁, _, hh₁⟩ := MemPool.allocate_spec (default : Order) (MemPool.new_wf 1)
  obtain ⟨pool, b, _, wf, hb, hh⟩ := MemPool.allocate_spec (default : Order) wf₁
  have hne : a ≠ b := by
    rintro rfl
    simp [hh₁] at hb
  have hlive : (pool.heap a).isSome ∧ (pool.heap b).isSome := by simp [hh, hh₁, hne]
  have admitted : Levels.AdmitsAll 65 (fun a => (pool.heap a).isSome) (calls a b)
      (fun _ => []) := by
    simp [calls, Levels.AdmitsAll, Levels.Admits, Levels.after, hlive, update_apply, hne.symm]
  obtain ⟨book, pool', results, hrun, sound, _⟩ := run_sound 65 ⟨pool, wf⟩ (calls a b) admitted
  exact ⟨pool, pool', a, b, book, results, hne, hrun, sound⟩

end BookCall
