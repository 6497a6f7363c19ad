import FlowerExchange.Matching.Theorems.BookInvariant

open Function WordMask

namespace BitmaskOrderBook

def NextFound (book : BitmaskOrderBook) (t : Nat) : Prop :=
  IsBest (· < ·) { u | t < u ∧ book.head u ≠ none } (book.findNextFrom t)

def PrevFound (book : BitmaskOrderBook) (t : Nat) : Prop :=
  IsBest (· > ·) { u | u < t ∧ book.head u ≠ none } (book.findPrevFrom t)

-- The tick lies in the mask, or no order rests in that part of the last word which a search from
-- beyond the mask leaves out.
def Searchable (book : BitmaskOrderBook) (t : Nat) : Prop :=
  t / 64 < book.mask.length ∨
    ∀ u, book.head u ≠ none → u < (book.mask.length - 1) * 64 + t % 64

variable {book : BitmaskOrderBook} {pool : MemPool Order} {lv : Levels} {maxTicks t u : Nat}

theorem findPrevFrom_beyond (h : book.mask.length ≤ t / 64) :
    book.findPrevFrom t = book.findPrevFrom ((book.mask.length - 1) * 64 + t % 64) := by
  cases hm : book.mask.isEmpty
  case true  => simp [findPrevFrom, hm]
  case false =>
    have hl : 0 < book.mask.length := List.length_pos_iff.mpr (by simpa using hm)
    have hj : t % 64 < 64 := Nat.mod_lt _ (by omega)
    simp only [findPrevFrom, hm, div_of_word hj, mod_of_word hj, if_pos h,
      if_neg (by omega : ¬book.mask.length - 1 ≥ book.mask.length)]

theorem head_lt (sound : book.Sound maxTicks pool) (h : book.head u ≠ none) :
    u / 64 < book.mask.length :=
  (sound.mask u |>.mpr h).div_lt

theorem Sound.nextFound (sound : book.Sound maxTicks pool) (t : Nat) : book.NextFound t := by
  have := book.findNextFrom_spec t
  simpa only [NextFound, sound.mask] using this

theorem Sound.prevFound_within (sound : book.Sound maxTicks pool) (h : t / 64 < book.mask.length) :
    book.PrevFound t := by
  have := findPrevFrom_spec h
  simpa only [PrevFound, sound.mask] using this

theorem Sound.prevFound_beyond_iff (sound : book.Sound maxTicks pool) (h : book.mask.length ≤ t / 64) :
    book.PrevFound t ↔ ∀ u, book.head u ≠ none → u < (book.mask.length - 1) * 64 + t % 64 := by
  obtain ⟨start, hs⟩ : ∃ start, start = (book.mask.length - 1) * 64 + t % 64 := ⟨_, rfl⟩
  rw [PrevFound, findPrevFrom_beyond h, ← hs]
  by_cases hl : book.mask.length = 0
  case pos =>
    have none (u) : book.head u = none := by
      by_contra hu
      have := head_lt sound hu
      omega
    simp [none, findPrevFrom, List.length_eq_zero_iff.mp hl, IsBest]
  case neg =>
    have below : book.PrevFound start := sound.prevFound_within (by omega)
    have lt (u) (hu : book.head u ≠ none) : u < t := by
      have := head_lt sound hu
      omega
    constructor
    case mp =>
      intro best u hu
      by_contra hc
      rcases best with ⟨he, _⟩ | ⟨v, _, hv, hve⟩
      · exact Set.eq_empty_iff_forall_notMem.mp he u ⟨lt u hu, hu⟩
      · have hvu : ¬u > v := hv u ⟨lt u hu, hu⟩
        rcases below with ⟨_, hb⟩ | ⟨w, hw, _, hb⟩
        · omega
        · have : w < start := hw.left
          omega
    case mpr =>
      intro hall
      have : { u | u < t ∧ book.head u ≠ none } = { u | u < start ∧ book.head u ≠ none } := by
        ext u
        exact ⟨fun hu => ⟨hall u hu.right, hu.right⟩, fun hu => ⟨lt u hu.right, hu.right⟩⟩
      rw [this]
      exact below

theorem Sound.prevFound_iff (sound : book.Sound maxTicks pool) (t : Nat) :
    book.PrevFound t ↔ book.Searchable t := by
  by_cases h : t / 64 < book.mask.length
  case pos => simp [Searchable, h, sound.prevFound_within h]
  case neg => simp only [Searchable, h, false_or, sound.prevFound_beyond_iff (Nat.le_of_not_lt h)]

end BitmaskOrderBook

namespace BookCall

-- After any calls, the upward search is right for all ticks, and the downward search for those ticks
-- that are searchable.
theorem run_neighbours (maxTicks : Nat) (pool : { pool : MemPool Order // pool.WF })
    (calls : List BookCall)
    (h : Levels.AdmitsAll maxTicks (fun a => (pool.val.heap a).isSome) calls fun _ => []) :
    ∃ (book : BitmaskOrderBook) (pool' : MemPool Order) (results : List BookResult),
      (Machine.run step calls (BitmaskOrderBook.new maxTicks, pool.val) =
        .ok ((book, pool'), results)) ∧
      ∀ tick : PriceTick, book.NextFound tick ∧ (book.PrevFound tick ↔ book.Searchable tick) := by
  have hk : Keeps maxTicks (fun a => (pool.val.heap a).isSome)
      (BitmaskOrderBook.new maxTicks, pool.val) (fun _ => []) :=
    ⟨pool.property, LawfulOrderBook.rep_new, fun _ => id⟩
  obtain ⟨⟨book, pool'⟩, results, hrun, ⟨_, rep, _⟩⟩ := run_keeps calls hk h
  have sound : book.Sound maxTicks pool' := BitmaskOrderBook.Rep.sound rep
  exact ⟨book, pool', results, hrun, fun t => ⟨sound.nextFound t, sound.prevFound_iff t⟩⟩

-- An order rests at tick 5 of a book of 64 levels. The search below tick 64 does not find it.
theorem run_neighbours_beyond :
    let calls : List BookCall := [.add 5 (some ⟨0, 0⟩)]
    ∃ (pool pool' : MemPool Order) (book : BitmaskOrderBook) (results : List BookResult),
      ((MemPool.new 1).allocate default = .ok (pool, ⟨0, 0⟩)) ∧
      (Machine.run step calls (BitmaskOrderBook.new 64, pool) = .ok ((book, pool'), results)) ∧
      (book.head 5 = some ⟨0, 0⟩) ∧ (book.findPrevFrom 64 = -1) ∧ ¬book.PrevFound 64 := by
  intro calls
  obtain ⟨pool, halloc, wf, hlive⟩ := MemPool.one_order
  have hk : Keeps 64 (fun a => (pool.heap a).isSome) (BitmaskOrderBook.new 64, pool) (fun _ => []) :=
    ⟨wf, LawfulOrderBook.rep_new, fun _ => id⟩
  have admitted : Levels.AdmitsAll 64 (fun a => (pool.heap a).isSome) calls (fun _ => []) := by
    simp [calls, Levels.AdmitsAll, Levels.Admits, hlive]
  obtain ⟨⟨book, pool'⟩, results, hrun, ⟨_, rep, _⟩⟩ := run_keeps calls hk admitted
  have rep : BitmaskOrderBook.Rep 64 book pool'.heap _ := rep
  have hhead : book.head 5 = some ⟨0, 0⟩ := by simp [rep.head_eq, calls, Levels.after]
  have hlen : book.mask.length = 1 := rep.words
  have hprev : book.findPrevFrom 64 = -1 := by
    rw [BitmaskOrderBook.findPrevFrom_beyond (by rw [hlen]), hlen]
    simp [BitmaskOrderBook.findPrevFrom, hlen, BitmaskOrderBook.findPrevWord]
  refine ⟨pool, pool', book, results, halloc, hrun, hhead, hprev, fun h => ?_⟩
  have hs : book.Searchable 64 := rep.sound.prevFound_iff 64 |>.mp h
  rcases hs with hs | hs
  · simp [hlen] at hs
  · have := hs 5 (by simp [hhead])
    simp [hlen] at this

theorem run_neighbours_moved :
    let calls : List BookCall := [.add 63 (some ⟨0, 0⟩), .pop 63, .add 64 (some ⟨0, 0⟩)]
    ∃ (pool pool' : MemPool Order) (book : BitmaskOrderBook) (results : List BookResult),
      ((MemPool.new 1).allocate default = .ok (pool, ⟨0, 0⟩)) ∧
      (Machine.run step calls (BitmaskOrderBook.new 70, pool) = .ok ((book, pool'), results)) ∧
      ∀ tick : PriceTick, book.NextFound tick ∧ (book.PrevFound tick ↔ book.Searchable tick) := by
  intro calls
  obtain ⟨pool, halloc, wf, hlive⟩ := MemPool.one_order
  have admitted : Levels.AdmitsAll 70 (fun a => (pool.heap a).isSome) calls (fun _ => []) := by
    simp [calls, Levels.AdmitsAll, Levels.Admits, Levels.after, hlive, update_apply]
  obtain ⟨book, pool', results, hrun, h⟩ := run_neighbours 70 ⟨pool, wf⟩ calls admitted
  exact ⟨pool, pool', book, results, halloc, hrun, h⟩

end BookCall
