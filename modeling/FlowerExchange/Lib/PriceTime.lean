import Mathlib

-- Offers that wait in a queue and are filled in order of price and, within a price, of arrival.
@[ext]
structure Resting (P D : Type _) where
  price    : P
  stamp    : Nat
  quantity : Nat
  data     : D
deriving DecidableEq

namespace Resting

variable {P D : Type _}

def total (l : List (Resting P D)) : Nat :=
  (l.map quantity).sum

-- The greedy fill of `l`: each offer in turn trades as much as it can, until `q` is used up.
def fill : Nat → List (Resting P D) → List (Resting P D × Nat)
  | _, []     => []
  | q, r :: l => if q = 0 then [] else (r, min q r.quantity) :: fill (q - r.quantity) l

-- What the greedy fill leaves of `l`: the offers behind the ones that it uses up, the first of which
-- can have lost a part of its quantity.
def residual : Nat → List (Resting P D) → List (Resting P D)
  | _, []     => []
  | q, r :: l =>
    if r.quantity ≤ q then residual (q - r.quantity) l
    else { r with quantity := r.quantity - q } :: l

def key (r : Resting P D) : P × Nat × D :=
  (r.price, r.stamp, r.data)

variable {l : List (Resting P D)} {r x y : Resting P D} {q n : Nat}

@[simp]
theorem total_nil : total ([] : List (Resting P D)) = 0 :=
  rfl

@[simp]
theorem total_cons : total (r :: l) = r.quantity + total l := by
  simp [total]

@[simp]
theorem fill_nil : fill q ([] : List (Resting P D)) = [] :=
  rfl

@[simp]
theorem fill_zero : fill 0 l = [] := by
  cases l <;> simp [fill]

theorem fill_cons (h : 0 < q) :
    fill q (r :: l) = (r, min q r.quantity) :: fill (q - r.quantity) l := by
  simp [fill, Nat.ne_of_gt h]

@[simp]
theorem residual_nil : residual q ([] : List (Resting P D)) = [] :=
  rfl

theorem residual_cons_le (h : r.quantity ≤ q) :
    residual q (r :: l) = residual (q - r.quantity) l := by
  simp [residual, h]

theorem residual_cons_lt (h : q < r.quantity) :
    residual q (r :: l) = { r with quantity := r.quantity - q } :: l := by
  simp [residual, Nat.not_le.mpr h]

theorem residual_zero (h : ∀ r ∈ l, 0 < r.quantity) : residual 0 l = l := by
  cases l
  case nil => rfl
  case cons r _ => simp [residual_cons_lt (h r <| .head _)]

theorem fill_sum (q : Nat) (l : List (Resting P D)) :
    ((fill q l).map Prod.snd).sum = min q (total l) := by
  induction l generalizing q
  case nil => simp
  case cons r l hi =>
    rcases Nat.eq_zero_or_pos q with rfl | h
    · simp
    · simp [fill_cons h, hi]
      omega

theorem fill_eq_nil_iff (h : ∀ r ∈ l, 0 < r.quantity) : (fill q l = []) ↔ (q = 0 ∨ l = []) := by
  cases l <;> simp [fill]

theorem total_eq_zero_iff (h : ∀ r ∈ l, 0 < r.quantity) : (total l = 0) ↔ (l = []) := by
  cases l
  case nil => simp
  case cons r _ =>
    have := h r <| .head _
    simp
    omega

theorem residual_of_total_le (h : total l ≤ q) : residual q l = [] := by
  induction l generalizing q
  case nil => rfl
  case cons r l hi =>
    rw [total_cons] at h
    rw [residual_cons_le (by omega)]
    exact hi (by omega)

theorem mem_fill (m : (r, n) ∈ fill q l) : r ∈ l ∧ n ≤ r.quantity ∧ n ≤ q := by
  induction l generalizing q
  case nil => contradiction
  case cons x l hi =>
    rcases Nat.eq_zero_or_pos q with rfl | h
    · simp at m
    · rw [fill_cons h] at m
      cases m
      case head   => simp
      case tail m =>
        have ⟨hm, hn, hq⟩ := hi m
        exact ⟨.tail _ hm, hn, by omega⟩

theorem fill_pos (h : ∀ r ∈ l, 0 < r.quantity) (m : (r, n) ∈ fill q l) : 0 < n := by
  induction l generalizing q
  case nil => contradiction
  case cons x l hi =>
    rcases Nat.eq_zero_or_pos q with rfl | hq
    · simp at m
    · rw [fill_cons hq] at m
      cases m
      case head   => have := h r <| .head _; omega
      case tail m => exact hi (fun r hr => h r <| .tail _ hr) m

theorem key_residual (q : Nat) (l : List (Resting P D)) :
    (residual q l).map key <:+ l.map key := by
  induction l generalizing q
  case nil => simp
  case cons r l hi =>
    rcases Nat.lt_or_ge q r.quantity with h | h
    · simp [residual_cons_lt h, key]
    · rw [residual_cons_le h, List.map_cons]
      exact (hi _).trans <| List.suffix_cons _ _

theorem residual_pos (h : ∀ r ∈ l, 0 < r.quantity) : ∀ r ∈ residual q l, 0 < r.quantity := by
  induction l generalizing q
  case nil => simp
  case cons x l hi =>
    have hl : ∀ r ∈ l, 0 < r.quantity := fun r hr => h r <| .tail _ hr
    rcases Nat.lt_or_ge q x.quantity with hq | hq
    · rw [residual_cons_lt hq]
      intro r hr
      cases hr
      case head    => simp; omega
      case tail hr => exact hl r hr
    · rw [residual_cons_le hq]
      exact hi hl

theorem length_residual_le (q : Nat) (l : List (Resting P D)) : (residual q l).length ≤ l.length := by
  simpa using (key_residual q l).length_le

theorem length_fill_add_le (q : Nat) (l : List (Resting P D)) :
    (fill q l).length + (residual q l).length + (if total l < q then 1 else 0) ≤ l.length + 1 := by
  induction l generalizing q
  case nil => by_cases hq : 0 < q <;> simp [hq]
  case cons r l hi =>
    rcases Nat.eq_zero_or_pos q with rfl | hq
    · have := length_residual_le 0 (r :: l)
      simp only [fill_zero, List.length_nil, Nat.not_lt_zero, if_false]
      omega
    · rw [fill_cons hq, List.length_cons, List.length_cons, total_cons]
      rcases Nat.lt_or_ge q r.quantity with h | h
      · rw [residual_cons_lt h, Nat.sub_eq_zero_of_le h.le, fill_zero, if_neg (by omega)]
        simp
        omega
      · have := hi (q - r.quantity)
        have ht : total l < q - r.quantity ↔ r.quantity + total l < q := by omega
        simp only [residual_cons_le h, ht] at this ⊢
        omega

theorem fill_split (h : fill q l = done ++ (r, n) :: later) : ∃ behind,
    (l = done.map Prod.fst ++ r :: behind) ∧ (∀ t ∈ done, t.2 = t.1.quantity) ∧
      (n = min (q - (done.map Prod.snd).sum) r.quantity) := by
  induction l generalizing q done
  case nil => simp at h
  case cons x l hi =>
    rcases Nat.eq_zero_or_pos q with rfl | hq
    case inl => simp at h
    case inr =>
      rw [fill_cons hq] at h
      cases done
      case nil =>
        simp only [List.nil_append, List.cons.injEq, Prod.mk.injEq] at h
        obtain ⟨⟨rfl, rfl⟩, _⟩ := h
        exact ⟨l, rfl, by simp, by simp⟩
      case cons t done =>
        simp only [List.cons_append, List.cons.injEq] at h
        obtain ⟨rfl, h⟩ := h
        have hle : x.quantity ≤ q := by
          by_contra hlt
          rw [Nat.sub_eq_zero_of_le (by omega), fill_zero] at h
          simp at h
        obtain ⟨behind, hl, hd, hn⟩ := hi h
        refine ⟨behind, by simp [hl], List.forall_mem_cons.mpr ⟨Nat.min_eq_right hle, hd⟩, ?_⟩
        rw [hn, List.map_cons, List.sum_cons, Nat.min_eq_right hle, Nat.sub_sub]

theorem residual_dvd (hq : k ∣ q) (h : ∀ r ∈ l, k ∣ r.quantity) :
    ∀ r ∈ residual q l, k ∣ r.quantity := by
  induction l generalizing q
  case nil => simp
  case cons x l hi =>
    have hx := h x <| .head _
    have hl : ∀ r ∈ l, k ∣ r.quantity := fun r hr => h r <| .tail _ hr
    rcases Nat.lt_or_ge q x.quantity with hlt | hle
    · rw [residual_cons_lt hlt]
      intro r hr
      cases hr
      case head    => exact Nat.dvd_sub hx hq
      case tail hr => exact hl r hr
    · rw [residual_cons_le hle]
      exact hi (Nat.dvd_sub hq hx) hl

theorem dvd_total (h : ∀ r ∈ l, k ∣ r.quantity) : k ∣ total l := by
  induction l
  case nil => simp
  case cons x l hi =>
    rw [total_cons]
    exact Nat.dvd_add (h x <| .head _) <| hi fun r hr => h r <| .tail _ hr

theorem mem_residual (m : r ∈ residual q l) : ∃ r' ∈ l, r.key = r'.key ∧ r.quantity ≤ r'.quantity := by
  induction l generalizing q
  case nil => contradiction
  case cons x l hi =>
    rcases Nat.lt_or_ge q x.quantity with hq | hq
    · rw [residual_cons_lt hq] at m
      cases m
      case head   => exact ⟨x, .head _, rfl, by simp⟩
      case tail m => exact ⟨r, .tail _ m, rfl, le_rfl⟩
    · rw [residual_cons_le hq] at m
      have ⟨r', hm, hr⟩ := hi m
      exact ⟨r', .tail _ hm, hr⟩

section

variable (better : P → P → Prop)

def Before (x y : Resting P D) : Prop :=
  better x.price y.price ∨ (x.price = y.price ∧ x.stamp < y.stamp)

abbrev Sorted (l : List (Resting P D)) : Prop :=
  l.Pairwise (Before better)

variable [DecidableRel better]

-- A new offer is queued behind all offers that have at least as good a price.
def enqueue (x : Resting P D) (l : List (Resting P D)) : List (Resting P D) :=
  l.orderedInsert (fun x y => better x.price y.price) x

def matching (limit : P) (l : List (Resting P D)) : List (Resting P D) :=
  l.filter (fun r => ¬better limit r.price)

def rest (limit : P) (l : List (Resting P D)) : List (Resting P D) :=
  l.filter (fun r => better limit r.price)

end

def level [DecidableEq P] (p : P) (l : List (Resting P D)) : List (Resting P D) :=
  l.filter (·.price = p)

@[simp]
theorem level_nil [DecidableEq P] : level p ([] : List (Resting P D)) = [] :=
  rfl

theorem level_cons [DecidableEq P] :
    level p (r :: l) = if r.price = p then r :: level p l else level p l := by
  simp [level, List.filter_cons]

section

variable {better : P → P → Prop}

theorem sorted_residual (h : Sorted better l) : Sorted better (residual q l) := by
  let before (a b : P × Nat × D) : Prop := better a.1 b.1 ∨ (a.1 = b.1 ∧ a.2.1 < b.2.1)
  have hk : (l.map key).Pairwise before := List.pairwise_map.mpr h
  exact List.pairwise_map (R := before) |>.mp <| hk.sublist (key_residual q l).sublist

variable [IsStrictTotalOrder P better]

theorem Before.trans (h₁ : Before better x y) (h₂ : Before better y r) : Before better x r := by
  rcases h₁ with h₁ | ⟨e₁, h₁⟩ <;> rcases h₂ with h₂ | ⟨e₂, h₂⟩
  · exact .inl <| IsTrans.trans _ _ _ h₁ h₂
  · exact .inl <| e₂ ▸ h₁
  · exact .inl <| e₁ ▸ h₂
  · exact .inr ⟨e₁.trans e₂, h₁.trans h₂⟩

theorem Before.not_better (h : Before better x y) : ¬better y.price x.price := by
  rcases h with h | ⟨e, -⟩
  · exact fun h' => irrefl _ <| IsTrans.trans _ _ _ h h'
  · exact fun h' => irrefl _ <| e ▸ h'

theorem Sorted.head_best (h : Sorted better (r :: l)) (m : x ∈ l) : ¬better x.price r.price :=
  List.rel_of_pairwise_cons h m |>.not_better

theorem Sorted.beats_tail (h : Sorted better (r :: l)) (hb : better limit r.price) :
    ∀ x ∈ l, better limit x.price := by
  intro x m
  rcases List.rel_of_pairwise_cons h m with hx | ⟨he, -⟩
  · exact IsTrans.trans _ _ _ hb hx
  · exact he ▸ hb

variable [DecidableRel better]

omit [IsStrictTotalOrder P better] in
theorem mem_enqueue : x ∈ enqueue better y l ↔ x = y ∨ x ∈ l :=
  List.mem_orderedInsert _

theorem sorted_enqueue (h : Sorted better l) (hx : ∀ y ∈ l, y.stamp < x.stamp) :
    Sorted better (enqueue better x l) := by
  induction l
  case nil => simp [enqueue]
  case cons y l hi =>
    have ⟨hy, hl⟩ := List.pairwise_cons.mp h
    by_cases hb : better x.price y.price
    case pos =>
      have hxy : Before better x y := .inl hb
      simp only [enqueue, List.orderedInsert_cons, hb, if_true]
      refine List.pairwise_cons.mpr ⟨fun z hz => ?_, h⟩
      cases hz
      case head    => exact hxy
      case tail hz => exact hxy.trans <| hy z hz
    case neg =>
      simp only [enqueue, List.orderedInsert_cons, hb, if_false]
      refine List.pairwise_cons.mpr ⟨fun z hz => ?_, hi hl fun z hz => hx z <| .tail _ hz⟩
      rcases mem_enqueue.mp hz with rfl | hz
      · rcases trichotomous_of better y.price z.price with h | h | h
        · exact .inl h
        · exact .inr ⟨h, hx y <| .head _⟩
        · exact absurd h hb
      · exact hy z hz

theorem level_enqueue [DecidableEq P] (h : Sorted better l) (p : P) :
    level p (enqueue better x l) = if x.price = p then level p l ++ [x] else level p l := by
  induction l
  case nil => simp [enqueue, level, List.filter_cons]
  case cons y l hi =>
    have ⟨hy, hl⟩ := List.pairwise_cons.mp h
    by_cases hb : better x.price y.price
    case pos =>
      -- Everything from `y` on has a worse price than `x`.
      have hn : ∀ z ∈ y :: l, z.price ≠ x.price := by
        intro z hz he
        cases hz
        case head    => exact irrefl _ <| he ▸ hb
        case tail hz => exact (hy z hz).not_better <| he ▸ hb
      simp only [enqueue, List.orderedInsert_cons, hb, if_true, level, List.filter_cons (x := x)]
      split
      case isTrue hp =>
        have : (y :: l).filter (fun z => decide (z.price = p)) = [] :=
          List.filter_eq_nil_iff.mpr fun z hz => by simp [← of_decide_eq_true hp, hn z hz]
        simp [of_decide_eq_true hp, this]
      case isFalse hp => simp_all
    case neg =>
      have hi := hi hl
      simp only [enqueue, List.orderedInsert_cons, hb, if_false, level] at hi ⊢
      rw [List.filter_cons, hi, List.filter_cons]
      split <;> split <;> simp

theorem Sorted.takeWhile_eq (h : Sorted better l) (limit : P) :
    l.takeWhile (fun r => ¬better limit r.price) = matching better limit l := by
  induction l
  case nil => rfl
  case cons r l hi =>
    by_cases hb : better limit r.price
    case neg => simpa [matching, hb] using hi h.of_cons
    case pos => simpa [matching, hb] using h.beats_tail hb

theorem Sorted.dropWhile_eq (h : Sorted better l) (limit : P) :
    l.dropWhile (fun r => ¬better limit r.price) = rest better limit l := by
  induction l
  case nil => rfl
  case cons r l hi =>
    by_cases hb : better limit r.price
    case neg => simpa [rest, hb] using hi h.of_cons
    case pos =>
      have : rest better limit l = l := List.filter_eq_self.mpr <| by simpa using h.beats_tail hb
      simpa [rest, hb] using this.symm

omit [IsStrictTotalOrder P better] in
theorem mem_matching : r ∈ matching better limit l ↔ r ∈ l ∧ ¬better limit r.price := by
  simp [matching]

omit [IsStrictTotalOrder P better] in
theorem mem_rest : r ∈ rest better limit l ↔ r ∈ l ∧ better limit r.price := by
  simp [rest]

theorem Sorted.matching_append_rest (h : Sorted better l) (limit : P) :
    matching better limit l ++ rest better limit l = l := by
  rw [← h.takeWhile_eq limit, ← h.dropWhile_eq limit, List.takeWhile_append_dropWhile]

theorem Sorted.matching_of_beaten (h : Sorted better (r :: l)) (hb : better limit r.price) :
    matching better limit (r :: l) = [] := by
  rw [← h.takeWhile_eq limit]
  simp [hb]

theorem Sorted.unserved (h : Sorted better l) (positive : ∀ r ∈ l, 0 < r.quantity) (q : Nat)
    (limit : P) (hq : q = 0 ∨ matching better limit l = []) :
    (fill q (matching better limit l) = []) ∧ (q - total (matching better limit l) = q) ∧
      residual q (matching better limit l) ++ rest better limit l = l := by
  have hl := h.matching_append_rest limit
  rcases hq with rfl | hm
  case inl =>
    have hpos : ∀ r ∈ matching better limit l, 0 < r.quantity :=
      fun r hr => positive r (mem_matching.mp hr).left
    exact ⟨fill_zero, Nat.zero_sub _, by rw [residual_zero hpos, hl]⟩
  case inr =>
    rw [hm] at hl ⊢
    exact ⟨fill_nil, Nat.sub_zero q, hl⟩

omit [IsStrictTotalOrder P better] in
theorem matching_cons (hb : ¬better limit r.price) :
    matching better limit (r :: l) = r :: matching better limit l := by
  simp [matching, hb]

omit [IsStrictTotalOrder P better] in
theorem rest_cons (hb : ¬better limit r.price) :
    rest better limit (r :: l) = rest better limit l := by
  simp [rest, hb]

theorem Sorted.after_fill (h : Sorted better l) (q : Nat) (limit : P) :
    Sorted better (residual q (matching better limit l) ++ rest better limit l) := by
  refine List.pairwise_append.mpr ⟨sorted_residual (h.filter _), h.filter _, fun x hx y hy => ?_⟩
  have ⟨x', hx', hk, _⟩ := mem_residual hx
  have ⟨_, hb⟩ := mem_matching.mp hx'
  have ⟨_, hb'⟩ := mem_rest.mp hy
  have hp : x.price = x'.price := congrArg Prod.fst hk
  rcases trichotomous_of better x.price y.price with h | h | h
  · exact .inl h
  · exact absurd (hp ▸ h ▸ hb') hb
  · exact absurd (IsTrans.trans _ _ _ hb' h) (hp ▸ hb)

end

end Resting
