import FlowerExchange.Lib.PriceTime

open Function

structure Entry (ι : Type _) where
  owner  : ι
  amount : Nat
  last   : Bool
deriving DecidableEq

namespace Entry

variable {ι : Type _} [DecidableEq ι]

-- The entries are true to the accounts `b`, and leave `b'` of them. Nothing is overdrawn, and an entry
-- is the last one exactly when it takes what is left.
inductive Replay : (ι → Nat) → List (Entry ι) → (ι → Nat) → Prop
  | nil  : Replay b [] b
  | cons : (0 < e.amount) → (e.amount ≤ b e.owner) → (e.last ↔ e.amount = b e.owner) →
    (Replay (update b e.owner (b e.owner - e.amount)) es b') → Replay b (e :: es) b'

def ofOwner (j : ι) (es : List (Entry ι)) : List (Entry ι) :=
  es.filter (·.owner = j)

def drawn (j : ι) (es : List (Entry ι)) : Nat :=
  (ofOwner j es).map amount |>.sum

variable {b b' b'' : ι → Nat} {e : Entry ι} {es fs : List (Entry ι)} {j : ι}

@[simp]
theorem ofOwner_nil : ofOwner j ([] : List (Entry ι)) = [] :=
  rfl

theorem ofOwner_cons : ofOwner j (e :: es) = if e.owner = j then e :: ofOwner j es else ofOwner j es := by
  simp [ofOwner, List.filter_cons]

@[simp]
theorem drawn_nil : drawn j ([] : List (Entry ι)) = 0 :=
  rfl

theorem drawn_cons : drawn j (e :: es) = (if e.owner = j then e.amount else 0) + drawn j es := by
  rw [drawn, ofOwner_cons]
  split <;> simp [drawn]

theorem drawn_append : drawn j (es ++ fs) = drawn j es + drawn j fs := by
  simp [drawn, ofOwner]

namespace Replay

theorem append (h : Replay b es b') (h' : Replay b' fs b'') : Replay b (es ++ fs) b'' := by
  induction h
  case nil => exact h'
  case cons hp hl he _ hi => exact .cons hp hl he (hi h')

theorem cons_inv : (Replay b (e :: es) b') →
    (0 < e.amount) ∧ (e.amount ≤ b e.owner) ∧ (e.last ↔ e.amount = b e.owner) ∧
      Replay (update b e.owner (b e.owner - e.amount)) es b'
  | cons hp hl he h => ⟨hp, hl, he, h⟩

theorem split (h : Replay b (es ++ fs) b'') : ∃ b', Replay b es b' ∧ Replay b' fs b'' := by
  induction es generalizing b
  case nil => exact ⟨b, .nil, h⟩
  case cons hi =>
    have ⟨hp, hl, he, h⟩ := cons_inv h
    have ⟨b', h₁, h₂⟩ := hi h
    exact ⟨b', .cons hp hl he h₁, h₂⟩

theorem balance (h : Replay b es b') (j : ι) : drawn j es + b' j = b j := by
  induction h
  case nil => simp
  case cons b _ _ e hp hl _ _ hi =>
    rw [drawn_cons]
    by_cases hj : e.owner = j
    case pos =>
      subst hj
      rw [update_self] at hi
      simp only [if_true]
      omega
    case neg =>
      rw [update_of_ne (Ne.symm hj)] at hi
      simpa [hj] using hi

theorem entry (h : Replay b (es ++ e :: fs) b') :
    (0 < e.amount) ∧ (drawn e.owner es + e.amount ≤ b e.owner) ∧
      (e.last ↔ drawn e.owner es + e.amount = b e.owner) := by
  have ⟨b₁, h₁, h₂⟩ := h.split
  have ⟨hp, hl, he, _⟩ := h₂.cons_inv
  have hb := h₁.balance e.owner
  refine ⟨hp, by omega, ?_⟩
  rw [he]
  omega

theorem ofOwner_eq_nil (h : Replay b es b') (hj : b j = 0) : ofOwner j es = [] := by
  induction h
  case nil => rfl
  case cons b _ _ e hp hl _ _ hi =>
    have hne : e.owner ≠ j := by
      rintro rfl
      omega
    rw [ofOwner_cons, if_neg hne]
    exact hi (by rwa [update_of_ne hne.symm])

theorem opened (h : Replay b es b') (hj : b j = 0) (n : Nat) :
    Replay (update b j n) es (update b' j n) := by
  induction h
  case nil => exact .nil
  case cons b _ _ e hp hl he _ hi =>
    have hne : e.owner ≠ j := by
      rintro rfl
      omega
    have hb : update b j n e.owner = b e.owner := update_of_ne hne ..
    refine .cons hp (hb ▸ hl) (hb ▸ he) ?_
    rw [hb, update_comm hne.symm]
    exact hi (by rwa [update_of_ne hne.symm])

theorem lasts (h : Replay b es b') (j : ι) : ∃ n,
    (ofOwner j es).map last = .replicate n false ∨
      (ofOwner j es).map last = .replicate n false ++ [true] := by
  induction h
  case nil => exact ⟨0, .inl rfl⟩
  case cons b es _ e hp hl he h hi =>
    rw [ofOwner_cons]
    split
    case isFalse => exact hi
    case isTrue hj =>
      cases hlast : e.last
      case true =>
        have hz : update b e.owner (b e.owner - e.amount) j = 0 := by
          rw [← hj, update_self, ← he.mp hlast, Nat.sub_self]
        exact ⟨0, .inr (by simp [ofOwner_eq_nil h hz, hlast])⟩
      case false =>
        have ⟨n, hn⟩ := hi
        refine ⟨n + 1, hn.imp (fun hn => ?_) (fun hn => ?_)⟩ <;>
          simp [hn, hlast, List.replicate_succ]

end Replay

end Entry

namespace Resting

variable {P D : Type _}

def fillEntries (k : Nat) : Nat → List (Resting P D × Nat) → List (Entry Nat)
  | _, []          => []
  | q, (r, n) :: l => ⟨k, n, q - n = 0⟩ :: ⟨r.stamp, n, r.quantity - n = 0⟩ :: fillEntries k (q - n) l

variable {l : List (Resting P D)} {b : Nat → Nat} {k q : Nat}

theorem drawn_fillEntries_self {l : List (Resting P D × Nat)} (h : ∀ t ∈ l, t.1.stamp ≠ k) :
    Entry.drawn k (fillEntries k q l) = (l.map Prod.snd).sum := by
  induction l generalizing q
  case nil => rfl
  case cons t l hi =>
    have ⟨ht, hl⟩ := List.forall_mem_cons.mp h
    simp [fillEntries, Entry.drawn_cons, ht, hi hl]

theorem drawn_fillEntries {l : List (Resting P D × Nat)} (h : j ≠ k) :
    Entry.drawn j (fillEntries k q l) = ((l.filter (·.1.stamp = j)).map Prod.snd).sum := by
  induction l generalizing q
  case nil => rfl
  case cons t l hi =>
    simp only [fillEntries, Entry.drawn_cons, if_neg h.symm, hi, List.filter_cons, decide_eq_true_eq]
    split <;> simp

theorem fillEntries_replay (hk : b k = q) (hl : ∀ r ∈ l, b r.stamp = r.quantity)
    (hpos : ∀ r ∈ l, 0 < r.quantity) (hd : (k :: l.map stamp).Nodup) : ∃ b',
      Entry.Replay b (fillEntries k q (fill q l)) b' ∧ (b' k = q - total l) ∧
      (∀ r ∈ residual q l, b' r.stamp = r.quantity) ∧
      (∀ r ∈ l, 0 < b' r.stamp → ∃ r' ∈ residual q l, r'.stamp = r.stamp) ∧
      (∀ j, j ≠ k → j ∉ l.map stamp → b' j = b j) := by
  induction l generalizing b q
  case nil => exact ⟨b, .nil, by simp [hk], by simp, by simp, fun _ _ _ => rfl⟩
  case cons r l hi =>
    have hr := hl r <| .head _
    have hrp := hpos r <| .head _
    rcases Nat.eq_zero_or_pos q with rfl | hq
    case inl =>
      rw [fill_zero, residual_zero hpos]
      exact ⟨b, .nil, by simp [hk], hl, fun r hr _ => ⟨r, hr, rfl⟩, fun _ _ _ => rfl⟩
    case inr =>
      have ⟨hkl, hd'⟩ := List.nodup_cons.mp hd
      have ⟨hrl, hdl⟩ := List.nodup_cons.mp hd'
      simp only [List.map_cons, List.mem_cons, not_or] at hkl
      let n := min q r.quantity
      let b₁ := update (update b k (q - n)) r.stamp (r.quantity - n)
      have hb₁k : b₁ k = q - r.quantity := by
        simp only [b₁, update_of_ne hkl.left, update_self, n]
        omega
      have hb₁l : ∀ r ∈ l, b₁ r.stamp = r.quantity := fun x hx => by
        have hm : x.stamp ∈ l.map stamp := List.mem_map_of_mem hx
        have hxr : x.stamp ≠ r.stamp := fun he => hrl (he ▸ hm)
        have hxk : x.stamp ≠ k := fun he => hkl.right (he ▸ hm)
        simp only [b₁, update_of_ne hxr, update_of_ne hxk]
        exact hl x <| .tail _ hx
      have ⟨b', h, hk', hres, hback, hframe⟩ := hi hb₁k hb₁l (fun x hx => hpos x <| .tail _ hx)
        (List.nodup_cons.mpr ⟨hkl.right, hdl⟩)
      have hr' : b' r.stamp = r.quantity - n := by
        rw [hframe _ (Ne.symm hkl.left) hrl]
        exact update_self ..
      have hfill : fill q (r :: l) = (r, n) :: fill (q - r.quantity) l := fill_cons hq
      have hsub : q - n = q - r.quantity := by
        simp only [n]
        omega
      have hreplay : Entry.Replay b (fillEntries k q (fill q (r :: l))) b' := by
        rw [hfill, fillEntries, hsub]
        refine .cons (by simp only [n]; omega) (by simp only [n]; omega) (by simp [hk, n]; omega) ?_
        have hrk : update b k (b k - n) r.stamp = r.quantity := by
          rw [update_of_ne (Ne.symm hkl.left), hr]
        refine .cons (by simp only [n]; omega) (by simp only [hrk, n]; omega)
          (by simp only [hrk, n, decide_eq_true_eq]; omega) ?_
        rw [hrk, hk]
        exact h
      have hframe' : ∀ j, j ≠ k → j ∉ (r :: l).map stamp → b' j = b j := fun j hj hm => by
        simp only [List.map_cons, List.mem_cons, not_or] at hm
        rw [hframe j hj hm.right]
        simp only [b₁, update_of_ne hm.left, update_of_ne hj]
      refine ⟨b', hreplay, by rw [hk', total_cons]; omega, ?_, ?_, hframe'⟩
      all_goals rcases Nat.lt_or_ge q r.quantity with hlt | hle
      · have hn : n = q := Nat.min_eq_left hlt.le
        rw [Nat.sub_eq_zero_of_le hlt.le, residual_zero fun x hx => hpos x <| .tail _ hx] at hres
        rw [residual_cons_lt hlt]
        intro x hx
        cases hx
        case head    => rw [hr', hn]
        case tail hx => exact hres x hx
      · rwa [residual_cons_le hle]
      · rw [residual_cons_lt hlt]
        intro x hx _
        cases hx
        case head    => exact ⟨_, .head _, rfl⟩
        case tail hx => exact ⟨x, .tail _ hx, rfl⟩
      · have hn : n = r.quantity := Nat.min_eq_right hle
        rw [residual_cons_le hle]
        intro x hx hx'
        cases hx
        case head    => omega
        case tail hx => exact hback x hx hx'

end Resting
