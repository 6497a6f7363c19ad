import FlowerExchange.Lib.Machine

-- Variables that are read and written piece by piece under a lock.
namespace Lock

variable {α β σ ι : Type _}

def Held (mutex : Option α) (inside : α → Prop) : Prop :=
  ∀ a, inside a ↔ mutex = some a

namespace Held

variable {mutex : Option α} {inside inside' : α → Prop} {a b : α}

theorem exclusive (h : Held mutex inside) (ha : inside a) (hb : inside b) : a = b :=
  Option.some.inj <| ((h a).mp ha).symm.trans ((h b).mp hb)

theorem not_inside (h : Held none inside) (a : α) : ¬inside a :=
  fun ha => nomatch (h a).mp ha

theorem congr (h : Held mutex inside) (hi : ∀ b, inside' b ↔ inside b) : Held mutex inside' :=
  fun b => (hi b).trans (h b)

theorem acquire (h : Held none inside) (ha : inside' a) (hi : ∀ b, b ≠ a → (inside' b ↔ inside b)) :
    Held (some a) inside' := by
  intro b
  by_cases hb : b = a
  case pos => simp [hb, ha]
  case neg => simp [hi b hb, h.not_inside b, Ne.symm hb]

theorem release (h : Held mutex inside) (ha : inside a) (hn : ¬inside' a)
    (hi : ∀ b, b ≠ a → (inside' b ↔ inside b)) : Held none inside' := by
  intro b
  by_cases hb : b = a
  case pos => simp [hb, hn]
  case neg =>
    have : ¬inside b := fun hi => hb <| h.exclusive hi ha
    simp [hi b hb, this]

end Held

inductive Passes (a : α) : Option α → Prop → Option α → Prop → Prop
  | stays {mutex : Option α} {p p' : Prop} (h : p' ↔ p) : Passes a mutex p mutex p'
  | enters {p p' : Prop} (h : p') : Passes a none p (some a) p'
  | leaves {mutex : Option α} {p p' : Prop} (h : p) (h' : ¬p') : Passes a mutex p none p'

theorem Held.passes {mutex mutex' : Option α} {inside inside' : α → Prop} {a : α} (h : Held mutex inside)
    (hp : Passes a mutex (inside a) mutex' (inside' a)) (hi : ∀ b, b ≠ a → (inside' b ↔ inside b)) :
    Held mutex' inside' := by
  cases hp
  case stays ha =>
    refine h.congr fun b => ?_
    by_cases hb : b = a
    · exact hb ▸ ha
    · exact hi b hb
  case enters ha    => exact h.acquire ha hi
  case leaves ha hn => exact h.release ha hn hi

def replaced (i : Nat) (new old : List β) : List β :=
  new.take i ++ old.drop i

section

variable {i : Nat} {new old : List β}

@[simp]
theorem replaced_zero : replaced 0 new old = old :=
  rfl

theorem length_replaced (hn : i ≤ new.length) (ho : i ≤ old.length) :
    (replaced i new old).length = old.length := by
  rw [replaced, List.length_append, List.length_take, List.length_drop, min_eq_left hn,
    Nat.add_sub_cancel' ho]

theorem replaced_length (h : new.length = old.length) : replaced new.length new old = new := by
  rw [replaced, List.take_length, h, List.drop_length, List.append_nil]

theorem set_replaced (hn : i < new.length) (ho : i < old.length) :
    (replaced i new old).set i new[i] = replaced (i + 1) new old := by
  have hl : (new.take i).length = i := by rw [List.length_take, min_eq_left hn.le]
  rw [replaced, replaced, List.set_append_right _ _ (by omega), hl, Nat.sub_self,
    List.drop_eq_getElem_cons ho, List.set_cons_zero, List.take_succ_eq_append_getElem hn,
    List.append_assoc, List.singleton_append]

end

inductive Access (β : Type _)
  | write
  | read (b : β)

-- The accesses are those to a register that is read and written at once. It holds one value after
-- another, and `P n` says what can be read off the value number `n`.
def Serves (P : Nat → β → Prop) : Nat → List (Access β) → Prop
  | _, []           => True
  | n, .write :: l  => Serves P (n + 1) l
  | n, .read b :: l => P n b ∧ Serves P n l

def Serve (P : Nat → β → Prop) (n : Nat) : Option (Access β) → Nat → Prop
  | none, n'           => n' = n
  | some .write, n'    => n' = n + 1
  | some (.read b), n' => P n b ∧ n' = n

variable {P : Nat → β → Prop} {l : List (Access β)} {n n' : Nat}

theorem Serves.cons {access : Option (Access β)} (ha : Serve P n access n') (h : Serves P n' l) :
    Serves P n (access.toList ++ l) := by
  rcases access with - | - | b
  · cases ha
    exact h
  · cases ha
    exact h
  · obtain ⟨hp, rfl⟩ := ha
    exact ⟨hp, h⟩

theorem Serve.le {access : Option (Access β)} (h : Serve P n access n') : n ≤ n' := by
  rcases access with - | - | b
  · exact h.ge
  · exact h ▸ n.le_succ
  · exact h.right.ge

def reads : List (Access β) → List β
  | []           => []
  | .write :: l  => reads l
  | .read b :: l => b :: reads l

theorem Serves.reads (h : Serves P n l) :
    ∃ xs : List (Nat × β), xs.map Prod.snd = reads l ∧ xs.Pairwise (·.1 ≤ ·.1) ∧
      ∀ x ∈ xs, n ≤ x.1 ∧ P x.1 x.2 := by
  induction l generalizing n
  case nil => exact ⟨[], rfl, .nil, List.forall_mem_nil _⟩
  case cons access l hi =>
    cases access
    case write =>
      have ⟨xs, hm, hp, hx⟩ := hi h
      exact ⟨xs, hm, hp, fun x h => (hx x h).imp_left n.le_succ.trans⟩
    case read b =>
      have ⟨xs, hm, hp, hx⟩ := hi h.right
      exact ⟨(n, b) :: xs, congrArg _ hm, hp.cons fun x h => (hx x h).left,
        List.forall_mem_cons.mpr ⟨⟨le_rfl, h.left⟩, hx⟩⟩

def accesses (step : σ → ι → σ × Option (Access β)) (is : List ι) (s : σ) : List (Access β) :=
  (Machine.exec step is s).2.flatMap Option.toList

theorem serves_of_simulation {step : σ → ι → σ × Option (Access β)} {R : σ → Nat → Prop}
    (hs : ∀ {s n} i, R s n → ∃ n', Serve P n (step s i).2 n' ∧ R (step s i).1 n') (h : R s n)
    (is : List ι) :
    Serves P n (accesses step is s) ∧ ∃ n', n ≤ n' ∧ R (Machine.exec step is s).1 n' := by
  induction is generalizing s n
  case nil => exact ⟨trivial, n, le_rfl, h⟩
  case cons i is hi =>
    have ⟨n', ha, h⟩ := hs i h
    have ⟨hr, n'', hle, h⟩ := hi h
    exact ⟨hr.cons ha, n'', ha.le.trans hle, h⟩

end Lock
