import Mathlib

-- A singly linked list threaded through its own nodes. `links a` is `none` when there is no node at
-- `a`, and otherwise holds the link that is stored in the node at `a`. `Linked links h l` says that
-- following the links from `h` visits exactly the nodes `l`, in order, and then ends.
inductive Linked (links : α → Option (Option α)) : Option α → List α → Prop
  | nil  : Linked links none []
  | cons : (links a = some n) → (Linked links n l) → Linked links (some a) (a :: l)

namespace Linked

variable {links links' : α → Option (Option α)} {h : Option α} {l l₁ l₂ : List α} {a : α}

theorem head_eq : (Linked links h l) → h = l.head?
  | nil | cons .. => rfl

theorem none_iff : (Linked links none l) ↔ (l = []) where
  mp  := fun | nil => rfl
  mpr := fun h => h ▸ nil

theorem some_elim : (Linked links (some a) l) →
    ∃ n l', (l = a :: l') ∧ (links a = some n) ∧ (Linked links n l')
  | cons hn k => ⟨_, _, rfl, hn, k⟩

theorem unique (k₁ : Linked links h l₁) (k₂ : Linked links h l₂) : l₁ = l₂ := by
  induction k₁ generalizing l₂
  case nil => exact none_iff.mp k₂ |>.symm
  case cons hn _ hi =>
    have ⟨_, _, hl, hn', k₂⟩ := k₂.some_elim
    injection hn ▸ hn' with hn'
    rw [hl, hi (hn' ▸ k₂)]

theorem mem_isSome (k : Linked links h l) (m : a ∈ l) : (links a).isSome := by
  induction k
  case nil => contradiction
  case cons hn _ hi =>
    cases m
    case head   => simp [hn]
    case tail m => exact hi m

theorem next_mem (k : Linked links h l) (m : a ∈ l) (hn : links a = some (some b)) : b ∈ l := by
  induction k
  case nil => contradiction
  case cons ha k hi =>
    cases m
    case tail m => exact .tail _ <| hi m
    case head   =>
      injection hn ▸ ha with he
      have ⟨_, _, hl, _⟩ := (he ▸ k).some_elim
      exact .tail _ (hl ▸ .head _)

theorem congr (k : Linked links h l) (e : ∀ a ∈ l, links' a = links a) : Linked links' h l := by
  induction k
  case nil => exact nil
  case cons a _ _ hn _ hi =>
    refine cons ?_ (hi fun x m => e x <| .tail _ m)
    rw [e a <| .head _, hn]

theorem from_mem (k : Linked links h l) (m : a ∈ l) :
    ∃ l₁ l₂, (l = l₁ ++ a :: l₂) ∧ (Linked links (some a) (a :: l₂)) := by
  induction k
  case nil => contradiction
  case cons b _ l' hn k hi =>
    cases m
    case head => exact ⟨[], l', rfl, cons hn k⟩
    case tail m =>
      have ⟨l₁, l₂, hl, k'⟩ := hi m
      exact ⟨b :: l₁, l₂, by simp [hl], k'⟩

-- A list that ends does not pass the same node twice: what follows a node is determined by it, so
-- both occurrences would have the same, and thus equally long, rest.
theorem nodup (k : Linked links h l) : l.Nodup := by
  induction k
  case nil => exact List.nodup_nil
  case cons a _ l hn k hi =>
    refine List.nodup_cons.mpr ⟨fun m => ?_, hi⟩
    have ⟨l₁, l₂, hl, k'⟩ := k.from_mem m
    have he := congrArg List.length <| (cons hn k).unique k'
    simp [hl] at he
    omega

theorem of_getElem (e : ∀ i (hi : i < l.length), links l[i] = some l[i + 1]?) :
    Linked links l.head? l := by
  induction l
  case nil => exact nil
  case cons a l hi =>
    have ha := e 0 (by simp)
    have hl := hi fun i h => e (i + 1) (Nat.succ_lt_succ h)
    exact cons (by simpa [List.head?_eq_getElem?] using ha) hl

theorem append (k : Linked links h l) (ha : links' a = some none)
    (hl : ∀ z ∈ l.getLast?, links' z = some (some a))
    (hf : ∀ x ∈ l, x ∉ l.getLast? → links' x = links x) :
    Linked links' (h.or (some a)) (l ++ [a]) := by
  have hd := k.nodup
  induction k
  case nil => exact cons ha nil
  case cons b n l hb k hi =>
    cases k
    case nil => exact cons (hl b rfl) <| cons ha nil
    case cons c m l hc k =>
      have hbl : b ∉ (c :: l).getLast? :=
        fun hm => (List.nodup_cons.mp hd).left <| List.mem_of_getLast? hm
      refine cons ?_ <| hi ?_ ?_ hd.of_cons
      · rw [hf b (by simp) (by simpa [List.getLast?_cons_cons] using hbl), hb, Option.some_or]
      · intro z hz
        exact hl z (by simpa [List.getLast?_cons_cons] using hz)
      · intro x hx hn
        exact hf x (.tail _ hx) (by simpa [List.getLast?_cons_cons] using hn)

end Linked
