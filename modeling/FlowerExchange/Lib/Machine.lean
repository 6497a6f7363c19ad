import Mathlib

-- Deterministic machines: a step takes the state and an input to the next state and an output.
namespace Machine

def exec (step : τ → ι → τ × ο) : List ι → τ → τ × List ο
  | [], t      => (t, [])
  | i :: is, t =>
    let (t', o)   := step t i
    let (t'', os) := exec step is t'
    (t'', o :: os)

def run (step : σ → ι → Except ε (σ × ο)) : List ι → σ → Except ε (σ × List ο)
  | [], s      => return (s, [])
  | i :: is, s => do
    let (s', o)   ← step s i
    let (s'', os) ← run step is s'
    return (s'', o :: os)

-- What a machine that stops by itself outputs in at most `n` steps, and whether it has stopped then.
def loop (step : σ → Option (σ × ο)) : Nat → σ → List ο × Bool
  | 0, _     => ([], false)
  | n + 1, s =>
    match step s with
    | none         => ([], true)
    | some (s', o) =>
      let (os, stopped) := loop step n s'
      (o :: os, stopped)

variable {step : σ → ι → Except ε (σ × ο)} {astep : τ → ι → τ × ο} {s s' : σ} {t : τ} {is js : List ι}

@[simp]
theorem exec_nil : exec astep [] t = (t, []) :=
  rfl

@[simp]
theorem exec_cons :
    exec astep (i :: is) t =
      ((exec astep is (astep t i).1).1, (astep t i).2 :: (exec astep is (astep t i).1).2) :=
  rfl

theorem exec_append :
    exec astep (is ++ js) t =
      ((exec astep js (exec astep is t).1).1,
        (exec astep is t).2 ++ (exec astep js (exec astep is t).1).2) := by
  induction is generalizing t <;> simp_all

theorem exec_snoc :
    exec astep (is ++ [i]) t =
      ((astep (exec astep is t).1 i).1, (exec astep is t).2 ++ [(astep (exec astep is t).1 i).2]) := by
  simp [exec_append]

theorem length_exec : (exec astep is t).2.length = is.length := by
  induction is generalizing t <;> simp_all

theorem exec_take : (exec astep (is.take k) t).2 = (exec astep is t).2.take k := by
  induction is generalizing t k
  case nil => simp
  case cons hi => cases k <;> simp [hi]

theorem exec_getElem? (h : is[k]? = some i) :
    (exec astep is t).2[k]? = some (astep (exec astep (is.take k) t).1 i).2 := by
  induction is generalizing t k
  case nil => simp at h
  case cons hi =>
    cases k
    case zero => simp_all
    case succ => simpa using hi h

theorem exec_invariant {P : τ → Prop} (hs : ∀ {t} i, P t → P (astep t i).1) (h : P t) :
    P (exec astep is t).1 := by
  induction is generalizing t
  case nil => exact h
  case cons i _ hi => exact hi (hs i h)

theorem exec_forall {P : τ → Prop} {I : ι → Prop} {O : ο → Prop}
    (hs : ∀ {t i}, P t → I i → P (astep t i).1 ∧ O (astep t i).2) (hi : ∀ i ∈ is, I i) (h : P t) :
    P (exec astep is t).1 ∧ ∀ o ∈ (exec astep is t).2, O o := by
  induction is generalizing t
  case nil => exact ⟨h, nofun⟩
  case cons i is hr =>
    have ⟨h, ho⟩ := hs h <| hi i <| .head _
    have ⟨h, hos⟩ := hr (fun j hj => hi j <| .tail _ hj) h
    exact ⟨h, List.forall_mem_cons.mpr ⟨ho, hos⟩⟩

-- What the steps of a run cost is paid for by what the inputs bring in, and by what the state has in store.
theorem exec_amortized (cost : ο → Nat) (credit : ι → Nat) (store : τ → Nat)
    (hs : ∀ t i, cost (astep t i).2 + store (astep t i).1 ≤ store t + credit i) (is : List ι) (t : τ) :
    ((exec astep is t).2.map cost).sum + store (exec astep is t).1 ≤ store t + (is.map credit).sum := by
  induction is generalizing t
  case nil => simp
  case cons i is hi =>
    have := hs t i
    have := hi (astep t i).1
    simp only [exec_cons, List.map_cons, List.sum_cons]
    omega

theorem exec_rel {step₁ : τ₁ → ι₁ → τ₁ × ο₁} {step₂ : τ₂ → ι₂ → τ₂ × ο₂} {R : τ₁ → τ₂ → Prop}
    {I : ι₁ → ι₂ → Prop} {O : ο₁ → ο₂ → Prop}
    (hs : ∀ {t₁ t₂ i₁ i₂}, R t₁ t₂ → I i₁ i₂ →
      R (step₁ t₁ i₁).1 (step₂ t₂ i₂).1 ∧ O (step₁ t₁ i₁).2 (step₂ t₂ i₂).2)
    (hi : List.Forall₂ I is₁ is₂) (h : R t₁ t₂) :
    R (exec step₁ is₁ t₁).1 (exec step₂ is₂ t₂).1 ∧
      List.Forall₂ O (exec step₁ is₁ t₁).2 (exec step₂ is₂ t₂).2 := by
  induction hi generalizing t₁ t₂
  case nil => exact ⟨h, .nil⟩
  case cons hi _ hr =>
    have ⟨h, ho⟩ := hs h hi
    have ⟨h, hos⟩ := hr h
    exact ⟨h, .cons ho hos⟩

@[simp]
theorem run_nil : run step [] s = .ok (s, []) :=
  rfl

theorem run_cons (h₁ : step s i = .ok (s', o)) (h₂ : run step is s' = .ok (s'', os)) :
    run step (i :: is) s = .ok (s'', o :: os) := by
  simp [run, h₁, h₂, bind, Except.bind, pure, Except.pure]

theorem run_cons_inv (h : run step (i :: is) s = .ok (s'', os)) :
    ∃ s' o os', step s i = .ok (s', o) ∧ run step is s' = .ok (s'', os') ∧ os = o :: os' := by
  simp only [run] at h
  cases hs : step s i <;> simp only [hs, bind, Except.bind] at h
  case error => cases h
  case ok so =>
    cases hr : run step is so.1 <;> simp only [hr] at h
    case error => cases h
    case ok so' =>
      cases h
      exact ⟨so.1, so.2, so'.2, rfl, hr, rfl⟩

theorem run_append (h₁ : run step is s = .ok (s', os)) (h₂ : run step js s' = .ok (s'', os')) :
    run step (is ++ js) s = .ok (s'', os ++ os') := by
  induction is generalizing s os
  case nil =>
    cases h₁
    exact h₂
  case cons hi =>
    have ⟨_, _, _, hs, hr, ho⟩ := run_cons_inv h₁
    exact ho ▸ run_cons hs (hi hr)

-- A simulation lets the machine that can fail run without failing, with the outputs that `view` makes
-- of those of the machine that it simulates.
theorem run_of_simulation {astep : τ → ι → τ × ο'} {R : σ → τ → Prop} (view : ο' → ο)
    (hs : ∀ {s t} i, R s t → ∃ s', (step s i = .ok (s', view (astep t i).2)) ∧ R s' (astep t i).1)
    (h : R s t) :
    ∃ s', (run step is s = .ok (s', (exec astep is t).2.map view)) ∧ R s' (exec astep is t).1 := by
  induction is generalizing s t
  case nil => exact ⟨s, rfl, h⟩
  case cons i is hi =>
    have ⟨_, h₁, h⟩ := hs i h
    have ⟨s'', h₂, h⟩ := hi h
    exact ⟨s'', run_cons h₁ h₂, h⟩

theorem loop_some {step : σ → Option (σ × ο)} (h : step s = some (s', o)) (n : Nat) :
    loop step (n + 1) s = (o :: (loop step n s').1, (loop step n s').2) := by
  simp [loop, h]

theorem loop_none {step : σ → Option (σ × ο)} (h : step s = none) (n : Nat) :
    loop step (n + 1) s = ([], true) := by
  simp [loop, h]

theorem loop_invariant {step : σ → Option (σ × ο)} {P : σ → Prop}
    (hs : ∀ {s}, P s → ∃ s' o, step s = some (s', o) ∧ P s') (h : P s) (n : Nat) :
    (loop step n s).2 = false := by
  induction n generalizing s
  case zero => rfl
  case succ n hi =>
    obtain ⟨s', o, hs, h⟩ := hs h
    rw [loop_some hs]
    exact hi h

end Machine
