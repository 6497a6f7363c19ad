import FlowerExchange.Lib.Machine

def ensure (p : Prop) [Decidable p] (e : ε) : Except ε Unit :=
  if p then .ok () else .error e

theorem ensure_bind [Decidable p] (h : p) (f : Unit → Except ε α) : (ensure p e >>= f) = f () := by
  rw [ensure, if_pos h]
  rfl

namespace Except

variable {x : Except ε α} {f : α → Except ε β} {f' : α → Except ε' β} {g : ε → ε'}

theorem mapError_bind (h : ∀ a, x = ok a → f' a = (f a).mapError g) :
    (x.mapError g >>= f') = (x >>= f).mapError g := by
  cases x
  case error => rfl
  case ok a  => exact h a rfl

end Except

-- This holds of whole runs, if the assertions hold in all states that have an invariant.
theorem Machine.run_mapError {step : σ → ι → Except ε (σ × ο)} {step' : σ → ι → Except ε' (σ × ο)}
    {g : ε → ε'} {P : σ → Prop} (hs : ∀ {s} i, P s → step' s i = (step s i).mapError g)
    (hp : ∀ {s i s' o}, P s → step s i = .ok (s', o) → P s') (h : P s) :
    run step' is s = (run step is s).mapError g := by
  induction is generalizing s
  case nil => rfl
  case cons i is hi =>
    simp only [run]
    rw [hs i h]
    refine Except.mapError_bind fun so ho => ?_
    rw [hi (hp h ho)]
    exact Except.mapError_bind fun _ _ => rfl
