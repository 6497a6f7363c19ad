import FlowerExchange.Lib.Machine

-- Machines whose steps are taken by threads, in some order. A thread that cannot take a step loses its turn.
namespace Fairness

variable {σ ι : Type _}

def turn (step : σ → ι → Option σ) (s : σ) (t : ι) : σ :=
  (step s t).getD s

def after (step : σ → ι → Option σ) (turns : List ι) (s : σ) : σ :=
  (Machine.exec (fun s t => (turn step s t, ())) turns s).1

def Fair (schedule : Stream' ι) : Prop :=
  ∀ t n, ∃ k, (schedule.drop n).get k = t

-- A thread takes a step that is not idle when it has had at most `r + 1` turns, if the others are idle.
def ActsIn (step : σ → ι → Option σ) (idle : σ → ι → Prop) (t : ι) : Nat → σ → Prop
  | 0, s     => ∃ s', step s t = some s' ∧ ¬idle s t
  | r + 1, s => ∃ s', step s t = some s' ∧ (¬idle s t ∨ ActsIn step idle t r s')

variable {step : σ → ι → Option σ} {idle : σ → ι → Prop} {schedule : Stream' ι} {s s' : σ} {t : ι}

@[simp]
theorem after_nil : after step [] s = s :=
  rfl

@[simp]
theorem after_cons (turns : List ι) : after step (t :: turns) s = after step turns (turn step s t) :=
  rfl

theorem turn_some (h : step s t = some s') : turn step s t = s' := by
  rw [turn, h, Option.getD_some]

theorem turn_none (h : step s t = none) : turn step s t = s := by
  rw [turn, h, Option.getD_none]

theorem Fair.drop (h : Fair schedule) (n : Nat) : Fair (schedule.drop n) := by
  intro t m
  rw [Stream'.drop_drop]
  exact h t (n + m)

theorem Fair.tail (h : Fair schedule) : Fair schedule.tail :=
  h.drop 1

def roundRobin (ts : List ι) (h : 0 < ts.length) : Stream' ι := fun n =>
  ts.get ⟨n % ts.length, Nat.mod_lt n h⟩

theorem roundRobin_fair {ts : List ι} {h : 0 < ts.length} (ht : ∀ t, t ∈ ts) : Fair (roundRobin ts h) := by
  intro t n
  have ⟨⟨i, hi⟩, he⟩ := List.mem_iff_get.mp (ht t)
  refine ⟨n * (ts.length - 1) + i, ?_⟩
  have hn : (n * (ts.length - 1) + i + n) % ts.length = i := by
    have hl : n * (ts.length - 1) + i + n = i + n * ts.length := by
      obtain ⟨l, hl⟩ := Nat.exists_eq_succ_of_ne_zero h.ne'
      rw [hl, Nat.succ_eq_add_one, Nat.add_sub_cancel]
      ring
    rw [hl, Nat.add_mul_mod_self_right, Nat.mod_eq_of_lt hi]
  have hd : (roundRobin ts h |>.drop n).get (n * (ts.length - 1) + i) =
      roundRobin ts h (n * (ts.length - 1) + i + n) := rfl
  rw [hd, roundRobin, ← he]
  exact congrArg ts.get <| Fin.ext hn

theorem after_take_succ (schedule : Stream' ι) (n : Nat) (s : σ) :
    after step (schedule.take (n + 1)) s =
      after step (schedule.tail.take n) (turn step s schedule.head) :=
  rfl

theorem after_take_add (schedule : Stream' ι) (n k : Nat) (s : σ) :
    after step (schedule.take (n + k)) s =
      after step ((schedule.drop n).take k) (after step (schedule.take n) s) := by
  induction n generalizing schedule s
  case zero => simp
  case succ n hi => rw [Nat.succ_add_eq_add_succ, Nat.add_succ, after_take_succ, hi]; rfl

theorem turn_invariant {P : σ → Prop} (hs : ∀ {s s' t}, P s → step s t = some s' → P s') (h : P s)
    (t : ι) : P (turn step s t) := by
  cases ht : step s t
  case none    => rwa [turn_none ht]
  case some s' => exact turn_some ht ▸ hs h ht

theorem after_invariant {P : σ → Prop} (hs : ∀ {s s' t}, P s → step s t = some s' → P s') (h : P s)
    (turns : List ι) : P (after step turns s) :=
  Machine.exec_invariant (P := P) (fun t h => turn_invariant hs h t) h

-- What a measure and the idle steps have to do with each other, as long as an invariant holds. A step that is
-- not idle brings the machine closer to its end, and an idle one of a thread does not keep the other threads
-- from theirs.
structure Measured {μ : Type _} [Preorder μ] (step : σ → ι → Option σ) (idle : σ → ι → Prop)
    (measure : σ → μ) (P : σ → Prop) : Prop where
  keeps : ∀ {s s' t}, P s → step s t = some s' → P s'
  acts  : ∀ {s s' t}, P s → step s t = some s' → ¬idle s t → measure s' < measure s
  idles : ∀ {s s' t}, P s → step s t = some s' → idle s t → measure s' ≤ measure s
  apart : ∀ {s s' t u r}, P s → step s u = some s' → idle s u → u ≠ t → ActsIn step idle t r s →
    ActsIn step idle t r s'

section

variable {μ : Type _} [Preorder μ] {measure : σ → μ} {P : σ → Prop}

def Falls (step : σ → ι → Option σ) (measure : σ → μ) (schedule : Stream' ι) (s : σ) : Prop :=
  ∃ n, measure (after step (schedule.take n) s) < measure s

theorem Falls.later (hle : measure (turn step s schedule.head) ≤ measure s)
    (h : Falls step measure schedule.tail (turn step s schedule.head)) :
    Falls step measure schedule s := by
  have ⟨n, hn⟩ := h
  exact ⟨n + 1, after_take_succ schedule n s ▸ hn.trans_le hle⟩

namespace Measured

variable (h : Measured step idle measure P)
include h

theorem falls_now (hP : P s) (ht : step s schedule.head = some s') (ha : ¬idle s schedule.head) :
    Falls step measure schedule s :=
  ⟨1, by rw [after_take_succ, turn_some ht]; exact h.acts hP ht ha⟩

theorem falls_own {r : Nat} (hP : P s) (ha : ActsIn step idle schedule.head r s)
    (hi : ∀ s' r', P s' → r = r' + 1 → ActsIn step idle schedule.head r' s' →
      Falls step measure schedule.tail s') : Falls step measure schedule s := by
  cases r
  case zero =>
    have ⟨s', ht, ha⟩ := ha
    exact h.falls_now hP ht ha
  case succ r =>
    have ⟨s', ht, ha⟩ := ha
    by_cases hn : idle s schedule.head
    case neg => exact h.falls_now hP ht hn
    case pos =>
      have ha := ha.resolve_left (not_not.mpr hn)
      exact .later (turn_some ht ▸ h.idles hP ht hn) (turn_some ht ▸ hi s' r (h.keeps hP ht) rfl ha)

theorem falls_other {r : Nat} (hP : P s) (ha : ActsIn step idle t r s) (hne : schedule.head ≠ t)
    (hi : ∀ s', P s' → ActsIn step idle t r s' → Falls step measure schedule.tail s') :
    Falls step measure schedule s := by
  cases ht : step s schedule.head
  case none =>
    have hs := turn_none ht
    exact .later (le_of_eq <| by rw [hs]) (by rw [hs]; exact hi s hP ha)
  case some s' =>
    by_cases hn : idle s schedule.head
    case neg => exact h.falls_now hP ht hn
    case pos =>
      exact .later (turn_some ht ▸ h.idles hP ht hn)
        (turn_some ht ▸ hi s' (h.keeps hP ht) (h.apart hP ht hn hne ha))

-- When a thread would act, the measure falls. The induction is on the idle steps that this thread still
-- has to take, and for each of them on the turns of the others before it.
theorem falls {r : Nat} (hP : P s) (ha : ActsIn step idle t r s) (hf : Fair schedule) :
    Falls step measure schedule s := by
  induction r using Nat.strong_induction_on generalizing s schedule
  case h r hr =>
    have ⟨k, hk⟩ := hf t 0
    induction k generalizing s schedule
    case zero =>
      obtain rfl : schedule.head = t := hk
      exact h.falls_own hP ha fun s' r' hP he ha => hr r' (by omega) hP ha hf.tail
    case succ k hi =>
      by_cases hh : schedule.head = t
      case pos =>
        subst hh
        exact h.falls_own hP ha fun s' r' hP he ha => hr r' (by omega) hP ha hf.tail
      case neg => exact h.falls_other hP ha hh fun s' hP ha => hi hP ha hf.tail hk

-- A machine of which some thread would always act, until it is done, is done some time if all threads
-- have their turns again and again.
theorem fair_done [WellFoundedLT μ] {Q : σ → Prop}
    (hp : ∀ {s}, P s → ¬Q s → ∃ t r, ActsIn step idle t r s) (hP : P s) (hf : Fair schedule) :
    ∃ n, Q (after step (schedule.take n) s) := by
  induction hm : measure s using WellFoundedLT.induction generalizing s schedule
  case _ m hi =>
    by_cases hd : Q s
    case pos => exact ⟨0, hd⟩
    case neg =>
      have ⟨t, r, ha⟩ := hp hP hd
      have ⟨n, hn⟩ := h.falls hP ha hf
      have ⟨k, hk⟩ := hi _ (hm ▸ hn) (after_invariant h.keeps hP _) (hf.drop n) rfl
      exact ⟨n + k, after_take_add schedule n k s ▸ hk⟩

end Measured

end

end Fairness
