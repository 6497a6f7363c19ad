import FlowerExchange.Matching.Theorems.OrderProcessor
import FlowerExchange.Matching.Theorems.Records
import FlowerExchange.Matching.Theorems.Walk

namespace Exchange

variable {unspecified : ℚ → Int64} {arrivals : List Arrival} {a : Arrival} {r : Record} {k : Nat}

theorem history_length (unspecified : ℚ → Int64) (arrivals : List Arrival) :
    (history unspecified arrivals).2.length = arrivals.length :=
  Machine.length_exec

theorem history_take (unspecified : ℚ → Int64) (arrivals : List Arrival) (k : Nat) :
    (history unspecified (arrivals.take k)).2 = (history unspecified arrivals).2.take k :=
  Machine.exec_take

variable (unspecified) in
theorem history_getElem? (h : arrivals[k]? = some a) :
    (history unspecified arrivals).2[k]? =
      some ((history unspecified (arrivals.take k)).1.records unspecified a) :=
  Machine.exec_getElem? h

theorem history_now (unspecified : ℚ → Int64) (arrivals : List Arrival) :
    (history unspecified arrivals).1.now = arrivals.length :=
  have ⟨_, _, h⟩ := history_backed unspecified arrivals
  h.now

theorem history_chunk (h : (history unspecified arrivals).2[k]? = some chunk) : ∃ a,
    (arrivals[k]? = some a) ∧
      (chunk = (history unspecified (arrivals.take k)).1.records unspecified a) := by
  have hk := (List.getElem?_eq_some_iff.mp h).choose
  rw [history_length] at hk
  have ha := List.getElem?_eq_getElem hk
  exact ⟨_, ha, Option.some.inj <| h.symm.trans <| history_getElem? unspecified ha⟩

theorem mem_history (h : r ∈ (history unspecified arrivals).2.flatten) : ∃ k a,
    (arrivals[k]? = some a) ∧
      r ∈ (history unspecified (arrivals.take k)).1.records unspecified a := by
  have ⟨chunk, hc, hr⟩ := List.mem_flatten.mp h
  have ⟨k, hk⟩ := List.mem_iff_getElem?.mp hc
  have ⟨a, ha, he⟩ := history_chunk hk
  exact ⟨k, a, ha, he ▸ hr⟩

theorem take_append_of_getElem? (h : arrivals[k]? = some a) :
    arrivals.take k ++ [a] = arrivals.take (k + 1) := by
  rw [List.take_add_one, h]
  rfl

theorem history_about (ha : arrivals[k]? = some a)
    (hr : r ∈ (history unspecified (arrivals.take k)).1.records unspecified a) :
    ∃ b, (arrivals[r.owner]? = some b) ∧ r.owner ≤ k ∧ r.About b := by
  have ⟨_, _, backed⟩ := history_backed unspecified (arrivals.take k)
  have ⟨b, hb, hab⟩ := records_about backed hr
  rw [take_append_of_getElem? ha] at hb
  have hlt := (List.getElem?_eq_some_iff.mp hb).choose
  rw [List.length_take] at hlt
  rw [List.getElem?_take_of_lt (by omega)] at hb
  exact ⟨b, hb, by omega, hab⟩

end Exchange

namespace OrderProcessor

theorem run_history (unspecified : ℚ → Int64) (before : List Event) : ∃ s₀,
    Reached unspecified (before ++ [.reset]) s₀ ∧ ∀ arrivals : List Arrival, ∃ s lv loose,
      (Machine.run (step unspecified) (arrivals.map .consume) s₀ =
        .ok (s, (Exchange.history unspecified arrivals).2.map (·.map Record.emission))) ∧
      Models s lv (Exchange.history unspecified arrivals).1 loose := by
  have ⟨s₀, hs₀, h₀⟩ := reached_agrees unspecified (before ++ [.reset])
  rw [Machine.exec_snoc] at h₀
  refine ⟨s₀, hs₀, fun arrivals => ?_⟩
  have ⟨s, hrun, lv, loose, h⟩ := run_agrees unspecified (arrivals.map .consume) h₀
  rw [Exchange.step, Exchange.history_exec] at hrun h
  exact ⟨s, lv, loose, hrun, h⟩

end OrderProcessor
