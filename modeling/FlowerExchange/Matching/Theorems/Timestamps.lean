import FlowerExchange.Common.Theorems.TimestampLifecycle
import FlowerExchange.Matching.Theorems.OrderProcessor
import FlowerExchange.Matching.Theorems.Records

open Lock Decimal

theorem Arrival.time_eq {a : Arrival} (h : a.timestamp.text ≠ []) : a.time = a.timestamp := by
  have hz := a.timestamp.noNul
  rw [time, ExecutionReport.timestampField]
  cases ht : a.timestamp.text
  case nil => contradiction
  case cons c cs =>
    rw [ht] at hz
    have hc : c ≠ 0 := fun hc => hz <| hc ▸ .head _
    simp only [List.headD_cons, hc, ne_eq, not_false_eq_true, if_true]
    rw [← ht, a.timestamp.copy_text]

theorem Arrival.time_eq_record {a : Arrival} {r : ClockReading} (he : r.CommonEra)
    (h : a.timestamp.text = record ClockReading.format r.fields) : a.time = a.timestamp := by
  refine Arrival.time_eq fun h₀ => ?_
  have hl := length_record he.fits
  rw [← h, h₀] at hl
  exact absurd hl <| by decide

namespace Exchange

variable {x : Exchange} {a : Arrival} {e : Emission} {arrivals : List Arrival}

theorem step_timestamp (h : e ∈ (x.step unspecified (.consume a)).2) : e.output.timestamp = a.time := by
  cases hm : a.message.placement
  case error reason =>
    rw [step_reject hm, List.mem_singleton] at h
    exact h ▸ a.time.copy_text
  case ok p =>
    rw [← map_records] at h
    obtain ⟨r, hr, rfl⟩ := List.mem_map.mp h
    rw [records_accept hm] at hr
    obtain ⟨⟨j, report⟩, hj, rfl⟩ := List.mem_map.mp hr
    have ht : report.timestamp = a.time := by
      rcases List.mem_append.mp hj with hj | hj
      · have ⟨_, _, _, _, hcase⟩ := mem_ownedReports hj
        rcases hcase with ⟨_, rfl⟩ | ⟨_, rfl⟩ <;> rfl
      · split at hj
        case isTrue =>
          rw [List.mem_singleton, Prod.mk.injEq] at hj
          exact hj.right ▸ rfl
        case isFalse => contradiction
    exact ht ▸ report.timestamp.copy_text

theorem exec_timestamp
    (h : e ∈ (Machine.exec (step unspecified) (arrivals.map .consume) x).2.flatten) :
    ∃ a ∈ arrivals, e.output.timestamp = a.time := by
  induction arrivals generalizing x
  case nil => contradiction
  case cons a as hi =>
    rw [List.map_cons, Machine.exec_cons, List.flatten_cons] at h
    rcases List.mem_append.mp h with h | h
    · exact ⟨a, .head _, step_timestamp h⟩
    · have ⟨a', ha, ht⟩ := hi h
      exact ⟨a', .tail _ ha, ht⟩

theorem exec_chronological (h : (arrivals.map (·.time.text)).Pairwise (· ≤ ·)) :
    ((Machine.exec (step unspecified) (arrivals.map .consume) x).2.flatten.map
      (·.output.timestamp.text)).Pairwise (· ≤ ·) := by
  induction arrivals generalizing x
  case nil => exact .nil
  case cons a as hi =>
    rw [List.map_cons, Machine.exec_cons, List.flatten_cons, List.map_append]
    have ⟨ha, has⟩ := List.pairwise_cons.mp h
    refine List.pairwise_append.mpr ⟨?_, hi has, ?_⟩
    · refine List.pairwise_map.mpr <| List.pairwise_of_forall_mem_list fun e he e' he' => ?_
      rw [step_timestamp he, step_timestamp he']
      exact List.le_refl _
    · intro t ht t' ht'
      obtain ⟨e, he, rfl⟩ := List.mem_map.mp ht
      obtain ⟨e', he', rfl⟩ := List.mem_map.mp ht'
      have ⟨a', ha', hta⟩ := exec_timestamp he'
      rw [step_timestamp he, hta]
      exact ha _ <| List.mem_map_of_mem ha'

end Exchange

namespace OrderProcessor

variable {ρ : Type} [DecidableEq ρ] {clock : Nat → ClockReading}

-- Once the cache has been started, the reports on messages that arrive one after the other never go back in
-- time, unless the local time does. None of them has a time other than those of the cache.
theorem timestamps_chronological (unspecified : ℚ → Int64) (events : List Event)
    (turns more : List (TimestampCache.Turn ρ)) {arrivals : List Arrival}
    (hu : (TimestampCache.after clock turns ({} : TimestampCache ρ)).Up)
    (he : ∀ k, (clock k).CommonEra) (hc : Monotone fun k => (clock k).fields)
    (ha : (arrivals.map (·.timestamp.text)).Sublist <| TimestampCache.snapshotTexts <|
      accesses (TimestampCache.turn clock) more (TimestampCache.after clock turns {})) :
    ∃ s s' emitted, Reached unspecified events s ∧
      (Machine.run (step unspecified) (arrivals.map .consume) s = .ok (s', emitted)) ∧
      (emitted.flatten.map (·.output.timestamp.text)).Pairwise (· ≤ ·) ∧
      ∀ e ∈ emitted.flatten, ∃ k, e.output.timestamp.text = record ClockReading.format (clock k).fields := by
  have ⟨s, hs, hx⟩ := reached_agrees unspecified events
  have ⟨s', hrun, _⟩ := run_agrees unspecified (arrivals.map .consume) hx
  have ⟨hp, ht⟩ := hu.snapshotTexts he hc more
  have time {a : Arrival} (hm : a ∈ arrivals) : a.time = a.timestamp ∧
      ∃ k, a.timestamp.text = record ClockReading.format (clock k).fields := by
    have ⟨k, hk⟩ := ht _ <| ha.subset <| List.mem_map_of_mem hm
    exact ⟨Arrival.time_eq_record (he k) hk, k, hk⟩
  refine ⟨s, s', _, hs, hrun, Exchange.exec_chronological ?_, ?_⟩
  · have hm : arrivals.map (·.time.text) = arrivals.map (·.timestamp.text) :=
      List.map_congr_left fun a hm => congrArg CStr.text (time hm).left
    exact hm ▸ hp.sublist ha
  · intro e hm
    have ⟨a, hm, ht⟩ := Exchange.exec_timestamp hm
    exact ht ▸ (time hm).left ▸ (time hm).right

theorem timestamps_chronological_trade :
    let tm : Tm := ⟨124, 11, 31, 23, 59, 59, by decide, by decide, by decide, by decide, by decide⟩
    let clock (k : Nat) : ClockReading := ⟨tm, if k = 0 then 1735689599998 else 1735689599999⟩
    let snapshot : List (TimestampCache.Turn Unit) :=
      .snapshot () (List.replicate 20 0) :: List.replicate 24 (.thread (.reader ()))
    let turns := .start :: List.replicate 26 (.thread .owner)
    let more  := snapshot ++ List.replicate 26 (.thread .worker) ++ snapshot
    let arrivals : List Arrival := [
      ⟨⟨.copy (ascii "a"), .copy (ascii "Rose"), 1, 10, .finite 1, 1⟩,
        .copy (ascii "20241231-235959.998"), default⟩,
      ⟨⟨.copy (ascii "b"), .copy (ascii "Rose"), 2, 10, .finite 1, 2⟩,
        .copy (ascii "20241231-235959.999"), default⟩]
    (TimestampCache.snapshotTexts (accesses (TimestampCache.turn clock) more
      (TimestampCache.after clock turns {})) = arrivals.map (·.timestamp.text)) ∧
    ∃ s s' emitted, Reached (fun _ => 0) [] s ∧
      (Machine.run (step fun _ => 0) (arrivals.map .consume) s = .ok (s', emitted)) ∧
      (emitted.flatten.map (·.output.timestamp.text)).Pairwise (· ≤ ·) ∧
      ∀ e ∈ emitted.flatten, ∃ k, e.output.timestamp.text = record ClockReading.format (clock k).fields := by
  intro tm clock snapshot turns more arrivals
  have ht : TimestampCache.snapshotTexts (accesses (TimestampCache.turn clock) more
      (TimestampCache.after clock turns {})) = arrivals.map (·.timestamp.text) := by decide +kernel
  have he (k : Nat) : (clock k).CommonEra :=
    ⟨show 0 ≤ tm.year + 1900 by decide, show tm.year + 1900 < 10000 by decide, by
      simp only [clock]
      split <;> decide⟩
  have hc : Monotone fun k => (clock k).fields := by
    refine monotone_nat_of_le_succ fun k => ?_
    cases k
    case zero => decide
    case succ => exact le_rfl
  exact ⟨ht, timestamps_chronological _ [] turns more ⟨rfl, rfl⟩ he hc (by rw [ht])⟩

end OrderProcessor
