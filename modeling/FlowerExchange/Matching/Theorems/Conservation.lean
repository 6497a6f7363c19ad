import FlowerExchange.Matching.Theorems.Runs

open Resting

-- The quantity that the reports about trades say was executed of the order of message `j`.
def executed (j : Nat) (records : List Record) : Nat :=
  records.filter (fun r => r.owner = j && r.emission.report.isTrade)
    |>.map (fun r => r.emission.report.quantity.toNat)
    |>.sum

theorem executed_eq (j : Nat) (records : List Record) :
    executed j records = Entry.drawn j (entries records) := by
  induction records
  case nil => rfl
  case cons r records hi =>
    simp only [executed, entries] at hi ⊢
    by_cases ht : r.emission.report.isTrade
    case neg => simp [Record.entry?, ht, hi]
    case pos =>
      by_cases hj : r.owner = j <;>
        simp [Record.entry?, Entry.drawn_cons, ht, hj, hi]

def RestsTruly (arrivals : List Arrival) (records : List Record) (s : OrderProcessor) : Prop :=
  ∃ queues, s.matcher.Shows queues ∧ ∀ side i, Sorted side.better (queues side i) ∧
    ∀ r, r ∈ queues side i ↔ ∃ a p, PlacedBy arrivals r.stamp a p ∧ p.side = side ∧ p.instrument = i ∧
      executed r.stamp records < p.quantity ∧
      r = ⟨p.tick, r.stamp, p.quantity - executed r.stamp records, a.message.ids r.stamp⟩

structure Conserved (arrivals : List Arrival) (records : List (List Record)) : Prop where
  about  : ∀ r ∈ records.flatten, ∃ a, arrivals[r.owner]? = some a ∧ r.About a
  pairs  : ∀ k chunk, records[k]? = some chunk →
    TradePairs k chunk ∨ ∃ r, chunk = [r] ∧ r.emission.report.isTrade = false
  within : ∀ earlier later, records.flatten = earlier ++ later → ∀ j a p, PlacedBy arrivals j a p →
    executed j earlier ≤ p.quantity
  status : ∀ earlier r later, records.flatten = earlier ++ r :: later → r.emission.report.isTrade →
    ∃ a p, PlacedBy arrivals r.owner a p ∧ r.status =
      if executed r.owner earlier + r.emission.report.quantity.toNat = p.quantity then .fill else .pfill

namespace Exchange

variable {arrivals : List Arrival} {left : Nat → Nat}

theorem executed_add {records : List Record} (h : Entry.Replay (placedQuantity arrivals)
    (entries records) left) (hp : PlacedBy arrivals j a p) :
    executed j records + left j = p.quantity := by
  rw [executed_eq, h.balance, hp.quantity]

theorem history_conserved (unspecified : ℚ → Int64) (arrivals : List Arrival) :
    Conserved arrivals (history unspecified arrivals).2 := by
  obtain ⟨left, replay, _⟩ := history_backed unspecified arrivals
  have about : ∀ r ∈ (history unspecified arrivals).2.flatten, ∃ a,
      arrivals[r.owner]? = some a ∧ r.About a := fun r hr =>
    have ⟨_, _, ha, hr⟩ := mem_history hr
    have ⟨b, hb, _, hab⟩ := history_about ha hr
    ⟨b, hb, hab⟩
  refine ⟨about, fun k chunk hc => ?_, fun earlier later hs j a p hp => ?_, fun earlier r later hs ht => ?_⟩
  · obtain ⟨a, ha, hchunk⟩ := history_chunk hc
    have hk : (history unspecified (arrivals.take k)).1.now = k := by
      have := (List.getElem?_eq_some_iff.mp ha).choose
      rw [history_now, List.length_take, Nat.min_eq_left this.le]
    have hpairs := records_pairs unspecified (history unspecified (arrivals.take k)).1 a
    rw [hk, ← hchunk] at hpairs
    exact hpairs.imp And.left fun ⟨r, hr, _, ht⟩ => ⟨r, hr, ht⟩
  · rw [hs, entries_append] at replay
    obtain ⟨_, replay, _⟩ := replay.split
    have := executed_add replay hp
    omega
  · obtain ⟨a, ha, hab⟩ := about r (by simp [hs])
    cases hm : a.message.placement
    case error reason =>
      have hv := InboundOrderMsg.placement_eq_error_iff.mp hm
      have hrej := hab.rejected.mpr (by simp [hv])
      rw [Record.status] at hrej
      simp [ExecutionReport.isTrade, hrej] at ht
    case ok p =>
      have hp : PlacedBy arrivals r.owner a p := ⟨ha, hm⟩
      refine ⟨a, p, hp, ?_⟩
      have he : entries (r :: later) =
          ⟨r.owner, r.emission.report.quantity.toNat, r.status = .fill⟩ :: entries later := by
        simp [entries, Record.entry?, ht]
      rw [hs, entries_append, he] at replay
      obtain ⟨_, _, hlast⟩ := replay.entry
      rw [hp.quantity, ← executed_eq, decide_eq_true_eq] at hlast
      rw [Record.status_of_isTrade ht]
      simp only [hlast]

theorem history_rests (h : OrderProcessor.Models s lv (history unspecified arrivals).1 loose) :
    RestsTruly arrivals (history unspecified arrivals).2.flatten s := by
  have ⟨left, replay, backed⟩ := history_backed unspecified arrivals
  let x := (history unspecified arrivals).1
  refine ⟨x.resting, h.represents.shows, fun side i => ⟨x.sorted side i, fun r => ⟨fun hr => ?_, ?_⟩⟩⟩
  · have ⟨a, p, hp, hside, hi, he⟩ := backed.offers side i r hr
    have hadd := executed_add replay hp
    have hq := backed.quantity hr
    have hpos := x.positive side i r hr
    refine ⟨a, p, hp, hside, hi, by omega, ?_⟩
    rw [← hadd, Nat.add_sub_cancel_left]
    exact he
  · rintro ⟨a, p, hp, rfl, rfl, hlt, he⟩
    have hadd := executed_add replay hp
    have ⟨r', hr', hs⟩ := backed.rests hp (by omega)
    have ⟨a', p', hp', _, _, he'⟩ := backed.offers _ _ r' hr'
    obtain ⟨rfl, rfl⟩ := hp.unique (hs ▸ hp')
    have : r = r' := by
      rw [he, he', hs, ← hadd, Nat.add_sub_cancel_left]
    exact this ▸ hr'

end Exchange

-- Quantities are conserved over whole runs, and the reports tell the truth about them.
theorem OrderProcessor.quantities_conserved (unspecified : ℚ → Int64) (before : List Event)
    (arrivals : List Arrival) : ∃ s₀ records,
      Reached unspecified (before ++ [.reset]) s₀ ∧ Conserved arrivals records ∧
      ∀ k ≤ arrivals.length, ∃ s,
        (Machine.run (step unspecified) ((arrivals.take k).map .consume) s₀ =
          .ok (s, (records.take k).map (·.map Record.emission))) ∧
        RestsTruly (arrivals.take k) (records.take k).flatten s := by
  have ⟨s₀, hs₀, hrun⟩ := run_history unspecified before
  refine ⟨s₀, (Exchange.history unspecified arrivals).2, hs₀,
    Exchange.history_conserved unspecified arrivals, fun k _ => ?_⟩
  have ⟨s, lv, loose, hrun, h⟩ := hrun (arrivals.take k)
  rw [← Exchange.history_take]
  exact ⟨s, hrun, Exchange.history_rests h⟩
