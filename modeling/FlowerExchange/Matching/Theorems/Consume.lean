import FlowerExchange.Lib.Machine
import FlowerExchange.Matching.Consume

namespace Matcher

def pending (t : Matcher) : List OutboundReportMsg :=
  match t.location with
  | .push reports => reports
  | _             => []

def seen (t : Matcher) : List (Option InboundOrderMsg) :=
  if t.gotEndOfStream then [none] else []

def Settled (t : Matcher) (consumedOrders : UInt64) : Prop :=
  match t.location with
  | .storeConsumed      => t.gotEndOfStream
  | .storeDone | .ended => t.gotEndOfStream ∧ consumedOrders = t.consumed
  | _                   => True

variable {m n : Nat} {shared shared' : Shared m n} {t t' : Matcher} {s₀ : OrderProcessor}
variable {unspecified : ℚ → Int64} {times : Times} {handled : List InboundOrderMsg}
variable {made : List OutboundReportMsg} {processor : OrderProcessor}

structure Handled (unspecified : ℚ → Int64) (times : Times) (s₀ : OrderProcessor) (t : Matcher)
    (state : PipelineState) (handled : List InboundOrderMsg) (made : List OutboundReportMsg) : Prop where
  ran      : ∃ emitted : List (List Emission),
    (Machine.run (OrderProcessor.step unspecified) (handled.map (.consume <| times.arrival ·)) s₀ =
      .ok (t.processor, emitted)) ∧
    (made = emitted.flatten.map Emission.output)
  consumed : t.consumed = .ofNat handled.length
  settled  : t.Settled state.consumedOrders
  done     : state.matcherDone → t.location = .ended

namespace Handled

theorem start : Handled unspecified times s₀ { processor := s₀ } {} [] [] where
  ran      := ⟨[], rfl, rfl⟩
  consumed := rfl
  settled  := trivial
  done     := nofun

theorem congr (h : Handled unspecified times s₀ t state handled made)
    (hc : state'.consumedOrders = state.consumedOrders)
    (hd : state'.matcherDone → t.location = .ended) :
    Handled unspecified times s₀ t state' handled made where
  ran      := h.ran
  consumed := h.consumed
  settled  := hc ▸ h.settled
  done     := hd

theorem goto (h : Handled unspecified times s₀ t state handled made)
    (hp : t'.processor = t.processor ∧ t'.consumed = t.consumed)
    (hs : t'.Settled state'.consumedOrders) (hd : state'.matcherDone → t'.location = .ended) :
    Handled unspecified times s₀ t' state' handled (made ++ []) where
  ran      := by simpa only [hp.left, List.append_nil] using h.ran
  consumed := hp.right ▸ h.consumed
  settled  := hs
  done     := hd

theorem consume (h : Handled unspecified times s₀ t state handled made) (hd : ¬state.matcherDone)
    (hs : t.processor.step unspecified (.consume <| times.arrival message) = .ok (processor, emitted)) :
    Handled unspecified times s₀ { t with
      processor
      consumed := t.consumed + 1
      location := .push (emitted.map Emission.output) } state (handled ++ [message])
      (made ++ emitted.map Emission.output) where
  ran := by
    have ⟨emitted', hr, hm⟩ := h.ran
    refine ⟨emitted' ++ [emitted], ?_, by simp [hm]⟩
    rw [List.map_append]
    exact Machine.run_append hr <| Machine.run_cons hs rfl
  consumed := by simp [h.consumed, UInt64.ofNat_add]
  settled  := trivial
  done     := (absurd · hd)

theorem not_done (h : Handled unspecified times s₀ t state handled made) (hl : t.location ≠ .ended) :
    ¬state.matcherDone :=
  fun hd => hl <| h.done hd

end Handled

theorem step_handled (h : Handled unspecified times s₀ t shared.state handled made)
    (hq : t.gotEndOfStream → shared.inbound.items = [])
    (hs : t.step unspecified times shared = some (t', shared')) : ∃ handled' fresh,
      Handled unspecified times s₀ t' shared'.state handled' (made ++ fresh) ∧
      (handled'.map some ++ t'.seen ++ shared'.inbound.items =
        handled.map some ++ t.seen ++ shared.inbound.items) ∧
      (shared'.outbound.items ++ t'.pending = shared.outbound.items ++ t.pending ++ fresh) ∧
      (shared'.state.producedOrders = shared.state.producedOrders) ∧
      ¬shared.state.matcherDone := by
  obtain ⟨processor, consumed, gotEndOfStream, location⟩ := t
  cases location
  case check =>
    have hd := h.not_done nofun
    simp only [step] at hs
    split at hs <;> cases hs
    case isTrue =>
      exact ⟨handled, [], h.goto ⟨rfl, rfl⟩ trivial (absurd · hd), rfl, by simp [pending], rfl, hd⟩
    case isFalse hc =>
      have hc : gotEndOfStream := by simp_all
      exact ⟨handled, [], h.goto ⟨rfl, rfl⟩ hc (absurd · hd), rfl, by simp [pending], rfl, hd⟩
  case pop =>
    have hd := h.not_done nofun
    simp only [step] at hs
    split at hs
    case h_1 =>
      cases hs
      exact ⟨handled, [], h.goto ⟨rfl, rfl⟩ trivial (absurd · hd), rfl, by simp [pending], rfl, hd⟩
    case h_2 inbound hp =>
      cases hs
      have hp := Fifo.items_pop hp
      have hg : ¬gotEndOfStream := fun hg => by simp [hq hg] at hp
      refine ⟨handled, [], h.goto ⟨rfl, rfl⟩ trivial (absurd · hd), ?_, by simp [pending], rfl, hd⟩
      simp [seen, hg, hp]
    case h_3 message inbound hp =>
      have hp := Fifo.items_pop hp
      have hg : ¬gotEndOfStream := fun hg => by simp [hq hg] at hp
      split at hs
      case h_1 hs' =>
        cases hs
        refine ⟨handled ++ [message], _, h.consume hd hs', ?_, by simp [pending], rfl, hd⟩
        simp [seen, hg, hp]
      case h_2 => contradiction
  case push reports =>
    have hd := h.not_done nofun
    cases reports
    case nil =>
      cases hs
      exact ⟨handled, [], h.goto ⟨rfl, rfl⟩ trivial (absurd · hd), rfl, by simp [pending], rfl, hd⟩
    case cons report reports =>
      obtain ⟨outbound, hp, hs⟩ := Option.bind_eq_some_iff.mp hs
      cases hs
      exact ⟨handled, [], h.goto ⟨rfl, rfl⟩ trivial (absurd · hd), rfl,
        by simp [pending, Fifo.items_push hp], rfl, hd⟩
  case storeConsumed =>
    have hd := h.not_done nofun
    cases hs
    exact ⟨handled, [], h.goto ⟨rfl, rfl⟩ ⟨h.settled, rfl⟩ (absurd · hd), rfl, by simp [pending], rfl, hd⟩
  case storeDone =>
    have hd := h.not_done nofun
    cases hs
    exact ⟨handled, [], h.goto ⟨rfl, rfl⟩ h.settled fun _ => rfl, rfl, by simp [pending], rfl, hd⟩
  case ended => contradiction

end Matcher
