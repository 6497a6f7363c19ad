import FlowerExchange.Matching.Theorems.BookRun
import FlowerExchange.Matching.Theorems.BitmaskOrderBook
import FlowerExchange.Matching.Theorems.MapOrderBook
import FlowerExchange.Matching.Theorems.EngineRun

open Function

namespace BookCall

variable {B₁ B₂ : Type} [OrderBook B₁] [LawfulOrderBook B₁] [OrderBook B₂] [LawfulOrderBook B₂]
variable {maxTicks : Nat} {live : Addr → Prop} {s₁ : B₁ × MemPool Order} {s₂ : B₂ × MemPool Order}

theorem run_same {lv : Levels} (calls : List BookCall) (ha : lv.AdmitsAll maxTicks live calls)
    (h₁ : Keeps maxTicks live s₁ lv) (h₂ : Keeps maxTicks live s₂ lv) :
    ∃ s₁' s₂' results, (Machine.run step calls s₁ = .ok (s₁', results)) ∧
      (Machine.run step calls s₂ = .ok (s₂', results)) := by
  induction calls generalizing s₁ s₂ lv
  case nil => exact ⟨s₁, s₂, [], rfl, rfl⟩
  case cons call calls hi =>
    have ⟨_, r₁, hs₁, hr₁, h₁⟩ := step_keeps h₁ call ha.left
    have ⟨_, r₂, hs₂, hr₂, h₂⟩ := step_keeps h₂ call ha.left
    obtain rfl := Levels.Answers.unique call hr₁ hr₂
    have ⟨s₁', s₂', results, hrun₁, hrun₂⟩ := hi ha.right h₁ h₂
    exact ⟨s₁', s₂', r₁ :: results, Machine.run_cons hs₁ hrun₁, Machine.run_cons hs₂ hrun₂⟩

end BookCall

-- Nobody who calls a book or an engine can tell which of the two kinds of books is in use.
theorem bitmask_map_interchangeable :
    (∀ (maxTicks : Nat) (pool : { pool : MemPool Order // pool.WF }) (calls : List BookCall),
      Levels.AdmitsAll maxTicks (fun a => (pool.val.heap a).isSome) calls (fun _ => []) →
      ∃ s₁ s₂ results,
        (Machine.run BookCall.step calls (BitmaskOrderBook.new maxTicks, pool.val) =
          .ok (s₁, results)) ∧
        (Machine.run BookCall.step calls (MapOrderBook.new maxTicks, pool.val) =
          .ok (s₂, results))) ∧
    (∀ (ω : Type) (sink : ReportSink ω) (maxTicks capacity : Nat)
      (reportPool : { pool // sink.Inv pool }) (commands : List (Command maxTicks)),
      ∃ (s₁ : Caller BitmaskOrderBook) (s₂ : Caller MapOrderBook) (emitted : _),
        (Machine.run (Caller.step sink.emit) commands (.new maxTicks capacity reportPool) =
          .ok (s₁, emitted)) ∧
        (Machine.run (Caller.step sink.emit) commands (.new maxTicks capacity reportPool) =
          .ok (s₂, emitted))) := by
  constructor
  case left =>
    intro maxTicks pool calls ha
    let live a : Prop := (pool.val.heap a).isSome
    have h₁ : BookCall.Keeps maxTicks live (BitmaskOrderBook.new maxTicks, pool.val) (fun _ => []) :=
      ⟨pool.property, LawfulOrderBook.rep_new, fun _ => id⟩
    have h₂ : BookCall.Keeps maxTicks live (MapOrderBook.new maxTicks, pool.val) (fun _ => []) :=
      ⟨pool.property, LawfulOrderBook.rep_new, fun _ => id⟩
    exact BookCall.run_same calls ha h₁ h₂
  case right =>
    intro ω sink maxTicks capacity reportPool commands
    have ⟨s₁, h₁, _⟩ := Caller.run_agrees commands <|
      Caller.agrees_new (B := BitmaskOrderBook) maxTicks capacity reportPool.property
    have ⟨s₂, h₂, _⟩ := Caller.run_agrees commands <|
      Caller.agrees_new (B := MapOrderBook) maxTicks capacity reportPool.property
    exact ⟨s₁, s₂, _, h₁, h₂⟩

theorem bitmask_map_interchangeable_words :
    let order : Addr := ⟨0, 0⟩
    let calls : List BookCall := [.findFirst, .add 63 (some order), .add 5 none, .findLast, .peek 63,
      .pop 63, .pop 63, .add 129 (some order), .findFirst]
    ∃ (pool : MemPool Order) (s₁ : _) (s₂ : _) (results : _),
      (pool.heap order).isSome ∧
      (Machine.run BookCall.step calls (BitmaskOrderBook.new 130, pool) = .ok (s₁, results)) ∧
      (Machine.run BookCall.step calls (MapOrderBook.new 130, pool) = .ok (s₂, results)) := by
  intro order calls
  obtain ⟨pool, _, wf, hlive⟩ := MemPool.one_order
  change (pool.heap order).isSome at hlive
  have admitted : Levels.AdmitsAll 130 (fun a => (pool.heap a).isSome) calls (fun _ => []) := by
    simp [calls, Levels.AdmitsAll, Levels.Admits, Levels.after, hlive, update_apply]
  obtain ⟨s₁, s₂, results, h₁, h₂⟩ := bitmask_map_interchangeable.left 130 ⟨pool, wf⟩ calls admitted
  exact ⟨pool, s₁, s₂, results, hlive, h₁, h₂⟩
