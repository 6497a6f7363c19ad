import FlowerExchange.Common.Theorems.TimestampCache

open Lock

namespace TimestampCache

variable {ρ : Type} {clock : Nat → ClockReading} {t t' : TimestampCache ρ} {n : Nat}
  {access : Option (Access Snapshot)}

def Started (t : TimestampCache ρ) : Prop :=
  t.worker.isSome ∨ t.owner = .spawn

theorem stepRefresh_done {a : Agent ρ} {l : RefreshLocation}
    (hs : t.stepRefresh clock a l = some (t', none, access)) : access = some .write := by
  cases l <;> simp only [stepRefresh] at hs
  case lock | copy => split at hs <;> cases hs
  case fill        => cases hs
  case unlock      => cases hs; rfl

theorem stopped_ne_spawn (worker : Option WorkerLocation) (destroying : Bool) :
    stopped worker destroying ≠ .spawn := by
  cases destroying <;> cases worker <;> nofun

theorem Shows.text {k : Nat} {s : Snapshot} (h : Shows clock (k + 1) s) (hl : s.1.length = 20)
    (he : (clock k).CommonEra) : cText s.2 = Decimal.record ClockReading.format (clock k).fields := by
  have ht : cText (fillCurrentTimestamp (clock k) (List.replicate 20 0)) = _ := he.filled (by decide)
  have hlen := length_texts clock (k + 1)
  have := he.timestampText_eq ▸ (clock k).length_timestampText.right.mpr he.regular
  rw [h, snapshotOf, if_pos hl.le, hl, min_self]
  conv in replaced .. => rw [← hlen, replaced_length (hlen.trans hl.symm)]
  rw [cText_set, texts, ht]
  rw [texts, ht]
  exact this

variable [DecidableEq ρ]

theorem stepReader_frame {r : ρ} (hs : t.stepReader r = some (t', access)) :
    access ≠ some .write ∧ ∃ mutex l, t' = moveReader { t with mutex := mutex } r l := by
  rcases hl : t.readers r with - | given | ⟨given, out, i⟩ | ⟨given, out⟩ | ⟨given, out⟩
  all_goals simp only [stepReader, hl] at hs
  case idle => contradiction
  case lock => split at hs <;> cases hs; exact ⟨by simp, _, _, rfl⟩
  case copy =>
    repeat' split at hs
    all_goals cases hs; exact ⟨by simp, t.mutex, _, rfl⟩
  case terminate => cases hs; exact ⟨by simp, t.mutex, _, rfl⟩
  case unlock    => cases hs; exact ⟨by simp, _, _, rfl⟩

theorem started_step {i : Turn ρ} (hs : t.step clock i = some (t', access)) (h : t'.Started) :
    t.Started ∨ access = some .write := by
  rcases i with - | - | - | ⟨r, out⟩ | (- | - | r)
  case start | stop | destroy =>
    simp only [step] at hs
    split at hs <;> cases hs
    exact .inl <| .inl <| h.resolve_right (by simp)
  case snapshot =>
    simp only [step] at hs
    repeat' split at hs
    all_goals first | contradiction | (cases hs; exact .inl h)
  case thread.owner =>
    rcases ho : t.owner with - | - | l | - | d | d | - | -
    all_goals simp only [step, stepThread, stepOwner, ho] at hs
    case refresh =>
      split at hs
      case h_1 => contradiction
      case h_2 hs' =>
        obtain ⟨m, c, r, rfl⟩ := stepRefresh_frame hs'
        cases hs
        exact .inl <| .inl <| h.resolve_right (by simp)
      case h_3 hs' =>
        cases hs
        exact .inr <| stepRefresh_done hs'
    case start => split at hs <;> cases hs <;> exact .inl <| .inl <| h.resolve_right (by simp)
    case spawn => exact .inl <| .inr ho
    case stop =>
      split at hs <;> cases hs
      case isTrue  => exact .inl <| .inl <| h.resolve_right (by simp)
      case isFalse => exact .inl <| .inl <| h.resolve_right <| stopped_ne_spawn _ _
    case join =>
      split at hs <;> cases hs
      case h_1 => exact .inl <| .inl <| h.resolve_right <| stopped_ne_spawn _ _
      case h_2 => exact absurd h <| not_or.mpr ⟨by simp, stopped_ne_spawn _ _⟩
    case idle | destroyed | terminated => contradiction
  case thread.worker =>
    cases hw : t.worker
    case none   => simp [step, stepThread, stepWorker, hw] at hs
    case some w => exact .inl <| .inl <| by rw [hw]; rfl
  case thread.reader =>
    obtain ⟨-, m, l, rfl⟩ := stepReader_frame hs
    exact .inl h

theorem started_turn (i : Turn ρ) (h : (t.turn clock i).1.Started) :
    t.Started ∨ (t.turn clock i).2 = some .write := by
  rw [turn] at h ⊢
  cases hs : t.step clock i
  case none    => exact .inl <| by rwa [hs] at h
  case some x  => exact started_step hs <| by rwa [hs] at h

def Running (clock : Nat → ClockReading) (t : TimestampCache ρ) (n : Nat) : Prop :=
  Refreshed clock t n ∧ (t.Started → 1 ≤ n)

theorem Running.turn (h : Running clock t n) (i : Turn ρ) :
    ∃ n', Serve (Shows clock) n (t.turn clock i).2 n' ∧ Running clock (t.turn clock i).1 n' := by
  have ⟨n', hn, hr⟩ := h.left.turn i
  refine ⟨n', hn, hr, fun hs => ?_⟩
  rcases started_turn i hs with hs | hw
  · exact (h.right hs).trans hn.le
  · rw [hw] at hn
    exact hn ▸ Nat.le_add_left 1 n

theorem running_after (clock : Nat → ClockReading) (turns : List (Turn ρ)) :
    ∃ n, Running clock (after clock turns ({} : TimestampCache ρ)) n := by
  have h₀ : Running clock ({} : TimestampCache ρ) 0 := ⟨.new clock, fun h => by simp [Started] at h⟩
  have ⟨n, _, h⟩ := serves_of_simulation (R := Running clock) (fun i h => h.turn i) h₀ turns |>.right
  exact ⟨n, h⟩

def Up (t : TimestampCache ρ) : Prop :=
  t.owner = .idle ∧ t.running = true

theorem Up.reads {turns : List (Turn ρ)} (h : (after clock turns ({} : TimestampCache ρ)).Up)
    (more : List (Turn ρ)) :
    ∃ xs : List (Nat × Snapshot),
      xs.map Prod.snd = reads (accesses (turn clock) more (after clock turns {})) ∧
      xs.Pairwise (·.1 ≤ ·.1) ∧ ∀ x ∈ xs, 1 ≤ x.1 ∧ Shows clock x.1 x.2 := by
  have ⟨n, hr⟩ := running_after clock turns
  have hc := hr.left.calls
  rw [h.left, h.right] at hc
  have hn := hr.right <| .inl hc.left.symm
  have ⟨xs, hm, hp, hx⟩ :=
    serves_of_simulation (R := Running clock) (fun i h => h.turn i) hr more |>.left.reads
  exact ⟨xs, hm, hp, fun x h => (hx x h).imp_left hn.trans⟩

def snapshotTexts (l : List (Access Snapshot)) : List Bytes :=
  reads l |>.filter (·.1.length = 20) |>.map (cText ·.2)

theorem Up.snapshotTexts {turns : List (Turn ρ)} (h : (after clock turns ({} : TimestampCache ρ)).Up)
    (he : ∀ k, (clock k).CommonEra) (hc : Monotone fun k => (clock k).fields) (more : List (Turn ρ)) :
    let texts := snapshotTexts (accesses (turn clock) more (after clock turns {}))
    texts.Pairwise (· ≤ ·) ∧
      ∀ text ∈ texts, ∃ k, text = Decimal.record ClockReading.format (clock k).fields := by
  have ⟨xs, hm, hp, hx⟩ := h.reads more
  let whole (x : Nat × Snapshot) : Bool := x.2.1.length = 20
  have ht : TimestampCache.snapshotTexts (accesses (turn clock) more (after clock turns {})) =
      (xs.filter whole).map (cText ·.2.2) := by
    rw [TimestampCache.snapshotTexts, ← hm, List.filter_map, List.map_map]
    rfl
  have text : ∀ x ∈ xs.filter whole,
      cText x.2.2 = Decimal.record ClockReading.format (clock (x.1 - 1)).fields := by
    intro x hx'
    have ⟨hmem, hl⟩ := List.mem_filter.mp hx'
    have ⟨hk, hs⟩ := hx x hmem
    exact Shows.text (k := x.1 - 1) (Nat.sub_add_cancel hk ▸ hs) (of_decide_eq_true hl) (he _)
  simp only [ht]
  constructor
  · refine List.pairwise_map.mpr <| (hp.filter whole).imp_of_mem fun {x y} hx hy hle => ?_
    rw [text x hx, text y hy, Decimal.record_le_iff (he _).fits (he _).fits]
    exact hc <| Nat.sub_le_sub_right hle 1
  · intro _ hm
    obtain ⟨x, hx, rfl⟩ := List.mem_map.mp hm
    exact ⟨_, text x hx⟩

def Down (t : TimestampCache ρ) : Prop :=
  (t.running = false ∧ t.worker = none) ∧
    (t.owner = .idle ∨ (∃ destroying, t.owner = .stop destroying) ∨ t.owner = .destroyed)

theorem Down.turn (h : t.Down) (clock : Nat → ClockReading) {i : Turn ρ} (hi : i ≠ .start) :
    ((t.turn clock i).1.Down ∧ (t.turn clock i).1.currentTimestamp = t.currentTimestamp ∧
      (t.turn clock i).1.readings = t.readings) ∧ (t.turn clock i).2 ≠ some .write := by
  obtain ⟨⟨hr, hw⟩, ho⟩ := id h
  rw [TimestampCache.turn]
  rcases hs : t.step clock i with - | ⟨t', access⟩
  case none => exact ⟨⟨h, rfl, rfl⟩, by simp⟩
  case some =>
    rcases i with - | - | - | ⟨r, out⟩ | (- | - | r)
    case start => contradiction
    case stop | destroy =>
      simp only [step] at hs
      split at hs <;> cases hs
      exact ⟨⟨⟨⟨hr, hw⟩, .inr <| .inl ⟨_, rfl⟩⟩, rfl, rfl⟩, by simp⟩
    case snapshot =>
      simp only [step] at hs
      repeat' split at hs
      all_goals first | contradiction | (cases hs; exact ⟨⟨h, rfl, rfl⟩, by simp⟩)
    case thread.owner =>
      rcases ho with ho | ⟨d, ho⟩ | ho <;> simp only [step, stepThread, stepOwner, ho] at hs
      case inl | inr.inr => contradiction
      case inr.inl =>
        rw [if_neg (by simp [hr]), hw] at hs
        cases hs
        cases d
        case false => exact ⟨⟨⟨⟨hr, rfl⟩, .inl rfl⟩, rfl, rfl⟩, by simp⟩
        case true  => exact ⟨⟨⟨⟨hr, rfl⟩, .inr <| .inr rfl⟩, rfl, rfl⟩, by simp⟩
    case thread.worker => simp [step, stepThread, stepWorker, hw] at hs
    case thread.reader =>
      obtain ⟨hn, m, l, rfl⟩ := stepReader_frame hs
      exact ⟨⟨h, rfl, rfl⟩, hn⟩

theorem Down.after {more : List (Turn ρ)} (h : t.Down) (hm : .start ∉ more) :
    (after clock more t).Down ∧ (after clock more t).currentTimestamp = t.currentTimestamp ∧
      (after clock more t).readings = t.readings := by
  induction more generalizing t
  case nil => exact ⟨h, rfl, rfl⟩
  case cons i more hi =>
    have ⟨hne, hm⟩ := List.mem_cons.not.trans not_or |>.mp hm
    have ⟨⟨h, hc, hk⟩, _⟩ := h.turn clock (Ne.symm hne)
    have ⟨h, hc', hk'⟩ := hi h hm
    exact ⟨h, hc'.trans hc, hk'.trans hk⟩

-- A thread is never lost sight of while it can still be joined, and when `stop` has returned there is none.
theorem lifecycle (clock : Nat → ClockReading) (turns more : List (Turn ρ)) (hm : .start ∉ more) :
    let t  := after clock turns {}
    let t' := after clock more t
    t.owner ≠ .terminated ∧
      (t.owner = .idle → t.running = t.worker.isSome) ∧
      (t.owner = .idle → t.running = false →
        t'.worker = none ∧ t'.currentTimestamp = t.currentTimestamp ∧ t'.readings = t.readings) := by
  intro t t'
  have ⟨n, hr, _⟩ := running_after clock turns
  have hc := hr.calls
  refine ⟨fun ht => ?_, fun hi => ?_, fun hi hf => ?_⟩
  · rw [ht] at hc
    exact hc
  · rw [hi] at hc
    exact hc.left
  · rw [hi, hf] at hc
    have hw : t.worker = none := Option.isNone_iff_eq_none.mp <| Option.isSome_eq_false_iff.mp hc.left.symm
    have hd : t.Down := ⟨⟨hf, hw⟩, .inl hi⟩
    exact (hd.after hm).imp_left (·.left.right)

theorem lifecycle_destroyed :
    let clock (k : Nat) : ClockReading :=
      ⟨⟨125, 0, 1, 0, 0, 0, by decide, by decide, by decide, by decide, by decide⟩, 1735689600000 + k⟩
    let owner : Turn Unit := .thread .owner
    let t := after clock (.start :: List.replicate 26 owner ++ [.stop, owner, .thread .worker, owner]) {}
    let t' := after clock [.destroy, owner, .thread .worker] t
    t'.worker = none ∧ t'.currentTimestamp = t.currentTimestamp ∧ t'.readings = t.readings := by
  intro clock owner t t'
  exact lifecycle clock _ _ (by simp [owner]) |>.right.right rfl rfl

end TimestampCache
