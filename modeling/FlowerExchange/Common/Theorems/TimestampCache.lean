import FlowerExchange.Common.Theorems.Timestamp
import FlowerExchange.Common.TimestampCache

open Lock

@[simp]
def RefreshLocation.inside : RefreshLocation → Prop
  | fill | lock _     => False
  | copy _ _ | unlock => True

@[simp]
def SnapshotLocation.inside : SnapshotLocation → Prop
  | idle | lock _                            => False
  | copy _ _ _ | terminate _ _ | unlock _ _ => True

def OwnerLocation.refreshing : OwnerLocation → Option RefreshLocation
  | refresh l                                                        => some l
  | idle | start | spawn | stop _ | join _ | destroyed | terminated => none

@[simp]
def WorkerLocation.refreshing : WorkerLocation → Option RefreshLocation
  | refresh l            => some l
  | load | sleep | ended => none

def OwnerLocation.Agrees (running : Bool) (worker : Option WorkerLocation) : OwnerLocation → Prop
  | idle | start | stop _ => running = worker.isSome ∧ worker ≠ some .ended
  | refresh _ | spawn     => running = true ∧ worker = none
  | join _                => running = false ∧ worker.isSome
  | destroyed             => running = false ∧ worker = none
  | terminated            => False

namespace TimestampCache

variable {ρ : Type} {clock : Nat → ClockReading} {t t' : TimestampCache ρ} {n : Nat}
  {access : Option (Access Snapshot)}

def refreshing (t : TimestampCache ρ) : Option RefreshLocation :=
  t.owner.refreshing.or <| t.worker.bind WorkerLocation.refreshing

def inside (t : TimestampCache ρ) : Agent ρ → Prop
  | .owner    => ∃ l, t.owner = .refresh l ∧ l.inside
  | .worker   => ∃ l, t.worker = some (.refresh l) ∧ l.inside
  | .reader r => (t.readers r).inside

def texts (clock : Nat → ClockReading) : Nat → Bytes
  | 0     => List.replicate 20 0
  | n + 1 => fillCurrentTimestamp (clock n) (List.replicate 20 0)

theorem length_texts (clock : Nat → ClockReading) (n : Nat) : (texts clock n).length = 20 := by
  cases n
  case zero   => rfl
  case succ n => rw [texts, (fillCurrentTimestamp_spec ..).left]; rfl

def snapshotOf (current given : Bytes) : Bytes :=
  let out := replaced (min 20 given.length) current given
  if given.length ≤ 20 then out.set (given.length - 1) 0 else out

def Refreshing (clock : Nat → ClockReading) (n readings : Nat) (current : Bytes) :
    Option RefreshLocation → Prop
  | none | some .fill    => readings = n ∧ current = texts clock n
  | some (.lock next)    => readings = n + 1 ∧ next = texts clock (n + 1) ∧ current = texts clock n
  | some (.copy next i)  =>
    readings = n + 1 ∧ next = texts clock (n + 1) ∧ i ≤ 20 ∧ current = replaced i next (texts clock n)
  | some .unlock         => readings = n + 1 ∧ current = texts clock (n + 1)

def Snapshotting (current : Bytes) : SnapshotLocation → Prop
  | .idle | .lock _       => True
  | .copy given out i     => i ≤ min 20 given.length ∧ out = replaced i current given
  | .terminate given out  => given.length ≤ 20 ∧ out = replaced given.length current given
  | .unlock given out     => out = snapshotOf current given

structure Refreshed (clock : Nat → ClockReading) (t : TimestampCache ρ) (n : Nat) : Prop where
  held    : Held t.mutex t.inside
  calls   : t.owner.Agrees t.running t.worker
  refresh : Refreshing clock n t.readings t.currentTimestamp t.refreshing
  readers : ∀ r, Snapshotting t.currentTimestamp (t.readers r)

def Shows (clock : Nat → ClockReading) (n : Nat) (s : Snapshot) : Prop :=
  s.2 = snapshotOf (texts clock n) s.1

theorem stepRefresh_frame {a : Agent ρ} {l : RefreshLocation} {l' : Option RefreshLocation}
    (hs : t.stepRefresh clock a l = some (t', l', access)) :
    ∃ mutex current readings,
      t' = { t with mutex := mutex, currentTimestamp := current, readings := readings } := by
  cases l <;> simp only [stepRefresh] at hs
  case lock | copy => split at hs <;> cases hs <;> exact ⟨_, _, _, rfl⟩
  case fill | unlock => cases hs; exact ⟨_, _, _, rfl⟩

theorem stepRefresh_effect {a : Agent ρ} {l : RefreshLocation} {l' : Option RefreshLocation}
    (hr : Refreshing clock n t.readings t.currentTimestamp (some l))
    (hs : t.stepRefresh clock a l = some (t', l', access)) :
    ∃ n', Serve (Shows clock) n access n' ∧ Refreshing clock n' t'.readings t'.currentTimestamp l' ∧
      Passes a t.mutex l.inside t'.mutex (∃ k, l' = some k ∧ k.inside) ∧
      (t'.currentTimestamp = t.currentTimestamp ∨ l.inside) := by
  cases l
  case fill =>
    have ⟨hn, hc⟩ := hr
    cases hs
    exact ⟨n, rfl, ⟨congrArg _ hn, hn ▸ rfl, hc⟩, .stays (by simp [RefreshLocation.inside]), .inl rfl⟩
  case lock next =>
    have ⟨hn, he, hc⟩ := hr
    cases hm : t.mutex <;> simp only [stepRefresh, hm] at hs
    case some => contradiction
    case none =>
      cases hs
      exact ⟨n, rfl, ⟨hn, he, by decide, hc⟩, .enters ⟨_, rfl, trivial⟩, .inl rfl⟩
  case copy next i =>
    obtain ⟨hn, rfl, hi, hc⟩ := hr
    have := length_texts clock n
    have := length_texts clock (n + 1)
    simp only [stepRefresh] at hs
    split at hs
    case isTrue hlt =>
      cases hs
      refine ⟨n, rfl, ⟨hn, rfl, hlt, ?_⟩, .stays ⟨fun _ => trivial, fun _ => ⟨_, rfl, trivial⟩⟩,
        .inr trivial⟩
      rw [hc, ← set_replaced (by omega) (by omega), List.getD_eq_getElem _ _ (by omega)]
    case isFalse hlt =>
      cases hs
      refine ⟨n, rfl, ⟨hn, ?_⟩, .stays ⟨fun _ => trivial, fun _ => ⟨_, rfl, trivial⟩⟩, .inl rfl⟩
      obtain rfl : i = (texts clock (n + 1)).length := by omega
      rw [hc, replaced_length (by omega)]
  case unlock =>
    cases hs
    exact ⟨n + 1, rfl, hr, .leaves trivial (by simp), .inl rfl⟩

namespace Refreshed

variable {t'' : TimestampCache ρ} {a : Agent ρ} {l : RefreshLocation} {l' : Option RefreshLocation}

theorem new (clock : Nat → ClockReading) : Refreshed clock ({} : TimestampCache ρ) 0 where
  held    := by rintro (- | - | r) <;> simp [inside]
  calls   := ⟨rfl, nofun⟩
  refresh := ⟨rfl, rfl⟩
  readers := fun _ => trivial

theorem snapshotting (h : Refreshed clock t n) (ha : ∀ r, a ≠ .reader r) (hi : t.inside a ↔ l.inside)
    (hc : t'.currentTimestamp = t.currentTimestamp ∨ l.inside) (r : ρ) :
    Snapshotting t'.currentTimestamp (t.readers r) := by
  rcases hc with hc | hl
  · rw [hc]
    exact h.readers r
  · have hr : ¬t.inside (.reader r) := fun hr => ha r <| h.held.exclusive (hi.mpr hl) hr
    cases hl : t.readers r
    case idle | lock => trivial
    all_goals exact absurd (show t.inside (.reader r) by rw [inside, hl]; trivial) hr

theorem refreshed (h : Refreshed clock t n) (ha : ∀ r, a ≠ .reader r) (hl : t.refreshing = some l)
    (hi : t.inside a ↔ l.inside) (hs : t.stepRefresh clock a l = some (t', l', access))
    (ht : t'' = { t with
      mutex            := t'.mutex
      currentTimestamp := t'.currentTimestamp
      owner            := t''.owner
      worker           := t''.worker
      readings         := t'.readings })
    (hc : t''.owner.Agrees t.running t''.worker) (hl' : t''.refreshing = l')
    (hi' : t''.inside a ↔ ∃ k, l' = some k ∧ k.inside) (hb : ∀ b, b ≠ a → (t''.inside b ↔ t.inside b)) :
    ∃ n', Serve (Shows clock) n access n' ∧ Refreshed clock t'' n' := by
  have ⟨n', hn, hr, hp, hcur⟩ := stepRefresh_effect (hl ▸ h.refresh) hs
  refine ⟨n', hn, ?_, ?_, ?_, ?_⟩
  · refine h.held.passes (a := a) ?_ hb
    rw [hi, hi', ht]
    exact hp
  · rw [ht]
    exact hc
  · rw [hl', ht]
    exact hr
  · intro r
    rw [ht]
    exact h.snapshotting ha hi hcur r

theorem quiet (h : Refreshed clock t n)
    (ht : t' = { t with running := t'.running, owner := t'.owner, worker := t'.worker })
    (hc : t'.owner.Agrees t'.running t'.worker)
    (hr : Refreshing clock n t.readings t.currentTimestamp t.refreshing →
      Refreshing clock n t.readings t.currentTimestamp t'.refreshing)
    (ho : t'.inside .owner ↔ t.inside .owner) (hw : t'.inside .worker ↔ t.inside .worker) :
    ∃ n', Serve (Shows clock) n none n' ∧ Refreshed clock t' n' := by
  refine ⟨n, rfl, ?_, hc, ?_, ?_⟩
  · have hi : ∀ b, t'.inside b ↔ t.inside b
      | .owner    => ho
      | .worker   => hw
      | .reader r => by rw [ht]; exact Iff.rfl
    rw [ht] at hi ⊢
    exact h.held.congr hi
  · rw [ht] at hr ⊢
    exact hr h.refresh
  · rw [ht]
    exact h.readers

theorem stepOwner (h : Refreshed clock t n) (hs : t.stepOwner clock = some (t', access)) :
    ∃ n', Serve (Shows clock) n access n' ∧ Refreshed clock t' n' := by
  have hc := h.calls
  rcases ho : t.owner with - | - | l | - | d | d | - | -
  all_goals simp only [TimestampCache.stepOwner, ho] at hs
  all_goals rw [ho] at hc
  case start =>
    split at hs
    case isTrue hr =>
      cases hs
      refine h.quiet rfl hc ?_ ?_ ?_ <;> simp [refreshing, OwnerLocation.refreshing, inside, ho]
    case isFalse hr =>
      cases hs
      have hw : t.worker = none := by simpa [hr] using hc.left
      refine h.quiet rfl ⟨rfl, hw⟩ ?_ ?_ ?_ <;> simp [refreshing, OwnerLocation.refreshing, inside, ho, hw, Refreshing]
  case refresh =>
    have hl : t.refreshing = some l := by rw [refreshing, ho]; rfl
    have hi : t.inside .owner ↔ l.inside := by simp [inside, ho]
    split at hs
    case h_1 => contradiction
    case h_2 hs' =>
      obtain ⟨m, c, r, rfl⟩ := stepRefresh_frame hs'
      cases hs
      refine h.refreshed (a := .owner) nofun hl hi hs' rfl hc ?_ ?_ ?_
      · simp [refreshing, OwnerLocation.refreshing]
      · simp [inside]
      · rintro (- | - | r) hb
        · contradiction
        · exact Iff.rfl
        · exact Iff.rfl
    case h_3 hs' =>
      obtain ⟨m, c, r, rfl⟩ := stepRefresh_frame hs'
      cases hs
      refine h.refreshed (a := .owner) nofun hl hi hs' rfl hc ?_ ?_ ?_
      · simp [refreshing, OwnerLocation.refreshing, hc.right]
      · simp [inside]
      · rintro (- | - | r) hb
        · contradiction
        · exact Iff.rfl
        · exact Iff.rfl
  case spawn =>
    have hw := hc.right
    rw [if_neg (by simp [hw])] at hs
    cases hs
    refine h.quiet rfl ⟨hc.left, nofun⟩ ?_ ?_ ?_ <;> simp [refreshing, OwnerLocation.refreshing, inside, ho, hw]
  case stop =>
    split at hs
    case isTrue hr =>
      cases hs
      refine h.quiet rfl ⟨rfl, hc.left ▸ hr⟩ ?_ ?_ ?_ <;> simp [refreshing, OwnerLocation.refreshing, inside, ho]
    case isFalse hr =>
      cases hs
      have hw : t.worker = none := by simpa [hr] using hc.left
      rw [hw]
      cases d
      all_goals
        refine h.quiet rfl (by simp [stopped, OwnerLocation.Agrees, hr]) ?_ ?_ ?_ <;>
          simp [refreshing, OwnerLocation.refreshing, inside, ho, hw, stopped]
  case join =>
    split at hs
    case h_1 hw => simp [OwnerLocation.Agrees, hw] at hc
    case h_2 hw =>
      cases hs
      cases d
      all_goals
        refine h.quiet rfl (by simp [stopped, OwnerLocation.Agrees, hc.left]) ?_ ?_ ?_ <;>
          simp [refreshing, OwnerLocation.refreshing, inside, ho, hw, stopped]
    case h_3 => contradiction
  case idle | destroyed | terminated => contradiction

theorem worker_agrees {o : OwnerLocation} {running : Bool} {w : WorkerLocation} (w' : WorkerLocation)
    (h : o.Agrees running (some w)) (hn : w' = .ended → running = false) :
    o.Agrees running (some w') ∧ o.refreshing = none := by
  cases o <;> simp_all [OwnerLocation.Agrees, OwnerLocation.refreshing]

theorem stepWorker (h : Refreshed clock t n) (hs : t.stepWorker clock = some (t', access)) :
    ∃ n', Serve (Shows clock) n access n' ∧ Refreshed clock t' n' := by
  have hc := h.calls
  rcases hw : t.worker with - | - | l | - | -
  all_goals simp only [TimestampCache.stepWorker, hw] at hs
  all_goals rw [hw] at hc
  case some.load =>
    cases hs
    by_cases hr : t.running = true
    · have ⟨ha, ho⟩ := worker_agrees (.refresh .fill) hc nofun
      simp only [hr, if_true] at ha ⊢
      refine h.quiet (by rw [← hr]) ha ?_ ?_ ?_ <;> simp [refreshing, inside, ho, hw, Refreshing]
    · have ⟨ha, ho⟩ := worker_agrees .ended hc fun _ => by simpa using hr
      simp only [hr] at ha ⊢
      refine h.quiet rfl ha ?_ ?_ ?_ <;> simp [refreshing, inside, ho, hw]
  case some.refresh =>
    have ho := (worker_agrees .load hc nofun).right
    have hl : t.refreshing = some l := by simp [refreshing, ho, hw]
    have hi : t.inside .worker ↔ l.inside := by simp [inside, hw]
    split at hs
    case h_1 => contradiction
    case h_2 k _ hs' =>
      obtain ⟨m, c, r, rfl⟩ := stepRefresh_frame hs'
      cases hs
      have ha := (worker_agrees (.refresh k) hc nofun).left
      refine h.refreshed (a := .worker) nofun hl hi hs' rfl ha ?_ ?_ ?_
      · simp [refreshing, ho]
      · simp [inside]
      · rintro (- | - | r) hb
        · exact Iff.rfl
        · contradiction
        · exact Iff.rfl
    case h_3 hs' =>
      obtain ⟨m, c, r, rfl⟩ := stepRefresh_frame hs'
      cases hs
      have ha := (worker_agrees .sleep hc nofun).left
      refine h.refreshed (a := .worker) nofun hl hi hs' rfl ha ?_ ?_ ?_
      · simp [refreshing, ho]
      · simp [inside]
      · rintro (- | - | r) hb
        · exact Iff.rfl
        · contradiction
        · exact Iff.rfl
  case some.sleep =>
    cases hs
    have ⟨ha, ho⟩ := worker_agrees .load hc nofun
    refine h.quiet rfl ha ?_ ?_ ?_ <;> simp [refreshing, inside, ho, hw]
  case none | some.ended => contradiction

section

variable {r : ρ}

theorem current (h : Refreshed clock t n) (hi : t.inside (.reader r)) :
    t.currentTimestamp = texts clock n := by
  have out {l : RefreshLocation} (a : Agent ρ) (ha : a ≠ .reader r) (hl : t.inside a ↔ l.inside) :
      ¬l.inside := fun hn => ha <| h.held.exclusive (hl.mpr hn) hi
  have hr := h.refresh
  cases hl : t.refreshing
  case none => rw [hl] at hr; exact hr.right
  case some l =>
    have hn : ¬l.inside := by
      rcases Option.or_eq_some_iff.mp hl with ho | ⟨_, hw⟩
      · refine out .owner nofun ?_
        cases ho' : t.owner <;> rw [ho'] at ho <;> cases ho
        simp [inside, ho']
      · refine out .worker nofun ?_
        have ⟨w, hw, hr⟩ := Option.bind_eq_some_iff.mp hw
        cases w <;> cases hr
        simp [inside, hw]
    rw [hl] at hr
    cases l
    case fill          => exact hr.right
    case lock          => exact hr.right.right
    case copy | unlock => exact absurd trivial hn

theorem length_current (h : Refreshed clock t n) (hi : t.inside (.reader r)) :
    t.currentTimestamp.length = 20 := by
  rw [h.current hi, length_texts]

variable [DecidableEq ρ]

theorem moved {l : SnapshotLocation} {m : Option (Agent ρ)} (h : Refreshed clock t n)
    (hp : Passes (.reader r) t.mutex (t.readers r).inside m l.inside)
    (hl : Snapshotting t.currentTimestamp l) :
    Refreshed clock (moveReader { t with mutex := m } r l) n where
  held := by
    refine h.held.passes (a := .reader r) ?_ ?_
    · simpa [inside, moveReader] using hp
    · rintro (- | - | r') hb
      · exact Iff.rfl
      · exact Iff.rfl
      · have : r' ≠ r := fun he => hb (he ▸ rfl)
        simp [inside, moveReader, this]
  calls   := h.calls
  refresh := h.refresh
  readers := by
    intro r'
    by_cases hr : r' = r
    · simpa [moveReader, hr] using hl
    · simpa [moveReader, hr] using h.readers r'

theorem stepReader (h : Refreshed clock t n) (hs : t.stepReader r = some (t', access)) :
    ∃ n', Serve (Shows clock) n access n' ∧ Refreshed clock t' n' := by
  have hr := h.readers r
  rcases hl : t.readers r with - | given | ⟨given, out, i⟩ | ⟨given, out⟩ | ⟨given, out⟩
  all_goals simp only [TimestampCache.stepReader, hl] at hs
  all_goals rw [hl] at hr
  case idle => contradiction
  case lock =>
    cases hm : t.mutex <;> simp only [hm] at hs
    case some => contradiction
    case none =>
      cases hs
      exact ⟨n, rfl, h.moved (hm ▸ .enters trivial) ⟨Nat.zero_le _, rfl⟩⟩
  case copy =>
    obtain ⟨hi, rfl⟩ := hr
    have hin : t.inside (.reader r) := by rw [inside, hl]; trivial
    have hlen := h.length_current hin
    rw [length_replaced (by omega) (by omega)] at hs
    have stays {l : SnapshotLocation} (hl' : l.inside) :
        Passes (.reader r) t.mutex (t.readers r).inside t.mutex l.inside :=
      .stays <| iff_of_true hl' <| by rw [hl]; trivial
    split at hs
    case isTrue hlt =>
      cases hs
      refine ⟨n, rfl, h.moved (stays trivial) ⟨hlt, ?_⟩⟩
      rw [← set_replaced (by omega) (by omega), List.getD_eq_getElem _ _ (by omega)]
    case isFalse hlt =>
      obtain rfl : i = min 20 given.length := by omega
      split at hs
      case isTrue he =>
        cases hs
        exact ⟨n, rfl, h.moved (stays trivial) ⟨by omega, by rw [he]⟩⟩
      case isFalse he =>
        cases hs
        exact ⟨n, rfl, h.moved (stays trivial) (by rw [Snapshotting, snapshotOf, if_neg (by omega)])⟩
  case terminate =>
    obtain ⟨hle, rfl⟩ := hr
    have hin : t.inside (.reader r) := by rw [inside, hl]; trivial
    have hlen := h.length_current hin
    cases hs
    refine ⟨n, rfl, h.moved (.stays (by simp [hl])) ?_⟩
    rw [Snapshotting, snapshotOf, if_pos hle, min_eq_right hle, length_replaced (by omega) le_rfl]
  case unlock =>
    have hin : t.inside (.reader r) := by rw [inside, hl]; trivial
    cases hs
    refine ⟨n, ⟨?_, rfl⟩, h.moved (.leaves (by simp [hl]) (by simp)) trivial⟩
    rw [Shows, ← h.current hin]
    exact hr

theorem turn (h : Refreshed clock t n) (i : Turn ρ) :
    ∃ n', Serve (Shows clock) n (t.turn clock i).2 n' ∧ Refreshed clock (t.turn clock i).1 n' := by
  rw [TimestampCache.turn]
  rcases hs : t.step clock i with - | ⟨t', access⟩
  case none => exact ⟨n, rfl, h⟩
  case some =>
    have hc := h.calls
    rcases i with - | - | - | ⟨r, out⟩ | (- | - | r)
    case start | stop | destroy =>
      rcases ho : t.owner with - | - | l | - | d | d | - | -
      all_goals simp only [step, ho] at hs
      all_goals cases hs
      rw [ho] at hc
      refine h.quiet rfl hc ?_ ?_ ?_ <;> simp [refreshing, OwnerLocation.refreshing, inside, ho]
    case snapshot =>
      cases hl : t.readers r <;> simp only [step, hl] at hs
      case idle =>
        split at hs
        case isTrue h₀ =>
          obtain rfl := List.length_eq_zero_iff.mp h₀
          cases hs
          exact ⟨n, ⟨by simp [Shows, snapshotOf], rfl⟩, h⟩
        case isFalse =>
          cases hs
          exact ⟨n, rfl, h.moved (m := t.mutex) (.stays (by simp [hl])) trivial⟩
      all_goals contradiction
    case thread.owner  => exact h.stepOwner hs
    case thread.worker => exact h.stepWorker hs
    case thread.reader => exact h.stepReader hs

end

end Refreshed

variable [DecidableEq ρ]

def after (clock : Nat → ClockReading) (turns : List (Turn ρ)) (t : TimestampCache ρ) : TimestampCache ρ :=
  (Machine.exec (turn clock) turns t).1

-- However the threads take turns, and however they are interrupted when they copy a text, the snapshots are
-- those of a text that is replaced as a whole.
theorem snapshots_atomic (clock : Nat → ClockReading) (turns : List (Turn ρ)) :
    Serves (Shows clock) 0 (accesses (turn clock) turns {}) :=
  serves_of_simulation (R := Refreshed clock) (fun i h => h.turn i) (.new clock) turns |>.left

end TimestampCache
