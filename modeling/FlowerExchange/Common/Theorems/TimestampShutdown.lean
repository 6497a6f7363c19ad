import FlowerExchange.Common.Theorems.TimestampLifecycle
import FlowerExchange.Lib.Fairness

open Lock Fairness

def RefreshLocation.remaining : RefreshLocation → Nat
  | fill     => 26
  | lock _   => 25
  | copy _ i => 4 + (20 - i)
  | unlock   => 3

def WorkerLocation.remaining : WorkerLocation → Nat
  | refresh l => l.remaining
  | sleep     => 2
  | load      => 1
  | ended     => 0

def SnapshotLocation.remaining : SnapshotLocation → Nat
  | lock _        => 24
  | copy _ _ i    => 3 + (20 - i)
  | terminate _ _ => 2
  | unlock _ _    => 1
  | idle          => 0

namespace TimestampCache

variable {ρ : Type} {clock : Nat → ClockReading} {t t' : TimestampCache ρ} {a b : Agent ρ}
  {r : ρ}

def Stopping (t : TimestampCache ρ) : Prop :=
  ∃ destroying, t.owner = .stop destroying

def Ending (t : TimestampCache ρ) : Prop :=
  t.running = false ∧ ((∃ destroying, t.owner = .join destroying) ∨ t.owner = .idle ∨ t.owner = .destroyed)

def Quiet (t : TimestampCache ρ) : Prop :=
  (t.owner = .idle ∨ t.owner = .destroyed) ∧ t.worker = none ∧ ∀ r, t.readers r = .idle

-- Before the owner takes back `running_`, the others may go on for as long as they like.
def Loops (t : TimestampCache ρ) (a : Agent ρ) : Prop :=
  t.Stopping ∧ a ≠ .owner

def ownerRemaining : OwnerLocation → Nat
  | .stop _ => 2
  | .join _ => 1
  | _       => 0

variable {access : Option (Access Snapshot)}

theorem stepRefresh_remaining {l l' : RefreshLocation}
    (hs : t.stepRefresh clock a l = some (t', some l', access)) : l'.remaining < l.remaining := by
  cases l <;> simp only [stepRefresh] at hs
  case fill   => cases hs; simp [RefreshLocation.remaining]
  case lock   => split at hs <;> cases hs; simp [RefreshLocation.remaining]
  case unlock => cases hs
  case copy   =>
    split at hs <;> cases hs <;> simp only [RefreshLocation.remaining]
    case isTrue  => omega
    case isFalse => omega

theorem two_lt_remaining (l : RefreshLocation) : 2 < l.remaining := by
  cases l <;> simp only [RefreshLocation.remaining] <;> omega

theorem stepWorker_frame (hs : t.stepWorker clock = some (t', access)) :
    t'.owner = t.owner ∧ t'.running = t.running ∧ t'.readers = t.readers := by
  simp only [stepWorker] at hs
  split at hs
  case h_2 =>
    split at hs
    case h_1 => contradiction
    case h_2 | h_3 =>
      rename_i hs'
      obtain ⟨m, c, r, rfl⟩ := stepRefresh_frame hs'
      cases hs
      exact ⟨rfl, rfl, rfl⟩
  all_goals cases hs <;> exact ⟨rfl, rfl, rfl⟩

theorem stepWorker_remaining (hr : t.running = false) (hs : t.stepWorker clock = some (t', access)) :
    ∃ w w', t.worker = some w ∧ t'.worker = some w' ∧ w'.remaining < w.remaining := by
  rcases hw : t.worker with - | - | l | - | -
  all_goals simp only [stepWorker, hw] at hs
  case none | some.ended => contradiction
  case some.load =>
    cases hs
    exact ⟨_, _, rfl, rfl, by simp [hr, WorkerLocation.remaining]⟩
  case some.sleep =>
    cases hs
    exact ⟨_, _, rfl, rfl, by decide⟩
  case some.refresh =>
    split at hs
    case h_1 => contradiction
    case h_2 hs' =>
      cases hs
      exact ⟨_, _, rfl, rfl, stepRefresh_remaining hs'⟩
    case h_3 =>
      cases hs
      exact ⟨_, _, rfl, rfl, two_lt_remaining l⟩

theorem Ending.not_stopping (h : t.Ending) : ownerRemaining t.owner ≠ 2 := by
  rcases h with ⟨_, ⟨d, ho⟩ | ho | ho⟩ <;> rw [ho] <;> simp [ownerRemaining]

theorem stopped_none (destroying : Bool) :
    (stopped none destroying = .idle ∨ stopped none destroying = .destroyed) ∧
      ownerRemaining (stopped none destroying) = 0 := by
  cases destroying
  case false => exact ⟨.inl rfl, rfl⟩
  case true  => exact ⟨.inr rfl, rfl⟩

theorem stepOwner_stop (h : t.Stopping ∨ t.Ending) (hc : t.owner.Agrees t.running t.worker)
    (hs : t.stepOwner clock = some (t', access)) :
    t'.Ending ∧ ownerRemaining t'.owner < ownerRemaining t.owner := by
  rcases h with ⟨d, ho⟩ | ⟨hr, ⟨d, ho⟩ | ho | ho⟩
  all_goals simp only [stepOwner, ho] at hs
  all_goals rw [ho] at hc
  case inl =>
    split at hs <;> cases hs
    case isTrue => exact ⟨⟨rfl, .inl ⟨d, rfl⟩⟩, by simp [ho, ownerRemaining]⟩
    case isFalse hr =>
      have hr : t.running = false := by simpa using hr
      have hw : t.worker = none :=
        Option.isNone_iff_eq_none.mp <| Option.isSome_eq_false_iff.mp <| hc.left ▸ hr
      obtain ⟨hd, hz⟩ := stopped_none d
      rw [← hw] at hd hz
      exact ⟨⟨hr, .inr hd⟩, lt_of_eq_of_lt hz <| by simp [ho, ownerRemaining]⟩
  case inr.inl =>
    split at hs
    case h_1 hw => exact absurd hc.right <| by simp [hw]
    case h_2 =>
      cases hs
      obtain ⟨hd, hz⟩ := stopped_none d
      exact ⟨⟨hr, .inr hd⟩, lt_of_eq_of_lt hz <| by simp [ho, ownerRemaining]⟩
    case h_3 => contradiction
  case inr.inr.inl | inr.inr.inr => contradiction

variable [DecidableEq ρ]

theorem stepReader_remaining (hs : t.stepReader r = some (t', access)) :
    ∃ mutex l, t' = moveReader { t with mutex := mutex } r l ∧ l.remaining < (t.readers r).remaining := by
  rcases hl : t.readers r with - | given | ⟨given, out, i⟩ | ⟨given, out⟩ | ⟨given, out⟩
  all_goals simp only [stepReader, hl] at hs
  case idle => contradiction
  case lock => split at hs <;> cases hs; exact ⟨_, _, rfl, by simp [SnapshotLocation.remaining]⟩
  case copy =>
    repeat' split at hs
    case isTrue =>
      cases hs
      exact ⟨t.mutex, _, rfl, by simp only [SnapshotLocation.remaining]; omega⟩
    all_goals cases hs; exact ⟨t.mutex, _, rfl, by simp only [SnapshotLocation.remaining]; omega⟩
  case terminate => cases hs; exact ⟨t.mutex, _, rfl, by simp [SnapshotLocation.remaining]⟩
  case unlock    => cases hs; exact ⟨_, _, rfl, by simp [SnapshotLocation.remaining]⟩

def threadStep (clock : Nat → ClockReading) (t : TimestampCache ρ) (a : Agent ρ) :
    Option (TimestampCache ρ) :=
  (t.stepThread clock a).map Prod.fst

theorem threadStep_eq_some (hs : t.threadStep clock a = some t') :
    ∃ access, t.stepThread clock a = some (t', access) := by
  have ⟨⟨_, access⟩, hs, he⟩ := Option.map_eq_some_iff.mp hs
  exact ⟨access, he ▸ hs⟩

def Shutdown (clock : Nat → ClockReading) (t : TimestampCache ρ) : Prop :=
  (t.Stopping ∨ t.Ending) ∧ ∃ n, Refreshed clock t n

section

variable [Fintype ρ]

def othersRemaining (t : TimestampCache ρ) : Nat :=
  (t.worker.map WorkerLocation.remaining).getD 0 + ∑ r, (t.readers r).remaining

-- The owner comes first. What the others do does not count as long as they are not told to end.
def remaining (t : TimestampCache ρ) : Nat ×ₗ Nat :=
  toLex (ownerRemaining t.owner, if ownerRemaining t.owner = 2 then 0 else t.othersRemaining)

omit [DecidableEq ρ] in
theorem Ending.remaining_lt (h : t.Ending) (ho : t'.owner = t.owner)
    (hlt : t'.othersRemaining < t.othersRemaining) : t'.remaining < t.remaining := by
  rw [remaining, remaining, ho, if_neg h.not_stopping, if_neg h.not_stopping]
  exact Prod.Lex.toLex_lt_toLex.mpr <| .inr ⟨rfl, hlt⟩

theorem Shutdown.step (h : Shutdown clock t) (hs : t.threadStep clock a = some t') :
    Shutdown clock t' ∧ (t.Loops a ∧ t'.owner = t.owner ∨ ¬t.Loops a ∧ t'.remaining < t.remaining) := by
  obtain ⟨access, hs⟩ := threadStep_eq_some hs
  obtain ⟨hsd, n, hr⟩ := h
  have hr' : ∃ n', Refreshed clock t' n' := by
    obtain ⟨n', _, hr'⟩ := hr.turn (.thread a)
    rw [turn, TimestampCache.step, hs] at hr'
    exact ⟨n', hr'⟩
  -- The owner stays where it is when another thread takes a step.
  have other (ha : a ≠ .owner) (ho : t'.owner = t.owner) (hrun : t'.running = t.running)
      (hlt : t.Ending → t'.othersRemaining < t.othersRemaining) : Shutdown clock t' ∧
        (t.Loops a ∧ t'.owner = t.owner ∨ ¬t.Loops a ∧ t'.remaining < t.remaining) := by
    rcases hsd with hd | he
    case inl => exact ⟨⟨.inl <| by rwa [Stopping, ho], hr'⟩, .inl ⟨⟨hd, ha⟩, ho⟩⟩
    case inr =>
      refine ⟨⟨.inr <| by rwa [Ending, ho, hrun], hr'⟩, .inr ⟨?_, he.remaining_lt ho <| hlt he⟩⟩
      rintro ⟨⟨d, hd⟩, _⟩
      exact he.not_stopping <| hd ▸ rfl
  rcases a with - | - | r
  case owner =>
    obtain ⟨he, hlt⟩ := stepOwner_stop hsd hr.calls hs
    exact ⟨⟨.inr he, hr'⟩, .inr ⟨fun hl => hl.right rfl, Prod.Lex.toLex_lt_toLex.mpr <| .inl hlt⟩⟩
  case worker =>
    obtain ⟨ho, hrun, hrd⟩ := stepWorker_frame hs
    refine other (by simp) ho hrun fun he => ?_
    obtain ⟨w, w', hw, hw', hlt⟩ := stepWorker_remaining he.left hs
    simp [othersRemaining, hw, hw', hrd, hlt]
  case reader =>
    obtain ⟨m, l, rfl, hlt⟩ := stepReader_remaining hs
    refine other (by simp) rfl rfl fun _ => ?_
    refine Nat.add_lt_add_left (Finset.sum_lt_sum (fun r' _ => ?_) ⟨r, Finset.mem_univ r, ?_⟩) _
    · by_cases hr : r' = r
      · simpa [moveReader, hr] using hlt.le
      · simp [moveReader, hr]
    · simpa [moveReader] using hlt

-- While the owner has still to take back `running_`, it is the only one whose steps count.
theorem Shutdown.not_actsIn {k : Nat} (h : Shutdown clock t) (hd : t.Stopping) (ha : a ≠ .owner) :
    ¬ActsIn (threadStep clock) Loops a k t := by
  induction k generalizing t
  case zero =>
    rintro ⟨_, _, hn⟩
    exact hn ⟨hd, ha⟩
  case succ k hi =>
    rintro ⟨t', hs, hn⟩
    have hl : t.Loops a := ⟨hd, ha⟩
    have ⟨h', hc⟩ := h.step hs
    have ho := hc.resolve_right (fun hn => hn.left hl) |>.right
    exact hi h' (by rwa [Stopping, ho]) <| hn.resolve_left (not_not.mpr hl)

omit [Fintype ρ] in
theorem Stopping.actsIn (h : t.Stopping) (clock : Nat → ClockReading) (k : Nat) :
    ActsIn (threadStep clock) Loops .owner k t := by
  have hn : ¬t.Loops .owner := fun hl => hl.right rfl
  have ⟨t', hs⟩ : ∃ t', t.threadStep clock .owner = some t' := by
    obtain ⟨d, ho⟩ := h
    simp only [threadStep, stepThread, stepOwner, ho]
    split <;> exact ⟨_, rfl⟩
  cases k
  case zero => exact ⟨t', hs, hn⟩
  case succ => exact ⟨t', hs, .inl hn⟩

theorem Shutdown.measured (clock : Nat → ClockReading) :
    Measured (threadStep clock) (Loops (ρ := ρ)) remaining (Shutdown clock) where
  keeps h hs    := h.step hs |>.left
  acts h hs hn  := h.step hs |>.right.resolve_left (fun hl => hn hl.left) |>.right
  idles h hs hl := by
    have ho := h.step hs |>.right.resolve_right (fun hn => hn.left hl) |>.right
    obtain ⟨d, hd⟩ := hl.left
    simp [remaining, ho, hd, ownerRemaining]
  apart {s s' b u k} h hs hl hu ha := by
    have ho := h.step hs |>.right.resolve_right (fun hn => hn.left hl) |>.right
    by_cases hb : b = .owner
    case pos => exact hb ▸ Stopping.actsIn (by rw [Stopping, ho]; exact hl.left) clock k
    case neg => exact absurd ha <| h.not_actsIn hl.left hb

omit [DecidableEq ρ] [Fintype ρ] in
theorem stepRefresh_isSome {l : RefreshLocation} (hm : t.mutex = none ∨ l.inside) :
    (t.stepRefresh clock a l).isSome := by
  cases l <;> simp only [stepRefresh]
  case fill | unlock => rfl
  case lock => rw [hm.resolve_right id]; rfl
  case copy => split <;> rfl

omit [DecidableEq ρ] [Fintype ρ] in
theorem stepWorker_isSome {w : WorkerLocation} (hw : t.worker = some w) (hn : w ≠ .ended)
    (hm : t.mutex = none ∨ t.inside .worker) : (t.stepWorker clock).isSome := by
  cases w <;> simp only [stepWorker, hw]
  case load | sleep => rfl
  case refresh l =>
    have hs : (t.stepRefresh clock .worker l).isSome :=
      stepRefresh_isSome <| hm.imp_right fun hi => by
        obtain ⟨_, hw', hl⟩ := hi
        rw [hw] at hw'
        cases hw'
        exact hl
    split
    case h_1 hs' => simp [hs'] at hs
    all_goals rfl
  case ended => contradiction

omit [Fintype ρ] in
theorem stepReader_isSome (hl : t.readers r ≠ .idle) (hm : t.mutex = none ∨ t.inside (.reader r)) :
    (t.stepReader r).isSome := by
  rcases hr : t.readers r with - | given | ⟨given, out, i⟩ | ⟨given, out⟩ | ⟨given, out⟩
  all_goals simp only [stepReader, hr]
  case idle => contradiction
  case lock => rw [hm.resolve_right (by simp [inside, hr])]; rfl
  case copy =>
    repeat' split
    all_goals rfl
  case terminate | unlock => rfl

omit [Fintype ρ] in
theorem Shutdown.acts (h : Shutdown clock t) (hq : ¬t.Quiet) :
    ∃ a k, ActsIn (threadStep clock) Loops a k t := by
  obtain ⟨hsd, n, hr⟩ := h
  rcases hsd with hd | he
  case inl => exact ⟨.owner, 0, hd.actsIn clock 0⟩
  case inr =>
    suffices hs : ∃ a, (t.stepThread clock a).isSome by
      obtain ⟨a, hs⟩ := hs
      obtain ⟨⟨t', access⟩, hs⟩ := Option.isSome_iff_exists.mp hs
      refine ⟨a, 0, t', by rw [threadStep, hs]; rfl, ?_⟩
      rintro ⟨⟨d, hd⟩, _⟩
      exact he.not_stopping <| hd ▸ rfl
    by_contra hn
    have hn (a : Agent ρ) : ¬(t.stepThread clock a).isSome := fun hs => hn ⟨a, hs⟩
    have hc := hr.calls
    have worker (hm : t.mutex = none ∨ t.inside .worker) : t.worker = none := by
      by_contra hw
      obtain ⟨w, hw⟩ := Option.ne_none_iff_exists'.mp hw
      by_cases hd : w = .ended
      case neg => exact hn .worker <| stepWorker_isSome hw hd hm
      case pos =>
        rw [hw, hd] at hc
        rcases he with ⟨_, ⟨d, ho⟩ | ho | ho⟩ <;> rw [ho] at hc
        · exact hn .owner <| by simp [stepThread, stepOwner, ho, hw, hd]
        · exact hc.right rfl
        · exact absurd hc.right (by simp)
    have reader (r : ρ) (hm : t.mutex = none ∨ t.inside (.reader r)) : t.readers r = .idle := by
      by_contra hl
      exact hn (.reader r) <| stepReader_isSome hl hm
    have hm : t.mutex = none := by
      by_contra hm
      obtain ⟨a, hm⟩ := Option.ne_none_iff_exists'.mp hm
      have hi := (hr.held a).mpr hm
      rcases a with - | - | r
      case owner =>
        obtain ⟨l, ho, _⟩ := hi
        rcases he with ⟨_, ⟨d, ho'⟩ | ho' | ho'⟩ <;> rw [ho'] at ho <;> contradiction
      case worker =>
        obtain ⟨l, hw, _⟩ := id hi
        exact absurd (worker <| .inr hi) <| by simp [hw]
      case reader => exact absurd hi <| by simp [inside, reader r <| .inr hi]
    refine hq ⟨?_, worker <| .inl hm, fun r => reader r <| .inl hm⟩
    rcases he with ⟨_, ⟨d, ho⟩ | ho | ho⟩
    case inl => exact absurd (ho ▸ hc).right <| by simp [worker <| .inl hm]
    case inr.inl => exact .inl ho
    case inr.inr => exact .inr ho

end

end TimestampCache
