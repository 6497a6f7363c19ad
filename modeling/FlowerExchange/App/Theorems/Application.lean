import FlowerExchange.App.Application
import FlowerExchange.Lib.Words

def processPath (line : Bytes) : Option Bytes :=
  match words isSpace line with
  | command :: path :: _ => if command = ascii "PROCESS" then some path else none
  | _                    => none

def requests (stream : Bytes) : List Bytes :=
  ((getlines stream).takeWhile (· ≠ ascii "QUIT")).filterMap processPath

theorem head_dropWhile {p : UInt8 → Bool} {text : Bytes} (h : c ∈ (text.dropWhile p).head?) :
    p c = false := by
  have := List.head?_dropWhile_not p text
  rwa [Option.mem_def.mp h] at this

theorem words_takeWhile {l : Bytes} (h : ∀ c ∈ l.head?, isSpace c = false) : words isSpace l =
    if l.takeWhile (!isSpace ·) = [] then []
    else l.takeWhile (!isSpace ·) :: words isSpace (l.dropWhile (!isSpace ·)) := by
  have hl : l.takeWhile (!isSpace ·) ++ l.dropWhile (!isSpace ·) = l := List.takeWhile_append_dropWhile
  split
  case isTrue ht =>
    cases l
    case nil => rfl
    case cons c l =>
      have hc := h c rfl
      rw [List.takeWhile_cons_of_pos (by simpa using hc)] at ht
      contradiction
  case isFalse ht =>
    nth_rewrite 1 [← hl]
    refine Words.words_append (fun c hc => ?_) ht fun c hc => ?_
    · simpa using List.mem_takeWhile_imp hc
    · simpa using head_dropWhile hc

theorem words_extract (text : Bytes) : words isSpace text =
    if (extract text).1 = [] then [] else (extract text).1 :: words isSpace (extract text).2 := by
  rw [← Words.words_dropWhile]
  exact words_takeWhile fun c hc => head_dropWhile hc

namespace Application

theorem requested_eq (line : Bytes) : requested line = processPath line := by
  rw [processPath, words_extract line]
  by_cases hc : (extract line).1 = []
  case pos =>
    rw [if_pos hc]
    exact if_neg fun h => absurd (h.left.symm.trans hc) (by decide)
  case neg =>
    rw [if_neg hc, words_extract (extract line).2]
    by_cases hp : (extract (extract line).2).1 = []
    case pos =>
      rw [if_pos hp]
      exact if_neg fun h => h.right hp
    case neg => simp [requested, hp]

variable {app : Application} {stream line buffer : Bytes} {ls : List Bytes}

theorem getline_of_getlines (h : getlines stream = line :: ls) (buffer : Bytes) : ∃ next,
    ({ rest := stream } : IStream).getline buffer = (next, line) ∧
      (getlines next.rest = ls) ∧ (ls ≠ [] → next = { rest := next.rest }) := by
  cases stream
  case nil => contradiction
  case cons c cs =>
    by_cases hm : 10 ∈ c :: cs
    case pos =>
      rw [getlines_cons] at h
      obtain ⟨rfl, rfl⟩ := List.cons.inj h
      exact ⟨_, by simp only [IStream.getline, if_pos hm]; rfl, rfl, fun _ => rfl⟩
    case neg =>
      rw [getlines_last (List.cons_ne_nil c cs) hm] at h
      obtain ⟨rfl, rfl⟩ := List.cons.inj h
      refine ⟨{ rest := [], eof := true }, ?_, rfl, fun hn => absurd rfl hn⟩
      simp only [IStream.getline, if_neg hm]
      rfl

theorem run_eq (n : Nat) (app : Application) :
    run n app = ((Machine.loop step n app).1.reduceOption, (Machine.loop step n app).2) :=
  rfl

theorem run_of_quit (h : ascii "QUIT" ∈ getlines stream) (buffer : Bytes) :
    ∃ n, run n ⟨{ rest := stream }, buffer⟩ = (requests stream, true) := by
  rw [requests]
  generalize hl : getlines stream = ls at h
  induction ls generalizing stream buffer
  case nil => contradiction
  case cons line ls hi =>
    have ⟨next, hg, hr, hgood⟩ := getline_of_getlines hl buffer
    by_cases hq : line = ascii "QUIT"
    case pos =>
      have hs : step ⟨{ rest := stream }, buffer⟩ = none := by
        simp only [step, hg, if_pos hq]
      refine ⟨1, ?_⟩
      rw [run_eq, Machine.loop_none hs, List.takeWhile_cons_of_neg (by simpa using hq)]
      rfl
    case neg =>
      have hs : step ⟨{ rest := stream }, buffer⟩ = some (⟨next, line⟩, requested line) := by
        simp only [step, hg, if_neg hq]
      have h := (List.mem_cons.mp h).resolve_left (Ne.symm hq)
      have ⟨n, hn⟩ := hi line hr h
      rw [← hgood (List.ne_nil_of_mem h)] at hn
      refine ⟨n + 1, ?_⟩
      rw [run_eq] at hn
      obtain ⟨hc, hret⟩ := Prod.mk.inj hn
      rw [run_eq, Machine.loop_some hs, List.takeWhile_cons_of_pos (by simpa using hq), hret,
        requested_eq]
      cases hp : processPath line
      case none =>
        rw [List.filterMap_cons_none hp, ← hc]
        rfl
      case some path =>
        rw [List.filterMap_cons_some hp, ← hc]
        rfl

def Endless (app : Application) : Prop :=
  if app.input.good then ascii "QUIT" ∉ getlines app.input.rest else app.userInput ≠ ascii "QUIT"

theorem Endless.step (h : app.Endless) : ∃ app' call, app.step = some (app', call) ∧ app'.Endless := by
  obtain ⟨⟨rest, eof, fail⟩, buffer⟩ := app
  cases hgood : IStream.good ⟨rest, eof, fail⟩
  case false =>
    have hq : buffer ≠ ascii "QUIT" := by simpa [Endless, hgood] using h
    refine ⟨⟨⟨rest, eof, true⟩, buffer⟩, requested buffer, ?_, ?_⟩
    · simp [Application.step, IStream.getline, hgood, hq]
    · simpa [Endless, IStream.good] using hq
  case true =>
    obtain ⟨rfl, rfl⟩ : eof = false ∧ fail = false := by simpa [IStream.good] using hgood
    have h : ascii "QUIT" ∉ getlines rest := h
    cases hl : getlines rest
    case nil =>
      obtain rfl : rest = [] := by
        cases rest
        case nil => rfl
        case cons => cases (getlines_cons ..).symm.trans hl
      exact ⟨_, _, rfl, nofun⟩
    case cons line ls =>
      have ⟨next, hg, hr, _⟩ := getline_of_getlines hl buffer
      have ⟨hq, hn⟩ := not_or.mp <| List.mem_cons.not.mp <| hl ▸ h
      refine ⟨⟨next, line⟩, requested line, ?_, ?_⟩
      · simp only [Application.step, hg, if_neg (Ne.symm hq)]
      · rw [Endless]
        split
        · exact hr.symm ▸ hn
        · exact Ne.symm hq

-- The application returns, after it has processed what is requested, exactly when there is a line `QUIT`.
theorem run_returns_iff (stream : Bytes) :
    (∃ n, run n ⟨{ rest := stream }, []⟩ = (requests stream, true)) ↔ ascii "QUIT" ∈ getlines stream := by
  constructor
  · rintro ⟨n, hr⟩
    by_contra h
    have he : Endless ⟨{ rest := stream }, []⟩ := h
    have hf : (run n ⟨{ rest := stream }, []⟩).2 = false := Machine.loop_invariant Endless.step he n
    rw [hr] at hf
    contradiction
  · exact (run_of_quit · [])

theorem run_unended (hl : 10 ∉ stream) (hq : stream ≠ ascii "QUIT")
    (hp : processPath stream = some path) (n : Nat) :
    run n ⟨{ rest := stream }, buffer⟩ = (.replicate n path, false) := by
  have first : step ⟨{ rest := stream }, buffer⟩ =
      some (⟨{ rest := [], eof := true, fail := stream.isEmpty }, stream⟩, some path) := by
    simp [step, IStream.getline, IStream.good, hl, hq, requested_eq, hp]
  have again (fail : Bool) : step ⟨{ rest := [], eof := true, fail }, stream⟩ =
      some (⟨{ rest := [], eof := true, fail := true }, stream⟩, some path) := by
    simp [step, IStream.getline, IStream.good, hq, requested_eq, hp]
  have stays (n : Nat) (fail : Bool) : Machine.loop step n ⟨{ rest := [], eof := true, fail }, stream⟩ =
      (.replicate n (some path), false) := by
    induction n generalizing fail
    case zero      => rfl
    case succ n hi => rw [Machine.loop_some (again fail), hi, List.replicate_succ]
  cases n
  case zero => rfl
  case succ n =>
    have hr : (List.replicate (n + 1) (some path)).reduceOption = .replicate (n + 1) path :=
      List.filterMap_replicate_of_some rfl
    rw [run_eq, Machine.loop_some first, stays, ← List.replicate_succ, hr]

-- A command at the end of the stream is carried out over and over.
theorem run_not_returns :
    (∀ n, run n ⟨{ rest := ascii "PROCESS a.csv" }, []⟩ = (.replicate n (ascii "a.csv"), false)) ∧
      ¬∃ n, run n ⟨{ rest := ascii "PROCESS a.csv" }, []⟩ = (requests (ascii "PROCESS a.csv"), true) := by
  have h (n) : run n ⟨{ rest := ascii "PROCESS a.csv" }, []⟩ = (.replicate n (ascii "a.csv"), false) :=
    run_unended (by decide) (by decide) (by decide) n
  refine ⟨h, fun ⟨n, hn⟩ => ?_⟩
  rw [h] at hn
  cases congrArg Prod.snd hn

end Application
