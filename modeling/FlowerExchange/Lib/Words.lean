import Mathlib

def words (sep : α → Bool) (l : List α) : List (List α) :=
  (l.splitOnP sep).filter (!·.isEmpty)

namespace Words

variable {sep : α → Bool} {w l : List α}

theorem words_cons (h : sep c) : words sep (c :: l) = words sep l := by
  have hs := List.splitOnP_append_cons [] l h
  rw [List.nil_append] at hs
  rw [words, hs, List.filter_append]
  rfl

theorem words_dropWhile (l : List α) : words sep (l.dropWhile sep) = words sep l := by
  induction l
  case nil => rfl
  case cons c l hi =>
    by_cases h : sep c
    case pos => rw [List.dropWhile_cons_of_pos h, hi, words_cons h]
    case neg => rw [List.dropWhile_cons_of_neg h]

theorem words_append (hw : ∀ c ∈ w, sep c = false) (hn : w ≠ []) (hr : ∀ c ∈ l.head?, sep c) :
    words sep (w ++ l) = w :: words sep l := by
  have he : w.isEmpty = false := by simpa using hn
  cases l
  case nil => simp [words, List.splitOnP_eq_singleton hw, he]
  case cons c l =>
    have hc : sep c := hr c rfl
    rw [words, List.splitOnP_append_cons_of_forall_mem hw c hc, words_cons hc,
      List.filter_cons_of_pos (by simp [he])]
    rfl

theorem length_splitOnP (sep : α → Bool) (l : List α) :
    (l.splitOnP sep).length = l.countP sep + 1 := by
  induction l
  case nil => rfl
  case cons c l hi =>
    rw [List.splitOnP_cons_eq_if_modifyHead, List.countP_cons]
    split <;> simp [hi]

theorem not_sep_of_mem_splitOnP (h : w ∈ l.splitOnP sep) : ∀ c ∈ w, sep c = false := by
  induction l generalizing w
  case nil => simp_all
  case cons c l hi =>
    rw [List.splitOnP_cons_eq_if_modifyHead] at h
    split at h
    case isTrue =>
      rcases List.mem_cons.mp h with rfl | h
      · exact List.forall_mem_nil _
      · exact hi h
    case isFalse hc =>
      obtain ⟨v, vs, hv⟩ := List.exists_cons_of_ne_nil <| List.splitOnP_ne_nil sep l
      rw [hv, List.modifyHead_cons] at h
      rcases List.mem_cons.mp h with rfl | h
      · exact List.forall_mem_cons.mpr ⟨by simpa using hc, hi <| hv ▸ .head _⟩
      · exact hi <| hv ▸ .tail _ h

end Words
