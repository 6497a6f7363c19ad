import FlowerExchange.Io.CsvReader

theorem getlines_append {line : Bytes} (h : 10 ∉ line) (rest : Bytes) :
    getlines (line ++ 10 :: rest) = line :: getlines rest := by
  induction line
  case nil => rfl
  case cons c line hi =>
    have ⟨hc, hl⟩ := not_or.mp <| List.mem_cons.not.mp h
    rw [List.cons_append, getlines, if_neg (Ne.symm hc), hi hl]

theorem mem_of_mem_getlines {stream line : Bytes} (h : line ∈ getlines stream) :
    (∀ c ∈ line, c ∈ stream) ∧ 10 ∉ line := by
  induction stream generalizing line
  case nil => contradiction
  case cons c cs hi =>
    rw [getlines] at h
    split at h
    case isTrue =>
      rcases List.mem_cons.mp h with rfl | h
      · exact ⟨List.forall_mem_nil _, List.not_mem_nil⟩
      · obtain ⟨hl, hn⟩ := hi h
        exact ⟨fun d hd => .tail _ <| hl d hd, hn⟩
    case isFalse hc =>
      split at h
      case h_1 =>
        obtain rfl := List.mem_singleton.mp h
        exact ⟨fun d hd => List.mem_singleton.mp hd ▸ .head _, List.mem_singleton.not.mpr <| Ne.symm hc⟩
      case h_2 first ls hls =>
        rcases List.mem_cons.mp h with rfl | h
        · obtain ⟨hl, hn⟩ := hi <| hls ▸ List.mem_cons_self
          have hn : 10 ∉ c :: first := List.mem_cons.not.mpr <| not_or.mpr ⟨Ne.symm hc, hn⟩
          refine ⟨fun d hd => ?_, hn⟩
          rcases List.mem_cons.mp hd with rfl | hd
          · exact .head _
          · exact .tail _ <| hl d hd
        · obtain ⟨hl, hn⟩ := hi <| hls ▸ List.mem_cons_of_mem _ h
          exact ⟨fun d hd => .tail _ <| hl d hd, hn⟩

theorem castInt_eq {n : Nat} (h : n < 2 ^ 31) : castInt n = n :=
  Int.bmod_eq_of_le (by norm_num) (by norm_num; omega)

namespace CSVRow

theorem dropCarriageReturn_append (pre : Bytes) {text : Bytes} (hn : text ≠ []) (h : 13 ∉ text) :
    dropCarriageReturn (pre ++ text) = pre ++ text := by
  refine if_neg fun hl => h ?_
  rw [List.getLast?_append_of_ne_nil _ hn] at hl
  exact List.mem_of_getLast? hl

def fields (row : CSVRow) : Except Fault (List Bytes) :=
  (List.range row.size).mapM row.field

theorem fields_singleton (line : Bytes) (p : Int) : fields ⟨line, [p]⟩ = .ok [] :=
  rfl

variable {line : Bytes} {first last : Nat} {ps : List Int}

theorem field_zero (hf : first ≤ last) (hl : last ≤ line.length) :
    field ⟨line, (first - 1 : Int) :: (last : Int) :: ps⟩ 0 =
      .ok ((line.drop first).take (last - first)) := by
  simp [field, size, elementAt, hf, hl]

theorem field_succ (p q : Int) (i : Nat) : field ⟨line, p :: q :: ps⟩ (i + 1) = field ⟨line, q :: ps⟩ i := by
  simp [field, size, elementAt]

theorem fields_cons (hf : first ≤ last) (hl : last ≤ line.length)
    (h : fields ⟨line, last :: ps⟩ = .ok fs) :
    fields ⟨line, (first - 1 : Int) :: (last : Int) :: ps⟩ =
      .ok ((line.drop first).take (last - first) :: fs) := by
  have hs : size ⟨line, (first - 1 : Int) :: (last : Int) :: ps⟩ = size ⟨line, last :: ps⟩ + 1 := rfl
  rw [fields, hs, List.range_succ_eq_map, List.mapM_cons, field_zero hf hl, List.mapM_map]
  have hm : (List.range (size ⟨line, last :: ps⟩)).mapM
      (field ⟨line, (first - 1 : Int) :: (last : Int) :: ps⟩ ∘ Nat.succ) = .ok fs := by
    rw [← h]
    exact congrArg (List.mapM · _) <| funext fun i => field_succ ..
  simp [hm]

-- The positions of the commas split the line, if they fit into an `int`. `pre` is what has been read, and
-- the next field starts at `start`.
theorem fields_commaPositions {pre l : Bytes} (hline : pre ++ l = line) (hs : start ≤ pre.length)
    (hc : 44 ∉ pre.drop start) (hl : line.length < 2 ^ 31) :
    fields ⟨line, (start - 1 : Int) :: (commaPositions pre.length l ++ [castInt line.length])⟩ =
      .ok ((pre.drop start ++ l).splitOn 44) := by
  induction l generalizing pre start
  case nil =>
    obtain rfl : pre = line := by simpa using hline
    rw [castInt_eq hl, List.append_nil, List.splitOn_eq_singleton hc, commaPositions, List.nil_append,
      fields_cons hs le_rfl (fields_singleton ..), List.take_of_length_le (by simp)]
  case cons c l hi =>
    have hline' : pre ++ [c] ++ l = line := by simpa using hline
    have hlen : (pre ++ [c]).length = pre.length + 1 := List.length_append
    have hlt : pre.length < line.length := by simp [← hline]
    rw [commaPositions]
    split
    case isTrue h =>
      subst h
      -- The next field starts behind the comma.
      have hd : (pre ++ [44]).drop (pre.length + 1) = [] := by simp
      have hi := hi hline' hlen.ge (by simp)
      rw [hd, hlen, List.nil_append] at hi
      push_cast at hi
      rw [add_sub_cancel_right] at hi
      have hfield : (line.drop start).take (pre.length - start) = pre.drop start := by
        rw [← hline, List.drop_append_of_le_length hs]
        exact List.take_left' (by simp)
      rw [castInt_eq (hlt.trans hl), List.splitOn_append_cons_self_of_not_mem hc, ← hfield]
      exact fields_cons hs hlt.le hi
    case isFalse h =>
      have hd : (pre ++ [c]).drop start = pre.drop start ++ [c] := List.drop_append_of_le_length hs
      have hc' : 44 ∉ pre.drop start ++ [c] := by
        rw [List.mem_append, List.mem_singleton]
        exact not_or.mpr ⟨hc, Ne.symm h⟩
      have hi := hi hline' (hs.trans <| hlen ▸ Nat.le_succ _) (hd ▸ hc')
      rwa [hd, hlen, List.append_assoc, List.singleton_append] at hi

theorem fields_ofLine (h : line.length < 2 ^ 31) :
    (ofLine line).fields = .ok ((dropCarriageReturn line).splitOn 44) := by
  have hl : (dropCarriageReturn line).length ≤ line.length := by
    rw [dropCarriageReturn]
    split <;> simp
  have hnil : [] ++ dropCarriageReturn line = dropCarriageReturn line := rfl
  exact fields_commaPositions hnil (Nat.le_refl 0) List.not_mem_nil (hl.trans_lt h)

theorem mem_of_mem_dropCarriageReturn (h : c ∈ dropCarriageReturn line) : c ∈ line := by
  rw [dropCarriageReturn] at h
  split at h
  case isTrue  => exact List.mem_of_mem_dropLast h
  case isFalse => exact h

theorem getElem?_of_elementAt {xs : List α} (h : elementAt xs i = .ok x) : xs[i]? = some x := by
  rw [elementAt] at h
  split at h
  case h_1 hx =>
    cases h
    exact hx
  case h_2 => contradiction

theorem field_eq_ok {sv : Bytes} (h : field ⟨line, ps⟩ i = .ok sv) : ∃ a b : Nat,
    (ps[i]? = some (a - 1 : Int)) ∧ (ps[i + 1]? = some (b : Int)) ∧
      a ≤ b ∧ sv = (line.drop a).take (b - a) := by
  simp only [field] at h
  split at h
  case isTrue => contradiction
  case isFalse =>
    obtain ⟨p, hp, h⟩ := Except.bind_eq_ok h
    obtain ⟨q, hq, h⟩ := Except.bind_eq_ok h
    split at h
    case isFalse => contradiction
    case isTrue hb =>
      cases h
      have hp := getElem?_of_elementAt hp
      have hq := getElem?_of_elementAt hq
      obtain ⟨a, ha⟩ := Int.eq_ofNat_of_zero_le hb.left
      obtain ⟨b, rfl⟩ := Int.eq_ofNat_of_zero_le (hb.left.trans hb.right.left)
      refine ⟨a, b, ?_, hq, by omega, ?_⟩
      · rw [hp, ← ha, add_sub_cancel_right]
      · rw [ha, Int.toNat_natCast]
        congr 1
        omega

theorem mem_of_mem_field {sv : Bytes} (h : field ⟨line, ps⟩ i = .ok sv) (hc : c ∈ sv) : c ∈ line := by
  have ⟨_, _, _, _, _, he⟩ := field_eq_ok h
  exact List.mem_of_mem_drop <| List.mem_of_mem_take <| he ▸ hc

theorem castInt_le_self (n : Nat) : castInt n ≤ n := by
  have h : castInt n = _ := Int.bmod_eq_emod n 4294967296
  rw [h]
  split <;> omega

theorem castInt_lt (n : Nat) : castInt n < 2 ^ 31 :=
  Int.bmod_lt (by norm_num)

theorem commaPositions_cases (pos : Nat) (l : Bytes) :
    (44 ∉ l ∧ commaPositions pos l = []) ∨
      ∃ u v, l = u ++ 44 :: v ∧ 44 ∉ u ∧
        commaPositions pos l = castInt (pos + u.length) :: commaPositions (pos + u.length + 1) v := by
  induction l generalizing pos
  case nil => exact .inl ⟨nofun, rfl⟩
  case cons c l hi =>
    by_cases hc : c = 44
    case pos => exact .inr ⟨[], l, by simp [hc], nofun, by simp [commaPositions, hc]⟩
    case neg =>
      have cons {u : Bytes} (hn : 44 ∉ u) : 44 ∉ c :: u :=
        List.mem_cons.not.mpr <| not_or.mpr ⟨Ne.symm hc, hn⟩
      rw [commaPositions, if_neg hc]
      rcases hi (pos + 1) with ⟨hn, hp⟩ | ⟨u, v, rfl, hn, hp⟩
      · exact .inl ⟨cons hn, hp⟩
      · have hlen : pos + 1 + u.length = pos + (c :: u).length := by
          rw [List.length_cons]
          omega
        exact .inr ⟨c :: u, v, rfl, cons hn, hlen ▸ hp⟩

theorem next_position (pos : Nat) (l : Bytes) : ∃ u v, l = u ++ v ∧ 44 ∉ u ∧
    (commaPositions pos l ++ [castInt (pos + l.length)])[0]? = some (castInt (pos + u.length)) := by
  rcases commaPositions_cases pos l with ⟨hn, hp⟩ | ⟨u, v, rfl, hn, hp⟩
  · exact ⟨l, [], (List.append_nil l).symm, hn, by simp [hp]⟩
  · exact ⟨u, 44 :: v, rfl, hn, by simp [hp]⟩

theorem not_mem_between {pre u v : Bytes} (hn : 44 ∉ u) (ha : pre.length ≤ a)
    (hb : b ≤ (pre ++ u).length) : 44 ∉ ((pre ++ u ++ v).drop a).take (b - a) := by
  rw [← List.drop_take, List.take_append_of_le_length hb, List.drop_take,
    List.drop_append, List.drop_eq_nil_of_le ha, List.nil_append]
  exact fun h => hn <| List.mem_of_mem_drop <| List.mem_of_mem_take h

theorem not_mem_field {sv : Bytes} (h : (ofLine line).field i = .ok sv) (hi : i < 2) : 44 ∉ sv := by
  rw [ofLine] at h
  generalize dropCarriageReturn line = l at h
  obtain ⟨a, b, ha, hb, hab, rfl⟩ := field_eq_ok h
  obtain rfl | rfl : i = 0 ∨ i = 1 := by omega
  case inl =>
    obtain ⟨u, v, hl, hn, hp⟩ := next_position 0 l
    simp only [List.cons_append, List.getElem?_cons_succ, zero_add] at hb hp
    have hub := castInt_le_self u.length
    rw [← Option.some.inj (hb.symm.trans hp)] at hub
    have hf : 44 ∉ (([] ++ u ++ v).drop a).take (b - a) :=
      not_mem_between hn (Nat.zero_le a) (by simpa using hub)
    rwa [List.nil_append, ← hl] at hf
  case inr =>
    rcases commaPositions_cases 0 l with ⟨_, hp⟩ | ⟨u, w, hl, hn, hp⟩
    case inl => simp [hp] at hb
    case inr =>
      obtain ⟨u', v, hw, hn', hp'⟩ := next_position (u.length + 1) w
      have hlen : l.length = u.length + 1 + w.length := by
        simp [hl]
        omega
      rw [hp, hlen] at ha hb
      simp only [List.cons_append, List.getElem?_cons_succ, zero_add, List.getElem?_cons_zero] at ha hb
      have hb := Option.some.inj (hb.symm.trans hp')
      have ha := Option.some.inj ha
      by_cases hu : u.length < 2 ^ 31
      case pos =>
        rw [castInt_eq hu] at ha
        have hub := hb ▸ castInt_le_self (u.length + 1 + u'.length)
        have hl' : l = u ++ [44] ++ u' ++ v := by simp [hl, hw]
        rw [hl']
        exact not_mem_between hn' (by simp; omega) (by simp; omega)
      case neg =>
        have hlt := hb ▸ castInt_lt (u.length + 1 + u'.length)
        have hf : 44 ∉ (([] ++ u ++ 44 :: w).drop a).take (b - a) :=
          not_mem_between hn (Nat.zero_le a) (by simp; omega)
        exact hl ▸ hf

end CSVRow
