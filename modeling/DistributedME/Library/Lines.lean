import Mathlib.Data.List.Basic

/-! Texts that consist of lines, each ended by a separator. -/
namespace DistributedME.Library.Lines
variable {α : Type*}

def text (sep : α) (lines : List (List α)) : List α := lines.flatMap (· ++ [sep])

@[simp] theorem text_nil (sep : α) : text sep [] = [] := rfl

@[simp] theorem text_cons (sep : α) (line : List α) (lines : List (List α)) :
    text sep (line :: lines) = line ++ sep :: text sep lines := by simp [text]

@[simp] theorem text_append (sep : α) (lines lines' : List (List α)) :
    text sep (lines ++ lines') = text sep lines ++ text sep lines' := List.flatMap_append

/-- The last line may have no separator at its end. -/
theorem intercalate_concat (sep : α) (lines : List (List α)) (line : List α) :
    [sep].intercalate (lines ++ [line]) = text sep lines ++ line := by
  induction lines with
  | nil => simp
  | cons first lines ih =>
    rw [List.cons_append, List.intercalate_cons_of_ne_nil (by simp), ih, text_cons]
    simp

/-- The last line that is not blank. -/
def last (lines : List (List α)) : Option (List α) := (lines.filter (· ≠ [])).getLast?

@[simp] theorem last_nil : last ([] : List (List α)) = none := rfl

theorem last_append (lines lines' : List (List α)) :
    last (lines ++ lines') = (last lines').or (last lines) := by
  rw [last, List.filter_append, List.getLast?_append]
  rfl

theorem last_singleton {line : List α} (h : line ≠ []) : last [line] = some line := by
  simp [last, h]

theorem last_cons (line : List α) (lines : List (List α)) :
    last (line :: lines) = (last lines).or (if line = [] then none else some line) := by
  rw [← List.singleton_append, last_append]
  split_ifs with h
  · rw [h]
    rfl
  · rw [last_singleton h]

theorem last_eq_none_iff {lines : List (List α)} :
    last lines = none ↔ ∀ line ∈ lines, line = [] := by
  simp [last]

theorem last_concat (lines : List (List α)) {line : List α} (h : line ≠ []) :
    last (lines ++ [line]) = some line := by
  rw [last_append, last_singleton h, Option.some_or]

theorem last_of_forall_ne_nil {lines : List (List α)} (h : ∀ line ∈ lines, line ≠ []) :
    last lines = lines.getLast? := by
  rw [last, List.filter_eq_self.mpr fun line hline => decide_eq_true (h line hline)]

/-- What is written at once: a line, or a line without its separator. -/
def IsPiece (sep : α) (room : ℕ) (piece : List α) : Prop :=
  piece.length ≤ room ∧ (sep ∉ piece ∨ ∃ line, sep ∉ line ∧ piece = line ++ [sep])

/-- The end of a piece is a piece, and what comes before it has no separator. -/
theorem IsPiece.of_append {sep : α} {room : ℕ} {x y : List α} (h : IsPiece sep room (x ++ y))
    (hy : y ≠ []) : sep ∉ x ∧ IsPiece sep room y := by
  obtain ⟨hlen, hsep⟩ := h
  rw [List.length_append] at hlen
  rcases hsep with hsep | ⟨line, hline, heq⟩
  · rw [List.mem_append, not_or] at hsep
    exact ⟨hsep.1, by omega, .inl hsep.2⟩
  · obtain ⟨y, b, rfl⟩ := List.eq_nil_or_concat' y |>.resolve_left hy
    rw [← List.append_assoc] at heq
    obtain ⟨rfl, hb⟩ := List.append_inj' heq rfl
    rw [List.mem_append, not_or] at hline
    exact ⟨hline.1, by omega, .inr ⟨y, hline.2, by rw [hb]⟩⟩

theorem IsPiece.append {sep : α} {room : ℕ} {x y : List α} (hy : IsPiece sep room y) (hx : sep ∉ x)
    (hlen : (x ++ y).length ≤ room) : IsPiece sep room (x ++ y) := by
  refine ⟨hlen, hy.2.imp (fun hsep => ?_) ?_⟩
  · exact List.mem_append.not.mpr (not_or.mpr ⟨hx, hsep⟩)
  · rintro ⟨line, hline, rfl⟩
    exact ⟨x ++ line, List.mem_append.not.mpr (not_or.mpr ⟨hx, hline⟩),
      (List.append_assoc ..).symm⟩

variable [DecidableEq α]

/-- The pieces between separators have none of their own, and are made of the text. -/
theorem mem_of_mem_splitOn {sep a : α} {l piece : List α} (hp : piece ∈ l.splitOn sep)
    (ha : a ∈ piece) : a ≠ sep ∧ a ∈ l := by
  induction l generalizing piece with
  | nil =>
    rw [List.splitOn_nil, List.mem_singleton] at hp
    exact absurd (hp ▸ ha) List.not_mem_nil
  | cons b l ih =>
    rw [List.splitOn_cons_eq_if_modifyHead] at hp
    obtain ⟨first, pieces, hl⟩ := List.exists_cons_of_ne_nil (List.splitOn_ne_nil sep l)
    rw [hl] at hp ih
    split_ifs at hp with hb
    · rcases List.mem_cons.mp hp with rfl | hp
      · exact absurd ha List.not_mem_nil
      · exact (ih hp ha).imp_right (List.mem_cons_of_mem b)
    · rcases List.mem_cons.mp hp with rfl | hp
      · rcases List.mem_cons.mp ha with rfl | ha
        · exact ⟨by simpa using hb, List.mem_cons_self⟩
        · exact (ih List.mem_cons_self ha).imp_right (List.mem_cons_of_mem b)
      · exact (ih (List.mem_cons_of_mem first hp) ha).imp_right (List.mem_cons_of_mem b)

/-- Split off what comes before a separator, with it, but not more than there is room for. -/
def takeLine (sep : α) : ℕ → List α → List α × List α
  | 0, l => ([], l)
  | _ + 1, [] => ([], [])
  | room + 1, a :: l =>
    if a = sep then ([a], l)
    else
      let (line, rest) := takeLine sep room l
      (a :: line, rest)

theorem takeLine_append {sep : α} {line : List α} (h : sep ∉ line) (rest : List α) {room : ℕ}
    (hroom : line.length < room) :
    takeLine sep room (line ++ sep :: rest) = (line ++ [sep], rest) := by
  induction line generalizing room with
  | nil =>
    obtain ⟨room, rfl⟩ := Nat.exists_eq_add_one_of_ne_zero (Nat.ne_of_gt hroom)
    exact if_pos rfl
  | cons a line ih =>
    obtain ⟨room, rfl⟩ := Nat.exists_eq_add_one_of_ne_zero (Nat.ne_zero_of_lt hroom)
    obtain ⟨ha, hline⟩ := List.ne_and_not_mem_of_not_mem_cons h
    rw [List.cons_append, takeLine, if_neg (Ne.symm ha), ih hline (Nat.lt_of_succ_lt_succ hroom)]
    rfl

theorem takeLine_of_notMem {sep : α} {line : List α} (h : sep ∉ line) {room : ℕ}
    (hroom : line.length ≤ room) : takeLine sep room line = (line, []) := by
  induction line generalizing room with
  | nil => cases room <;> rfl
  | cons a line ih =>
    obtain ⟨room, rfl⟩ := Nat.exists_eq_add_one_of_ne_zero (Nat.ne_of_gt
      (Nat.lt_of_lt_of_le (Nat.succ_pos line.length) hroom))
    obtain ⟨ha, hline⟩ := List.ne_and_not_mem_of_not_mem_cons h
    rw [takeLine, if_neg (Ne.symm ha), ih hline (Nat.le_of_succ_le_succ hroom)]

theorem takeLine_length (sep : α) (room : ℕ) (l : List α) :
    (takeLine sep room l).1.length + (takeLine sep room l).2.length = l.length := by
  fun_induction takeLine sep room l with
  | case1 l => simp
  | case2 room => rfl
  | case3 room l => exact Nat.add_comm 1 _
  | case4 room a l h line rest heq ih =>
    rw [heq] at ih
    simp only [List.length_cons] at ih ⊢
    omega

theorem takeLine_ne_nil (sep : α) {room : ℕ} (hroom : 0 < room) {l : List α} (h : l ≠ []) :
    (takeLine sep room l).1 ≠ [] := by
  obtain ⟨room, rfl⟩ := Nat.exists_eq_add_one_of_ne_zero (Nat.ne_of_gt hroom)
  obtain ⟨a, l, rfl⟩ := List.exists_cons_of_ne_nil h
  rw [takeLine]
  split_ifs <;> simp

theorem takeLine_of_full {sep : α} {l : List α} (h : sep ∉ l) (rest : List α) :
    takeLine sep l.length (l ++ rest) = (l, rest) := by
  induction l with
  | nil => rfl
  | cons a l ih =>
    obtain ⟨ha, hl⟩ := List.ne_and_not_mem_of_not_mem_cons h
    rw [List.length_cons, List.cons_append, takeLine, if_neg (Ne.symm ha), ih hl]

/-- All that a reader gets which reads up to the next separator again and again. There must be
room for one element. -/
def chunks (sep : α) (room : ℕ) (h : 0 < room) (l : List α) : List (List α) :=
  if hl : l = [] then []
  else
    have : (takeLine sep room l).2.length < l.length := by
      have := takeLine_length sep room l
      have := List.length_pos_iff.mpr (takeLine_ne_nil sep h hl)
      omega
    (takeLine sep room l).1 :: chunks sep room h (takeLine sep room l).2
termination_by l.length

section chunks
variable {sep : α} {room : ℕ} {hroom : 0 < room}

@[simp] theorem chunks_nil : chunks sep room hroom [] = [] := by
  rw [chunks, dif_pos rfl]

theorem chunks_of_ne_nil {l : List α} (h : l ≠ []) : chunks sep room hroom l =
    (takeLine sep room l).1 :: chunks sep room hroom (takeLine sep room l).2 := by
  rw [chunks, dif_neg h]

theorem chunks_line_append {line : List α} (h : sep ∉ line) (hlen : line.length < room)
    (rest : List α) : chunks sep room hroom (line ++ sep :: rest) =
      (line ++ [sep]) :: chunks sep room hroom rest := by
  rw [chunks_of_ne_nil (by simp), takeLine_append h rest hlen]

theorem chunks_sep_cons (rest : List α) :
    chunks sep room hroom (sep :: rest) = [sep] :: chunks sep room hroom rest :=
  chunks_line_append List.not_mem_nil hroom rest

theorem chunks_of_notMem {line : List α} (h : sep ∉ line) (hne : line ≠ [])
    (hlen : line.length ≤ room) : chunks sep room hroom line = [line] := by
  rw [chunks_of_ne_nil hne, takeLine_of_notMem h hlen, chunks_nil]

theorem chunks_full {line : List α} (h : sep ∉ line) (hlen : line.length = room) (rest : List α) :
    chunks sep room hroom (line ++ rest) = line :: chunks sep room hroom rest := by
  have hne : line ≠ [] := List.ne_nil_of_length_pos (hlen ▸ hroom)
  have hline := takeLine_of_full h rest
  rw [hlen] at hline
  rw [chunks_of_ne_nil (List.append_ne_nil_of_left_ne_nil hne rest), hline]

theorem chunks_text_append {lines : List (List α)}
    (h : ∀ line ∈ lines, sep ∉ line ∧ line.length < room) (rest : List α) :
    chunks sep room hroom (text sep lines ++ rest) =
      lines.map (· ++ [sep]) ++ chunks sep room hroom rest := by
  induction lines with
  | nil => rfl
  | cons line lines ih =>
    obtain ⟨⟨hline, hlen⟩, hlines⟩ := List.forall_mem_cons.mp h
    rw [text_cons, List.append_assoc, List.cons_append, chunks_line_append hline hlen, ih hlines,
      List.map_cons, List.cons_append]

theorem chunks_text {lines : List (List α)}
    (h : ∀ line ∈ lines, sep ∉ line ∧ line.length < room) :
    chunks sep room hroom (text sep lines) = lines.map (· ++ [sep]) := by
  rw [← List.append_nil (text sep lines), chunks_text_append h, chunks_nil, List.append_nil]

/-- A reader gets no more chunks than were written, and one more from a line that was begun
before. -/
theorem length_chunks_le {pieces : List (List α)} (h : ∀ piece ∈ pieces, IsPiece sep room piece) :
    (chunks sep room hroom pieces.flatten).length ≤ pieces.length ∧
      ∀ begun : List α, sep ∉ begun → begun.length ≤ room →
        (chunks sep room hroom (begun ++ pieces.flatten)).length ≤ pieces.length + 1 := by
  induction pieces with
  | nil =>
    refine ⟨by simp, fun begun hsep hlen => ?_⟩
    rw [List.flatten_nil, List.append_nil]
    by_cases hnil : begun = []
    · simp [hnil]
    · simp [chunks_of_notMem hsep hnil hlen]
  | cons piece pieces ih =>
    obtain ⟨hpiece, hpieces⟩ := List.forall_mem_cons.mp h
    obtain ⟨hall, hbegun⟩ := ih hpieces
    -- a piece ends the chunk it is in, or begins one for the next piece
    have hstep {p : List α} (hp : IsPiece sep room p) :
        (chunks sep room hroom (p ++ pieces.flatten)).length ≤ pieces.length + 1 := by
      obtain ⟨hlen, hsep | ⟨line, hline, rfl⟩⟩ := hp
      · exact hbegun p hsep hlen
      · rw [List.length_append, List.length_singleton] at hlen
        rw [List.append_assoc, List.singleton_append,
          chunks_line_append hline (Nat.lt_of_succ_le hlen), List.length_cons]
        exact Nat.succ_le_succ hall
    rw [List.flatten_cons, List.length_cons]
    refine ⟨hstep hpiece, fun begun hsep hlen => ?_⟩
    rw [← List.append_assoc]
    by_cases hfits : (begun ++ piece).length ≤ room
    · exact Nat.le_succ_of_le (hstep (hpiece.append hsep hfits))
    · -- the chunk is full before the piece ends
      rw [List.length_append] at hfits
      obtain ⟨front, back, rfl, hfront⟩ :
          ∃ front back, piece = front ++ back ∧ front.length = room - begun.length :=
        ⟨_, _, (List.take_append_drop (room - begun.length) piece).symm,
          List.length_take_of_le (by omega)⟩
      rw [List.length_append] at hfits
      have hback : back ≠ [] := List.ne_nil_of_length_pos (by omega)
      obtain ⟨hsep', hpiece⟩ := hpiece.of_append hback
      have hfull : (begun ++ front).length = room := by
        rw [List.length_append]
        omega
      have hjoin : begun ++ (front ++ back) ++ pieces.flatten =
          begun ++ front ++ (back ++ pieces.flatten) := by simp only [List.append_assoc]
      rw [hjoin, chunks_full (List.mem_append.not.mpr (not_or.mpr ⟨hsep, hsep'⟩)) hfull,
        List.length_cons]
      exact Nat.succ_le_succ (hstep hpiece)

/-- A reader gets fewer chunks than were written if a line was begun and not ended before the
next piece was written. -/
theorem length_chunks_lt {begun piece : List α} {pieces : List (List α)}
    (hpiece : IsPiece sep room (begun ++ piece)) (h : ∀ piece ∈ pieces, IsPiece sep room piece) :
    (chunks sep room hroom (begun :: piece :: pieces).flatten).length <
      (begun :: piece :: pieces).length := by
  have hle : (chunks sep room hroom ((begun ++ piece) :: pieces).flatten).length ≤ _ :=
    (length_chunks_le (List.forall_mem_cons.mpr ⟨hpiece, h⟩)).1
  rw [List.flatten_cons, List.append_assoc] at hle
  exact Nat.lt_succ_of_le hle

end chunks

end DistributedME.Library.Lines
