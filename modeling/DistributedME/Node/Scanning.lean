import DistributedME.Node.Texts

/-! The conversions of sscanf that the readers of files use. -/
namespace DistributedME.Node

def space : UInt8 := 32

/-- The word that follows white space, and what comes after it. -/
def scanWord (s : Bytes) : Option (Bytes × Bytes) :=
  let s := s.dropWhile isSpace
  if s = [] then none else some (s.takeWhile (!isSpace ·), s.dropWhile (!isSpace ·))

/-- The number that follows white space, and what comes after it. -/
def scanInt (s : Bytes) : Option (ℤ × Bytes) :=
  let s := s.dropWhile isSpace
  let digits := if s.head? = some minus ∨ s.head? = some plus then s.tail else s
  if digits.takeWhile isDigit = [] then none
  else
    let value : ℤ := digitsValue digits
    some (if s.head? = some minus then -value else value, digits.dropWhile isDigit)

/-- A conversion, and what it does with the variables: %s stores a word in an array of chars of
the given size, %d stores an int. -/
inductive Conversion (σ : Type*) where
  | s (size : ℕ) (store : σ → Bytes → σ)
  | d (store : σ → Int32 → σ)

/-- The conversions from the first one that fails on store nothing. The format has one space
between any two of them, which stands for any white space. There is no value where a word is
too long for its array or a number is out of the range of int. -/
def sscanf {σ : Type*} : List (Conversion σ) → Bytes → σ → Option σ
  | [], _, v => some v
  | .s size store :: conversions, text, v =>
    match scanWord text with
    | none => some v
    | some (word, rest) =>
      if word.length < size then sscanf conversions rest (store v word) else none
  | .d store :: conversions, text, v =>
    match scanInt text with
    | none => some v
    | some (value, rest) =>
      if -2 ^ 31 ≤ value ∧ value < 2 ^ 31 then
        sscanf conversions rest (store v (Int32.ofInt value))
      else none

/-- What %s can read as a whole. -/
structure IsWord (word : Bytes) : Prop where
  ne_nil : word ≠ []
  isSpace : ∀ b ∈ word, isSpace b = false

theorem isWord_of_all {word : Bytes} (hne : word ≠ []) (h : word.all (!isSpace ·) = true) :
    IsWord word :=
  ⟨hne, fun b hb => by simpa using List.all_eq_true.mp h b hb⟩

theorem IsWord.newline_notMem {word : Bytes} (h : IsWord word) : newline ∉ word := by
  intro hmem
  cases h.isSpace newline hmem

/-- A word that is read ends here. -/
def Ends (rest : Bytes) : Prop := ∀ b ∈ rest.head?, isSpace b = true

theorem ends_nil : Ends [] := fun _ hb => nomatch hb

theorem ends_space (rest : Bytes) : Ends (space :: rest) := by
  rintro _ ⟨⟩
  rfl

theorem ends_newline (rest : Bytes) : Ends (newline :: rest) := by
  rintro _ ⟨⟩
  rfl

theorem scanWord_append {word : Bytes} (h : IsWord word) {rest : Bytes} (hrest : Ends rest) :
    scanWord (word ++ rest) = some (word, rest) := by
  obtain ⟨b, word, rfl⟩ := List.exists_cons_of_ne_nil h.ne_nil
  have hskip : (b :: word ++ rest).dropWhile isSpace = b :: word ++ rest :=
    List.dropWhile_cons_of_neg (by rw [h.isSpace b List.mem_cons_self]; exact Bool.false_ne_true)
  have hword : ∀ c ∈ b :: word, (!isSpace c) = true := fun c hc => by rw [h.isSpace c hc]; rfl
  have hstop : rest.takeWhile (!isSpace ·) = [] ∧ rest.dropWhile (!isSpace ·) = rest := by
    cases rest with
    | nil => exact ⟨rfl, rfl⟩
    | cons c rest =>
      have hc := hrest c rfl
      exact ⟨List.takeWhile_cons_of_neg (by simp [hc]), List.dropWhile_cons_of_neg (by simp [hc])⟩
  simp only [scanWord, hskip]
  rw [if_neg (by simp), List.takeWhile_append_of_pos hword, List.dropWhile_append_of_pos hword,
    hstop.1, hstop.2, List.append_nil]

theorem scanWord_space (rest : Bytes) : scanWord (space :: rest) = scanWord rest := by
  rw [scanWord, List.dropWhile_cons_of_pos (by decide)]
  rfl

theorem scanInt_space (rest : Bytes) : scanInt (space :: rest) = scanInt rest := by
  rw [scanInt, List.dropWhile_cons_of_pos (by decide)]
  rfl

/-- A number without a sign, perhaps with zeros in front. -/
structure IsNumeral (digits : Bytes) : Prop where
  ne_nil : digits ≠ []
  isDigit : ∀ b ∈ digits, isDigit b = true

theorem isNumeral_toDecimal (x : ℕ) : IsNumeral (toDecimal x) :=
  ⟨toDecimal_ne_nil x, fun _ hb => isDigit_of_mem_toDecimal hb⟩

/-- A numeral that is read ends here. -/
def Stops (rest : Bytes) : Prop := ∀ b ∈ rest.head?, isDigit b = false

theorem stops_nil : Stops [] := fun _ hb => nomatch hb

theorem stops_newline (rest : Bytes) : Stops (newline :: rest) := by
  rintro _ ⟨⟩
  rfl

namespace IsNumeral
variable {digits : Bytes}

theorem notMem (h : IsNumeral digits) {b : UInt8} (hb : Node.isDigit b = false) : b ∉ digits :=
  fun hmem => Bool.false_ne_true (hb.symm.trans (h.isDigit b hmem))

theorem take (h : IsNumeral digits) {count : ℕ} (hpos : 0 < count) :
    IsNumeral (digits.take count) := by
  refine ⟨fun hnil => ?_, fun b hb => h.isDigit b (List.mem_of_mem_take hb)⟩
  exact (List.take_eq_nil_iff.mp hnil).elim (Nat.ne_of_gt hpos) h.ne_nil

theorem drop (h : IsNumeral digits) {count : ℕ} (hlt : count < digits.length) :
    IsNumeral (digits.drop count) :=
  ⟨fun hnil => absurd (List.drop_eq_nil_iff.mp hnil) (Nat.not_le.mpr hlt),
    fun b hb => h.isDigit b (List.mem_of_mem_drop hb)⟩

theorem takeWhile_append (h : IsNumeral digits) {rest : Bytes} (hrest : Stops rest) :
    (digits ++ rest).takeWhile Node.isDigit = digits ∧
      (digits ++ rest).dropWhile Node.isDigit = rest := by
  rw [List.takeWhile_append_of_pos h.isDigit, List.dropWhile_append_of_pos h.isDigit]
  cases rest with
  | nil => exact ⟨List.append_nil _, rfl⟩
  | cons b rest =>
    have hb : ¬ Node.isDigit b = true := Bool.eq_false_iff.mp (hrest b rfl)
    rw [List.takeWhile_cons_of_neg hb, List.dropWhile_cons_of_neg hb, List.append_nil]
    exact ⟨rfl, rfl⟩

theorem digitsValue_append (h : IsNumeral digits) {rest : Bytes} (hrest : Stops rest) :
    digitsValue (digits ++ rest) = digitsValue digits := by
  have hall := (h.takeWhile_append stops_nil).1
  rw [List.append_nil] at hall
  rw [digitsValue, digitsValue, (h.takeWhile_append hrest).1, hall]

/-- No sign and no white space stands in front of a numeral. -/
theorem head (h : IsNumeral digits) (rest : Bytes) :
    (digits ++ rest).dropWhile isSpace = digits ++ rest ∧
      (digits ++ rest).head? ≠ some minus ∧ (digits ++ rest).head? ≠ some plus := by
  obtain ⟨b, digits, rfl⟩ := List.exists_cons_of_ne_nil h.ne_nil
  have hb := h.isDigit b List.mem_cons_self
  refine ⟨List.dropWhile_cons_of_neg ?_, ?_, ?_⟩
  · rw [isSpace_of_isDigit hb]
    exact Bool.false_ne_true
  · rintro ⟨⟩
    cases hb
  · rintro ⟨⟩
    cases hb

theorem scanInt_append (h : IsNumeral digits) {rest : Bytes} (hrest : Stops rest) :
    scanInt (digits ++ rest) = some ((digitsValue digits : ℤ), rest) := by
  obtain ⟨hspace, hminus, hplus⟩ := h.head rest
  obtain ⟨htake, hdrop⟩ := h.takeWhile_append hrest
  simp only [scanInt, hspace, hminus, hplus, or_self, if_false, htake, hdrop,
    h.digitsValue_append hrest, h.ne_nil]

theorem atoi_append (h : IsNumeral digits) (hlt : digitsValue digits < 2 ^ 31) {rest : Bytes}
    (hrest : Stops rest) (hzero : 0 ∉ rest) :
    atoi (digits ++ rest) = some (Int32.ofNat (digitsValue digits)) := by
  obtain ⟨hspace, hminus, hplus⟩ := h.head rest
  have hmem : 0 ∉ digits ++ rest :=
    List.mem_append.not.mpr (not_or.mpr ⟨h.notMem rfl, hzero⟩)
  simp only [atoi, cString_eq hmem, hspace, hminus, hplus, if_false, h.digitsValue_append hrest]
  rw [if_pos (by omega)]
  rfl

/-- More digits make a number greater. -/
theorem digitsValue_lt (h : IsNumeral digits) {more : Bytes} (hmore : IsNumeral more)
    (hpos : 0 < digitsValue (digits ++ more)) :
    digitsValue digits < digitsValue (digits ++ more) := by
  have hall {s : Bytes} (hs : ∀ b ∈ s, Node.isDigit b = true) : s.takeWhile Node.isDigit = s :=
    List.takeWhile_eq_self_iff.mpr hs
  have hgrows (s : Bytes) (value : ℕ) :
      value ≤ s.foldl (fun value b => 10 * value + (b.toNat - 48)) value := by
    induction s generalizing value with
    | nil => exact le_rfl
    | cons b s ih =>
      have := ih (10 * value + (b.toNat - 48))
      rw [List.foldl_cons]
      omega
  obtain ⟨b, more, rfl⟩ := List.exists_cons_of_ne_nil hmore.ne_nil
  have hvalue : digitsValue (digits ++ b :: more) =
      more.foldl (fun value b => 10 * value + (b.toNat - 48))
        (10 * digitsValue digits + (b.toNat - 48)) := by
    rw [digitsValue, hall (List.forall_mem_append.mpr ⟨h.isDigit, hmore.isDigit⟩),
      List.foldl_append, List.foldl_cons, digitsValue, hall h.isDigit]
  have := hgrows more (10 * digitsValue digits + (b.toNat - 48))
  omega

end IsNumeral

theorem scanInt_toString (x : Int32) {rest : Bytes} (hrest : Stops rest) :
    scanInt (toString x ++ rest) = some (x.toInt, rest) := by
  have h := isNumeral_toDecimal x.toInt.natAbs
  have hvalue := digitsValue_toDecimal x.toInt.natAbs
  unfold toString
  split_ifs with hneg
  · obtain ⟨htake, hdrop⟩ := h.takeWhile_append hrest
    have hx : -(x.toInt.natAbs : ℤ) = x.toInt := by omega
    rw [List.cons_append, scanInt, List.dropWhile_cons_of_neg (by decide)]
    simp only [List.head?_cons, true_or, if_true, List.tail_cons, htake, hdrop, h.ne_nil,
      if_false, h.digitsValue_append hrest, hvalue, hx]
  · have hx : (x.toInt.natAbs : ℤ) = x.toInt := by omega
    rw [h.scanInt_append hrest, hvalue, hx]

/-- Another number is read where the last digits are cut off. -/
theorem scanInt_take {x : Int32} (hx : 0 ≤ x.toInt) {count : ℕ} (hpos : 0 < count)
    (hlt : count < (toString x).length) :
    ∃ y : Int32, y ≠ x ∧ scanInt ((toString x).take count) = some (y.toInt, []) := by
  have hdigits : toString x = toDecimal x.toInt.natAbs := if_neg (Int.not_lt.mpr hx)
  have hrange := x.toInt_lt
  have hvalue := digitsValue_toDecimal x.toInt.natAbs
  have hnumeral := isNumeral_toDecimal x.toInt.natAbs
  rw [hdigits] at hlt ⊢
  -- zero has a single digit
  have hnonzero : x.toInt.natAbs ≠ 0 := by
    intro hzero
    have hone : (toDecimal 0).length = 1 := by decide
    rw [hzero] at hlt
    omega
  have hless := (hnumeral.take hpos).digitsValue_lt (hnumeral.drop hlt)
  rw [List.take_append_drop, hvalue] at hless
  have hless := hless (Nat.pos_of_ne_zero hnonzero)
  have hscan := (hnumeral.take hpos).scanInt_append stops_nil
  rw [List.append_nil] at hscan
  have hy : (Int32.ofNat (digitsValue ((toDecimal x.toInt.natAbs).take count))).toInt =
      digitsValue ((toDecimal x.toInt.natAbs).take count) :=
    Int32.toInt_ofNat_of_lt (by omega)
  refine ⟨_, fun heq => ?_, hscan.trans (by rw [hy])⟩
  rw [heq] at hy
  omega

theorem sscanf_word {σ : Type*} {word : Bytes} (h : IsWord word) {rest : Bytes} (hrest : Ends rest)
    {size : ℕ} (hsize : word.length < size) (store : σ → Bytes → σ)
    (conversions : List (Conversion σ)) (v : σ) :
    sscanf (.s size store :: conversions) (word ++ rest) v =
      sscanf conversions rest (store v word) := by
  simp only [sscanf, scanWord_append h hrest]
  exact if_pos hsize

theorem sscanf_space {σ : Type*} (conversions : List (Conversion σ)) (text : Bytes) (v : σ) :
    sscanf conversions (space :: text) v = sscanf conversions text v := by
  cases conversions with
  | nil => rfl
  | cons conversion conversions =>
    cases conversion with
    | s size store => simp only [sscanf, scanWord_space]
    | d store => simp only [sscanf, scanInt_space]

theorem sscanf_int {σ : Type*} {text rest : Bytes} {x : Int32}
    (h : scanInt text = some (x.toInt, rest)) (store : σ → Int32 → σ)
    (conversions : List (Conversion σ)) (v : σ) :
    sscanf (.d store :: conversions) text v = sscanf conversions rest (store v x) := by
  simp only [sscanf, h]
  rw [if_pos ⟨x.le_toInt, x.toInt_lt⟩, Int32.ofInt_toInt]

end DistributedME.Node
