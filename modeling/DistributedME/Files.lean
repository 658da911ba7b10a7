import DistributedME.Library.Lines
import Mathlib.Data.List.TakeWhile
import Mathlib.Algebra.Order.Ring.Int

/-! Texts, and the two ways in which servers use their files: to append a line and to read the
last one. -/
namespace DistributedME
open Library

abbrev Bytes := List UInt8

def newline : UInt8 := 10
def hash : UInt8 := 35
def comma : UInt8 := 44

/-- The characters of a C string. -/
def cString (buffer : Bytes) : Bytes := buffer.takeWhile (· ≠ 0)

/-- A line that fits into a buffer of the given size, and what is left of the file. -/
def fgets (size : ℕ) (content : Bytes) : Bytes × Bytes := Lines.takeLine newline (size - 1) content

/-- What the buffer holds in the passes of a loop that calls fgets until the file ends. -/
def fgetsAll (size : ℕ) (h : 1 < size) (content : Bytes) : List Bytes :=
  Lines.chunks newline (size - 1) (Nat.sub_pos_of_lt h) content

/-- The loop of _readLastLineOfFile. There is no prev_buffer before the first line that is not
blank. -/
def lastBuffer (content : Bytes) (prevBuffer : Option Bytes) : Option Bytes :=
  if h : content = [] then prevBuffer
  else
    let buffer := fgets 1024 content
    have : buffer.2.length < content.length := by
      have := Lines.takeLine_length newline 1023 content
      have := List.length_pos_iff.mpr (Lines.takeLine_ne_nil newline (by decide : 0 < 1023) h)
      change (Lines.takeLine newline 1023 content).2.length < _
      omega
    if cString buffer.1 = [] then prevBuffer
    else if buffer.1.head? = some newline then lastBuffer buffer.2 prevBuffer
    else lastBuffer buffer.2 (some (cString buffer.1))
termination_by content.length

/-- A file that cannot be opened gives an empty line. There is no value where the source reads
prev_buffer before it has been written. -/
def readLastLineOfFile (file : Option Bytes) : Option Bytes :=
  match file with
  | none => some []
  | some content => (lastBuffer content none).map fun prevBuffer =>
    if prevBuffer.getLast? = some newline then prevBuffer.dropLast else prevBuffer

/-- A file that does not exist is created. -/
def writeToFile (file : Option Bytes) (contentToWrite : Bytes) : Bytes :=
  file.getD [] ++ contentToWrite ++ [newline]

/-- Nothing comes after a delimiter at the end. -/
def splitString (delimiter : UInt8) : Bytes → List Bytes
  | [] => []
  | b :: s =>
    if b = delimiter then [] :: splitString delimiter s
    else
      match splitString delimiter s with
      | [] => [[b]]
      | token :: tokens => (b :: token) :: tokens

/-- The decimal digits of a number. -/
def toDecimal (x : ℕ) : Bytes := (Nat.toDigits 10 x).map fun c => UInt8.ofNat c.toNat

/-- The line that a client appends to a file. -/
def writeLine (id timestamp : ℕ) : Bytes := toDecimal id ++ comma :: toDecimal timestamp

/-- A line that a buffer of _readLastLineOfFile can hold. -/
structure ProperLine (line : Bytes) : Prop where
  newline : newline ∉ line
  zero : 0 ∉ line
  length : line.length ≤ 1022

theorem cString_eq {buffer : Bytes} (h : 0 ∉ buffer) : cString buffer = buffer := by
  refine List.takeWhile_eq_self_iff.mpr fun b hb => ?_
  exact decide_eq_true fun hz => h (hz ▸ hb)

theorem lastBuffer_nil (prevBuffer : Option Bytes) : lastBuffer [] prevBuffer = prevBuffer := by
  rw [lastBuffer]
  rfl

theorem lastBuffer_line {line : Bytes} (h : ProperLine line) (rest : Bytes)
    (prevBuffer : Option Bytes) : lastBuffer (line ++ newline :: rest) prevBuffer =
      lastBuffer rest (if line = [] then prevBuffer else some (line ++ [newline])) := by
  have hroom := h.length
  have hget : fgets 1024 (line ++ newline :: rest) = (line ++ [newline], rest) :=
    Lines.takeLine_append h.newline rest (by omega)
  have hzero : 0 ∉ line ++ [newline] := by
    simp only [List.mem_append, List.mem_singleton, not_or]
    exact ⟨h.zero, by decide⟩
  rw [lastBuffer, dif_neg (by simp)]
  simp only [hget, cString_eq hzero]
  rw [if_neg (by simp)]
  cases line with
  | nil => simp
  | cons b line =>
    have hb : b ≠ newline := fun hb => h.newline (hb ▸ List.mem_cons_self)
    simp [hb]

theorem lastBuffer_text_append {lines : List Bytes} (h : ∀ line ∈ lines, ProperLine line)
    (rest : Bytes) (prevBuffer : Option Bytes) :
    lastBuffer (Lines.text newline lines ++ rest) prevBuffer =
      lastBuffer rest (((Lines.last lines).map (· ++ [newline])).or prevBuffer) := by
  induction lines generalizing prevBuffer with
  | nil => rfl
  | cons line lines ih =>
    obtain ⟨hline, hlines⟩ := List.forall_mem_cons.mp h
    rw [Lines.text_cons, List.append_assoc, List.cons_append, lastBuffer_line hline, ih hlines,
      Lines.last_cons]
    split_ifs <;> cases Lines.last lines <;> rfl

/-- A last line without a newline. -/
theorem lastBuffer_of_notMem {line : Bytes} (h : ProperLine line) (prevBuffer : Option Bytes) :
    lastBuffer line prevBuffer = if line = [] then prevBuffer else some line := by
  split_ifs with hne
  · rw [hne, lastBuffer_nil]
  · have hroom := h.length
    have hget : fgets 1024 line = (line, []) := Lines.takeLine_of_notMem h.newline (by omega)
    have hhead : line.head? ≠ some newline := fun hhead =>
      h.newline (List.mem_of_head? hhead)
    rw [lastBuffer, dif_neg hne]
    simp only [hget, cString_eq h.zero]
    rw [if_neg hne, if_neg hhead, lastBuffer_nil]

/-- The reader finds the last line that is not blank, also when no newline ends it. -/
theorem readLastLineOfFile_text_append {lines : List Bytes} {line : Bytes}
    (h : ∀ line' ∈ lines ++ [line], ProperLine line') :
    readLastLineOfFile (some (Lines.text newline lines ++ line)) = Lines.last (lines ++ [line]) := by
  obtain ⟨hlines, hline⟩ := List.forall_mem_append.mp h
  have hline := hline line List.mem_cons_self
  rw [readLastLineOfFile, lastBuffer_text_append hlines, lastBuffer_of_notMem hline, Option.or_none]
  split_ifs with hne
  · rw [hne, Lines.last_append, Option.map_map]
    refine Eq.trans ?_ Option.map_id'
    congr 1
    funext line
    simp
  · have hlast : line.getLast? ≠ some newline := fun hlast =>
      hline.newline (List.mem_of_getLast? hlast)
    rw [Lines.last_concat lines hne, Option.map_some, if_neg hlast]

theorem readLastLineOfFile_text {lines : List Bytes} (h : ∀ line ∈ lines, ProperLine line) :
    readLastLineOfFile (some (Lines.text newline lines)) = Lines.last lines := by
  have hempty : ProperLine [] := ⟨List.not_mem_nil, List.not_mem_nil, Nat.zero_le _⟩
  have hall : ∀ line' ∈ lines ++ [[]], ProperLine line' := fun line' hline' =>
    (List.mem_append.mp hline').elim (h line') fun hnil => List.mem_singleton.mp hnil ▸ hempty
  have htext := readLastLineOfFile_text_append hall
  rw [List.append_nil, Lines.last_append] at htext
  exact htext

/-- The reader meets its specification on the files with a line that is not blank. -/
theorem readLastLineOfFile_eq_last_iff (content : Bytes) (hzero : 0 ∉ content)
    (hlines : ∀ line ∈ content.splitOn newline, line.length ≤ 1022) :
    readLastLineOfFile (some content) =
        some ((Lines.last (content.splitOn newline)).getD []) ↔
      ∃ line ∈ content.splitOn newline, line ≠ [] := by
  have hproper : ∀ line ∈ content.splitOn newline, ProperLine line := fun line hline =>
    ⟨fun hmem => (Lines.mem_of_mem_splitOn hline hmem).1 rfl,
      fun hmem => hzero (Lines.mem_of_mem_splitOn hline hmem).2, hlines line hline⟩
  have hread : readLastLineOfFile (some content) = Lines.last (content.splitOn newline) := by
    rcases List.eq_nil_or_concat' (content.splitOn newline) with hnil | ⟨lines, line, hconcat⟩
    · exact absurd hnil (List.splitOn_ne_nil newline content)
    · rw [hconcat] at hproper ⊢
      rw [← readLastLineOfFile_text_append hproper, ← Lines.intercalate_concat, ← hconcat,
        List.intercalate_splitOn]
  rw [hread]
  constructor
  · intro h
    by_contra hblank
    have hnone := Lines.last_eq_none_iff.mpr fun line hline =>
      by_contra fun hne => hblank ⟨line, hline, hne⟩
    rw [hnone] at h
    cases h
  · rintro ⟨line, hline, hne⟩
    cases hlast : Lines.last (content.splitOn newline) with
    | none => exact absurd (Lines.last_eq_none_iff.mp hlast line hline) hne
    | some _ => rfl

theorem readLastLineOfFile_eq_last_unended :
    readLastLineOfFile (some [97, newline, 98, newline, newline, 99]) = some [99] :=
  (readLastLineOfFile_eq_last_iff [97, newline, 98, newline, newline, 99] (by decide)
    (by decide)).mpr (by decide)

/-- In a file of blank lines prev_buffer is read and has never been written. -/
theorem readLastLineOfFile_eq_last_fails : ¬ ∀ content : Bytes, 0 ∉ content →
    (∀ line ∈ content.splitOn newline, line.length ≤ 1022) →
    readLastLineOfFile (some content) =
      some ((Lines.last (content.splitOn newline)).getD []) := by
  intro h
  have hblank := h [newline, newline] (by decide) (by decide)
  have hnone : readLastLineOfFile (some (Lines.text newline [[], []])) = none :=
    readLastLineOfFile_text fun line hline => by
      obtain rfl : line = [] := by simpa using hline
      exact ⟨List.not_mem_nil, List.not_mem_nil, Nat.zero_le _⟩
  exact nomatch hnone.symm.trans hblank

/-- Appending adds one line. -/
theorem writeToFile_text (lines : List Bytes) (line : Bytes) :
    writeToFile (some (Lines.text newline lines)) line = Lines.text newline (lines ++ [line]) := by
  simp [writeToFile]

theorem splitString_of_notMem {delimiter : UInt8} {s : Bytes} (h : delimiter ∉ s) (hs : s ≠ []) :
    splitString delimiter s = [s] := by
  induction s with
  | nil => exact absurd rfl hs
  | cons b s ih =>
    obtain ⟨hb, hs⟩ := List.ne_and_not_mem_of_not_mem_cons h
    rw [splitString, if_neg (Ne.symm hb)]
    cases s with
    | nil => rfl
    | cons b' s => rw [ih hs (List.cons_ne_nil _ _)]

theorem splitString_append {delimiter : UInt8} {s : Bytes} (h : delimiter ∉ s) (rest : Bytes) :
    splitString delimiter (s ++ delimiter :: rest) = s :: splitString delimiter rest := by
  induction s with
  | nil => exact if_pos rfl
  | cons b s ih =>
    obtain ⟨hb, hs⟩ := List.ne_and_not_mem_of_not_mem_cons h
    rw [List.cons_append, splitString, if_neg (Ne.symm hb), ih hs]

theorem digit_of_mem_toDecimal {x : ℕ} {b : UInt8} (h : b ∈ toDecimal x) :
    48 ≤ b.toNat ∧ b.toNat ≤ 57 := by
  obtain ⟨c, hc, rfl⟩ := List.mem_map.mp h
  obtain ⟨hlow, hhigh⟩ := Char.isDigit_iff_toNat.mp
    (Nat.isDigit_of_mem_toDigits (by decide) (by decide) hc)
  change 48 ≤ c.toNat at hlow
  change c.toNat ≤ 57 at hhigh
  rw [UInt8.toNat_ofNat']
  omega

theorem notMem_toDecimal {b : UInt8} (h : b.toNat < 48) (x : ℕ) : b ∉ toDecimal x :=
  fun hmem => absurd (digit_of_mem_toDecimal hmem).1 (Nat.not_le.mpr h)

theorem toDecimal_ne_nil (x : ℕ) : toDecimal x ≠ [] :=
  List.map_eq_nil_iff.not.mpr Nat.toDigits_ne_nil

theorem toDecimal_injective {x y : ℕ} (h : toDecimal x = toDecimal y) : x = y := by
  have hchars (z : ℕ) : (toDecimal z).map (fun b => Char.ofNat b.toNat) = Nat.toDigits 10 z := by
    rw [toDecimal, List.map_map]
    refine (List.map_congr_left fun c hc => ?_).trans (List.map_id _)
    obtain ⟨-, hhigh⟩ := Char.isDigit_iff_toNat.mp
      (Nat.isDigit_of_mem_toDigits (by decide) (by decide) hc)
    change c.toNat ≤ 57 at hhigh
    have hsmall : c.toNat % 2 ^ 8 = c.toNat := Nat.mod_eq_of_lt (by omega)
    simp only [Function.comp_apply, UInt8.toNat_ofNat', hsmall, Char.ofNat_toNat, id_eq]
  rw [← Nat.ofDigitChars_ten_toDigits (n := x), ← hchars, h, hchars, Nat.ofDigitChars_ten_toDigits]

theorem length_toDecimal {x : ℕ} (h : x ≤ 2 ^ 31) : (toDecimal x).length ≤ 10 := by
  rw [toDecimal, List.length_map]
  exact (Nat.length_toDigits_le_iff (by decide) (by decide)).mpr (by omega)

theorem writeLine_ne_nil (id timestamp : ℕ) : writeLine id timestamp ≠ [] := by
  simp [writeLine]

theorem notMem_writeLine {b : UInt8} (h : b.toNat < 44) (id timestamp : ℕ) :
    b ∉ writeLine id timestamp := by
  intro hmem
  rcases List.mem_append.mp hmem with hmem | hmem
  · exact notMem_toDecimal (by omega) _ hmem
  · rcases List.mem_cons.mp hmem with rfl | hmem
    · exact absurd h (by decide)
    · exact notMem_toDecimal (by omega) _ hmem

theorem properLine_writeLine {id timestamp : ℕ} (hid : id < 2 ^ 31) (ht : timestamp < 2 ^ 31) :
    ProperLine (writeLine id timestamp) := by
  refine ⟨notMem_writeLine (by decide) _ _, notMem_writeLine (by decide) _ _, ?_⟩
  have := length_toDecimal hid.le
  have := length_toDecimal ht.le
  rw [writeLine, List.length_append, List.length_cons]
  omega

theorem writeLine_injective {id id' timestamp timestamp' : ℕ}
    (h : writeLine id timestamp = writeLine id' timestamp') :
    id = id' ∧ timestamp = timestamp' := by
  have hsplit (i t : ℕ) : splitString comma (writeLine i t) = [toDecimal i, toDecimal t] := by
    rw [writeLine, splitString_append (notMem_toDecimal (by decide) i),
      splitString_of_notMem (notMem_toDecimal (by decide) t) (toDecimal_ne_nil t)]
  have htokens := (hsplit id timestamp).symm.trans ((congrArg _ h).trans (hsplit id' timestamp'))
  simp only [List.cons.injEq, and_true] at htokens
  exact ⟨toDecimal_injective htokens.1, toDecimal_injective htokens.2⟩

/-- A server gets the name of the file and the line back. -/
theorem splitString_request {filename : Bytes} (h : hash ∉ filename) (id timestamp : ℕ) :
    splitString hash (filename ++ hash :: writeLine id timestamp) =
      [filename, writeLine id timestamp] := by
  rw [splitString_append h, splitString_of_notMem (notMem_writeLine (by decide) id timestamp)
    (writeLine_ne_nil id timestamp)]

end DistributedME
