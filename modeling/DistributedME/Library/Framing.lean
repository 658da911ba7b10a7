import Mathlib.Data.List.Basic

/-! Codes whose words say themselves where they end, and how to split a sequence of words. -/
namespace DistributedME.Library

/-- Words of symbols β for the valid elements of α. A word is recognised at the front of any
sequence of symbols, and only words are. -/
structure Code (α β : Type*) where
  valid : α → Prop
  encode : α → List β
  decode : List β → Option α
  encode_ne_nil : ∀ a, encode a ≠ []
  decode_append : ∀ a rest, valid a → decode (encode a ++ rest) = some a
  prefix_of_decode : ∀ l a, decode l = some a → valid a ∧ encode a <+: l

namespace Code
variable {α β : Type*} (C : Code α β)

/-- The words of several elements one after another. -/
def encodeAll (as : List α) : List β := as.flatMap C.encode

@[simp] theorem encodeAll_nil : C.encodeAll [] = [] := rfl

@[simp] theorem encodeAll_cons (a : α) (as : List α) :
    C.encodeAll (a :: as) = C.encode a ++ C.encodeAll as := List.flatMap_cons ..

@[simp] theorem encodeAll_append (as bs : List α) :
    C.encodeAll (as ++ bs) = C.encodeAll as ++ C.encodeAll bs := List.flatMap_append

theorem length_encode_pos (a : α) : 0 < (C.encode a).length :=
  List.length_pos_iff.mpr (C.encode_ne_nil a)

theorem encodeAll_eq_nil {as : List α} (h : C.encodeAll as = []) : as = [] := by
  cases as with
  | nil => rfl
  | cons a as => exact absurd (List.append_eq_nil_iff.mp h).1 (C.encode_ne_nil a)

/-- Fewer elements have fewer symbols. -/
theorem eq_of_prefix_of_length_le {as bs : List α} (h : as <+: bs)
    (hl : (C.encodeAll bs).length ≤ (C.encodeAll as).length) : as = bs := by
  obtain ⟨cs, rfl⟩ := h
  rw [encodeAll_append, List.length_append] at hl
  have hcs : C.encodeAll cs = [] := List.eq_nil_of_length_eq_zero (by omega)
  rw [C.encodeAll_eq_nil hcs, List.append_nil]

/-- Decode words from the front until they have used up n symbols. The last one may go
beyond. -/
def split (data : List β) (n : ℕ) : Option (List α) :=
  if 0 < n then
    (C.decode data).bind fun a =>
      (split (data.drop (C.encode a).length) (n - (C.encode a).length)).map (a :: ·)
  else some []
termination_by n
decreasing_by
  have := C.length_encode_pos a
  omega

/-- What is found are words at the front. -/
theorem encodeAll_of_split {data : List β} {n : ℕ} {as : List α} (h : C.split data n = some as) :
    (∀ a ∈ as, C.valid a) ∧ C.encodeAll as <+: data ∧ n ≤ (C.encodeAll as).length := by
  fun_induction C.split data n generalizing as with
  | case1 data n hn ih =>
    obtain ⟨a, ha, h⟩ := Option.bind_eq_some_iff.mp h
    obtain ⟨as, has, rfl⟩ := Option.map_eq_some_iff.mp h
    obtain ⟨hvalid, rest, rfl⟩ := C.prefix_of_decode _ _ ha
    obtain ⟨hvalids, hprefix, hle⟩ := ih a has
    rw [List.drop_left] at hprefix
    refine ⟨List.forall_mem_cons.mpr ⟨hvalid, hvalids⟩, ?_, ?_⟩
    · rw [encodeAll_cons]
      exact (List.prefix_append_right_inj _).mpr hprefix
    · rw [encodeAll_cons, List.length_append]
      omega
  | case2 data n hn =>
    cases h
    exact ⟨List.forall_mem_nil _, List.nil_prefix, by omega⟩

/-- Words are found if they use up exactly n symbols. -/
theorem split_encodeAll {as : List α} (h : ∀ a ∈ as, C.valid a) (beyond : List β) :
    C.split (C.encodeAll as ++ beyond) (C.encodeAll as).length = some as := by
  induction as with
  | nil =>
    rw [split]
    exact if_neg (Nat.lt_irrefl 0)
  | cons a as ih =>
    obtain ⟨ha, has⟩ := List.forall_mem_cons.mp h
    have hpos := C.length_encode_pos a
    rw [split, encodeAll_cons, List.length_append, if_pos (by omega), List.append_assoc,
      C.decode_append a _ ha, Option.bind_some, List.drop_left, Nat.add_sub_cancel_left, ih has]
    rfl

/-- Splitting stays within n symbols just when these are words, and then finds them. -/
theorem split_eq_some_iff {data beyond : List β} {as : List α} :
    C.split (data ++ beyond) data.length = some as ∧ (C.encodeAll as).length ≤ data.length ↔
      (∀ a ∈ as, C.valid a) ∧ data = C.encodeAll as := by
  constructor
  · rintro ⟨h, hle⟩
    obtain ⟨hvalid, hprefix, hge⟩ := C.encodeAll_of_split h
    refine ⟨hvalid, ?_⟩
    have htake := List.prefix_iff_eq_take.mp hprefix
    rw [htake, Nat.le_antisymm hle hge, List.take_left]
  · rintro ⟨hvalid, rfl⟩
    exact ⟨C.split_encodeAll hvalid beyond, Nat.le_refl _⟩

end Code
end DistributedME.Library
