import Mathlib.Data.List.Sort
import Mathlib.Data.List.Count
import Mathlib.Data.Finset.Max

/-! Queues that give out an element of least key, as std::priority_queue does for a
comparator that compares keys the other way. -/
namespace DistributedME.Library

/-- The elements in the order in which they will be given out. -/
structure PriorityQueue {α κ : Type*} [LinearOrder κ] (key : α → κ) where
  items : List α
  sorted : items.Pairwise fun a b => key a ≤ key b

namespace PriorityQueue
variable {α κ : Type*} [LinearOrder κ] {key : α → κ}

def empty : PriorityQueue key := ⟨[], .nil⟩

/-- Insert behind every element of the same key: a new element never displaces the top
unless its key is strictly less. -/
def insertItem (key : α → κ) (a : α) (items : List α) : List α :=
  items.orderedInsert (fun a b => key a < key b) a

theorem insertItem_perm (a : α) (items : List α) :
    (insertItem key a items).Perm (a :: items) := List.perm_orderedInsert _ a items

theorem insertItem_cons (a b : α) (items : List α) : insertItem key a (b :: items) =
    if key a < key b then a :: b :: items else b :: insertItem key a items := rfl

theorem insertItem_sorted (a : α) {items : List α}
    (h : items.Pairwise fun a b => key a ≤ key b) :
    (insertItem key a items).Pairwise fun a b => key a ≤ key b := by
  induction items with
  | nil => exact List.pairwise_singleton _ _
  | cons b items ih =>
    obtain ⟨hb, h⟩ := List.pairwise_cons.mp h
    rw [insertItem_cons]
    split_ifs with hab
    · refine List.pairwise_cons.mpr ⟨fun c hc => ?_, List.pairwise_cons.mpr ⟨hb, h⟩⟩
      rcases List.mem_cons.mp hc with rfl | hc
      · exact hab.le
      · exact hab.le.trans (hb c hc)
    · refine List.pairwise_cons.mpr ⟨fun c hc => ?_, ih h⟩
      rcases List.mem_cons.mp ((insertItem_perm a items).mem_iff.mp hc) with rfl | hc
      · exact not_lt.mp hab
      · exact hb c hc

def push (q : PriorityQueue key) (a : α) : PriorityQueue key :=
  ⟨insertItem key a q.items, insertItem_sorted a q.sorted⟩

def top? (q : PriorityQueue key) : Option α := q.items.head?

def pop (q : PriorityQueue key) : PriorityQueue key := ⟨q.items.tail, q.sorted.tail⟩

@[simp] theorem items_empty : (empty : PriorityQueue key).items = [] := rfl

theorem push_perm (q : PriorityQueue key) (a : α) : (q.push a).items.Perm (a :: q.items) :=
  insertItem_perm a q.items

theorem mem_push {q : PriorityQueue key} {a b : α} :
    b ∈ (q.push a).items ↔ b = a ∨ b ∈ q.items := by
  rw [(q.push_perm a).mem_iff, List.mem_cons]

theorem countP_push (q : PriorityQueue key) (a : α) (p : α → Bool) :
    (q.push a).items.countP p = q.items.countP p + if p a then 1 else 0 := by
  rw [(q.push_perm a).countP_eq, List.countP_cons]

theorem length_push (q : PriorityQueue key) (a : α) :
    (q.push a).items.length = q.items.length + 1 := (q.push_perm a).length_eq

/-- The top has the least key. -/
theorem top_le {q : PriorityQueue key} {a : α} {rest : List α} (h : q.items = a :: rest)
    {b : α} (hb : b ∈ q.items) : key a ≤ key b := by
  rw [h] at hb
  rcases List.mem_cons.mp hb with rfl | hb
  · exact le_rfl
  · exact (List.pairwise_cons.mp (h ▸ q.sorted)).1 b hb

/-- A push changes the top exactly when its key is strictly less. -/
theorem push_of_cons {q : PriorityQueue key} {a : α} {rest : List α} (h : q.items = a :: rest)
    (b : α) : (q.push b).items =
      if key b < key a then b :: a :: rest else a :: insertItem key b rest := by
  change insertItem key b q.items = _
  rw [h, insertItem_cons]

/-- A list is no rearrangement of elements of lesser keys, one for each of its own. -/
theorem eq_nil_of_swaps {swaps : List (α × α)} (hlt : ∀ w ∈ swaps, key w.2 < key w.1)
    (h : (swaps.map Prod.fst).Perm (swaps.map Prod.snd)) : swaps = [] := by
  classical
  by_contra hne
  obtain ⟨w, hw, hmax⟩ := swaps.toFinset.exists_max_image (fun w => key w.2)
    (List.toFinset_nonempty_iff _ |>.mpr hne)
  rw [List.mem_toFinset] at hw
  have hmem : w.1 ∈ swaps.map Prod.snd := h.mem_iff.mp (List.mem_map_of_mem hw)
  obtain ⟨v, hv, hvw⟩ := List.mem_map.mp hmem
  have hle := hmax v (List.mem_toFinset.mpr hv)
  rw [hvw] at hle
  exact absurd (hlt w hw) (not_lt.mpr hle)

end PriorityQueue
end DistributedME.Library
