import DistributedME.Library.PriorityQueue
import DistributedME.Packet

/-! MessageQueue: a priority queue of packets that refuses to grow beyond max_size. -/
namespace DistributedME
open Library

def MESSAGE_QUEUE_MAX_SIZE : ℕ := 100

/-- PacketComparator on the two members it compares. -/
def packetComparator (lhs rhs : ℤ × ℤ) : Bool :=
  decide (lhs.1 > rhs.1) || (decide (lhs.1 = rhs.1) && decide (lhs.2 > rhs.2))

/-- The comparator puts the lexicographically greater pair last. -/
theorem packetComparator_iff (lhs rhs : ℤ × ℤ) :
    packetComparator lhs rhs = true ↔ toLex rhs < toLex lhs := by
  simp only [packetComparator, Bool.or_eq_true, Bool.and_eq_true, decide_eq_true_eq,
    Prod.Lex.toLex_lt_toLex]
  omega

def Packet.key (packet : Packet) : ℤ ×ₗ ℤ :=
  toLex (packet.timestamp.toInt, packet.senderId.toInt)

/-- A queue that never holds more than maxSize elements. Two elements of one key keep their
order, which the source leaves to the library. -/
structure MessageQueue {α κ : Type*} [LinearOrder κ] (key : α → κ) (maxSize : ℕ) where
  pq : PriorityQueue key
  size_le : pq.items.length ≤ maxSize

namespace MessageQueue
variable {α κ : Type*} [LinearOrder κ] {key : α → κ} {maxSize : ℕ}

def construct : MessageQueue key maxSize := ⟨.empty, Nat.zero_le _⟩

def size (q : MessageQueue key maxSize) : ℕ := q.pq.items.length

def empty (q : MessageQueue key maxSize) : Bool := q.size == 0

/-- A full queue drops the packet; the answer says whether it was taken. -/
def push (q : MessageQueue key maxSize) (packet : α) : MessageQueue key maxSize × Bool :=
  if h : q.size < maxSize then
    (⟨q.pq.push packet, by rw [PriorityQueue.length_push]; exact h⟩, true)
  else (q, false)

def top? (q : MessageQueue key maxSize) : Option α := q.pq.top?

def pop (q : MessageQueue key maxSize) : MessageQueue key maxSize :=
  ⟨q.pq.pop, (List.tail_sublist _).length_le.trans q.size_le⟩

/-- The packets still to be given out, first one first. -/
def items (q : MessageQueue key maxSize) : List α := q.pq.items

@[simp] theorem items_construct : (construct : MessageQueue key maxSize).items = [] := rfl

@[simp] theorem items_pop (q : MessageQueue key maxSize) : q.pop.items = q.items.tail := rfl

theorem top?_eq_some {q : MessageQueue key maxSize} {a : α} :
    q.top? = some a ↔ ∃ rest, q.items = a :: rest := List.head?_eq_some_iff

theorem push_of_room {q : MessageQueue key maxSize} (h : q.size < maxSize) (a : α) :
    (q.push a).1.items = (q.pq.push a).items := by
  simp [push, h, items]

theorem push_of_full {q : MessageQueue key maxSize} (h : ¬ q.size < maxSize) (a : α) :
    (q.push a).1 = q := by
  simp [push, h]

theorem mem_push {q : MessageQueue key maxSize} {a b : α} (h : b ∈ (q.push a).1.items) :
    b = a ∨ b ∈ q.items := by
  by_cases hroom : q.size < maxSize
  · rw [push_of_room hroom] at h
    exact PriorityQueue.mem_push.mp h
  · rw [push_of_full hroom] at h
    exact .inr h

theorem mem_push_of_room {q : MessageQueue key maxSize} (h : q.size < maxSize) {a b : α} :
    b ∈ (q.push a).1.items ↔ b = a ∨ b ∈ q.items := by
  rw [push_of_room h]
  exact PriorityQueue.mem_push

theorem countP_push_of_room {q : MessageQueue key maxSize} (h : q.size < maxSize) (a : α)
    (p : α → Bool) : (q.push a).1.items.countP p = q.items.countP p + (p a).toNat := by
  rw [push_of_room h, PriorityQueue.countP_push]
  cases p a <;> rfl

theorem countP_push_le (q : MessageQueue key maxSize) (a : α) (p : α → Bool) :
    (q.push a).1.items.countP p ≤ q.items.countP p + (p a).toNat := by
  by_cases hroom : q.size < maxSize
  · exact (countP_push_of_room hroom a p).le
  · rw [push_of_full hroom]
    exact Nat.le_add_right _ _

theorem push_ne_nil (hmax : 0 < maxSize) (q : MessageQueue key maxSize) (a : α) :
    (q.push a).1.items ≠ [] := by
  by_cases hroom : q.size < maxSize
  · rw [push_of_room hroom]
    exact List.ne_nil_of_mem (PriorityQueue.mem_push.mpr (.inl rfl))
  · rw [push_of_full hroom]
    intro hnil
    simp only [size, items] at hroom hnil
    simp [hnil, hmax] at hroom

/-- There is room again after a pop. -/
theorem pop_size_lt {q : MessageQueue key maxSize} {a : α} {rest : List α}
    (h : q.items = a :: rest) : q.pop.size < maxSize := by
  have hle := q.size_le
  have hpop : q.pop.items = rest := by rw [items_pop, h, List.tail_cons]
  simp only [size, items] at hpop h ⊢
  rw [hpop]
  rw [h, List.length_cons] at hle
  omega

theorem top_le {q : MessageQueue key maxSize} {a : α} {rest : List α} (h : q.items = a :: rest)
    {b : α} (hb : b ∈ q.items) : key a ≤ key b := PriorityQueue.top_le h hb

end MessageQueue
end DistributedME
