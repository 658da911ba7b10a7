import Mathlib.Logic.Function.Basic
import Mathlib.Data.List.Count
import Mathlib.Tactic.TypeStar
import Mathlib.Algebra.GroupWithZero.Nat

/-! Reliable point-to-point channels: one list of messages in flight for each ordered pair
of parties, oldest first. -/
namespace DistributedME.Library

/-! The parties of small systems have numerals for names. -/

instance (priority := 2000) neZero_one : NeZero 1 := ⟨Nat.one_ne_zero⟩
instance (priority := 2000) neZero_two : NeZero 2 := ⟨Nat.succ_ne_zero 1⟩
instance (priority := 2000) neZero_three : NeZero 3 := ⟨Nat.succ_ne_zero 2⟩

/-- A function that is changed at one place is as it was at the others. -/
theorem update_cases {α β : Type*} [DecidableEq α] {f g : α → β} {a : α} {b : β}
    (h : g = Function.update f a b) (x : α) : x = a ∧ g x = b ∨ g x = f x := by
  rw [h, Function.update_apply]
  split_ifs with hx
  · exact .inl ⟨hx, rfl⟩
  · exact .inr rfl

/-- One entry of a table is replaced. -/
theorem update_update_apply {α β γ : Type*} [DecidableEq α] [DecidableEq β] (f : α → β → γ)
    (a : α) (b : β) (c : γ) (x : α) (y : β) :
    Function.update f a (Function.update (f a) b c) x y = if x = a ∧ y = b then c else f x y := by
  by_cases hx : x = a
  · subst hx
    simp [Function.update_apply]
  · simp [hx]

/-- The column of that entry, and another column. -/
theorem update_update_column {α β γ : Type*} [DecidableEq α] [DecidableEq β] (f : α → β → γ)
    (a : α) (b : β) (c : γ) : (fun x => Function.update f a (Function.update (f a) b c) x b) =
      Function.update (fun x => f x b) a c := by
  funext x
  rw [update_update_apply, Function.update_apply]
  simp only [and_true]

theorem update_update_column_of_ne {α β γ : Type*} [DecidableEq α] [DecidableEq β]
    (f : α → β → γ) (a : α) {b y : β} (c : γ) (h : y ≠ b) :
    (fun x => Function.update f a (Function.update (f a) b c) x y) = fun x => f x y := by
  funext x
  exact (update_update_apply f a b c x y).trans (if_neg fun hxy => h hxy.2)

abbrev Network (ι μ : Type*) := ι → ι → List μ

namespace Network
variable {ι μ : Type*}

def empty : Network ι μ := fun _ _ => []

@[simp] theorem empty_apply (a b : ι) : (empty : Network ι μ) a b = [] := rfl

variable [DecidableEq ι]

/-- Party i hands the messages out k to the channel to k, for every k. -/
def post (net : Network ι μ) (i : ι) (out : ι → List μ) : Network ι μ :=
  fun a b => if a = i then net a b ++ out b else net a b

/-- Replace what is in flight from i to j. -/
def put (net : Network ι μ) (i j : ι) (msgs : List μ) : Network ι μ :=
  fun a b => if a = i ∧ b = j then msgs else net a b

/-- Messages for one receiver only. -/
def only (j : ι) (msgs : List μ) : ι → List μ := fun k => if k = j then msgs else []

theorem post_apply (net : Network ι μ) (i : ι) (out : ι → List μ) (a b : ι) :
    net.post i out a b = net a b ++ if a = i then out b else [] := by
  unfold post
  split <;> simp

@[simp] theorem post_self (net : Network ι μ) (i : ι) (out : ι → List μ) (b : ι) :
    net.post i out i b = net i b ++ out b := by simp [post]

@[simp] theorem post_of_ne (net : Network ι μ) {i a : ι} (out : ι → List μ) (b : ι)
    (h : a ≠ i) : net.post i out a b = net a b := by simp [post, h]

@[simp] theorem put_self (net : Network ι μ) (i j : ι) (msgs : List μ) :
    net.put i j msgs i j = msgs := by simp [put]

theorem put_of_ne (net : Network ι μ) {i j a b : ι} (msgs : List μ) (h : ¬ (a = i ∧ b = j)) :
    net.put i j msgs a b = net a b := by simp [put, h]

@[simp] theorem only_self (j : ι) (msgs : List μ) : only j msgs j = msgs := by simp [only]

@[simp] theorem only_of_ne {j k : ι} (msgs : List μ) (h : k ≠ j) : only j msgs k = [] := by
  simp [only, h]

@[simp] theorem only_nil (j k : ι) : only j ([] : List μ) k = [] := by simp [only]

theorem filterMap_post {ν : Type*} (f : μ → Option ν) (net : Network ι μ) (i : ι)
    (out : ι → List μ) (a b : ι) : (net.post i out a b).filterMap f =
      (net a b).filterMap f ++ if a = i then (out b).filterMap f else [] := by
  rw [post_apply, List.filterMap_append]
  split <;> rfl

@[simp] theorem filterMap_only {ν : Type*} (f : μ → Option ν) (j k : ι) (msgs : List μ) :
    (only j msgs k).filterMap f = only j (msgs.filterMap f) k := by
  unfold only
  split <;> rfl

theorem mem_post {net : Network ι μ} {i : ι} {out : ι → List μ} {a b : ι} {m : μ} :
    m ∈ net.post i out a b ↔ m ∈ net a b ∨ a = i ∧ m ∈ out b := by
  rw [post_apply, List.mem_append]
  split_ifs with h <;> simp [h]

theorem mem_only {j k : ι} {msgs : List μ} {m : μ} : m ∈ only j msgs k ↔ k = j ∧ m ∈ msgs := by
  unfold only
  split_ifs with h <;> simp [h]

theorem mem_append_only {j k : ι} {msgs : List μ} {m m' : μ} :
    m ∈ msgs ++ only j [m'] k ↔ m ∈ msgs ∨ k = j ∧ m = m' := by
  rw [List.mem_append, mem_only, List.mem_singleton]

theorem mem_of_mem_put {net : Network ι μ} {i j a b : ι} {msgs : List μ} {m : μ}
    (h : msgs ⊆ net i j) (hm : m ∈ net.put i j msgs a b) : m ∈ net a b := by
  unfold put at hm
  split_ifs at hm with hab
  · obtain ⟨rfl, rfl⟩ := hab
    exact h hm
  · exact hm

/-- The message at a place of a channel, with what is before and behind it. -/
theorem split_at {msgs : List μ} {place : ℕ} {m : μ} (h : msgs[place]? = some m) :
    ∃ before behind, msgs = before ++ m :: behind ∧
      msgs.eraseIdx place = before ++ behind ∧ before.length = place := by
  obtain ⟨hlt, rfl⟩ := List.getElem?_eq_some_iff.mp h
  refine ⟨msgs.take place, msgs.drop (place + 1), ?_, ?_, ?_⟩
  · rw [← List.drop_eq_getElem_cons hlt, List.take_append_drop]
  · exact List.eraseIdx_eq_take_drop_succ msgs place
  · exact List.length_take_of_le (Nat.le_of_lt hlt)

end Network
end DistributedME.Library
