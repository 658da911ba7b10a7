import DistributedME.Library.Machine
import DistributedME.Library.Network
import Mathlib.Algebra.BigOperators.Group.Finset.Basic
import Mathlib.Algebra.BigOperators.Group.Finset.Piecewise
import Mathlib.Algebra.BigOperators.Group.List.Basic
import Mathlib.Algebra.Order.BigOperators.Group.Finset
import Mathlib.Algebra.Group.Action.Defs
import Mathlib.Data.Fintype.Card

/-! Amortised accounting: the steps of a run are paid for by what they are charged and by the
potential of the state in which the run starts. -/
namespace DistributedME.Library

namespace Machine
variable {σ α : Type*} {M : Machine σ α} {I : σ → Prop} {guard : σ → α → Prop}
  {cost charge : α → ℕ} {potential : σ → ℕ} {s t : σ} {as : List α}

/-- The sum of a price over the labels of a run. -/
def total (price : α → ℕ) (as : List α) : ℕ := (as.map price).sum

@[simp] theorem total_nil (price : α → ℕ) : total price [] = 0 := rfl

@[simp] theorem total_cons (price : α → ℕ) (a : α) (as : List α) :
    total price (a :: as) = price a + total price as := List.sum_cons

/-- One price for the labels of one kind. -/
theorem total_ite (p : α → Bool) (c : ℕ) (as : List α) :
    total (fun a => if p a then c else 0) as = c * as.countP p := by
  induction as with
  | nil => rfl
  | cons a as ih =>
    rw [total_cons, ih, List.countP_cons, Nat.mul_add, Nat.add_comm]
    split_ifs <;> simp

theorem Along.mono {weaker : σ → α → Prop} (hw : ∀ s a, guard s a → weaker s a)
    (hg : M.Along guard s as) : M.Along weaker s as := by
  induction as generalizing s with
  | nil => exact trivial
  | cons a as ih => exact ⟨hw s a hg.1, fun t ht => ih (hg.2 t ht)⟩

/-- Guarded steps keep I, and the charge and the loss of potential cover what they cost. -/
structure Pays (M : Machine σ α) (I : σ → Prop) (guard : σ → α → Prop) (cost charge : α → ℕ)
    (potential : σ → ℕ) : Prop where
  keeps : ∀ s a t, I s → guard s a → M.step s a = some t → I t
  pays : ∀ s a t, I s → guard s a → M.step s a = some t →
    cost a + potential t ≤ potential s + charge a

namespace Pays

/-- The step lemma gives the bill of a whole run. -/
theorem run (h : M.Pays I guard cost charge potential) (hs : I s) (hg : M.Along guard s as)
    (hr : M.run s as = some t) :
    total cost as + potential t ≤ potential s + total charge as := by
  induction as generalizing s with
  | nil =>
    cases hr
    simp
  | cons a as ih =>
    obtain ⟨u, hu, hr⟩ := run_cons.mp hr
    have hstep := h.pays s a u hs hg.1 hu
    have hrest := ih (h.keeps s a u hs hg.1 hu) (hg.2 u hu) hr
    rw [total_cons, total_cons]
    omega

theorem keeps_run (h : M.Pays I guard cost charge potential) (hs : I s)
    (hg : M.Along guard s as) (hr : M.run s as = some t) : I t := by
  induction as generalizing s with
  | nil =>
    cases hr
    exact hs
  | cons a as ih =>
    obtain ⟨u, hu, hr⟩ := run_cons.mp hr
    exact ih (h.keeps s a u hs hg.1 hu) (hg.2 u hu) hr

/-- Where every step has to be paid for out of the potential, it bounds the length of runs. -/
theorem length_le (h : M.Pays I guard (fun _ => 1) (fun _ => 0) potential) (hs : I s)
    (hg : M.Along guard s as) (hr : M.run s as = some t) :
    as.length + potential t ≤ potential s := by
  have hbill := h.run hs hg hr
  have hcost : total (fun _ : α => 1) as = as.length := by simp [total]
  have hcharge : total (fun _ : α => 0) as = 0 := by simp [total]
  rw [hcost, hcharge] at hbill
  exact hbill

theorem restrict (h : M.Pays I guard cost charge potential) {stronger : σ → α → Prop}
    (hs : ∀ s a, stronger s a → guard s a) : M.Pays I stronger cost charge potential where
  keeps s a t hI hg := h.keeps s a t hI (hs s a hg)
  pays s a t hI hg := h.pays s a t hI (hs s a hg)

/-- And then some run goes on until no guarded step is left. -/
theorem exists_maximal (h : M.Pays I guard (fun _ => 1) (fun _ => 0) potential) (hs : I s) :
    ∃ as t, M.run s as = some t ∧ M.Along guard s as ∧
      ∀ a u, guard t a → M.step t a ≠ some u := by
  induction hp : potential s using Nat.strong_induction_on generalizing s with
  | _ k ih =>
    by_cases hmore : ∃ a u, guard s a ∧ M.step s a = some u
    · obtain ⟨a, u, hg, hu⟩ := hmore
      have hless := h.pays s a u hs hg hu
      obtain ⟨as, t, hr, halong, hend⟩ := ih (potential u) (by omega) (h.keeps s a u hs hg hu) rfl
      refine ⟨a :: as, t, run_cons.mpr ⟨u, hu, hr⟩, ⟨hg, fun v hv => ?_⟩, hend⟩
      obtain rfl : u = v := Option.some.inj (hu.symm.trans hv)
      exact halong
    · exact ⟨[], s, rfl, trivial, fun a u hg hu => hmore ⟨a, u, hg, hu⟩⟩

end Pays
end Machine

section pairs
open Finset
variable {ι : Type*} [Fintype ι] [DecidableEq ι]

/-- One party contributes something else. -/
theorem sum_update {β : Type*} (f : ι → β → ℕ) (g : ι → β) (a : ι) (x : β) :
    ∑ i, f i (Function.update g a x i) + f a (g a) = ∑ i, f i (g i) + f a x := by
  have hrest : ∑ i ∈ univ.erase a, f i (Function.update g a x i) = ∑ i ∈ univ.erase a, f i (g i) :=
    sum_congr rfl fun i hi => by rw [Function.update_of_ne (ne_of_mem_erase hi)]
  rw [← add_sum_erase _ _ (mem_univ a), hrest, Function.update_self,
    ← add_sum_erase _ (fun i => f i (g i)) (mem_univ a)]
  omega

theorem sum_of_others {f g : ι → ℕ} (a : ι) (h : ∀ i, i ≠ a → g i = f i) :
    ∑ i, g i + f a = ∑ i, f i + g a := by
  have hg : g = Function.update f a (g a) := by
    funext i
    rw [Function.update_apply]
    split_ifs with hi
    · rw [hi]
    · exact h i hi
  have hsum := sum_update (fun _ (x : ℕ) => x) f a (g a)
  rw [← hg] at hsum
  exact hsum

omit [Fintype ι] in
/-- Among some parties, at most one contributes more. -/
theorem sum_le_of_others {s : Finset ι} {f g : ι → ℕ} (a : ι) {c : ℕ}
    (h : ∀ i, g i ≤ f i + if i = a then c else 0) : ∑ i ∈ s, g i ≤ ∑ i ∈ s, f i + c := by
  have hsum := sum_le_sum fun i (_ : i ∈ s) => h i
  rw [sum_add_distrib, sum_ite_eq'] at hsum
  refine hsum.trans (Nat.add_le_add_left ?_ _)
  split_ifs
  · exact Nat.le_refl c
  · exact Nat.zero_le c

omit [Fintype ι] in
/-- One of them contributes less. -/
theorem add_sum_le_of_mem {s : Finset ι} {f g : ι → ℕ} {a : ι} (ha : a ∈ s) {c : ℕ}
    (h : ∀ i, i ≠ a → g i = f i) (hself : c + g a ≤ f a) : c + ∑ i ∈ s, g i ≤ ∑ i ∈ s, f i := by
  have hrest : ∑ i ∈ s.erase a, g i = ∑ i ∈ s.erase a, f i :=
    sum_congr rfl fun i hi => h i (ne_of_mem_erase hi)
  rw [← add_sum_erase s f ha, ← add_sum_erase s g ha, hrest, ← Nat.add_assoc]
  exact Nat.add_le_add_right hself _

/-- One entry of a table contributes something else. -/
theorem sum_update_update {β : Type*} (f : ι → ι → β → ℕ) (g : ι → ι → β) (a b : ι) (x : β) :
    ∑ i, ∑ j, f i j (Function.update g a (Function.update (g a) b x) i j) + f a b (g a b) =
      ∑ i, ∑ j, f i j (g i j) + f a b x := by
  have hrow := sum_update (f a) (g a) b x
  have htable := sum_update (fun i (row : ι → β) => ∑ j, f i j (row j)) g a
    (Function.update (g a) b x)
  omega

namespace Network
variable {μ : Type*}

/-- What all messages in flight weigh, each on its channel. -/
def load (w : ι → ι → μ → ℕ) (net : Network ι μ) : ℕ := ∑ i, ∑ j, ((net i j).map (w i j)).sum

theorem load_post {w : ι → ι → μ → ℕ} (net : Network ι μ) (i : ι) (out : ι → List μ) :
    (net.post i out).load w = net.load w + ∑ j, ((out j).map (w i j)).sum := by
  have hrow : net.post i out = Function.update net i fun j => net i j ++ out j := by
    funext a b
    by_cases ha : a = i
    · subst ha
      rw [post_self, Function.update_self]
    · rw [post_of_ne net out b ha, Function.update_of_ne ha]
  have hsum := sum_update (fun i (row : ι → List μ) => ∑ j, ((row j).map (w i j)).sum) net i
    fun j => net i j ++ out j
  rw [load, hrow, load]
  simp only [List.map_append, List.sum_append, sum_add_distrib] at hsum
  omega

theorem load_put {w : ι → ι → μ → ℕ} (net : Network ι μ) (i j : ι) (msgs : List μ) :
    (net.put i j msgs).load w + ((net i j).map (w i j)).sum =
      net.load w + (msgs.map (w i j)).sum := by
  have hput : net.put i j msgs = Function.update net i (Function.update (net i) j msgs) := by
    funext a b
    exact (update_update_apply net i j msgs a b).symm
  rw [load, hput, load]
  exact sum_update_update (fun i j (msgs : List μ) => (msgs.map (w i j)).sum) net i j msgs

theorem load_only (w : ι → μ → ℕ) (j : ι) (msgs : List μ) :
    ∑ k, ((only j msgs k).map (w k)).sum = (msgs.map (w j)).sum := by
  rw [sum_eq_single j (fun k _ hk => by rw [only_of_ne msgs hk, List.map_nil, List.sum_nil])
    fun hj => absurd (mem_univ j) hj, only_self]

/-- The same weight on all channels. -/
def weight (w : μ → ℕ) (net : Network ι μ) : ℕ := net.load fun _ _ => w

variable {w : μ → ℕ}

theorem weight_post (net : Network ι μ) (i : ι) (out : ι → List μ) :
    (net.post i out).weight w = net.weight w + ∑ j, ((out j).map w).sum :=
  net.load_post i out

theorem weight_put (net : Network ι μ) (i j : ι) (msgs : List μ) :
    (net.put i j msgs).weight w + ((net i j).map w).sum = net.weight w + (msgs.map w).sum :=
  net.load_put i j msgs

theorem weight_only (j : ι) (msgs : List μ) :
    ∑ k, ((only j msgs k).map w).sum = (msgs.map w).sum := load_only (fun _ => w) j msgs

omit [DecidableEq ι] in
/-- Every message counts. -/
theorem weight_one (net : Network ι μ) : net.weight (fun _ => 1) = ∑ i, ∑ j, (net i j).length := by
  simp [weight, load]

omit [DecidableEq ι] in
theorem weight_mono {w w' : μ → ℕ} (h : ∀ m, w m ≤ w' m) (net : Network ι μ) :
    net.weight w ≤ net.weight w' :=
  sum_le_sum fun _ _ => sum_le_sum fun _ _ => List.sum_le_sum fun m _ => h m

end Network

/-- What the ordered pairs of different parties contribute to a potential. -/
def pairSum (f : ι → ι → ℕ) : ℕ := ∑ i, ∑ j ∈ univ.erase i, f i j

theorem pairSum_add (f g : ι → ι → ℕ) :
    pairSum (fun i j => f i j + g i j) = pairSum f + pairSum g := by
  simp only [pairSum, sum_add_distrib]

theorem pairSum_swap (f : ι → ι → ℕ) : pairSum (fun i j => f j i) = pairSum f :=
  sum_comm' fun i j => by simp [ne_comm]

theorem pairSum_mono {f g : ι → ι → ℕ} (h : ∀ i j, f i j ≤ g i j) : pairSum f ≤ pairSum g :=
  sum_le_sum fun i _ => sum_le_sum fun j _ => h i j

/-- The pairs with one party, and the others. -/
theorem pairSum_eq (f : ι → ι → ℕ) (a : ι) : pairSum f =
    ∑ j ∈ univ.erase a, (f a j + f j a) +
      ∑ i ∈ univ.erase a, ∑ j ∈ (univ.erase i).erase a, f i j := by
  have hrow : ∀ i ∈ univ.erase a, ∑ j ∈ univ.erase i, f i j =
      f i a + ∑ j ∈ (univ.erase i).erase a, f i j := fun i hi =>
    (add_sum_erase _ _ (mem_erase.mpr ⟨(ne_of_mem_erase hi).symm, mem_univ a⟩)).symm
  rw [pairSum, ← add_sum_erase _ _ (mem_univ a), sum_congr rfl hrow, sum_add_distrib,
    sum_add_distrib, Nat.add_assoc]

/-- A step of one party leaves the pairs of the others alone. -/
theorem pairSum_le {f g : ι → ι → ℕ} {due paid : ι → ℕ} (a : ι)
    (hothers : ∀ i j, i ≠ a → j ≠ a → g i j = f i j)
    (hpairs : ∀ j, j ≠ a → due j + (g a j + g j a) ≤ f a j + f j a + paid j) :
    ∑ j ∈ univ.erase a, due j + pairSum g ≤ pairSum f + ∑ j ∈ univ.erase a, paid j := by
  have hrest : ∑ i ∈ univ.erase a, ∑ j ∈ (univ.erase i).erase a, g i j =
      ∑ i ∈ univ.erase a, ∑ j ∈ (univ.erase i).erase a, f i j :=
    sum_congr rfl fun i hi => sum_congr rfl fun j hj =>
      hothers i j (ne_of_mem_erase hi) (ne_of_mem_erase hj)
  have hown := sum_le_sum fun j (hj : j ∈ univ.erase a) => hpairs j (ne_of_mem_erase hj)
  rw [sum_add_distrib, sum_add_distrib (f := fun j => f a j + f j a)] at hown
  rw [pairSum_eq f a, pairSum_eq g a, hrest]
  omega

/-- The same bound for every pair. -/
theorem pairSum_le_mul {f : ι → ι → ℕ} {c : ℕ} (h : ∀ i j, i ≠ j → f i j ≤ c) :
    pairSum f ≤ Fintype.card ι * ((Fintype.card ι - 1) * c) := by
  have hrow (i : ι) : ∑ j ∈ univ.erase i, f i j ≤ (Fintype.card ι - 1) * c := by
    refine (sum_le_card_nsmul _ _ c fun j hj => h i j (ne_of_mem_erase hj).symm).trans ?_
    rw [card_erase_of_mem (mem_univ i), card_univ, smul_eq_mul]
  refine (sum_le_card_nsmul univ _ _ fun i _ => hrow i).trans ?_
  rw [card_univ, smul_eq_mul]

end pairs
end DistributedME.Library
