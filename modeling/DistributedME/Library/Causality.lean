import Mathlib.Data.List.Basic
import Mathlib.Logic.Relation
import Mathlib.Tactic.TypeStar

/-! Happens-before on a trace of events of several nodes, and clocks that respect it. -/
namespace DistributedME.Library

/-- How to read an event: where it happened, the place in the trace of the event that sent what
it receives, the stamp it gives, and the stamp it makes known to its node. -/
structure Stamping (α ι : Type*) where
  node : α → ι
  cause : α → Option ℕ
  stamp : α → Option ℕ
  known : α → Option ℕ

namespace Stamping
variable {α ι : Type*} (S : Stamping α ι) {l : List α} {a b : ℕ}

/-- Program order of a node, or a delivery. -/
def Precedes (l : List α) (a b : ℕ) : Prop :=
  ∃ x y, l[a]? = some x ∧ l[b]? = some y ∧ (a < b ∧ S.node x = S.node y ∨ S.cause y = some a)

def HappensBefore (l : List α) : ℕ → ℕ → Prop := Relation.TransGen (S.Precedes l)

/-- A stamp at a node is larger than what the node knew before. -/
def Exceeds (x y : α) : Prop :=
  S.node x = S.node y → ∀ t u, S.known x = some t → S.stamp y = some u → t < u

/-- What is received was sent with the stamp that becomes known. An event that gives a stamp
makes it known and receives nothing. -/
structure WellFormed (l : List α) : Prop where
  cause : ∀ x ∈ l, ∀ c, S.cause x = some c →
    ∃ y t, l[c]? = some y ∧ S.stamp y = some t ∧ S.known x = some t
  stamp : ∀ x ∈ l, ∀ t, S.stamp x = some t → S.known x = some t ∧ S.cause x = none

variable {S}

theorem Precedes.append (h : S.Precedes l a b) (l' : List α) : S.Precedes (l ++ l') a b := by
  obtain ⟨x, y, hx, hy, h⟩ := h
  have hold {k : ℕ} {z : α} (hz : l[k]? = some z) : (l ++ l')[k]? = some z := by
    obtain ⟨hk, -⟩ := List.getElem?_eq_some_iff.mp hz
    rw [List.getElem?_append_left hk, hz]
  exact ⟨x, y, hold hx, hold hy, h⟩

/-- What happened before does so in a longer trace. -/
theorem HappensBefore.append (h : S.HappensBefore l a b) (l' : List α) :
    S.HappensBefore (l ++ l') a b := by
  induction h with
  | single hp => exact .single (hp.append l')
  | tail _ hp ih => exact .tail ih (hp.append l')

theorem exceeds_of_lt (h : l.Pairwise S.Exceeds) {x y : α} (hab : a < b) (hx : l[a]? = some x)
    (hy : l[b]? = some y) : S.Exceeds x y := by
  obtain ⟨ha, rfl⟩ := List.getElem?_eq_some_iff.mp hx
  obtain ⟨hb, rfl⟩ := List.getElem?_eq_some_iff.mp hy
  exact List.pairwise_iff_getElem.mp h a b ha hb hab

/-- If every stamp is larger than what its node knew before, stamps grow along every chain of
program order and deliveries. -/
theorem lt_of_happensBefore (hl : S.WellFormed l) (h : l.Pairwise S.Exceeds)
    (hab : S.HappensBefore l a b) {x : α} {t : ℕ} (hx : l[a]? = some x)
    (ht : S.stamp x = some t) :
    (∀ y u, l[b]? = some y → S.stamp y = some u → t < u) ∧
      ∀ y c z u, l[b]? = some y → b < c → l[c]? = some z → S.node y = S.node z →
        S.stamp z = some u → t < u := by
  have hstamp {k : ℕ} {y : α} {u : ℕ} (hy : l[k]? = some y) (hu : S.stamp y = some u) :=
    hl.stamp y (List.mem_of_getElem? hy) u hu
  have hcause {k c : ℕ} {y : α} (hy : l[k]? = some y) (hc : S.cause y = some c) :=
    hl.cause y (List.mem_of_getElem? hy) c hc
  induction hab with
  | single hp =>
    obtain ⟨x', y, hx', hy, hp⟩ := hp
    obtain rfl : x = x' := Option.some.inj (hx.symm.trans hx')
    refine ⟨fun y' u hy' hu => ?_, fun y' c z u hy' hbc hz hnode hu => ?_⟩ <;>
      obtain rfl : y = y' := Option.some.inj (hy.symm.trans hy')
    · rcases hp with ⟨hlt, hnode⟩ | hc
      · exact exceeds_of_lt h hlt hx hy hnode t u (hstamp hx ht).1 hu
      · rw [(hstamp hy hu).2] at hc
        cases hc
    · rcases hp with ⟨hlt, hsame⟩ | hc
      · exact exceeds_of_lt h (Nat.lt_trans hlt hbc) hx hz (hsame.trans hnode) t u (hstamp hx ht).1 hu
      · obtain ⟨x', t', hx', ht', hknown⟩ := hcause hy hc
        obtain rfl : x = x' := Option.some.inj (hx.symm.trans hx')
        obtain rfl : t = t' := Option.some.inj (ht.symm.trans ht')
        exact exceeds_of_lt h hbc hy hz hnode t u hknown hu
  | tail _ hp ih =>
    obtain ⟨w, y, hw, hy, hp⟩ := hp
    refine ⟨fun y' u hy' hu => ?_, fun y' c z u hy' hbc hz hnode hu => ?_⟩ <;>
      obtain rfl : y = y' := Option.some.inj (hy.symm.trans hy')
    · rcases hp with ⟨hlt, hnode⟩ | hc
      · exact ih.2 w _ y u hw hlt hy hnode hu
      · rw [(hstamp hy hu).2] at hc
        cases hc
    · rcases hp with ⟨hlt, hsame⟩ | hc
      · exact ih.2 w c z u hw (Nat.lt_trans hlt hbc) hz (hsame.trans hnode) hu
      · -- the packet that is received was stamped later than the first one
        obtain ⟨w', t', hw', ht', hknown⟩ := hcause hy hc
        exact Nat.lt_trans (ih.1 w' t' hw' ht') (exceeds_of_lt h hbc hy hz hnode t' u hknown hu)

end Stamping
end DistributedME.Library
