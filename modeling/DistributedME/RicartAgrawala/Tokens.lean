import DistributedME.RicartAgrawala.Pairs

/-! The permission of a pair of clients is a single token as long as no client yields in
the gap between its last poll and is_using. -/
namespace DistributedME.RicartAgrawala
open Library
variable {n : ℕ}

/-- Some REQUEST of the channel has a REPLY behind it. -/
def Crossed : List Message → Prop
  | [] => False
  | .request _ :: l => 0 < replies l ∨ Crossed l
  | .reply _ :: l => Crossed l

theorem not_crossed_of_no_request {l : List Message} (h : requests l = 0) : ¬ Crossed l := by
  induction l with
  | nil => exact id
  | cons m l ih => cases m <;> simp_all [Crossed]

theorem not_crossed_of_no_reply {l : List Message} (h : replies l = 0) : ¬ Crossed l := by
  induction l with
  | nil => exact id
  | cons m l ih => cases m <;> simp_all [Crossed]

theorem crossed_append (x y : List Message) :
    Crossed (x ++ y) ↔ Crossed x ∨ Crossed y ∨ 0 < requests x ∧ 0 < replies y := by
  induction x with
  | nil => simp [Crossed]
  | cons m x ih =>
    cases m with
    | request t =>
      simp only [List.cons_append, Crossed, replies_append, requests_request, ih]
      grind
    | reply t => simpa [Crossed] using ih

/-- The part of the token invariant that speaks of client i's wish for j's permission. -/
structure Asked (i j : Fin n) (a b : Side) (ij ji : List Message) : Prop where
  trace : requests ij + b.deferred.toNat + replies ji = (a.isWaiting && !a.holds).toNat
  entered : a.main = .entering ∨ a.main = .inside → a.holds = true
  number : ∀ t, .request t ∈ ij → t = a.ours
  crossed : Crossed ij → Precedes b.ours j a.ours i

namespace Asked
variable {i j : Fin n} {a b : Side} {ij ji : List Message}

/-- The wish is in one place at most. -/
theorem once (h : Asked i j a b ij ji) :
    requests ij + b.deferred.toNat + replies ji ≤ 1 :=
  h.trace.trans_le (Bool.toNat_le _)

/-- A client that does not wait or holds the permission has no wish. -/
theorem nowhere (h : Asked i j a b ij ji) (ha : a.isWaiting = false ∨ a.holds = true) :
    requests ij = 0 ∧ b.deferred = false ∧ replies ji = 0 := by
  have htrace := h.trace
  have hno : (a.isWaiting && !a.holds) = false := by
    rcases ha with ha | ha <;> simp [ha]
  rw [hno, Bool.toNat_false] at htrace
  exact ⟨by omega, Bool.toNat_eq_zero.mp (by omega), by omega⟩

/-- A client whose REQUEST is under way does not hold the permission. -/
theorem not_holds (h : Asked i j a b ij ji) {t : ℕ} (ht : .request t ∈ ij) :
    a.holds = false := by
  by_contra hh
  have hpos := requests_pos ht
  exact absurd (h.nowhere (.inr (Bool.not_eq_false _ ▸ hh))).1 (Nat.ne_of_gt hpos)

end Asked

/-- One token for each pair: held on one side or travelling inside a REPLY. -/
structure Linked (i j : Fin n) (a b : Side) (ij ji : List Message) : Prop where
  single : a.holds.toNat + b.holds.toNat + replies ij + replies ji ≤ 1
  there : Asked i j a b ij ji
  back : Asked j i b a ji ij

theorem Linked.symm {i j : Fin n} {a b : Side} {ij ji : List Message}
    (h : Linked i j a b ij ji) : Linked j i b a ji ij := by
  refine ⟨?_, h.back, h.there⟩
  have := h.single
  omega

namespace Linked
variable {i j : Fin n} {a b : Side} {ij ji : List Message}

/-- A new wish. The REQUEST is sent unless the permission is here. -/
theorem request (h : Linked i j a b ij ji) (hw : a.isWaiting = false) (t : ℕ) :
    Linked i j { a with main := .polling, ours := t, isWaiting := true } b
      (ij ++ if a.holds then [] else [.request t]) ji := by
  obtain ⟨hq, hd, hr⟩ := h.there.nowhere (.inl hw)
  have hnew (r : ℕ) : .request r ∉ ij := fun hmem => Nat.ne_of_gt (requests_pos hmem) hq
  have hback : ¬ Crossed ji := not_crossed_of_no_reply hr
  have hcrossed : ¬ Crossed ij := not_crossed_of_no_request hq
  cases hh : a.holds with
  | true =>
    rw [if_pos rfl, List.append_nil]
    refine ⟨?_, ⟨?_, by simp, fun r hmem => absurd hmem (hnew r), fun hx => absurd hx hcrossed⟩,
      ⟨h.back.trace, h.back.entered, h.back.number, fun hx => absurd hx hback⟩⟩
    · simpa only [hh] using h.single
    · simp [hq, hd, hr]
  | false =>
    rw [if_neg Bool.false_ne_true]
    refine ⟨?_, ⟨?_, by simp, fun r hmem => ?_, fun hx => ?_⟩,
      ⟨?_, h.back.entered, h.back.number, fun hx => absurd hx hback⟩⟩
    · simpa [hh] using h.single
    · simp [hq, hd, hr]
    · simpa [hnew r] using hmem
    · refine absurd ?_ hcrossed
      simpa [crossed_append, Crossed] using hx
    · simpa using h.back.trace

/-- The permission leaves after it was used. -/
theorem released (h : Linked i j a b ij ji) (hw : a.isWaiting = false) (hh : a.holds = true)
    (hd : a.deferred = true) :
    Linked i j { a with main := .idle, isUsing := false, holds := false, deferred := false } b
      (ij ++ [.reply a.ours]) ji := by
  obtain ⟨hq, hb, hr⟩ := h.there.nowhere (.inl hw)
  have hs := h.single
  have ht := h.back.trace
  rw [hh, Bool.toNat_true] at hs
  rw [hd, Bool.toNat_true] at ht
  refine ⟨?_, ⟨?_, by simp, fun r hmem => h.there.number r (by simpa using hmem), fun hx => ?_⟩,
    ⟨?_, h.back.entered, h.back.number, h.back.crossed⟩⟩
  · simp only [Bool.toNat_false, replies_append, replies_reply, replies_nil]
    omega
  · simp [hq, hb, hr, hw]
  · refine absurd hx (not_crossed_of_no_request ?_)
    simp [hq]
  · simp only [Bool.toNat_false, replies_append, replies_reply, replies_nil]
    omega

/-- The permission arrives. -/
theorem replied {t : ℕ} (h : Linked i j a b ij (.reply t :: ji)) :
    Linked i j { a with holds := true } b ij ji := by
  have hs := h.single
  have ht := h.there.once
  rw [replies_reply] at hs ht
  have hh : a.holds = false := by
    by_contra hh
    obtain ⟨-, -, hr⟩ := h.there.nowhere (.inr (Bool.not_eq_false _ ▸ hh))
    exact absurd (replies_reply t ji ▸ hr) (Nat.succ_ne_zero _)
  rw [hh, Bool.toNat_false] at hs
  refine ⟨?_, ⟨?_, fun _ => rfl, h.there.number, h.there.crossed⟩, ⟨?_, h.back.entered,
    fun r hmem => h.back.number r (List.mem_cons_of_mem _ hmem), fun hx => h.back.crossed hx⟩⟩
  · simp only [Bool.toNat_true]
    omega
  · simp only [Bool.not_true, Bool.and_false, Bool.toNat_false]
    omega
  · simpa using h.back.trace

/-- The wish of the other client is put off. -/
theorem deferred {t : ℕ} (h : Linked i j a b ij (.request t :: ji)) (hgst : ℕ) :
    Linked i j { a with hgst := hgst, deferred := true } b ij ji := by
  have hs := h.single
  have ht := h.back.trace
  have hone := h.back.once
  rw [requests_request] at ht hone
  have hd : a.deferred = false := Bool.toNat_eq_zero.mp (by omega)
  rw [hd, Bool.toNat_false] at ht
  refine ⟨hs, ⟨h.there.trace, h.there.entered, h.there.number, h.there.crossed⟩,
    ⟨?_, h.back.entered, fun r hmem => h.back.number r (List.mem_cons_of_mem _ hmem),
      fun hx => h.back.crossed (.inr hx)⟩⟩
  simp only [Bool.toNat_true]
  omega

/-- The permission goes to the other client, whose wish comes first. -/
theorem granted {t : ℕ} (h : Linked i j a b ij (.request t :: ji)) (ha : a.Modes)
    (hu : a.isUsing = false)
    (hp : a.isWaiting = true → a.holds = false ∧ Precedes t j a.ours i) (hgst : ℕ) :
    Linked i j { a with hgst := hgst, holds := false } b (ij ++ [.reply a.ours]) ji := by
  have hs := h.single
  have hone := h.back.once
  have ht := h.back.trace
  have hours : t = b.ours := h.back.number t List.mem_cons_self
  have hb : b.holds = false := h.back.not_holds List.mem_cons_self
  rw [requests_request] at hone ht
  have hr : replies ji = 0 := by
    cases hw : a.isWaiting with
    | false => exact (h.there.nowhere (.inl hw)).2.2
    | true =>
      -- a REPLY behind the REQUEST would have been sent to a preceding request of ours
      by_contra hr
      have hback := h.back.crossed (.inl (Nat.pos_of_ne_zero hr))
      exact hback.asymm (hours ▸ (hp hw).2)
  refine ⟨?_, ⟨?_, ?_, fun r hmem => h.there.number r (by simpa using hmem), fun hx => ?_⟩,
    ⟨?_, h.back.entered, fun r hmem => h.back.number r (List.mem_cons_of_mem _ hmem),
      fun hx => absurd hx (not_crossed_of_no_reply hr)⟩⟩
  · simp only [hb, Bool.toNat_false, replies_append, replies_reply, replies_nil, hr]
    omega
  · have htrace := h.there.trace
    cases hw : a.isWaiting with
    | false => simpa [hw] using htrace
    | true => simpa [hw, (hp hw).1] using htrace
  · rintro (hm | hm)
    · have hw := ha.1.mpr (.inr hm)
      exact absurd (h.there.entered (.inl hm)) (by simp [(hp hw).1])
    · exact absurd (ha.2.mpr hm) (by simp [hu])
  · rcases (crossed_append _ _).mp hx with hx | hx | ⟨hq, -⟩
    · exact h.there.crossed hx
    · exact hx.elim
    · cases hw : a.isWaiting with
      | false => exact absurd (h.there.nowhere (.inl hw)).1 (Nat.ne_of_gt hq)
      | true => exact hours ▸ (hp hw).2
  · simp only [replies_append, replies_reply, replies_nil]
    omega

/-- The permission goes to the other client, and is asked for again. -/
theorem yielded {t : ℕ} (h : Linked i j a b ij (.request t :: ji)) (hw : a.isWaiting = true)
    (hh : a.holds = true) (houtside : ¬ (a.main = .entering ∨ a.main = .inside)) (hgst : ℕ) :
    Linked i j { a with hgst := hgst, holds := false } b
      (ij ++ [.reply a.ours, .request a.ours]) ji := by
  have hs := h.single
  have hone := h.back.once
  have ht := h.back.trace
  obtain ⟨hq, hd, hr⟩ := h.there.nowhere (.inr hh)
  rw [requests_request] at hone ht
  rw [replies_request] at hr
  rw [hh, Bool.toNat_true] at hs
  have hnew (r : ℕ) : .request r ∉ ij := fun hmem => Nat.ne_of_gt (requests_pos hmem) hq
  refine ⟨?_, ⟨?_, fun hm => absurd hm houtside, fun r hmem => ?_, fun hx => ?_⟩,
    ⟨?_, h.back.entered, fun r hmem => h.back.number r (List.mem_cons_of_mem _ hmem),
      fun hx => absurd hx (not_crossed_of_no_reply hr)⟩⟩
  · simp only [Bool.toNat_false, replies_append, replies_reply, replies_request, replies_nil]
    omega
  · simp [hq, hd, hr, hw]
  · simpa [hnew r] using hmem
  · rcases (crossed_append _ _).mp hx with hx | hx | ⟨hpos, -⟩
    · exact absurd hx (not_crossed_of_no_request hq)
    · simp [Crossed] at hx
    · exact absurd hq (Nat.ne_of_gt hpos)
  · simp only [replies_append, replies_reply, replies_request, replies_nil]
    omega

end Linked

theorem linked_local {gap : Prop} (hgap : ¬ gap) {i j : Fin n} {a b a' : Side}
    {ij ji ij' ji' : List Message} (ha : a.Modes) (h : Linked i j a b ij ji)
    (hl : Local gap i j a ij ji a' ij' ji') : Linked i j a' b ij' ji' := by
  have hidle (hm : a.main = .idle ∨ a.main = .inside) : a.isWaiting = false := by
    rw [← Bool.not_eq_true, ha.1]
    rcases hm with hm | hm <;> simp [hm]
  obtain ⟨ht, he, hn, hc⟩ := h.there
  obtain ⟨bt, be, bn, bc⟩ := h.back
  cases hl with
  | stay => exact h
  | heard t => exact ⟨h.single, ⟨ht, he, hn, hc⟩, ⟨bt, be, bn, bc⟩⟩
  | request hm => exact h.request (hidle (.inl hm)) _
  | polled hm hh => exact ⟨h.single, ⟨ht, fun _ => hh, hn, hc⟩, ⟨bt, be, bn, bc⟩⟩
  | entered hm =>
    have hh := he (.inl hm)
    obtain ⟨hq, hd, hr⟩ := h.there.nowhere (.inr hh)
    exact ⟨h.single, ⟨by simp [hq, hd, hr], fun _ => hh, hn, hc⟩, ⟨bt, be, bn, bc⟩⟩
  | kept hm hd => exact ⟨h.single, ⟨ht, by simp, hn, hc⟩, ⟨bt, be, bn, bc⟩⟩
  | released hm hd => exact h.released (hidle (.inr hm)) (he (.inr hm)) hd
  | replied t => exact h.replied
  | deferred t hp => exact h.deferred _
  | granted t hu hp => exact h.granted ha hu hp _
  | yielded t hu hw hh hp hg =>
    refine h.yielded hw hh ?_ _
    rintro (hm | hm)
    · exact hgap (hg hm)
    · exact absurd (ha.2.mpr hm) (by simp [hu])

theorem linked_initial : (initial n).Pairwise Linked := by
  intro i j _
  constructor <;> try constructor
  all_goals simp [initial, State.side, Strategy.construct, Crossed]

/-- No step of the run so far was a yield in the gap. -/
abbrev GapFree (s : State n) : Prop := (machine n).Guarded (fun s act => ¬ YieldsInGap s act) s

theorem linked_gapFree {s : State n} (h : GapFree s) : s.Pairwise Linked :=
  pairwise_guarded (fun _ _ _ _ _ _ => Linked.symm) linked_initial
    (fun _ _ _ _ _ _ _ _ _ _ _ hg ha hP hl => linked_local hg ha hP hl) h

/-- All the places where the permission of the pair can be, each counted with its copies. -/
def State.permissions (s : State n) (i j : Fin n) : ℕ :=
  ((s.strategy i).A j).toNat + ((s.strategy j).A i).toNat +
    replies (s.inFlight i j) + replies (s.inFlight j i)

/-- All the places where client i's wish for the permission of j can be. -/
def State.wishes (s : State n) (i j : Fin n) : ℕ :=
  requests (s.inFlight i j) + ((s.strategy j).replyDeferred i).toNat + replies (s.inFlight j i)

def State.Exclusive (s : State n) : Prop :=
  ∀ i j, (s.strategy i).isUsing = true → (s.strategy j).isUsing = true → i = j

theorem using_holds {s : State n} (h : GapFree s) {i j : Fin n}
    (hi : (s.strategy i).isUsing = true) (hij : i ≠ j) : (s.strategy i).A j = true :=
  (linked_gapFree h i j hij).there.entered (.inr (((modes_guarded h) i).2.mp hi))

/-- Two users would both hold the one permission of their pair. -/
theorem exclusive_of_gapFree {s : State n} (h : GapFree s) : s.Exclusive := by
  intro i j hi hj
  by_contra hij
  have hs := (linked_gapFree h i j hij).single
  have hA : (s.side i j).holds = true := using_holds h hi hij
  have hB : (s.side j i).holds = true := using_holds h hj (Ne.symm hij)
  simp only [hA, hB, Bool.toNat_true] at hs
  omega

/-- Mutual exclusion as far as the code provides it: after every run without a yield in
the gap, whatever the number of clients and the order of the sections. -/
theorem mutual_exclusion (n : ℕ) (acts : List (Action n)) (s : State n)
    (hr : (machine n).run (initial n) acts = some s)
    (hg : (machine n).Along (fun u act => ¬ YieldsInGap u act) (initial n) acts) :
    s.Exclusive :=
  exclusive_of_gapFree (hg.guarded (.init rfl) hr)

/-- A client that asks, is answered, polls and uses the file alone. -/
theorem mutual_exclusion_first_use : ∃ s : State 2, (s.strategy 0).isUsing = true ∧ s.Exclusive := by
  let acts : List (Action 2) := [.requestResource 0, .treatMessage 1 0, .treatMessage 0 1,
    .canEnterCriticalSection 0, .enterCriticalSection 0]
  cases hr : (machine 2).run (initial 2) acts with
  | none => exact absurd hr (by decide)
  | some s =>
    refine ⟨s, ?_, mutual_exclusion 2 acts s hr (by decide)⟩
    have hu : (((machine 2).run (initial 2) acts).any fun s => (s.strategy 0).isUsing) = true := by
      decide
    simpa [hr] using hu

/-- Clients 1 and 2 have had the critical section once each. Client 1 has polled for its second
request, of number 3, when the REQUEST of client 0 with the same number arrives. -/
def gapRun : List (Action 3) :=
  [.requestResource 1, .treatMessage 0 1, .treatMessage 2 1, .treatMessage 1 0,
    .treatMessage 1 2, .canEnterCriticalSection 1, .enterCriticalSection 1, .releaseResource 1,
    .requestResource 2, .treatMessage 0 2, .treatMessage 1 2, .treatMessage 2 0,
    .treatMessage 2 1, .canEnterCriticalSection 2, .enterCriticalSection 2, .releaseResource 2,
    .requestResource 1, .treatMessage 2 1, .treatMessage 1 2, .canEnterCriticalSection 1,
    .requestResource 0, .treatMessage 1 0, .treatMessage 2 0, .treatMessage 0 1,
    .treatMessage 0 2, .canEnterCriticalSection 0, .enterCriticalSection 0,
    .enterCriticalSection 1]

/-- The yield in the gap lets two clients use the file together. -/
theorem mutual_exclusion_fails :
    ¬ ∀ n, 2 ≤ n → ∀ s : State n, (machine n).Reachable s → s.Exclusive := by
  intro h
  obtain ⟨s, hs, hp⟩ := (machine 3).exists_reachable_of_run (s := initial 3) rfl gapRun
    (fun s => (s.strategy 0).isUsing && (s.strategy 1).isUsing) (by decide)
  rw [Bool.and_eq_true] at hp
  exact absurd (h 3 (by decide) s hs 0 1 hp.1 hp.2) (by decide)

/-- Until the first yield in the gap the permissions are tokens and every wish leaves exactly
one trace; two clients use the file together only in runs that contain such a yield. -/
theorem permissions_are_tokens (n : ℕ) :
    (∀ s : State n, GapFree s →
      (∀ i j, i ≠ j → s.permissions i j ≤ 1) ∧
      (∀ i j, i ≠ j → s.wishes i j =
        if (s.strategy i).isWaiting = true ∧ (s.strategy i).A j = false then 1 else 0) ∧
      (∀ i, (s.strategy i).isUsing = true → ∀ j, i ≠ j → (s.strategy i).A j = true) ∧
      s.Exclusive) ∧
    ∀ (acts : List (Action n)) (s : State n), (machine n).run (initial n) acts = some s →
      ¬ s.Exclusive → ∃ before act after u, acts = before ++ act :: after ∧
        (machine n).run (initial n) before = some u ∧ YieldsInGap u act := by
  refine ⟨fun s h => ⟨fun i j hij => (linked_gapFree h i j hij).single, ?_,
    fun i hi j hij => using_holds h hi hij, exclusive_of_gapFree h⟩, ?_⟩
  · intro i j hij
    refine (linked_gapFree h i j hij).there.trace.trans ?_
    simp only [State.side]
    cases (s.strategy i).isWaiting <;> cases (s.strategy i).A j <;> rfl
  · intro acts s hr hs
    rcases Machine.guarded_or_unguarded acts (.init rfl) hr with hg | ⟨b, act, c, u, he, hu, hy⟩
    · exact (hs (exclusive_of_gapFree hg)).elim
    · exact ⟨b, act, c, u, he, hu, not_not.mp hy⟩

/-- The run to two users contains a yield in the gap, and the permissions are tokens before. -/
theorem permissions_are_tokens_in_gapRun :
    (∃ s : State 3, (machine 3).run (initial 3) (gapRun.take 21) = some s ∧
      s.main 1 = .entering ∧ s.permissions 1 0 ≤ 1 ∧ s.Exclusive) ∧
    ∃ before act after u, gapRun = before ++ act :: after ∧
      (machine 3).run (initial 3) before = some u ∧ YieldsInGap u act := by
  constructor
  · obtain ⟨s, hr, hp⟩ := (machine 3).exists_run (s := initial 3) (gapRun.take 21)
      (fun s => s.main 1 = .entering) (by decide)
    have hg : (machine 3).Along (fun s a => ¬ YieldsInGap s a) (initial 3) (gapRun.take 21) := by
      decide
    obtain ⟨hsingle, -, -, hexclusive⟩ :=
      (permissions_are_tokens 3).1 s (hg.guarded (.init rfl) hr)
    exact ⟨s, hr, of_decide_eq_true hp, hsingle 1 0 (by decide), hexclusive⟩
  · have hp : (((machine 3).run (initial 3) gapRun).any fun s =>
      (s.strategy 0).isUsing && (s.strategy 1).isUsing) = true := by decide
    cases hr : (machine 3).run (initial 3) gapRun with
    | none => simp [hr] at hp
    | some s =>
      rw [hr, Option.any_some, Bool.and_eq_true] at hp
      exact (permissions_are_tokens 3).2 gapRun s hr
        fun h => absurd (h 0 1 hp.1 hp.2) (by decide)

end DistributedME.RicartAgrawala
