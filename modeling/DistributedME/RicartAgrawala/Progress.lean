import DistributedME.RicartAgrawala.Pairs
import Mathlib.Data.Finset.Max
import Mathlib.Data.Fintype.Basic
import Mathlib.Data.Prod.Lex
import Mathlib.Order.Fin.Basic

/-! No wish for a permission is lost and deferrals point to preceding requests, in every run,
yields in the gap included. -/
namespace DistributedME.RicartAgrawala
open Library
variable {n : ℕ}

/-- Client i's wish for j's permission is known to somebody, and who defers it may. -/
structure Noticed (i j : Fin n) (a b : Side) (ij ji : List Message) : Prop where
  wish : a.isWaiting = true → a.holds = false →
    0 < requests ij ∨ b.deferred = true ∨ 0 < replies ji
  busy : b.deferred = true → b.isWaiting = true ∨ b.isUsing = true
  order : b.deferred = true → b.isWaiting = true → Precedes b.ours j a.ours i
  number : ∀ t, .request t ∈ ij → t ≤ a.ours
  rising : a.ours ≤ a.hgst + 1

def Alive (i j : Fin n) (a b : Side) (ij ji : List Message) : Prop :=
  Noticed i j a b ij ji ∧ Noticed j i b a ji ij

theorem alive_local {gap : Prop} {i j : Fin n} {a b a' : Side} {ij ji ij' ji' : List Message}
    (ha : a.Modes) (h : Alive i j a b ij ji) (hl : Local gap i j a ij ji a' ij' ji') :
    Alive i j a' b ij' ji' := by
  obtain ⟨⟨hw, hb, ho, hn, hr⟩, ⟨bw, bb, bo, bn, br⟩⟩ := h
  obtain ⟨hwait, huse⟩ := ha
  cases hl with
  | stay => exact ⟨⟨hw, hb, ho, hn, hr⟩, ⟨bw, bb, bo, bn, br⟩⟩
  | heard t =>
    exact ⟨⟨hw, hb, ho, hn, by simp only; omega⟩, ⟨bw, bb, bo, bn, br⟩⟩
  | request hm =>
    have hdef : a.deferred = false := by
      cases hd : a.deferred with
      | false => rfl
      | true => simpa [hwait, huse, hm] using bb hd
    refine ⟨⟨?_, hb, fun hd hi => (ho hd hi).trans_le hr, ?_, le_refl _⟩,
      ⟨?_, fun _ => .inl rfl, by simp [hdef], bn, br⟩⟩
    · intro _ hh
      simp [show a.holds = false from hh]
    · intro t ht
      rcases List.mem_append.mp ht with ht | ht
      · exact (hn t ht).trans hr
      · cases hh : a.holds <;> simp [hh] at ht
        exact ht.le
    · intro hi hh
      refine (bw hi hh).imp_right (Or.imp_right fun h => ?_)
      rw [replies_append]
      omega
  | polled hm hh => exact ⟨⟨hw, hb, ho, hn, hr⟩, ⟨bw, bb, bo, bn, br⟩⟩
  | entered hm =>
    exact ⟨⟨by simp, hb, ho, hn, hr⟩, ⟨bw, fun _ => .inr rfl, by simp, bn, br⟩⟩
  | kept hm hd =>
    exact ⟨⟨hw, hb, ho, hn, hr⟩, ⟨bw, by simp [hd], by simp [hd], bn, br⟩⟩
  | released hm hd =>
    have hi : a.isWaiting = false := by simpa [hm] using hwait
    refine ⟨⟨by simp [hi], hb, ho, fun t ht => hn t (by simpa using ht), hr⟩,
      ⟨fun _ _ => .inr (.inr (by simp)), by simp, by simp, bn, br⟩⟩
  | replied t =>
    exact ⟨⟨by simp, hb, ho, hn, hr⟩, ⟨fun hi hh => by simpa using bw hi hh, bb, bo,
      fun r h => bn r (List.mem_cons_of_mem _ h), br⟩⟩
  | deferred t hp =>
    refine ⟨⟨fun hi hh => by simpa using hw hi hh, hb, ho, hn, by simp only; omega⟩,
      ⟨fun _ _ => .inr (.inl rfl), ?_, ?_, fun r h => bn r (List.mem_cons_of_mem _ h), br⟩⟩
    · exact fun _ => hp.elim .inr fun h => .inl h.1
    · intro _ hi
      rcases hp with hu | ⟨_, hp⟩
      · -- using and waiting exclude each other
        simp [show a.isWaiting = true from hi, huse.mp hu] at hwait
      · exact hp.trans_le (bn t List.mem_cons_self)
  | granted t hf hp =>
    refine ⟨⟨fun hi _ => by simpa using hw hi (hp hi).1, hb, ho, fun r h => hn r (by simpa using h),
      by simp only; omega⟩, ⟨fun _ _ => .inr (.inr (by simp)), bb, bo,
      fun r h => bn r (List.mem_cons_of_mem _ h), br⟩⟩
  | yielded t hf hi hh hp hg =>
    refine ⟨⟨fun _ _ => .inl (by simp), hb, ho, ?_, by simp only; omega⟩,
      ⟨fun _ _ => .inr (.inr (by simp)), bb, bo, fun r h => bn r (List.mem_cons_of_mem _ h), br⟩⟩
    intro r h
    rcases List.mem_append.mp h with h | h
    · exact hn r h
    · simp only [List.mem_cons, reduceCtorEq, Message.request.injEq, false_or, List.not_mem_nil,
        or_false] at h
      exact h.le

theorem alive_reachable {s : State n} (h : (machine n).Reachable s) : s.Pairwise Alive := by
  refine pairwise_guarded (P := Alive) (fun _ _ _ _ _ _ h => ⟨h.2, h.1⟩) ?_
    (fun _ _ _ _ _ _ _ _ _ _ _ _ ha hP hl => alive_local ha hP hl) h
  intro i j _
  constructor <;> constructor <;> simp [initial, State.side, Strategy.construct]

/-- Among waiting clients there is one whose request no other one precedes. -/
theorem exists_least_waiting {s : State n} (hw : ∃ i, (s.strategy i).isWaiting = true) :
    ∃ i, (s.strategy i).isWaiting = true ∧ ∀ j, (s.strategy j).isWaiting = true →
      ¬ Precedes (s.strategy j).ourSequenceNumber j (s.strategy i).ourSequenceNumber i := by
  obtain ⟨i, hi⟩ := hw
  let waiting := Finset.univ.filter fun i => (s.strategy i).isWaiting = true
  obtain ⟨m, hm, hmin⟩ := waiting.exists_min_image
    (fun i => toLex ((s.strategy i).ourSequenceNumber, i)) ⟨i, by simp [waiting, hi]⟩
  refine ⟨m, by simpa [waiting] using hm, fun j hj hp => ?_⟩
  have hle := hmin j (by simp [waiting, hj])
  rw [Prod.Lex.toLex_le_toLex] at hle
  unfold Precedes at hp
  simp only at hle
  omega

/-- A waiting client, no message in flight and no user: then the least waiting client holds
every permission. -/
theorem exists_can_enter {s : State n} (h : s.Pairwise Alive)
    (hw : ∃ i, (s.strategy i).isWaiting = true) (hempty : ∀ i j, s.inFlight i j = [])
    (hfree : ∀ i, (s.strategy i).isUsing = false) :
    ∃ i, (s.strategy i).isWaiting = true ∧ (s.strategy i).canEnterCriticalSection i = true := by
  obtain ⟨i, hi, hleast⟩ := exists_least_waiting hw
  refine ⟨i, hi, (Strategy.canEnterCriticalSection_iff _ _).mpr fun j hj => ?_⟩
  have hp := (h i j (Ne.symm hj)).1
  by_contra hA
  have hwish := hp.wish hi (Bool.not_eq_true _ ▸ hA)
  simp only [hempty, requests_nil, replies_nil, lt_irrefl, false_or, or_false] at hwish
  have hjw : (s.strategy j).isWaiting = true :=
    (hp.busy hwish).resolve_right (by simp [State.side, hfree])
  exact hleast j hjw (hp.order hwish hjw)

/-- No wake-up is lost and the clients cannot all wait for each other. -/
theorem no_lost_wakeup (n : ℕ) (s : State n) (h : (machine n).Reachable s) :
    (∀ i j, i ≠ j → (s.strategy i).isWaiting = true → (s.strategy i).A j = false →
      (∃ t, .request t ∈ s.inFlight i j) ∨ (s.strategy j).replyDeferred i = true ∨
        ∃ t, .reply t ∈ s.inFlight j i) ∧
    (∀ i j, i ≠ j → (s.strategy j).replyDeferred i = true →
      ((s.strategy j).isWaiting = true ∨ (s.strategy j).isUsing = true) ∧
      ((s.strategy j).isWaiting = true →
        Precedes (s.strategy j).ourSequenceNumber j (s.strategy i).ourSequenceNumber i)) ∧
    ((∃ i, (s.strategy i).isWaiting = true) → (∀ i j, s.inFlight i j = []) →
      (∀ i, (s.strategy i).isUsing = false) →
      ∃ i, (s.strategy i).isWaiting = true ∧ (∀ j, j ≠ i → (s.strategy i).A j = true) ∧
        (s.strategy i).canEnterCriticalSection i = true) := by
  have hP := alive_reachable h
  refine ⟨fun i j hij hi hA => ?_, fun i j hij hd => ?_, fun hw hempty hfree => ?_⟩
  · exact ((hP i j hij).1.wish hi hA).imp exists_request (Or.imp_right exists_reply)
  · exact ⟨(hP i j hij).1.busy hd, (hP i j hij).1.order hd⟩
  · obtain ⟨i, hi, hc⟩ := exists_can_enter hP hw hempty hfree
    exact ⟨i, hi, (Strategy.canEnterCriticalSection_iff _ _).mp hc, hc⟩

/-- Two clients ask at the same time; the second one's REQUEST is deferred, and when all
messages are treated the first one can enter. -/
theorem no_lost_wakeup_crossing : ∃ s : State 2, (s.strategy 0).replyDeferred 1 = true ∧
    ((s.strategy 0).isWaiting = true ∨ (s.strategy 0).isUsing = true) ∧
    ∃ i, (s.strategy i).canEnterCriticalSection i = true := by
  obtain ⟨s, hs, hp⟩ := (machine 2).exists_reachable_of_run (s := initial 2) rfl
    [.requestResource 0, .requestResource 1, .treatMessage 0 1, .treatMessage 1 0,
      .treatMessage 0 1]
    (fun s => (s.strategy 0).replyDeferred 1 && (s.strategy 0).isWaiting &&
      decide (∀ i j, s.inFlight i j = []) && decide (∀ i, (s.strategy i).isUsing = false))
    (by decide)
  simp only [Bool.and_eq_true, decide_eq_true_eq] at hp
  obtain ⟨⟨⟨hd, hw⟩, hempty⟩, hfree⟩ := hp
  have h := no_lost_wakeup 2 s hs
  obtain ⟨i, -, -, hc⟩ := h.2.2 ⟨0, hw⟩ hempty hfree
  exact ⟨s, hd, (h.2.1 1 0 (by decide) hd).1, i, hc⟩

end DistributedME.RicartAgrawala
