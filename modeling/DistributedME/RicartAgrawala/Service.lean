import DistributedME.RicartAgrawala.Cost
import DistributedME.RicartAgrawala.Progress

/-! Who waits is served, and overtaken once by each other client at most, in runs without a
yield in the gap. -/
namespace DistributedME.RicartAgrawala
open Library
variable {n : ℕ}

/-- The steps left to a main thread that has been granted everything. -/
def MainThread.steps : MainThread → ℕ
  | .idle => 0
  | .inside => 1
  | .entering => 2
  | .polling => 3

/-- A step that brings somebody closer to the end of a critical section: nobody asks anew, a
poll counts when its answer is yes, and there is no yield in the gap. -/
def Productive (s : State n) : Action n → Prop
  | .requestResource _ => False
  | .canEnterCriticalSection i => (s.strategy i).canEnterCriticalSection i = true
  | a => ¬ YieldsInGap s a

theorem Productive.not_yieldsInGap {s : State n} {a : Action n} (h : Productive s a) :
    ¬ YieldsInGap s a := by
  cases a with
  | requestResource i => exact h.elim
  | canEnterCriticalSection i => exact id
  | enterCriticalSection i | releaseResource i | treatMessage i j => exact h

/-- The messages and the steps of the main threads to come. -/
def State.work (s : State n) : ℕ := s.due + ∑ i, (s.main i).steps

theorem work_pays : (machine n).Pays GapFree Productive (fun _ => 1) (fun _ => 0)
    State.work where
  keeps s a t h hg hstep := .step h hg.not_yieldsInGap hstep
  pays s a t h hg hstep := by
    have hdue := due_step h hstep
    have hfree : (∑ _j ∈ Finset.univ.erase a.actor,
        if s.main a.actor = .idle ∧ t.main a.actor = .polling then 2 else 0) = 0 := by
      refine Finset.sum_eq_zero fun j _ => if_neg fun hnew => ?_
      have hrequest := main_of_step hstep hnew.1 hnew.2
      cases a with
      | requestResource i => exact hg
      | _ => cases hrequest
    have hmain (i : Fin n) (m : MainThread) := sum_update (fun _ => MainThread.steps) s.main i m
    have he := effect_of_step hstep
    unfold State.work
    cases a with
    | requestResource i => exact hg.elim
    | canEnterCriticalSection i =>
      obtain ⟨hm, rfl⟩ := he
      have hsum := hmain i .entering
      rw [hm] at hsum
      simp only [show (s.strategy i).canEnterCriticalSection i = true from hg, if_true,
        MainThread.steps] at hsum hdue hfree ⊢
      simp only [State.write] at *
      omega
    | enterCriticalSection i =>
      obtain ⟨hm, rfl⟩ := he
      have hsum := hmain i .inside
      rw [hm] at hsum
      simp only [State.write, MainThread.steps] at *
      omega
    | releaseResource i =>
      obtain ⟨hm, rfl⟩ := he
      have hsum := hmain i .idle
      rw [hm] at hsum
      simp only [State.write, MainThread.steps] at *
      omega
    | treatMessage i j =>
      have htaken : 1 ≤ ∑ k ∈ Finset.univ.erase (Action.treatMessage i j).actor,
        taken s t (Action.treatMessage i j).actor k := taken_treatMessage h hstep
      obtain ⟨msg, rest, hm, rfl⟩ := he
      simp only [State.write, Function.update_eq_self] at *
      omega

/-- A wish is in one place, or its permission is there. -/
theorem due_le_two {i j : Fin n} {a b : Side} {ij ji : List Message}
    (h : Linked i j a b ij ji) : due i j a b ij ji ≤ 2 := by
  have htrace := h.there.trace
  have hreserve := reserve_le i j a b
  unfold due
  by_cases hw : a.isWaiting = true ∧ a.holds = false
  · have hzero : reserve i j a b = 0 := reserve_eq_zero fun _ hh => absurd hh (by simp [hw.2])
    have hone := Bool.toNat_le (a.isWaiting && !a.holds)
    omega
  · have hno : (a.isWaiting && !a.holds) = false := by simpa using hw
    rw [hno, Bool.toNat_false] at htrace
    omega

theorem work_le {s : State n} (h : GapFree s) : s.work ≤ 3 * n + 2 * (n * (n - 1)) := by
  have hdue : s.due ≤ n * ((n - 1) * 2) := by
    have hpairs := pairSum_le_mul fun i j hij => due_le_two (linked_gapFree h i j hij)
    rwa [Fintype.card_fin] at hpairs
  have hsteps : ∑ i, (s.main i).steps ≤ 3 * n := by
    have hall := Finset.sum_le_card_nsmul Finset.univ (fun i => (s.main i).steps) 3
      fun i _ => by cases s.main i <;> decide
    rwa [Finset.card_univ, Fintype.card_fin, smul_eq_mul, Nat.mul_comm] at hall
  have hassoc : n * ((n - 1) * 2) = 2 * (n * (n - 1)) := by rw [← Nat.mul_assoc, Nat.mul_comm]
  unfold State.work
  omega

/-- A client leaves request_resource only for its critical section. -/
theorem enters_of_run {s t : State n} {acts : List (Action n)} {i : Fin n}
    (hr : (machine n).run s acts = some t) (hs : s.main i = .polling ∨ s.main i = .entering)
    (hi : .enterCriticalSection i ∉ acts) : t.main i = .polling ∨ t.main i = .entering := by
  induction acts generalizing s with
  | nil =>
    cases hr
    exact hs
  | cons a acts ih =>
    obtain ⟨u, hstep, hr⟩ := Machine.run_cons.mp hr
    obtain ⟨ha, hacts⟩ := List.ne_and_not_mem_of_not_mem_cons hi
    refine ih hr ?_ hacts
    have he := effect_of_step hstep
    by_cases hk : i = a.actor
    · subst hk
      cases a with
      | requestResource k =>
        obtain ⟨hm, rfl⟩ := he
        exact .inl (by simp [State.write, Action.actor])
      | canEnterCriticalSection k =>
        obtain ⟨hm, rfl⟩ := he
        simp only [State.write, Action.actor, Function.update_self]
        split_ifs
        · exact .inr rfl
        · exact .inl rfl
      | enterCriticalSection k => exact absurd rfl ha
      | releaseResource k =>
        obtain ⟨hm, rfl⟩ := he
        change s.main k = _ ∨ s.main k = _ at hs
        simp [hm] at hs
      | treatMessage k j =>
        obtain ⟨msg, rest, hm, rfl⟩ := he
        simpa [State.write, Action.actor] using hs
    · have hside := (step_frame (j := i) hstep hk).1
      have hmain : u.main i = s.main i := congrArg Side.main hside
      rwa [hmain]

/-- Everybody is through and nothing is in flight. -/
def State.Served (s : State n) : Prop :=
  (∀ i, s.main i = .idle) ∧ ∀ i j, s.inFlight i j = []

/-- While somebody is in the middle of a critical section there is a step that counts. -/
theorem served_of_not_productive {s : State n} (h : GapFree s)
    (hend : ∀ a t, Productive s a → step s a ≠ some t) : s.Served := by
  have hreach : (machine n).Reachable s := h.mono fun _ _ _ => trivial
  have hmodes := modes_guarded h
  have hentering (i : Fin n) : s.main i ≠ .entering := fun hm =>
    hend (.enterCriticalSection i) _ id (if_pos hm)
  have hinside (i : Fin n) : s.main i ≠ .inside := fun hm =>
    hend (.releaseResource i) _ id (if_pos hm)
  have hempty (i j : Fin n) : s.inFlight i j = [] := by
    cases hm : s.inFlight i j with
    | nil => rfl
    | cons msg rest =>
      have hstep : ∃ t, step s (.treatMessage j i) = some t := by simp [step, hm]
      obtain ⟨t, ht⟩ := hstep
      refine absurd ht (hend _ t ?_)
      rintro ⟨-, -, -, hgap, -⟩
      exact hentering j hgap
  have hpolling (i : Fin n) : s.main i ≠ .polling := by
    intro hm
    have hfree (k : Fin n) : (s.strategy k).isUsing = false := by
      rw [← Bool.not_eq_true, (hmodes k).2]
      exact hinside k
    obtain ⟨k, hk, hcan⟩ := exists_can_enter (alive_reachable hreach)
      ⟨i, (hmodes i).1.mpr (.inl hm)⟩ hempty hfree
    have hkm : s.main k = .polling := ((hmodes k).1.mp hk).resolve_right (hentering k)
    exact hend (.canEnterCriticalSection k) _ hcan (if_pos hkm)
  refine ⟨fun i => ?_, hempty⟩
  cases hm : s.main i with
  | idle => rfl
  | polling => exact absurd hm (hpolling i)
  | entering => exact absurd hm (hentering i)
  | inside => exact absurd hm (hinside i)

/-- Every request is served, in whatever order the steps are taken: without new requests and
yields in the gap at most 3 n + 2 n (n - 1) steps count, and when none is left nobody waits and
everybody who waited has been in its critical section. -/
theorem all_served (n : ℕ) (s : State n) (h : GapFree s) :
    (∀ acts t, (machine n).run s acts = some t → (machine n).Along Productive s acts →
      acts.length ≤ 3 * n + 2 * (n * (n - 1)) ∧
      ((∀ a u, Productive t a → (machine n).step t a ≠ some u) → t.Served ∧
        ∀ i, (s.strategy i).isWaiting = true → .enterCriticalSection i ∈ acts)) ∧
    ∃ acts t, (machine n).run s acts = some t ∧ (machine n).Along Productive s acts ∧
      t.Served := by
  refine ⟨fun acts t hr hg => ⟨?_, fun hend => ?_⟩, ?_⟩
  · have hlength := work_pays.length_le h hg hr
    have := work_le h
    omega
  · have hserved := served_of_not_productive (work_pays.keeps_run h hg hr) hend
    refine ⟨hserved, fun i hi => ?_⟩
    by_contra hacts
    have hwaits := enters_of_run hr ((modes_guarded h i).1.mp hi) hacts
    simp [hserved.1 i] at hwaits
  · obtain ⟨acts, t, hr, hg, hend⟩ := work_pays.exists_maximal h
    exact ⟨acts, t, hr, hg, served_of_not_productive (work_pays.keeps_run h hg hr) hend⟩

/-- Three clients ask at the same time and are all served. -/
theorem all_served_crossing : ∃ s : State 3, (∀ i, s.main i = .polling) ∧
    ∃ acts t, (machine 3).run s acts = some t ∧ (machine 3).Along Productive s acts ∧
      t.Served := by
  let acts : List (Action 3) := [.requestResource 0, .requestResource 1, .requestResource 2]
  obtain ⟨s, hr, hp⟩ := (machine 3).exists_run (s := initial 3) acts
    (fun s => decide (∀ i, s.main i = .polling)) (by decide)
  have hg : (machine 3).Along (fun u act => ¬ YieldsInGap u act) (initial 3) acts := by decide
  exact ⟨s, of_decide_eq_true hp, (all_served 3 s (hg.guarded (.init rfl) hr)).2⟩

/-- Client j has treated the REQUEST of client i, which still waits, and has put it off or will
not ask for the permission of i with a request that precedes it. -/
structure Heeded (i j : Fin n) (a b : Side) (ij : List Message) : Prop where
  waits : a.isWaiting = true
  treated : requests ij = 0
  number : a.ours ≤ b.hgst
  first : b.deferred = false → Heard i j a b

/-- A client that has neither put off the wish nor finds it in flight has given the permission
away. -/
theorem Heeded.not_holds {i j : Fin n} {a b : Side} {ij ji : List Message}
    (h : Heeded i j a b ij) (hl : Linked i j a b ij ji) (hd : b.deferred = false) :
    b.holds = false := by
  have htrace := hl.there.trace
  have hsingle := hl.single
  rw [h.treated, hd, h.waits] at htrace
  by_contra hb
  rw [Bool.not_eq_false] at hb
  cases hh : a.holds with
  | false =>
    simp only [hh, Bool.toNat_false, Bool.not_false, Bool.and_self, Bool.toNat_true] at htrace
    simp only [hb, hh, Bool.toNat_false, Bool.toNat_true] at hsingle
    omega
  | true =>
    simp only [hb, hh, Bool.toNat_true] at hsingle
    omega

/-- The steps of the client that waits, before it enters. -/
theorem Heeded.own {gap : Prop} {i j : Fin n} {a b a' : Side} {ij ji ij' ji' : List Message}
    (h : Heeded i j a b ij) (ha : a.Modes) (hlinked : Linked i j a b ij ji)
    (hl : Local gap i j a ij ji a' ij' ji') (hm : a.main = .entering → a'.main ≠ .inside) :
    Heeded i j a' b ij' := by
  obtain ⟨hw, hq, hn, hf⟩ := h
  have hmain := ha.1.mp hw
  cases hl with
  | stay | heard | polled | replied | deferred => exact ⟨hw, hq, hn, hf⟩
  | request hidle => simp [hidle] at hmain
  | entered hentering => exact absurd rfl (hm hentering)
  | kept hinside | released hinside => simp [hinside] at hmain
  | granted t hfree hp => exact ⟨hw, by simpa using hq, hn, hf⟩
  | yielded t hfree hi hh hp hg =>
    -- the permission would be yielded to a request that j cannot have made
    obtain ⟨-, hd, -⟩ := hlinked.there.nowhere (.inr hh)
    have hb : b.isWaiting = true := by
      by_contra hb
      have hnone := (hlinked.back.nowhere (.inl (Bool.not_eq_true _ ▸ hb))).1
      exact absurd hnone (by simp)
    have hours := hlinked.back.number t List.mem_cons_self
    exact absurd (hours ▸ hp) ((hf hd).2 hb).asymm

/-- The steps of the other client. It enters at most while the wish is put off. -/
theorem Heeded.other {gap : Prop} {i j : Fin n} {a b b' : Side} {ij ji ij' ji' : List Message}
    (h : Heeded i j a b ij) (hb : b.Modes) (hlinked : Linked i j a b ij ji)
    (halive : Alive i j a b ij ji) (hl : Local gap j i b ji ij b' ji' ij') :
    Heeded i j a b' ij' ∧
      ((if b.main = .entering ∧ b'.main = .inside then 1 else 0) +
        (b'.deferred && b'.isWaiting).toNat ≤ (b.deferred && b.isWaiting).toNat) := by
  have hnot := h.not_holds hlinked
  obtain ⟨hw, hq, hn, hf⟩ := h
  have hwish {t : ℕ} {rest : List Message} (hij : ij = .request t :: rest) : False := by
    rw [hij, requests_request] at hq
    exact absurd hq (Nat.succ_ne_zero _)
  cases hl with
  | stay => exact ⟨⟨hw, hq, hn, hf⟩, by simp +contextual⟩
  | heard t =>
    have hle := hn.trans (le_max_left b.hgst t)
    exact ⟨⟨hw, hq, hle, fun hd => ⟨hle, (hf hd).2⟩⟩, by simp +contextual⟩
  | request hidle =>
    have hd : b.deferred = false := by
      by_contra hd
      rcases halive.1.busy (Bool.not_eq_false _ ▸ hd) with hi | hu
      · simpa [hidle] using hb.1.mp hi
      · simpa [hidle] using hb.2.mp hu
    exact ⟨⟨hw, hq, hn, fun _ => Heard.request hn _⟩, by simp [hidle, hd]⟩
  | polled hm hh =>
    exact ⟨⟨hw, hq, hn, hf⟩, by simp [hm]⟩
  | entered hm =>
    have hd : b.deferred = true := by
      by_contra hd
      have hholds := hlinked.back.entered (.inl hm)
      exact absurd (hnot (Bool.not_eq_true _ ▸ hd)) (by simp [hholds])
    have hi : b.isWaiting = true := hb.1.mpr (.inr hm)
    exact ⟨⟨hw, hq, hn, fun h => absurd hd (by simp [show b.deferred = false from h])⟩,
      by simp [hm, hd, hi]⟩
  | kept hm hd => exact ⟨⟨hw, hq, hn, hf⟩, by simp [hm]⟩
  | released hm hd =>
    have hi : b.isWaiting = false := by
      rw [← Bool.not_eq_true, hb.1]
      simp [hm]
    exact ⟨⟨hw, hq, hn, fun _ => ⟨hn, fun h => absurd h (by simp [hi])⟩⟩, by simp [hm]⟩
  | replied t => exact ⟨⟨hw, by simpa using hq, hn, hf⟩, by simp +contextual⟩
  | deferred | granted | yielded => exact (hwish rfl).elim

/-- Client i waits, and client j has treated its REQUEST. -/
def State.Heeded (s : State n) (i j : Fin n) : Prop :=
  GapFree s ∧ RicartAgrawala.Heeded i j (s.side i j) (s.side j i) (s.inFlight i j)

/-- The critical sections in which client j may still overtake client i. -/
def State.overtakings (s : State n) (i j : Fin n) : ℕ :=
  ((s.strategy j).replyDeferred i && (s.strategy j).isWaiting).toNat

theorem heeded_step {s t : State n} {i j : Fin n} (hij : i ≠ j) {a : Action n}
    (h : s.Heeded i j) (hg : ¬ YieldsInGap s a) (hi : a ≠ .enterCriticalSection i)
    (hstep : step s a = some t) : t.Heeded i j ∧
      (if a = .enterCriticalSection j then 1 else 0) + t.overtakings i j ≤ s.overtakings i j := by
  obtain ⟨hfree, h⟩ := h
  have hreach : (machine n).Reachable s := hfree.mono fun _ _ _ => trivial
  have hmodes := modes_guarded hfree
  have hlinked := linked_gapFree hfree i j hij
  have hfree' : GapFree t := .step hfree hg hstep
  have hother : a.actor ≠ j → a ≠ .enterCriticalSection j := by
    rintro hj rfl
    exact hj rfl
  by_cases hai : a.actor = i
  · have hji : j ≠ a.actor := hai ▸ hij.symm
    have hlocal := step_local hmodes hstep hji
    obtain ⟨hside, -⟩ := step_frame (j := i) hstep hji
    rw [hai] at hlocal
    refine ⟨⟨hfree', hside ▸ h.own (hmodes i) hlinked hlocal fun hm hm' => ?_⟩, ?_⟩
    · have he := effect_of_step hstep
      change s.main i = _ at hm
      change t.main i = _ at hm'
      cases a with
      | enterCriticalSection k => exact hi (congrArg _ hai)
      | requestResource k | canEnterCriticalSection k | releaseResource k =>
        obtain rfl : k = i := hai
        cases hm.symm.trans he.1
      | treatMessage k l =>
        obtain rfl : k = i := hai
        obtain ⟨msg, rest, -, rfl⟩ := he
        simp [State.write, hm] at hm'
    · rw [if_neg (hother (hai ▸ hij)), Nat.zero_add]
      change ((t.side j i).deferred && (t.side j i).isWaiting).toNat ≤ _
      rw [hside]
      exact Nat.le_refl _
  have hown := step_frame (j := j) hstep (Ne.symm hai)
  by_cases haj : a.actor = j
  · have hlocal := step_local hmodes hstep (j := i) (Ne.symm hai)
    rw [haj] at hlocal
    obtain ⟨hheeded, hbudget⟩ :=
      h.other (hmodes j) hlinked (alive_reachable hreach i j hij) hlocal
    refine ⟨⟨hfree', hown.1 ▸ hheeded⟩, le_trans (Nat.add_le_add_right ?_ _) hbudget⟩
    split_ifs with henter hmain
    · exact Nat.le_refl 1
    · subst henter
      obtain ⟨hm, rfl⟩ := effect_of_step hstep
      exact absurd ⟨hm, by simp [State.side, State.write]⟩ hmain
    · exact Nat.zero_le 1
    · exact Nat.le_refl 0
  · have hback := step_frame (j := i) hstep (Ne.symm haj)
    refine ⟨⟨hfree', ?_⟩, ?_⟩
    · rw [hown.1, hback.1, hown.2 (Ne.symm haj)]
      exact h
    · rw [if_neg (hother haj), Nat.zero_add]
      change ((t.side j i).deferred && (t.side j i).isWaiting).toNat ≤ _
      rw [hback.1]
      exact Nat.le_refl _

theorem overtakings_pay {i j : Fin n} (hij : i ≠ j) : (machine n).Pays (fun s => s.Heeded i j)
    (fun s a => ¬ YieldsInGap s a ∧ a ≠ .enterCriticalSection i)
    (fun a => if a == .enterCriticalSection j then 1 else 0) (fun _ => 0)
    fun s => s.overtakings i j where
  keeps s a t h hg hstep := (heeded_step hij h hg.1 hg.2 hstep).1
  pays s a t h hg hstep := by simpa using (heeded_step hij h hg.1 hg.2 hstep).2

/-- When client j has treated the REQUEST of client i, it knows. -/
theorem heeded_of_treatMessage {s t : State n} {i j : Fin n} (hij : i ≠ j) (h : GapFree s)
    {r : ℕ} {rest : List Message} (hm : s.inFlight i j = .request r :: rest)
    (hstep : step s (.treatMessage j i) = some t) (hg : ¬ YieldsInGap s (.treatMessage j i)) :
    t.Heeded i j := by
  have hfree : GapFree t := .step h hg hstep
  have hlinked := linked_gapFree h i j hij
  have hacc := accounted_gapFree hfree i j hij
  have hside : t.side i j = s.side i j := (step_frame (j := j) hstep hij).1
  have hrest : t.inFlight i j = rest := by
    obtain ⟨msg, rest', hm', rfl⟩ := effect_of_step hstep
    obtain ⟨-, rfl⟩ := List.cons.inj (hm.symm.trans hm')
    simp [State.write, hij]
  have hone := hlinked.there.once
  have hmem : .request r ∈ s.inFlight i j := hm ▸ List.mem_cons_self
  have hnone : requests (t.inFlight i j) = 0 := by
    rw [hm, requests_request] at hone
    rw [hrest]
    omega
  have hwaits : (s.side i j).isWaiting = true := by
    by_contra hw
    have hgone := (hlinked.there.nowhere (.inl (Bool.not_eq_true _ ▸ hw))).1
    exact absurd (requests_pos hmem) (by omega)
  have hfirst (hd : (t.side j i).deferred = false) : Heard i j (t.side i j) (t.side j i) := by
    refine hacc.there.replied ?_
    have htrace := hacc.linked.there.trace
    rw [hnone, hd, hside, hwaits, hlinked.there.not_holds hmem] at htrace
    simp only [Bool.toNat_false, Bool.not_false, Bool.and_self, Bool.toNat_true] at htrace
    omega
  refine ⟨hfree, hside ▸ hwaits, hnone, ?_, hfirst⟩
  cases hd : (t.side j i).deferred with
  | true => exact hacc.there.deferred hd
  | false => exact (hfirst hd).1

/-- After client j has treated the REQUEST of client i, in a run without a yield in the gap, it
enters once at most before client i does. -/
theorem overtaken_once (n : ℕ) (i j : Fin n) (hij : i ≠ j) (s t : State n) (h : GapFree s)
    (r : ℕ) (rest : List Message) (hm : s.inFlight i j = .request r :: rest)
    (acts : List (Action n)) (hr : (machine n).run s (.treatMessage j i :: acts) = some t)
    (hg : (machine n).Along (fun u a => ¬ YieldsInGap u a) s (.treatMessage j i :: acts))
    (hi : .enterCriticalSection i ∉ acts) : acts.count (.enterCriticalSection j) ≤ 1 := by
  obtain ⟨u, hstep, hr⟩ := Machine.run_cons.mp hr
  have hheeded := heeded_of_treatMessage hij h hm hstep hg.1
  have halong := (hg.2 u hstep).and_of_forall (p := fun a => a ≠ .enterCriticalSection i)
    fun a ha hai => hi (hai ▸ ha)
  have hbill := (overtakings_pay hij).run hheeded halong hr
  have hfree : Machine.total (fun _ : Action n => 0) acts = 0 := by simp [Machine.total]
  have hone : u.overtakings i j ≤ 1 := Bool.toNat_le _
  rw [Machine.total_ite, Nat.one_mul, hfree] at hbill
  change acts.count _ + _ ≤ _ at hbill
  omega

/-- Client 1 is overtaken by client 0, which has the lesser number. The next request of client 0
is put off. -/
theorem overtaken_once_crossing : ∃ s u : State 2, ∃ acts,
    (machine 2).run s acts = some u ∧ (u.strategy 1).replyDeferred 0 = true ∧
      .enterCriticalSection 0 ∈ acts ∧ acts.count (.enterCriticalSection 0) ≤ 1 := by
  let before : List (Action 2) := [.requestResource 0, .requestResource 1]
  let acts : List (Action 2) := [.treatMessage 1 0, .treatMessage 0 1, .canEnterCriticalSection 0,
    .enterCriticalSection 0, .releaseResource 0, .requestResource 0, .treatMessage 1 0,
    .treatMessage 1 0]
  let whole : List (Action 2) := .treatMessage 0 1 :: acts
  obtain ⟨s, hs, hp⟩ := (machine 2).exists_run (s := initial 2) before (fun s =>
    decide (s.inFlight 1 0 = [.request 1]) &&
    decide ((machine 2).Along (fun u a => ¬ YieldsInGap u a) s whole) &&
    ((machine 2).run s whole).any fun u => (u.strategy 1).replyDeferred 0) (by decide)
  simp only [Bool.and_eq_true, decide_eq_true_eq] at hp
  obtain ⟨⟨hm, hg⟩, hu⟩ := hp
  obtain ⟨u, hr, hd⟩ := (machine 2).exists_run whole _ hu
  have hbefore : (machine 2).Along (fun u a => ¬ YieldsInGap u a) (initial 2) before := by decide
  have hfree : GapFree s := hbefore.guarded (.init rfl) hs
  exact ⟨s, u, whole, hr, hd, by decide, overtaken_once 2 1 0 (by decide) s u hfree 1 [] hm acts
    hr hg (by decide)⟩

end DistributedME.RicartAgrawala
