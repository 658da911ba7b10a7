import DistributedME.Maekawa.Locks
import Mathlib.Data.List.Count

/-! Every INQUIRE of the current grant is answered at most once, and by its holder. -/
namespace DistributedME.Maekawa
open Library
variable {n : ℕ}

/-- The handler is busy with the INQUIRE of this grant. -/
def Handler.about (h : Handler) (grant : ℕ) : Bool :=
  match h with
  | .ready => false
  | .inquiring _ g => g = grant

/-- Behind a LOCKED comes no INQUIRE of another grant. -/
def Fresh (grant : ℕ) (down : List Down) : Prop :=
  down.Pairwise fun x y => x.isLocked = true → ∀ g, y = .inquire g → g = grant

/-- What is under way between an arbiter and one client about the current grant. -/
structure Asked (arb : Arbiter n) (j : Fin n) (a : Side) : Prop where
  locked : ∀ g, .locked g ∈ a.down → g = arb.grants
  inquired : ∀ g, .inquire g ∈ a.down → g ≤ arb.grants
  handling : ∀ point g, a.handler = .inquiring point g → g ≤ arb.grants
  relinquished : ∀ g, .relinquish g ∈ a.up → g = arb.grants
  once : a.down.count (.inquire arb.grants) + (a.handler.about arb.grants).toNat +
    relinquishes a.up ≤ (!arb.replied j).toNat
  current : a.holds = true → (∀ g, .inquire g ∈ a.down → g = arb.grants) ∧
    ∀ point g, a.handler = .inquiring point g → g = arb.grants
  fresh : Fresh arb.grants a.down

def View.Asked (v : View n) : Prop := ∀ j, Maekawa.Asked v.arbiter j (v.side j)

/-- A client that is not a member of the arbiter's quorum, or that has nothing, holds nothing. -/
theorem holds_iff {arb : Arbiter n} {j : Fin n} {a : Side} (h : Held arb j a) :
    a.holds = true → a.member = true := by
  intro hh
  cases hm : a.member with
  | true => rfl
  | false =>
    have := h.outside hm
    simp only [Side.holds] at hh
    split at hh <;> simp_all

theorem asked_side {p : Promise} (hp : p.inTime) (ho : p.inOrder) {arb : Arbiter n} {j : Fin n}
    {a b : Side} (hheld : Held arb j a) (h : Asked arb j a) (hm : SideMove p a b) :
    Asked arb j b := by
  obtain ⟨hl, hi, hh, hr, hone, hc, hf⟩ := h
  cases hm with
  | elsewhere x => exact ⟨hl, hi, hh, hr, hone, hc, hf⟩
  | request t x hmain hmem =>
    refine ⟨hl, hi, hh, fun g hg => hr g (by simpa using hg), by simpa using hone, ?_, hf⟩
    simp [Side.holds]
  | requestElsewhere t x hmain hmem =>
    refine ⟨hl, hi, hh, hr, hone, ?_, hf⟩
    simp [Side.holds, hheld.outside hmem]
  | enter hmain hreply =>
    refine ⟨hl, hi, hh, hr, hone, fun hholds => hc ?_, hf⟩
    simp only [Side.holds] at hholds
    simp [Side.holds, hmain, hreply hholds]
  | release x hmain hmem =>
    refine ⟨hl, hi, hh, fun g hg => hr g (by simpa using hg), by simpa using hone, ?_, hf⟩
    simp [Side.holds]
  | releaseElsewhere x hmain hmem =>
    refine ⟨hl, hi, hh, hr, hone, ?_, hf⟩
    simp [Side.holds, hheld.outside hmem]
  | @locked before behind grant x hready hdown hfirst =>
    obtain rfl := hfirst ho
    rw [List.nil_append] at hdown
    rw [hdown] at hl hi hone hf
    obtain ⟨hnext, hf⟩ := List.pairwise_cons.mp hf
    refine ⟨fun g hg => hl g (.tail _ hg), fun g hg => hi g (.tail _ hg), hh, hr, ?_,
      fun _ => ⟨fun g hg => hnext _ hg rfl g rfl, ?_⟩, hf⟩
    · simpa using hone
    · simp [hready]
  | @failed before behind x hready hdown hfirst =>
    obtain rfl := hfirst ho
    rw [List.nil_append] at hdown
    rw [hdown] at hl hi hone hf
    refine ⟨fun g hg => hl g (.tail _ hg), fun g hg => hi g (.tail _ hg), hh, hr, ?_,
      fun hholds => ?_, hf.tail⟩
    · simpa using hone
    · have hbefore := holds_of_failed hholds
      exact ⟨fun g hg => (hc hbefore).1 g (hdown ▸ .tail _ hg), (hc hbefore).2⟩
  | @inquire before behind grant hready hdown hfirst =>
    obtain rfl := hfirst ho
    rw [List.nil_append] at hdown
    rw [hdown] at hl hi hone hf
    refine ⟨fun g hg => hl g (.tail _ hg), fun g hg => hi g (.tail _ hg), ?_, hr, ?_,
      fun hholds => ⟨fun g hg => (hc hholds).1 g (hdown ▸ .tail _ hg), ?_⟩, hf.tail⟩
    · rintro point g hg
      cases hg
      exact hi grant List.mem_cons_self
    · by_cases hg : grant = arb.grants
      · simp [hready, Handler.about, hg] at hone ⊢
        omega
      · simpa [hready, Handler.about, hg] using hone
    · rintro point g hg
      cases hg
      exact (hc hholds).1 grant (hdown ▸ List.mem_cons_self)
  | @consider point grant point' hpoint =>
    refine ⟨hl, hi, ?_, hr, ?_, fun hholds => ⟨(hc hholds).1, ?_⟩, hf⟩
    · rintro point g hg
      cases hg
      exact hh _ _ hpoint
    · simpa [hpoint, Handler.about] using hone
    · rintro point g hg
      cases hg
      exact (hc hholds).2 _ _ hpoint
  | leave grant hpoint hanswer =>
    refine ⟨hl, hi, by simp, hr, ?_, fun hholds => ⟨(hc hholds).1, by simp⟩, hf⟩
    simp only [Handler.about, Bool.toNat_false]
    omega
  | relinquish grant x hpoint htime =>
    obtain ⟨hmain, hreply⟩ := htime hp
    have hgrant : grant = arb.grants :=
      (hc (by simp [Side.holds, hmain, hreply])).2 _ _ hpoint
    subst hgrant
    refine ⟨hl, hi, by simp, ?_, ?_, ?_, hf⟩
    · intro g hg
      rcases List.mem_append.mp hg with hg | hg
      · exact hr g hg
      · simpa using hg
    · simp [hpoint, Handler.about] at hone ⊢
      omega
    · simp [Side.holds, hmain]

theorem fresh_of_no_locked {grant : ℕ} {down : List Down} (h : lockeds down = 0) :
    Fresh grant down := by
  refine List.pairwise_iff_forall_sublist.mpr fun {x y} hs hx => ?_
  have hmem : x ∈ down := hs.subset List.mem_cons_self
  exact absurd h (Nat.ne_of_gt (List.countP_pos_iff.mpr ⟨x, hmem, hx⟩))

theorem fresh_append {grant : ℕ} {x y : List Down} (hx : Fresh grant x) (hy : Fresh grant y)
    (h : ∀ g, .inquire g ∈ y → g = grant) : Fresh grant (x ++ y) := by
  refine List.pairwise_append.mpr ⟨hx, hy, ?_⟩
  rintro a _ b hb _ g rfl
  exact h g hb

/-- A new grant finds nothing of the old one under way. -/
private theorem asked_grant {v : View n} (h : v.Asked) {j y : Fin n} {up : List Up}
    {arb : Arbiter n} (hg : arb.grants = v.arbiter.grants + 1) (hy : arb.locking.sender = some y)
    (hheld : (v.arbitrate j up arb (Network.only y [.locked arb.grants])).Held) :
    (v.arbitrate j up arb (Network.only y [.locked arb.grants])).Asked := by
  intro z
  obtain ⟨hl, hi, hh, hr, hone, hc, hf⟩ := h z
  have htok := (hheld.client z).token
  have hholder : (arb.holder z).toNat ≤ (decide (z = y)).toNat := by
    by_cases hz : z = y
    · simpa [hz] using Bool.toNat_le _
    · simp [Arbiter.holder, hy, hz, Ne.symm hz]
  have honly : lockeds (Network.only y [.locked arb.grants] z) = (decide (z = y)).toNat := by
    rw [lockeds_only, isLocked_locked, Bool.and_true]
  simp only [Side.tokens, arbitrate_down, arbitrate_up, arbitrate_holds, arbitrate_arbiter,
    lockeds_append, honly] at htok
  have hdown : lockeds (v.side z).down = 0 := by omega
  have hholds : (v.side z).holds = false := by
    cases hz : (v.side z).holds with
    | false => rfl
    | true =>
      simp only [hz, Bool.toNat_true] at htok
      omega
  have hmem {d : Down} (hd : d ∈ (v.side z).down ++ Network.only y [.locked arb.grants] z) :
      d ∈ (v.side z).down ∨ d = .locked arb.grants :=
    (Network.mem_append_only.mp hd).imp_right And.right
  refine ⟨?_, ?_, ?_, ?_, ?_, ?_, ?_⟩
  · intro g hgm
    rcases hmem hgm with hgm | hgm
    · exact absurd hdown (Nat.ne_of_gt (List.countP_pos_iff.mpr ⟨_, hgm, rfl⟩))
    · simpa using hgm
  · intro g hgm
    rcases hmem hgm with hgm | hgm
    · exact (hi g hgm).trans (by rw [arbitrate_arbiter, hg]; exact Nat.le_succ _)
    · cases hgm
  · intro point g hp
    exact (hh point g hp).trans (by rw [arbitrate_arbiter, hg]; exact Nat.le_succ _)
  · intro g hgm
    have hz : 0 < relinquishes ((v.arbitrate j up arb (Network.only y [.locked arb.grants])).side
        z).up := List.countP_pos_iff.mpr ⟨_, hgm, rfl⟩
    simp only [arbitrate_up] at hz
    omega
  · have hcount : ((v.side z).down ++ Network.only y [Down.locked arb.grants] z).count
        (Down.inquire arb.grants) = 0 := by
      refine List.count_eq_zero_of_not_mem fun hgm => ?_
      rcases hmem hgm with hgm | hgm
      · have := hi _ hgm
        omega
      · cases hgm
    have habout : (v.side z).handler.about arb.grants = false := by
      cases hp : (v.side z).handler with
      | ready => rfl
      | inquiring point g =>
        have := hh point g hp
        simp only [Handler.about, decide_eq_false_iff_not]
        omega
    simp only [arbitrate_arbiter, arbitrate_down, arbitrate_handler, arbitrate_up, hcount, habout,
      Bool.toNat_false]
    omega
  · intro hh'
    simp [hholds] at hh'
  · refine fresh_append (fresh_of_no_locked hdown) ?_ ?_
    · by_cases hz : z = y
      · simp [hz, Fresh]
      · simp [hz, Fresh]
    · intro g hgm
      cases List.mem_singleton.mp (Network.mem_only.mp hgm).2

/-- No new grant: FAILED goes out, or the INQUIRE of the current grant. -/
private theorem asked_keep {v : View n} (h : v.Asked) {j : Fin n} {m : Up}
    {before behind : List Up} (hup : (v.side j).up = before ++ m :: behind) {arb : Arbiter n}
    (hg : arb.grants = v.arbiter.grants) {out : Fin n → List Down}
    (hout : ∀ z, ∀ d ∈ out z, d = .failed ∨ d = .inquire arb.grants)
    (honce : ∀ z, (out z).count (.inquire arb.grants) + (!v.arbiter.replied z).toNat ≤
      (!arb.replied z).toNat) : (v.arbitrate j (before ++ behind) arb out).Asked := by
  intro z
  obtain ⟨hl, hi, hh, hr, hone, hc, hf⟩ := h z
  rw [← hg] at hl hi hh hr hone hc hf
  have hmem {d : Down} (hd : d ∈ (v.side z).down ++ out z) :
      d ∈ (v.side z).down ∨ d = .failed ∨ d = .inquire arb.grants :=
    (List.mem_append.mp hd).imp_right (hout z d)
  refine ⟨?_, ?_, hh, ?_, ?_, fun hholds => ⟨fun g hgm => ?_, (hc hholds).2⟩, ?_⟩
  · intro g hgm
    rcases hmem hgm with hgm | hgm | hgm
    · exact hl g hgm
    · cases hgm
    · cases hgm
  · intro g hgm
    rcases hmem hgm with hgm | hgm | hgm
    · exact hi g hgm
    · cases hgm
    · exact (Down.inquire.inj hgm).le
  · exact fun g hgm => hr g ((left_sublist hup z).subset hgm)
  · have hrel : relinquishes ((v.arbitrate j (before ++ behind) arb out).side z).up ≤
        relinquishes (v.side z).up := (left_sublist hup z).countP_le
    have := honce z
    simp only [arbitrate_arbiter, arbitrate_down, arbitrate_handler, List.count_append]
    omega
  · rcases hmem hgm with hgm | hgm | hgm
    · exact (hc hholds).1 g hgm
    · cases hgm
    · exact Down.inquire.inj hgm
  · refine fresh_append hf ?_ ?_
    · apply fresh_of_no_locked
      refine List.countP_eq_zero.mpr fun d hd => ?_
      rcases hout z d hd with rfl | rfl <;> simp
    · intro g hgm
      rcases hout z _ hgm with hgm | hgm
      · cases hgm
      · exact Down.inquire.inj hgm

theorem asked_arbiter {p : Promise} {v : View n} (hheld : v.Held) (h : v.Asked) {j : Fin n}
    {m : Up} {before behind : List Up} {arb : Arbiter n} {out : Fin n → List Down}
    (hup : (v.side j).up = before ++ m :: behind) (ha : Arbitration p v.arbiter j m arb out) :
    (v.arbitrate j (before ++ behind) arb out).Asked := by
  have hw := held_arbiter hheld hup ha
  have honly {y z : Fin n} {d d' : Down} (hd : d' ∈ Network.only y [d] z) : d' = d :=
    List.mem_singleton.mp (Network.mem_only.mp hd).2
  cases ha with
  | accept t hfree => exact asked_grant h rfl rfl hw
  | refuse t hlocked hroom hkey =>
    apply asked_keep h hup
    · rfl
    · exact fun z d hd => .inl (honly hd)
    · intro z
      rw [List.count_eq_zero_of_not_mem fun hd => by cases honly hd]
      simp [Arbiter.enqueue]
  | inquire t y hlocked hroom hy hyes hkey htop =>
    apply asked_keep h hup
    · rfl
    · exact fun z d hd => .inr (honly hd)
    · intro z
      by_cases hz : z = y
      · subst z
        simp [hyes, Arbiter.enqueue]
      · simp [hz]
  | await t hlocked hheard =>
    apply asked_keep h hup
    · rfl
    · exact fun z d hd => absurd hd List.not_mem_nil
    · intro z
      simp [Arbiter.enqueue]
  | hand y hq hy => exact asked_grant h rfl hy hw
  | free hq =>
    apply asked_keep h hup
    · rfl
    · exact fun z d hd => absurd hd List.not_mem_nil
    · intro z
      -- an INQUIRE is out only while somebody waits
      have hyes : v.arbiter.replied z = true := by
        by_contra hno
        exact ((hheld.client z).replied (Bool.not_eq_true _ ▸ hno)).2 hq
      simp [hyes]
  | replace grant y hq hy => exact asked_grant h rfl hy hw

theorem initial_asked (Q : Quorums n) (k : Fin n) : ((initial n).view Q k).Asked := by
  intro j
  constructor <;> simp [initial, State.view, State.side, Strategy.construct, Side.holds,
    Handler.about, Fresh]

/-- The step lemma. -/
theorem asked_move {p : Promise} (hp : p.inTime) (ho : p.inOrder) {v w : View n} (hheld : v.Held)
    (h : v.Asked) (hm : Move p v w) : w.Asked := by
  cases hm with
  | stay => exact h
  | client j hs =>
    intro y
    by_cases hy : y = j
    · subst y
      rw [change_self]
      exact asked_side hp ho (hheld.client j) (h j) hs
    · rw [change_of_ne _ _ hy]
      exact h y
  | arbiter j hup hfirst ha => exact asked_arbiter hheld h hup ha

/-- The run lemma. -/
theorem asked_inOrder {Q : Quorums n} {s : State n}
    (h : (machine Q).Guarded (fun s a => inTime s a = true ∧ inOrder a = true) s) (k : Fin n) :
    (s.view Q k).Asked := by
  refine h.invariant_of (J := fun s => (s.view Q k).Held) (I := fun s => (s.view Q k).Asked)
    (fun s hs => held_inTime (hs.mono fun _ _ hg => hg.1) k) ?_ fun s a t hJ _ hI hg hs => ?_
  · rintro _ rfl
    exact initial_asked Q k
  · exact asked_move hg.1 hg.2 hJ hI (step_move hs k)

/-- The lock of arbiter k is given to the outstanding request of client y by this grant, and
another request waits for it. -/
structure State.Current (s : State n) (k y : Fin n) (grant : ℕ) : Prop where
  locked : (s.strategy k).isLocked = true
  request : (s.strategy k).lockingRequest = ⟨(s.strategy y).ourSequenceNumber, some y⟩
  outstanding : s.main y = .polling
  grant : (s.strategy k).grants = grant
  waited : (s.strategy k).waitingQueue.items ≠ []

/-- Whenever arbiter k can treat a RELINQUISH, it answers the INQUIRE of the current grant. -/
def State.RelinquishesCurrent (s : State n) : Prop :=
  ∀ k y place t grant, (s.inFlight y k)[place]? = some ⟨t, .relinquish grant⟩ →
    s.handler k y = .ready → s.Deliverable k y place ⟨t, .relinquish grant⟩ →
    s.Current k y grant

theorem current_of_relinquish {Q : Quorums n} {s : State n} {k y : Fin n} {grant : ℕ}
    (hheld : (s.view Q k).Held) (hasked : (s.view Q k).Asked)
    (hm : Up.relinquish grant ∈ ((s.view Q k).side y).up) : s.Current k y grant := by
  obtain ⟨ht, hr, -, -, hl, -, hi⟩ := hheld.client y
  have hpos : 0 < relinquishes ((s.view Q k).side y).up :=
    List.countP_pos_iff.mpr ⟨_, hm, rfl⟩
  have hholder : (s.view Q k).arbiter.holder y = true := hheld.holder_of_up (by omega)
  simp only [Side.tokens, hholder, Bool.toNat_true] at ht
  obtain ⟨hlocked, hsender⟩ := holder_iff.mp hholder
  have hnumber := hl hholder (by omega)
  refine ⟨hlocked, ?_, ?_, ((hasked y).relinquished grant hm).symm, ?_⟩
  · calc (s.strategy k).lockingRequest
        = ⟨(s.strategy k).lockingRequest.timestamp, (s.strategy k).lockingRequest.sender⟩ := rfl
      _ = ⟨(s.strategy y).ourSequenceNumber, some y⟩ :=
        congrArg₂ Request.mk hnumber hsender
  · exact ((hheld.client y).waiting (by omega)).1
  · have hno : (s.view Q k).arbiter.replied y = false := by
      have := (hasked y).once
      cases hr : (s.view Q k).arbiter.replied y with
      | false => rfl
      | true =>
        simp only [hr, Bool.not_true, Bool.toNat_false] at this
        omega
    exact (hi hno).2

/-- RELINQUISH messages are about current grants in every run whose RELINQUISH messages are
all sent in time and whose messages of a client to itself keep their order. -/
theorem relinquish_about_current_grant (Q : Quorums n) (acts : List (Action n)) (s : State n)
    (hg : (machine Q).Along (fun s a => inTime s a = true ∧ inOrder a = true) (initial n) acts)
    (hr : (machine Q).run (initial n) acts = some s) : s.RelinquishesCurrent := by
  have hs := hg.guarded (.init rfl) hr
  intro k y place t grant hm _ _
  refine current_of_relinquish (held_inTime (hs.mono fun _ _ hg => hg.1) k)
    (asked_inOrder (Q := Q) hs k) ?_
  exact List.mem_filterMap.mpr ⟨_, List.mem_of_getElem? hm, rfl⟩

theorem relinquish_about_current_grant_in_yieldRun : ∃ s : State 2, s.Current 1 1 1 := by
  obtain ⟨s, hr, hp⟩ := (machine .pair).exists_run (s := initial 2) (yieldRun.take 12)
    (fun s => (s.inFlight 1 1)[0]? = some ⟨1, .relinquish 1⟩ && s.handler 1 1 = .ready &&
      decide (s.Deliverable 1 1 0 ⟨1, .relinquish 1⟩)) (by decide)
  simp only [Bool.and_eq_true, decide_eq_true_eq] at hp
  exact ⟨s, relinquish_about_current_grant .pair _ s (by decide) hr 1 1 0 1 1
    hp.1.1 hp.1.2 hp.2⟩

/-- Client 1 enters and releases while an INQUIRE is on its way to it, and answers the INQUIRE
with the refusal of its next request. By then arbiter 1 is locked for client 0. -/
def staleRun : List (Action 2) :=
  [.requestResource 0, .requestResource 1, .treatMessage 1 1 0, .treatMessage 1 0 0,
    .treatMessage 0 1 0, .treatMessage 1 1 0, .treatMessage 1 1 0, .treatMessage 1 0 0,
    .canEnterCriticalSection 1, .releaseResource 1, .requestResource 1, .treatMessage 0 1 0,
    .treatMessage 0 0 0, .treatMessage 0 1 0, .treatMessage 1 0 0, .treatInquireMessage 1 1,
    .treatInquireMessage 1 1, .treatInquireMessage 1 1, .treatMessage 1 1 0,
    .treatMessage 1 1 0]

theorem relinquish_about_current_grant_fails : ¬ ∀ (n : ℕ) (Q : Quorums n) (s : State n),
    (machine Q).Reachable s → s.RelinquishesCurrent := by
  intro h
  obtain ⟨s, hs, hp⟩ := (machine .pair).exists_reachable_of_run (s := initial 2) rfl staleRun
    (fun s => (s.inFlight 1 1)[0]? = some ⟨2, .relinquish 1⟩ && s.handler 1 1 = .ready &&
      decide (s.Deliverable 1 1 0 ⟨2, .relinquish 1⟩) &&
      (s.strategy 1).lockingRequest = ⟨1, some 0⟩) (by decide)
  simp only [Bool.and_eq_true, decide_eq_true_eq] at hp
  have hcurrent := h 2 .pair s hs 1 1 0 2 1 hp.1.1.1 hp.1.1.2 hp.1.2
  have hsender := congrArg Request.sender (hcurrent.request.symm.trans hp.2)
  simp at hsender

end DistributedME.Maekawa
