import DistributedME.Maekawa.Handlers
import Mathlib.Data.Finset.Max

/-! An INQUIRE that is out has an answer under way, or needs none. With that no circle of
waiting clients closes, as long as nothing that is needed waits behind a busy handler. -/
namespace DistributedME.Maekawa
open Library
variable {n : ℕ}

/-- The INQUIRE about the client's lock, its handler or its answer is still under way. -/
def Side.Answering (a : Side) (grant : ℕ) : Prop :=
  .inquire grant ∈ a.down ∨ a.handler.about grant = true ∨
    0 < relinquishes a.up ∨ 0 < releases a.up

/-- The client comes to release its locks without an answer. -/
def Side.Settled (a : Side) : Prop := a.main = .inside ∨ a.main = .polling ∧ a.allLocked = true

/-- The handler of an INQUIRE has the LOCKED before it, and no INQUIRE is forgotten. -/
structure Answered (arb : Arbiter n) (j : Fin n) (a : Side) : Prop where
  treated : a.handler.about arb.grants = true → lockeds a.down = 0
  answer : arb.holder j = true → arb.replied j = false → a.Answering arb.grants ∨ a.Settled

def View.Answered (v : View n) : Prop := ∀ j, Maekawa.Answered v.arbiter j (v.side j)

section side
variable {p : Promise} {a b : Side}

private theorem SideMove.mail (hm : SideMove p a b) :
    relinquishes a.up ≤ relinquishes b.up ∧ releases a.up ≤ releases b.up := by
  cases hm <;> simp

private theorem SideMove.inquired (ho : p.inOrder) (hm : SideMove p a b) {g : ℕ}
    (hg : .inquire g ∈ a.down) : b.Answering g := by
  cases hm with
  | @locked before behind grant x hready hdown hfirst =>
    obtain rfl := hfirst ho
    exact .inl (by simpa [hdown] using hg)
  | @failed before behind x hready hdown hfirst =>
    obtain rfl := hfirst ho
    exact .inl (by simpa [hdown] using hg)
  | @inquire before behind grant hready hdown hfirst =>
    obtain rfl := hfirst ho
    rw [hdown] at hg
    rcases List.mem_cons.mp hg with hg | hg
    · cases hg
      exact .inr (.inl (by simp [Handler.about]))
    · exact .inl hg
  | _ => exact .inl hg

end side

theorem Held.lockeds_eq_zero {arb : Arbiter n} {j : Fin n} {a : Side} (h : Held arb j a)
    (hholds : a.holds = true) : lockeds a.down = 0 := by
  have ht := h.token
  have hone := Bool.toNat_le (arb.holder j)
  simp only [Side.tokens, hholds, Bool.toNat_true] at ht
  omega

/-- A client with LOCKED in request_reply has the lock of the arbiter, wherever its main thread
is. -/
theorem Held.holds_of_locked {arb : Arbiter n} {j : Fin n} {a : Side} (h : Held arb j a)
    (hreply : a.reply = .locked) : a.holds = true := by
  cases hm : a.main with
  | inside =>
    simp only [Side.holds, hm]
    cases hmem : a.member with
    | true => rfl
    | false => exact absurd hreply (h.outside hmem)
  | idle | polling => simp [Side.holds, hm, hreply]

private theorem treated_side {p : Promise} (ho : p.inOrder) (hn : p.noticed) {arb : Arbiter n}
    {j : Fin n} {a b : Side} (hheld : Held arb j a)
    (h : a.handler.about arb.grants = true → lockeds a.down = 0) (hm : SideMove p a b) :
    b.handler.about arb.grants = true → lockeds b.down = 0 := by
  cases hm with
  | locked grant x hready | failed x hready =>
    intro habout
    simp [hready, Handler.about] at habout
  | @inquire before behind grant hready hdown hfirst hreply =>
    obtain rfl := hfirst ho
    intro _
    have hzero := hheld.lockeds_eq_zero (hheld.holds_of_locked (hreply hn))
    simpa [hdown] using hzero
  | consider grant point' hpoint =>
    intro habout
    exact h (by simpa [hpoint, Handler.about] using habout)
  | leave grant hpoint hanswer => exact fun habout => (Bool.false_ne_true habout).elim
  | relinquish grant x hpoint htime => exact fun habout => (Bool.false_ne_true habout).elim
  | _ => exact h

private theorem answer_side {p : Promise} (hp : p.Kept) {arb : Arbiter n} {j : Fin n} {a b : Side}
    (hheld : Held arb j a) (hplaced : Placed arb j a) (h : Answered arb j a)
    (hsettled : a.main = .polling → a.allLocked = true → arb.holder j = true →
      arb.replied j = false → a.Answering arb.grants ∨ b.Settled)
    (hm : SideMove p a b) (hj : arb.holder j = true) (hno : arb.replied j = false) :
    b.Answering arb.grants ∨ b.Settled := by
  obtain ⟨hrel, hfree⟩ := hm.mail
  have hasked (hx : a.Answering arb.grants) : b.Answering arb.grants ∨ b.Settled := by
    rcases hx with hg | hx | hx | hx
    · exact .inl (hm.inquired hp.inOrder hg)
    · cases hm with
      | locked grant x hready | failed x hready | inquire grant hready =>
        simp [hready, Handler.about] at hx
      | consider grant point' hpoint =>
        exact .inl (.inr (.inl (by simpa [hpoint, Handler.about] using hx)))
      | leave grant hpoint hanswer =>
        -- the lock that was asked for is with the client, or on its way back
        have ht := hplaced.token
        simp only [Side.tokens, h.treated hx, hj, Bool.toNat_true, zero_add] at ht
        cases hholds : a.holds with
        | false =>
          rw [hholds, Bool.toNat_false, zero_add] at ht
          by_cases hr : 0 < relinquishes a.up
          · exact .inl (.inr (.inr (.inl hr)))
          · exact .inl (.inr (.inr (.inr (by simp only; omega))))
        | true =>
          cases hmain : a.main with
          | inside => exact .inr (.inl rfl)
          | idle => exact .inl (.inr (.inr (.inr ((hheld.nothing_asked hmain).2.2 hj))))
          | polling =>
            simp only [Side.holds, hmain, decide_eq_true_eq] at hholds
            exact .inr (.inr ⟨rfl, hanswer hp.answers hmain hholds⟩)
      | relinquish grant x hpoint htime => exact .inl (.inr (.inr (.inl (by simp))))
      | _ => exact .inl (.inr (.inl hx))
    · exact .inl (.inr (.inr (.inl (hx.trans_le hrel))))
    · exact .inl (.inr (.inr (.inr (hx.trans_le hfree))))
  rcases h.answer hj hno with hx | hinside | ⟨hpolling, hall⟩
  · exact hasked hx
  · cases hm with
    | release x hmain hmem => exact .inl (.inr (.inr (.inr (by simp))))
    | releaseElsewhere x hmain hmem =>
      have hr := hheld.request
      simp only [Side.active, hmain, hmem, hj, Bool.toNat_true, Bool.toNat_false] at hr
      exact .inl (.inr (.inr (.inr (by simp only; omega))))
    | request t x hmain | requestElsewhere t x hmain | enter hmain => simp [hmain] at hinside
    | _ => exact .inr (.inl hinside)
  · rcases hsettled hpolling hall hj hno with hx | hx
    · exact hasked hx
    · exact .inr hx

/-- An arbiter that takes a REQUEST keeps what is under way about the lock. -/
private theorem answered_keep {v : View n} (h : v.Answered) {j : Fin n} {t : ℕ}
    {before behind : List Up} (hup : (v.side j).up = before ++ .request t :: behind)
    {arb : Arbiter n} {out : Fin n → List Down} {z : Fin n}
    (hholder : arb.holder z = v.arbiter.holder z) (hreplied : arb.replied z = v.arbiter.replied z)
    (hgrants : arb.grants = v.arbiter.grants) (hout : lockeds (out z) = 0) :
    Answered arb z ((v.arbitrate j (before ++ behind) arb out).side z) := by
  have hrel : relinquishes ((v.arbitrate j (before ++ behind) arb out).side z).up =
      relinquishes (v.side z).up := by
    by_cases hz : z = j
    · subst z
      simp [hup]
    · simp [hz]
  have hfree : releases ((v.arbitrate j (before ++ behind) arb out).side z).up =
      releases (v.side z).up := by
    by_cases hz : z = j
    · subst z
      simp [hup]
    · simp [hz]
  refine ⟨fun habout => ?_, fun hj hno => ?_⟩
  · rw [arbitrate_down, lockeds_append, hout, (h z).treated (hgrants ▸ habout)]
  · rw [Side.Answering, hrel, hfree, hgrants]
    refine ((h z).answer (hholder ▸ hj) (hreplied ▸ hno)).imp_left (Or.imp_left fun hg => ?_)
    exact List.mem_append.mpr (.inl hg)

private theorem answered_arbiter {p : Promise} {v : View n} (hheld : v.Held) (hasked : v.Asked)
    (h : v.Answered) {j : Fin n} {m : Up} {before behind : List Up} {arb : Arbiter n}
    {out : Fin n → List Down} (hup : (v.side j).up = before ++ m :: behind)
    (ha : Arbitration p v.arbiter j m arb out) :
    (v.arbitrate j (before ++ behind) arb out).Answered := by
  -- only the holder can be asked, and a RELINQUISH or RELEASE comes from it
  have hfrom {z : Fin n} (hz : v.arbiter.replied z = false) := ((hheld.client z).replied hz).1
  have hback (hm : m.isRequest = false) (z : Fin n) :
      Function.update v.arbiter.replied j true z = true := by
    rw [Function.update_apply]
    split_ifs with hz
    · rfl
    · by_contra hno
      exact hz (holder_unique (hfrom (Bool.not_eq_true _ ▸ hno)) (hheld.holder_of_return hup hm))
  -- no handler has an INQUIRE of the next grant
  have hnext {z : Fin n} {a : Side} (hhandler : a.handler = (v.side z).handler)
      (habout : a.handler.about (v.arbiter.grants + 1) = true) : False := by
    rw [hhandler] at habout
    cases hh : (v.side z).handler with
    | ready => simp [hh, Handler.about] at habout
    | inquiring point g =>
      simp only [hh, Handler.about, decide_eq_true_eq] at habout
      have := (hasked z).handling point g hh
      omega
  intro z
  cases ha with
  | accept t hfree =>
    refine ⟨fun habout => (hnext rfl habout).elim, fun _ hno => ?_⟩
    have hz := hfrom (z := z) hno
    simp [Arbiter.holder, hfree] at hz
  | refuse t hlocked hroom hkey =>
    exact answered_keep h hup rfl rfl rfl (by simp [lockeds_only])
  | inquire t y hlocked hroom hy hyes hkey htop =>
    by_cases hz : z = y
    · subst z
      refine ⟨fun habout => ?_, fun _ _ => .inl (.inl (by simp [Arbiter.enqueue]))⟩
      rw [arbitrate_down, lockeds_append, (h y).treated habout, lockeds_only]
      simp
    · exact answered_keep h hup rfl (Function.update_of_ne hz ..) rfl (by simp [hz])
  | await t hlocked hheard => exact answered_keep h hup rfl rfl rfl rfl
  | hand y hq hy =>
    refine ⟨fun habout => (hnext rfl habout).elim, fun _ hno => ?_⟩
    exact absurd (hback rfl z) (Bool.eq_false_iff.mp hno)
  | free hq =>
    refine ⟨fun habout => ?_, fun hj => (Bool.false_ne_true hj).elim⟩
    rw [arbitrate_down, List.append_nil]
    exact (h z).treated habout
  | replace grant y hq hy =>
    refine ⟨fun habout => (hnext rfl habout).elim, fun _ hno => ?_⟩
    exact absurd (hback rfl z) (Bool.eq_false_iff.mp hno)

theorem initial_answered (Q : Quorums n) (k : Fin n) : ((initial n).view Q k).Answered :=
  fun _ => ⟨fun habout => (Bool.false_ne_true habout).elim, fun hj => (Bool.false_ne_true hj).elim⟩

/-- The step lemma. Whether a client has all locks is not the arbiter's business alone. -/
theorem answered_move {p : Promise} (hp : p.Kept) {v w : View n} (hheld : v.Held)
    (hasked : v.Asked) (hplaced : v.Placed)
    (hsettled : ∀ j, (v.side j).main = .polling → (v.side j).allLocked = true →
      v.arbiter.holder j = true → v.arbiter.replied j = false →
      (v.side j).Answering v.arbiter.grants ∨ (w.side j).Settled)
    (h : v.Answered) (hm : Move p v w) : w.Answered := by
  cases hm with
  | stay => exact h
  | @client j b hs =>
    intro y
    by_cases hy : y = j
    · subst y
      have hb := hsettled j
      rw [change_self] at hb ⊢
      exact ⟨treated_side hp.inOrder hp.noticed (hheld.client j) (h j).treated hs,
        answer_side hp (hheld.client j) (hplaced.client j) (h j) hb hs⟩
    · rw [change_of_ne _ _ hy]
      exact h y
  | arbiter j hup hfirst harb => exact answered_arbiter hheld hasked h hup harb

/-- The answer to an INQUIRE for a lock that its client has is about the current grant. -/
private theorem answering_of_asking {Q : Quorums n} {s : State n} {j k : Fin n}
    (hasked : (s.view Q k).Asked) (hholds : (s.side Q k j).holds = true)
    (h : s.asking k j = true) : (s.side Q k j).Answering (s.view Q k).arbiter.grants := by
  obtain ⟨hdown, hhandler⟩ := (hasked j).current hholds
  simp only [State.asking, Bool.or_eq_true, decide_eq_true_eq, List.any_eq_true] at h
  rcases h with h | ⟨⟨ts, body⟩, hm, hbody⟩
  · cases hh : s.handler j k with
    | ready => exact absurd hh h
    | inquiring point g =>
      obtain rfl := hhandler point g hh
      exact .inr (.inl (by simp [State.side, hh, Handler.about]))
  · cases body with
    | inquire g =>
      have hg : .inquire g ∈ (s.side Q k j).down := List.mem_filterMap.mpr ⟨_, hm, rfl⟩
      obtain rfl := hdown g hg
      exact .inl hg
    | _ => cases hbody

/-- A waiting client that has all locks keeps them until it enters, or still has an answer to
give to each INQUIRE. -/
theorem settled_step {Q : Quorums n} {s t : State n} {a : Action n} (ha : answers Q s a = true)
    (hheld : ∀ k, (s.view Q k).Held) (hplaced : ∀ k, (s.view Q k).Placed)
    (hasked : ∀ k, (s.view Q k).Asked) (hs : step Q s a = some t) (j k : Fin n)
    (hm : s.main j = .polling) (hall : (s.strategy j).receivedAllLocked (Q.quorum j) = true)
    (hj : (s.view Q k).arbiter.holder j = true) (hno : (s.view Q k).arbiter.replied j = false) :
    (s.side Q k j).Answering (s.view Q k).arbiter.grants ∨ (t.side Q k j).Settled := by
  have hlocked := of_decide_eq_true hall
  have hholds {q : Fin n} (hq : q ∈ Q.quorum j) : (s.side Q q j).holds = true := by
    simp [State.side, Side.holds, hm, hlocked q hq]
  have hkeep {u : State n} (hmain : u.main j = s.main j)
      (hreply : ∀ q ∈ Q.quorum j, (u.strategy j).requestReply q = .locked) :
      (u.side Q k j).Settled :=
    .inr ⟨hmain.trans hm, decide_eq_true hreply⟩
  have he := effect_of_step hs
  cases a with
  | requestResource i =>
    obtain ⟨hidle, rfl⟩ := he
    have hi : j ≠ i := fun hi => MainThread.noConfusion (hm.symm.trans (hi ▸ hidle))
    exact .inr (hkeep (by simp [State.write, hi]) (by simpa [State.write, hi] using hlocked))
  | canEnterCriticalSection i =>
    obtain ⟨hpolling, rfl⟩ := he
    by_cases hi : j = i
    · subst i
      have hyes : (s.strategy j).canEnterCriticalSection (Q.quorum j) = true := hall
      exact .inr (.inl (by simp [State.side, State.write, hyes]))
    · exact .inr (hkeep (by simp [State.write, hi]) (by simpa [State.write, hi] using hlocked))
  | releaseResource i =>
    obtain ⟨hinside, rfl⟩ := he
    have hi : j ≠ i := fun hi => MainThread.noConfusion (hm.symm.trans (hi ▸ hinside))
    exact .inr (hkeep (by simp [State.write, hi]) (by simpa [State.write, hi] using hlocked))
  | treatMessage i y place =>
    obtain ⟨before, message, behind, c, out, hl, -, -, hc, rfl⟩ := he
    have hmain : (((s.receive i y (before ++ behind)).write i c (s.main i) out).setHandler
        i y message.body.handler).main j = s.main j := by
      by_cases hi : j = i <;> simp [State.setHandler, State.write, State.receive, hi]
    refine .inr (hkeep hmain fun q hq => ?_)
    by_cases hi : j = i
    · subst i
      simp only [State.setHandler, State.write, Function.update_self]
      have hreply := requestReply_treatMessage hc
      split at hreply <;> rw [hreply]
      · rw [Function.update_apply]
        split_ifs
        · rfl
        · exact hlocked q hq
      · next hf =>
        rw [Function.update_apply]
        split_ifs with hqy
        · -- behind the LOCKED that the client has there is no FAILED
          subst q
          refine absurd ?_ (((hplaced y).client j).accepted (hholds hq))
          exact List.mem_filterMap.mpr ⟨message, by simp [hl], by simp [Message.down?, hf]⟩
        · exact hlocked q hq
      all_goals exact hlocked q hq
    · simpa [State.setHandler, State.write, State.receive, hi] using hlocked q hq
  | treatInquireMessage i y =>
    obtain ⟨grant, ⟨point, point', hi, rfl⟩ | ⟨hi, rfl⟩ | ⟨hi, rfl⟩⟩ := he
    · exact .inr (hkeep rfl hlocked)
    · exact .inr (hkeep rfl hlocked)
    by_cases hji : j = i
    · subst i
      by_cases hk : k ∈ Q.quorum j
      · simp only [answers, hi, hall, Bool.not_true, Bool.false_or, Bool.and_eq_true,
          decide_eq_true_eq] at ha
        rcases ha.2 k with rfl | hyes | hasking
        · have hbusy : s.asking k j = true := by simp [State.asking, hi]
          exact .inl (answering_of_asking (hasked k) (hholds hk) hbusy)
        · exact absurd hyes (Bool.eq_false_iff.mp hno)
        · exact .inl (answering_of_asking (hasked k) (hholds hk) hasking)
      · have hr := ((hheld k).client j).request
        have hmem : ((s.view Q k).side j).active = false := by
          simp [State.view, State.side, Side.active, hm, hk]
        simp only [hmem, hj, Bool.toNat_true, Bool.toNat_false] at hr
        exact .inl (.inr (.inr (.inr (by change 0 < releases ((s.view Q k).side j).up; omega))))
    · refine .inr (hkeep ?_ ?_)
      · simp [State.setHandler, State.write]
      · simpa [State.setHandler, State.write, hji] using hlocked

/-- What a step has to keep for no circle of waiting clients to close. -/
def keeps (Q : Quorums n) (s : State n) (a : Action n) : Bool :=
  inOrder a && heard s a && noticed s a && answers Q s a && unhindered s a

theorem kept_of_keeps {Q : Quorums n} {s : State n} {a : Action n} (h : keeps Q s a = true) :
    (promise Q s a).Kept := by
  simp only [keeps, Bool.and_eq_true] at h
  exact ⟨inTime_of_answers h.1.2, h.1.1.1.1, h.1.1.1.2, h.1.1.2, h.1.2⟩

/-- Everything that is known about a state that such steps have led to. -/
structure State.Sound (Q : Quorums n) (s : State n) : Prop where
  held : ∀ k, (s.view Q k).Held
  asked : ∀ k, (s.view Q k).Asked
  placed : ∀ k, (s.view Q k).Placed
  answered : ∀ k, (s.view Q k).Answered
  spinning : s.Spinning
  unhindered : s.Unhindered

/-- The run lemma. -/
theorem sound_kept {Q : Quorums n} {s : State n}
    (h : (machine Q).Guarded (fun s a => keeps Q s a = true) s) : s.Sound Q := by
  have hkept {s : State n} (h : (machine Q).Guarded (fun s a => keeps Q s a = true) s) :
      (machine Q).Guarded (fun s a => (promise Q s a).Kept) s :=
    h.mono fun _ _ => kept_of_keeps
  have hheld {s : State n} (h : (machine Q).Guarded (fun s a => keeps Q s a = true) s) (k : Fin n) :
      (s.view Q k).Held := held_inTime ((hkept h).mono fun _ _ hg => hg.inTime) k
  have hasked {s : State n} (h : (machine Q).Guarded (fun s a => keeps Q s a = true) s)
      (k : Fin n) : (s.view Q k).Asked :=
    asked_inOrder ((hkept h).mono fun _ _ hg => ⟨hg.inTime, hg.inOrder⟩) k
  refine ⟨hheld h, hasked h, placed_kept (hkept h), fun k => ?_, ?_, ?_⟩
  · refine h.invariant_of (J := fun s => (∀ k, (s.view Q k).Held) ∧ (∀ k, (s.view Q k).Asked) ∧
      ∀ k, (s.view Q k).Placed) (I := fun s => (s.view Q k).Answered)
      (fun s hs => ⟨hheld hs, hasked hs, placed_kept (hkept hs)⟩) ?_ fun s a t hJ _ hI hg hs => ?_
    · rintro _ rfl
      exact initial_answered Q k
    · have hp := kept_of_keeps hg
      exact answered_move hp (hJ.1 k) (hJ.2.1 k) (hJ.2.2 k)
        (fun j hm hall => settled_step hp.answers hJ.1 hJ.2.2 hJ.2.1 hs j k hm hall) hI
        (step_move hs k)
  · refine h.invariant_of (J := fun s => ∀ k, (s.view Q k).Held) (I := State.Spinning)
      (fun s hs => hheld hs) ?_ fun s a t hJ _ hI hg hs => ?_
    · rintro _ rfl
      exact fun i j hspins => (Bool.false_ne_true hspins).elim
    · exact spinning_step hJ hI (kept_of_keeps hg).noticed hs
  · refine h.invariant_of (J := fun s => (∀ k, (s.view Q k).Held) ∧ ∀ k, (s.view Q k).Asked)
      (I := State.Unhindered) (fun s hs => ⟨hheld hs, hasked hs⟩) ?_ fun s a t hJ _ hI hg hs => ?_
    · rintro _ rfl
      exact fun i j => .nil
    · simp only [keeps, Bool.and_eq_true] at hg
      exact unhindered_step hJ.1 hJ.2 hI hg.1.1.1.1 hg.2 hs

/-- Everything that is known about a state in which nothing can go on. A handler that is busy
spins, and what is left in flight waits behind one. -/
structure State.Stuck (Q : Quorums n) (s : State n) : Prop extends s.Sound Q where
  outside : ∀ i, s.main i ≠ .inside
  waits : ∀ i, s.main i = .polling → (s.strategy i).receivedAllLocked (Q.quorum i) = false
  busy : ∀ i j, s.handler i j ≠ .ready → (s.handler i j).spins = true ∧
    (s.strategy i).receivedFailed (Q.quorum i) = false
  downward : ∀ i j, s.main i = .polling → s.handler i j = .ready → s.inFlight j i = []
  upward : ∀ i j, ∀ m ∈ s.inFlight j i, m.up? ≠ none → s.handler i j ≠ .ready

namespace State.Stuck
variable {Q : Quorums n} {s : State n}

theorem polling (h : s.Stuck Q) {i j : Fin n} (hi : s.handler i j ≠ .ready) :
    s.main i = .polling := by
  have hidle := (h.spinning i j (h.busy i j hi).1).2
  have hinside := h.outside i
  cases hm : s.main i with
  | idle => exact absurd hm hidle
  | polling => rfl
  | inside => exact absurd hm hinside

theorem holds (h : s.Stuck Q) {i j : Fin n} (hi : s.handler i j ≠ .ready) :
    (s.side Q j i).holds = true :=
  ((h.held j).client i).holds_of_locked (h.spinning i j (h.busy i j hi).1).1

theorem holder_of_holds (h : s.Stuck Q) {i j : Fin n} (hh : (s.side Q j i).holds = true) :
    (s.view Q j).arbiter.holder i = true ∧ lockeds (s.side Q j i).down = 0 ∧
      relinquishes (s.side Q j i).up = 0 ∧ releases (s.side Q j i).up = 0 := by
  have ht : (s.side Q j i).tokens ≤ ((s.view Q j).arbiter.holder i).toNat :=
    ((h.held j).client i).token
  have hone := Bool.toNat_le ((s.view Q j).arbiter.holder i)
  simp only [Side.tokens, hh, Bool.toNat_true] at ht
  exact ⟨Bool.toNat_eq_one.mp (by omega), by omega, by omega, by omega⟩

/-- Nothing is on its way to a waiting client from an arbiter. -/
theorem down_eq_nil (h : s.Stuck Q) {i : Fin n} (hi : s.main i = .polling) (j : Fin n) :
    (s.side Q j i).down = [] := by
  by_cases hr : s.handler i j = .ready
  · simp [State.side, h.downward i j hi hr]
  -- a handler that spins has the LOCKED and the INQUIRE of the current grant before it
  · have hholds := h.holds hr
    obtain ⟨-, hlocked, -, -⟩ := h.holder_of_holds hholds
    refine List.eq_nil_iff_forall_not_mem.mpr fun d hd => ?_
    cases d with
    | locked g => exact absurd hlocked (Nat.ne_of_gt (List.countP_pos_iff.mpr ⟨_, hd, rfl⟩))
    | failed => exact ((h.placed j).client i).accepted hholds hd
    | inquire g =>
      obtain ⟨hdown, hhandler⟩ := (h.asked j i).current hholds
      obtain rfl := hdown g hd
      have honce := (h.asked j i).once
      have hcount := List.count_pos_iff.mpr hd
      have habout : (s.side Q j i).handler.about (s.view Q j).arbiter.grants = true := by
        cases hh : s.handler i j with
        | ready => exact absurd hh hr
        | inquiring point g =>
          simp [State.side, hh, Handler.about, hhandler point g hh]
      have hle := Bool.toNat_le (!(s.view Q j).arbiter.replied i)
      change (s.side Q j i).down.count _ + ((s.side Q j i).handler.about _).toNat + _ ≤ _ at honce
      rw [habout, Bool.toNat_true] at honce
      omega

/-- What is on its way to an arbiter waits behind a handler that spins, and can wait. -/
theorem harmless (h : s.Stuck Q) {i j : Fin n} {u : Up} (hu : u ∈ (s.side Q i j).up) :
    s.handler i j ≠ .ready ∧ ∃ m ∈ s.inFlight j i, m.up? = some u ∧ s.Harmless i j m.body := by
  obtain ⟨m, hm, hup⟩ := List.mem_filterMap.mp hu
  have hbusy := h.upward i j m hm (by simp [hup])
  refine ⟨hbusy, m, hm, hup, ?_⟩
  have hspins := (h.busy i j hbusy).1
  have hcurrent := ((h.asked j i).current (h.holds hbusy)).2
  have hpass := h.unhindered i j
  unfold State.unanswered at hpass
  cases hh : s.handler i j with
  | ready => exact absurd hh hbusy
  | inquiring point g =>
    have hg : g = (s.strategy j).grants := hcurrent point g hh
    rw [hh] at hpass hspins
    have hbodies : (Handler.inquiring point g).bodies = [.inquire g] := by
      cases point <;> first | rfl | cases hspins
    rw [hbodies, List.singleton_append, List.pairwise_cons] at hpass
    exact hpass.1 _ (List.mem_map_of_mem hm) (by rw [hg])

theorem up_eq_nil (h : s.Stuck Q) {i j : Fin n} (hr : s.handler i j = .ready) :
    (s.side Q i j).up = [] :=
  List.eq_nil_iff_forall_not_mem.mpr fun _ hu => (h.harmless hu).1 hr

theorem releases_eq_zero (h : s.Stuck Q) (i j : Fin n) : releases (s.side Q i j).up = 0 := by
  by_contra hno
  obtain ⟨u, hu, hrel⟩ := List.countP_pos_iff.mp (Nat.pos_of_ne_zero hno)
  obtain ⟨hbusy, m, -, hup, hharmless⟩ := h.harmless hu
  obtain ⟨t, body⟩ := m
  cases body with
  | release =>
    obtain rfl : i = j := hharmless
    exact hno (h.holder_of_holds (h.holds hbusy)).2.2.2
  | request | relinquish g =>
    cases hup
    cases hrel
  | locked g | inquire g | failed => cases hup

theorem locking_eq (h : s.Stuck Q) {i k : Fin n} (hi : (s.view Q k).arbiter.holder i = true) :
    (s.strategy k).lockingRequest = s.request i :=
  congrArg₂ Request.mk (((h.held k).client i).lockingNumber hi (h.releases_eq_zero k i))
    (holder_iff.mp hi).2

/-- A waiting client without the lock of an arbiter is in its queue, unless its REQUEST waits
behind a handler. -/
theorem queued_of_ready (h : s.Stuck Q) {i k : Fin n} (hi : s.main i = .polling)
    (hk : k ∈ Q.quorum i) (hreply : (s.strategy i).requestReply k ≠ .locked)
    (hr : s.handler k i = .ready) : (s.view Q k).arbiter.holder i = false ∧
      s.request i ∈ (s.strategy k).waitingQueue.items := by
  have ht : (s.side Q k i).tokens = _ := ((h.placed k).client i).token
  have hreq : requests (s.side Q k i).up + _ + _ = releases (s.side Q k i).up +
    (s.side Q k i).active.toNat := ((h.placed k).client i).request
  have hholds : (s.side Q k i).holds = false := by simp [State.side, Side.holds, hi, hreply]
  have hactive : (s.side Q k i).active = true := by simp [State.side, Side.active, hi, hk]
  rw [Side.tokens, hholds, h.up_eq_nil hr, h.down_eq_nil hi k] at ht
  rw [hactive, h.up_eq_nil hr] at hreq
  simp only [lockeds_nil, relinquishes_nil, releases_nil, requests_nil, Bool.toNat_false,
    Bool.toNat_true] at ht hreq
  have hholder : (s.view Q k).arbiter.holder i = false := Bool.toNat_eq_zero.mp ht.symm
  have hpos : 0 < (s.view Q k).arbiter.queued i := by
    rw [hholder, Bool.toNat_false] at hreq
    omega
  obtain ⟨⟨t, y⟩, hmem, hy⟩ := List.countP_pos_iff.mp hpos
  obtain rfl := of_decide_eq_true hy
  obtain rfl := ((h.held k).client i).queuedNumber _ hmem rfl
  exact ⟨hholder, hmem⟩

/-- A waiting client in the queue of an arbiter comes first there, or has been refused. -/
theorem first_of_queued (h : s.Stuck Q) {i j k : Fin n} (hi : s.main i = .polling)
    (hk : k ∈ Q.quorum i) (hqueued : s.request i ∈ (s.strategy k).waitingQueue.items)
    (hbusy : s.handler i j ≠ .ready) : (s.request i).key ≤ (s.strategy k).lockingRequest.key := by
  rcases ((h.placed k).client i).refused _ hqueued rfl with (hf | hf) | hfirst
  · have hf : .failed ∈ (s.side Q k i).down := hf
    rw [h.down_eq_nil hi k] at hf
    exact (List.not_mem_nil hf).elim
  · have hno := (h.busy i j hbusy).2
    simp only [Strategy.receivedFailed, decide_eq_false_iff_not, not_exists, not_and] at hno
    exact absurd hf (hno k hk)
  · exact hfirst.1

private theorem eq_of_request_key_le {i j : Fin n} (hij : (s.request i).key ≤ (s.request j).key)
    (hji : (s.request j).key ≤ (s.request i).key) : i = j :=
  Option.some.inj (congrArg Request.sender (eq_of_key_eq (le_antisymm hij hji)))

/-- Behind a handler that spins no RELINQUISH waits: the client that sent it has the lock of an
arbiter that comes before it, and that client is refused by its own arbiter. -/
theorem relinquishes_eq_zero (h : s.Stuck Q) (i j : Fin n) :
    relinquishes (s.side Q i j).up = 0 := by
  by_contra hno
  obtain ⟨u, hu, hrel⟩ := List.countP_pos_iff.mp (Nat.pos_of_ne_zero hno)
  obtain ⟨hbusy, m, -, hup, hharmless⟩ := h.harmless hu
  have hi := h.polling hbusy
  obtain ⟨hji, -, -, -⟩ := h.holder_of_holds (h.holds hbusy)
  have hij : (s.view Q i).arbiter.holder j = true := by
    have ht : (s.side Q i j).tokens ≤ _ := ((h.held i).client j).token
    have hone := Bool.toNat_le ((s.view Q i).arbiter.holder j)
    rw [Side.tokens] at ht
    exact Bool.toNat_eq_one.mp (by omega)
  have hne : i ≠ j := by
    rintro rfl
    exact hno (h.holder_of_holds (h.holds hbusy)).2.2.1
  have hle : (s.request j).key ≤ (s.request i).key := by
    rw [← h.locking_eq hji]
    obtain ⟨t, body⟩ := m
    cases body with
    | relinquish g => exact hharmless (holder_iff.mp hji).1
    | request | release =>
      cases hup
      cases hrel
    | locked g | inquire g | failed => cases hup
  have hself (hholds : (s.side Q i i).holds = true) : False :=
    hne (holder_unique (h.holder_of_holds hholds).1 hij)
  have hready : s.handler i i = .ready := by
    by_contra hr
    exact hself (h.holds hr)
  have hreply : (s.strategy i).requestReply i ≠ .locked := fun hlocked =>
    hself (((h.held i).client i).holds_of_locked hlocked)
  obtain ⟨-, hqueued⟩ := h.queued_of_ready hi (Q.self_mem i) hreply hready
  have hfirst := h.first_of_queued hi (Q.self_mem i) hqueued hbusy
  rw [h.locking_eq hij] at hfirst
  exact hne (eq_of_request_key_le hfirst hle)

/-- A waiting client is in the queue of an arbiter that has not locked for it. -/
theorem queued (h : s.Stuck Q) {i : Fin n} (hi : s.main i = .polling) : ∃ k ∈ Q.quorum i,
    (s.view Q k).arbiter.holder i = false ∧ s.request i ∈ (s.strategy k).waitingQueue.items := by
  by_cases hself : (s.strategy i).requestReply i = .locked
  · have hno := h.waits i hi
    simp only [Strategy.receivedAllLocked, decide_eq_false_iff_not, not_forall] at hno
    obtain ⟨k, hk, hreply⟩ := hno
    -- its own lock is not with the arbiter, which would spin about it
    have hr : s.handler k i = .ready := by
      by_contra hbusy
      have hheld := (h.holder_of_holds (((h.held i).client i).holds_of_locked hself)).1
      obtain rfl := holder_unique (h.holder_of_holds (h.holds hbusy)).1 hheld
      exact hreply hself
    exact ⟨k, hk, h.queued_of_ready hi hk hreply hr⟩
  · have hr : s.handler i i = .ready := by
      by_contra hbusy
      exact hself (h.spinning i i (h.busy i i hbusy).1).1
    exact ⟨i, Q.self_mem i, h.queued_of_ready hi (Q.self_mem i) hself hr⟩

/-- An arbiter with a queue has locked for a waiting client. -/
theorem locked (h : s.Stuck Q) {k : Fin n} {r : Request n}
    (hr : r ∈ (s.strategy k).waitingQueue.items) : ∃ i, s.main i = .polling ∧
      (s.view Q k).arbiter.holder i = true ∧ (s.strategy k).lockingRequest = s.request i := by
  have hlocked : (s.strategy k).isLocked = true := by
    by_contra hno
    have hq := (h.held k).free (Bool.not_eq_true _ ▸ hno)
    exact List.not_mem_nil (hq ▸ hr)
  obtain ⟨i, hi⟩ := (h.placed k).taken hlocked
  have hholder : (s.view Q k).arbiter.holder i = true := holder_iff.mpr ⟨hlocked, hi⟩
  refine ⟨i, ?_, hholder, h.locking_eq hholder⟩
  cases hm : s.main i with
  | idle =>
    have hpos := ((h.held k).client i).nothing_asked hm |>.2.2 hholder
    exact absurd (h.releases_eq_zero k i) (Nat.ne_of_gt hpos)
  | polling => rfl
  | inside => exact absurd hm (h.outside i)

/-- A client whose lock an earlier request waits for is asked by a handler that waits. -/
theorem inquired (h : s.Stuck Q) {k i : Fin n} (hm : s.main i = .polling)
    (hi : (s.view Q k).arbiter.holder i = true) {r : Request n}
    (hr : r ∈ (s.strategy k).waitingQueue.items)
    (hlt : r.key < (s.strategy k).lockingRequest.key) : s.handler i k ≠ .ready := by
  have hno := (h.placed k).preceded r hr hlt i hi
  rcases (h.answered k i).answer hi hno with (hg | habout | hpos | hpos) | hinside | ⟨-, hall⟩
  · have hg : .inquire _ ∈ (s.side Q k i).down := hg
    rw [h.down_eq_nil hm k] at hg
    exact (List.not_mem_nil hg).elim
  · intro hready
    simp [State.view, State.side, hready, Handler.about] at habout
  · exact absurd (h.relinquishes_eq_zero k i) (Nat.ne_of_gt hpos)
  · exact absurd (h.releases_eq_zero k i) (Nat.ne_of_gt hpos)
  · exact absurd hinside (h.outside i)
  · exact absurd hall (Bool.eq_false_iff.mp (h.waits i hm))

/-- Nobody waits: the least request is waiting for a client that is asked, and the greatest
request of such a client for another one. -/
theorem nobody_waits (h : s.Stuck Q) (i : Fin n) : s.main i ≠ .polling := by
  intro hi
  let waiting := Finset.univ.filter fun i => s.main i = .polling
  obtain ⟨m, hm, hleast⟩ := waiting.exists_min_image (fun i => (s.request i).key)
    ⟨i, by simp [waiting, hi]⟩
  obtain ⟨k, -, hout, hqueued⟩ := h.queued (i := m) (by simpa [waiting] using hm)
  obtain ⟨y, hy, hholder, hlocking⟩ := h.locked hqueued
  have hle := hleast y (by simp [waiting, hy])
  have hlt : (s.request m).key < (s.request y).key := by
    refine hle.lt_of_not_ge fun hge => ?_
    obtain rfl := eq_of_request_key_le hle hge
    simp [hholder] at hout
  let inquired := Finset.univ.filter fun i => s.main i = .polling ∧ ∃ k, s.handler i k ≠ .ready
  obtain ⟨z, hz, hgreatest⟩ := inquired.exists_max_image (fun i => (s.request i).key)
    ⟨y, by simp only [inquired, Finset.mem_filter, Finset.mem_univ, true_and]
           exact ⟨hy, k, h.inquired hy hholder hqueued (hlocking ▸ hlt)⟩⟩
  simp only [inquired, Finset.mem_filter, Finset.mem_univ, true_and] at hz hgreatest
  obtain ⟨hz, k', hbusy⟩ := hz
  obtain ⟨k, hk, hout, hqueued⟩ := h.queued hz
  obtain ⟨y, hy, hholder, hlocking⟩ := h.locked hqueued
  -- the client has not been refused by this arbiter, so its request is the first in the queue
  have hfirst := h.first_of_queued hz hk hqueued hbusy
  rw [hlocking] at hfirst
  have hlt : (s.request z).key < (s.request y).key := by
    refine hfirst.lt_of_not_ge fun hge => ?_
    obtain rfl := eq_of_request_key_le hfirst hge
    simp [hholder] at hout
  exact absurd (hgreatest y ⟨hy, k, h.inquired hy hholder hqueued (hlocking ▸ hlt)⟩) hlt.not_ge

end State.Stuck

end DistributedME.Maekawa
