import DistributedME.Library.Potential
import DistributedME.RicartAgrawala.Tokens

/-! What critical sections cost in messages, in runs without a yield in the gap. -/
namespace DistributedME.RicartAgrawala
open Library
variable {n : ℕ}

instance (s : ℕ) (i : Fin n) (t : ℕ) (j : Fin n) : Decidable (Precedes s i t j) :=
  inferInstanceAs (Decidable (s < t ∨ (s = t ∧ i < j)))

/-- Client j will not ask for the permission of i with a request that precedes that of i. -/
def Heard (i j : Fin n) (a b : Side) : Prop :=
  a.ours ≤ b.hgst ∧ (b.isWaiting = true → Precedes a.ours i b.ours j)

instance (i j : Fin n) (a b : Side) : Decidable (Heard i j a b) :=
  inferInstanceAs (Decidable (_ ∧ _))

/-- Who answers or puts off a wish has heard of it. -/
structure Known (i j : Fin n) (a b : Side) (ji : List Message) : Prop where
  replied : 0 < replies ji → Heard i j a b
  deferred : b.deferred = true → a.ours ≤ b.hgst

/-- Both wishes of a pair, with what is known about its permission. -/
structure Accounted (i j : Fin n) (a b : Side) (ij ji : List Message) : Prop where
  linked : Linked i j a b ij ji
  there : Known i j a b ji
  back : Known j i b a ij

theorem Accounted.symm {i j : Fin n} {a b : Side} {ij ji : List Message}
    (h : Accounted i j a b ij ji) : Accounted j i b a ji ij :=
  ⟨h.linked.symm, h.back, h.there⟩

theorem Heard.request {i j : Fin n} {a b : Side} (h : a.ours ≤ b.hgst) (main : MainThread) :
    Heard i j a { b with main := main, ours := b.hgst + 1, isWaiting := true } :=
  ⟨h, fun _ => .inl (Nat.lt_succ_of_le h)⟩

theorem known_local {gap : Prop} {i j : Fin n} {a b a' : Side} {ij ji ij' ji' : List Message}
    (ha : a.Modes) (h : Accounted i j a b ij ji) (hl : Local gap i j a ij ji a' ij' ji') :
    Known i j a' b ji' ∧ Known j i b a' ij' := by
  obtain ⟨hlinked, there, back⟩ := h
  have hwait : a.main = .idle ∨ a.main = .inside → a.isWaiting = false := by
    intro hm
    rw [← Bool.not_eq_true, ha.1]
    rcases hm with hm | hm <;> simp [hm]
  have hours {t : ℕ} {rest : List Message} (hji : ji = .request t :: rest) : t = b.ours :=
    hlinked.back.number t (hji ▸ List.mem_cons_self)
  cases hl with
  | stay | polled => exact ⟨⟨there.replied, there.deferred⟩, ⟨back.replied, back.deferred⟩⟩
  | heard t =>
    have hup (h : b.ours ≤ a.hgst) : b.ours ≤ max a.hgst t := h.trans (le_max_left _ _)
    exact ⟨⟨there.replied, there.deferred⟩,
      ⟨fun hr => ⟨hup (back.replied hr).1, (back.replied hr).2⟩, fun hd => hup (back.deferred hd)⟩⟩
  | request hm =>
    obtain ⟨-, hd, hr⟩ := hlinked.there.nowhere (.inl (hwait (.inl hm)))
    refine ⟨⟨fun h => absurd hr (Nat.ne_of_gt h), fun h => absurd hd (by simp [h])⟩,
      ⟨fun hr => Heard.request (back.replied ?_).1 _, back.deferred⟩⟩
    rw [replies_append] at hr
    split_ifs at hr <;> simpa using hr
  | entered hm =>
    exact ⟨⟨there.replied, there.deferred⟩,
      ⟨fun hr => ⟨(back.replied hr).1, by simp⟩, back.deferred⟩⟩
  | kept hm hd =>
    exact ⟨⟨there.replied, there.deferred⟩, ⟨back.replied, back.deferred⟩⟩
  | released hm hd =>
    refine ⟨⟨there.replied, there.deferred⟩, ⟨fun _ => ⟨back.deferred hd, fun hi => ?_⟩, by simp⟩⟩
    exact absurd hi (by simp [hwait (.inr hm)])
  | replied t =>
    refine ⟨⟨fun hr => there.replied ?_, there.deferred⟩, ⟨back.replied, back.deferred⟩⟩
    rw [replies_reply]
    exact Nat.succ_pos _
  | deferred t hp =>
    have hle : b.ours ≤ max a.hgst t := hours rfl ▸ le_max_right _ _
    exact ⟨⟨there.replied, there.deferred⟩,
      ⟨fun hr => ⟨hle, (back.replied hr).2⟩, fun _ => hle⟩⟩
  | granted t hf hp =>
    have hle : b.ours ≤ max a.hgst t := hours rfl ▸ le_max_right _ _
    exact ⟨⟨there.replied, there.deferred⟩,
      ⟨fun _ => ⟨hle, fun hi => hours rfl ▸ (hp hi).2⟩, fun _ => hle⟩⟩
  | yielded t hf hi hh hp hg =>
    have hle : b.ours ≤ max a.hgst t := hours rfl ▸ le_max_right _ _
    exact ⟨⟨there.replied, there.deferred⟩,
      ⟨fun _ => ⟨hle, fun _ => hours rfl ▸ hp⟩, fun _ => hle⟩⟩

theorem accounted_gapFree {s : State n} (h : GapFree s) : s.Pairwise Accounted := by
  refine pairwise_guarded (P := Accounted) (fun _ _ _ _ _ _ => Accounted.symm) ?_ ?_ h
  · intro i j hij
    refine ⟨linked_initial i j hij, ?_, ?_⟩ <;> constructor <;>
      simp [initial, State.side, Strategy.construct]
  · intro _ _ i j a b ij ji a' ij' ji' hg ha hP hl
    obtain ⟨hthere, hback⟩ := known_local ha hP hl
    exact ⟨linked_local hg ha hP.linked hl, hthere, hback⟩

/-- A permission that client i holds while it waits may have to be yielded and asked for, unless
j has heard of the wish. -/
def reserve (i j : Fin n) (a b : Side) : ℕ :=
  if a.isWaiting = true ∧ a.holds = true ∧ ¬ Heard i j a b then 2 else 0

theorem reserve_le (i j : Fin n) (a b : Side) : reserve i j a b ≤ 2 := by
  unfold reserve
  split_ifs <;> omega

theorem reserve_eq_zero {i j : Fin n} {a b : Side}
    (h : a.isWaiting = true → a.holds = true → Heard i j a b) : reserve i j a b = 0 :=
  if_neg fun hp => hp.2.2 (h hp.1 hp.2.1)

theorem reserve_eq_two {i j : Fin n} {a b : Side} (hw : a.isWaiting = true)
    (hh : a.holds = true) (h : ¬ Heard i j a b) : reserve i j a b = 2 := if_pos ⟨hw, hh, h⟩

theorem reserve_mono {i j : Fin n} {a b a' b' : Side}
    (hw : a'.isWaiting = true → a.isWaiting = true)
    (hh : a'.holds = true → a.holds = true) (hheard : Heard i j a b → Heard i j a' b') :
    reserve i j a' b' ≤ reserve i j a b := by
  by_cases hp : a'.isWaiting = true ∧ a'.holds = true ∧ ¬ Heard i j a' b'
  · rw [reserve_eq_two (hw hp.1) (hh hp.2.1) (fun h => hp.2.2 (hheard h))]
    exact reserve_le i j a' b'
  · rw [reserve, if_neg hp]
    exact Nat.zero_le _

/-- What may still be sent for client i's wish for the permission of j. -/
def due (i j : Fin n) (a b : Side) (ij ji : List Message) : ℕ :=
  2 * requests ij + b.deferred.toNat + replies ji + reserve i j a b

/-- The own wish: a REPLY that is treated was due, and a new wish is due two messages. -/
theorem own_due_local {gap : Prop} {i j : Fin n} {a b a' : Side}
    {ij ji ij' ji' : List Message} (h : Accounted i j a b ij ji)
    (hl : Local gap i j a ij ji a' ij' ji') :
    replies ji - replies ji' + due i j a' b ij' ji' ≤
      due i j a b ij ji + if a.main = .idle ∧ a'.main = .polling then 2 else 0 := by
  unfold due
  cases hl with
  | stay | heard | polled | kept =>
    rw [Nat.sub_self, Nat.zero_add]
    exact Nat.le_add_right _ _
  | deferred t hp =>
    rw [replies_request, Nat.sub_self, Nat.zero_add]
    exact Nat.le_add_right _ _
  | request hm =>
    rw [if_pos (And.intro hm rfl), Nat.sub_self, Nat.zero_add, requests_append]
    cases hh : a.holds with
    | false =>
      have hzero : reserve i j
          ⟨.polling, a.hgst + 1, a.hgst, false, a.isUsing, true, a.deferred⟩ b = 0 :=
        reserve_eq_zero fun _ h => nomatch h
      rw [hzero, if_neg Bool.false_ne_true, requests_request, requests_nil]
      omega
    | true =>
      have htwo := reserve_le i j
        ⟨.polling, a.hgst + 1, a.hgst, true, a.isUsing, true, a.deferred⟩ b
      rw [if_pos rfl, requests_nil]
      omega
  | entered hm =>
    have hzero : reserve i j
        { a with main := .inside, isWaiting := false, isUsing := true } b = 0 :=
      reserve_eq_zero nofun
    rw [hzero, Nat.sub_self]
    omega
  | released hm hd =>
    have hzero : reserve i j
        { a with main := .idle, isUsing := false, holds := false, deferred := false } b = 0 :=
      reserve_eq_zero nofun
    rw [hzero, Nat.sub_self, requests_append, requests_reply, requests_nil]
    omega
  | replied t =>
    -- who has replied has heard of the wish
    have hzero : reserve i j { a with holds := true } b = 0 :=
      reserve_eq_zero fun _ _ => h.there.replied (by rw [replies_reply]; exact Nat.succ_pos _)
    rw [hzero, replies_reply]
    omega
  | granted t hf hp =>
    have hzero : reserve i j { a with hgst := max a.hgst t, holds := false } b = 0 :=
      reserve_eq_zero nofun
    rw [hzero, replies_request, Nat.sub_self, requests_append, requests_reply, requests_nil]
    omega
  | yielded t hf hi hh hp hg =>
    -- the REQUEST that is sent now was due since the wish began
    have hours := h.linked.back.number t List.mem_cons_self
    have hpos : 0 < requests (.request t :: ji') := by
      rw [requests_request]
      exact Nat.succ_pos _
    have hb : b.isWaiting = true := by
      by_contra hb
      exact absurd (h.linked.back.nowhere (.inl (Bool.not_eq_true _ ▸ hb))).1 (Nat.ne_of_gt hpos)
    have htwo : reserve i j a b = 2 :=
      reserve_eq_two hi hh fun hheard => (hheard.2 hb).asymm (hours ▸ hp)
    have hzero : reserve i j { a with hgst := max a.hgst t, holds := false } b = 0 :=
      reserve_eq_zero nofun
    rw [hzero, htwo, replies_request, Nat.sub_self, requests_append, requests_reply,
      requests_request, requests_nil]
    omega

/-- The wish of the other client: the REPLY to a REQUEST that is treated remains due. -/
theorem other_due_local {gap : Prop} {i j : Fin n} {a b a' : Side}
    {ij ji ij' ji' : List Message} (hl : Local gap i j a ij ji a' ij' ji') :
    requests ji - requests ji' + due j i b a' ji' ij' ≤ due j i b a ji ij := by
  have hup (t : ℕ) (holds deferred : Bool) : reserve j i b
      { a with hgst := max a.hgst t, holds := holds, deferred := deferred } ≤ reserve j i b a :=
    reserve_mono id id fun hh => ⟨hh.1.trans (le_max_left _ _), hh.2⟩
  unfold due
  cases hl with
  | stay | polled | kept => exact (Nat.add_eq_right.mpr (Nat.sub_self _)).le
  | replied t =>
    rw [requests_reply]
    exact (Nat.add_eq_right.mpr (Nat.sub_self _)).le
  | heard t =>
    rw [Nat.sub_self, Nat.zero_add]
    exact Nat.add_le_add_left (hup t _ _) _
  | request hm =>
    have hr : replies (ij ++ if a.holds = true then [] else [.request (a.hgst + 1)]) =
        replies ij := by
      rw [replies_append]
      split_ifs <;> simp
    rw [Nat.sub_self, Nat.zero_add, hr]
    exact Nat.add_le_add_left (reserve_mono id id fun hh => Heard.request hh.1 _) _
  | entered hm =>
    have hle : reserve j i b { a with main := .inside, isWaiting := false, isUsing := true } ≤
        reserve j i b a := reserve_mono id id fun hh => ⟨hh.1, nofun⟩
    rw [Nat.sub_self, Nat.zero_add]
    exact Nat.add_le_add_left hle _
  | released hm hd =>
    have hsame : reserve j i b
      { a with main := .idle, isUsing := false, holds := false, deferred := false } =
        reserve j i b a := rfl
    rw [hsame, Nat.sub_self, replies_append, replies_reply, replies_nil, hd]
    simp only [Bool.toNat_false, Bool.toNat_true]
    omega
  | deferred t hp =>
    have hle := hup t a.holds true
    rw [requests_request, Bool.toNat_true]
    omega
  | granted t hf hp =>
    have hle := hup t false a.deferred
    rw [requests_request, replies_append, replies_reply, replies_nil]
    dsimp only
    omega
  | yielded t hf hi hh hp hg =>
    have hle := hup t false a.deferred
    rw [requests_request, replies_append, replies_reply, replies_request, replies_nil]
    dsimp only
    omega

/-- A client sends itself no messages. -/
theorem inFlight_self {s : State n} (h : (machine n).Reachable s) (i : Fin n) :
    s.inFlight i i = [] := by
  refine h.invariant (I := fun s => ∀ i, s.inFlight i i = []) ?_ ?_ i
  · rintro _ rfl i
    rfl
  · intro s a t hs _ hstep i
    have he := effect_of_step hstep
    cases a with
    | requestResource k | canEnterCriticalSection k | enterCriticalSection k
    | releaseResource k =>
      obtain ⟨-, rfl⟩ := he
      simp +contextual [State.write, Network.post_apply, hs, Strategy.requestResource,
        Strategy.releaseResource]
    | treatMessage k j =>
      obtain ⟨msg, rest, hm, rfl⟩ := he
      have hj : j ≠ k := by
        rintro rfl
        exact absurd (hs j) (by simp [hm])
      by_cases hi : i = k
      · subst hi
        simp [State.write, Network.put, hs, hj.symm]
      · simp [State.write, Network.put, hs, hi]

/-- All that may still be sent in one state. -/
def State.due (s : State n) : ℕ := pairSum fun i j =>
  RicartAgrawala.due i j (s.side i j) (s.side j i) (s.inFlight i j) (s.inFlight j i)

/-- The messages from j that a step of i has taken. -/
def taken (s t : State n) (i j : Fin n) : ℕ :=
  (requests (s.inFlight j i) - requests (t.inFlight j i)) +
    (replies (s.inFlight j i) - replies (t.inFlight j i))

theorem due_step {s t : State n} {a : Action n} (h : GapFree s) (hstep : step s a = some t) :
    ∑ j ∈ Finset.univ.erase a.actor, taken s t a.actor j + t.due ≤
      s.due + ∑ _j ∈ Finset.univ.erase a.actor,
        if s.main a.actor = .idle ∧ t.main a.actor = .polling then 2 else 0 := by
  have hmodes := modes_guarded h
  have hacc := accounted_gapFree h
  refine pairSum_le a.actor (fun i j hi hj => ?_) fun j hj => ?_
  · rw [(step_frame hstep hi).1, (step_frame hstep hj).1, (step_frame hstep hi).2 hj,
      (step_frame hstep hj).2 hi]
  · have hlocal := step_local hmodes hstep hj
    have hown := own_due_local (hacc _ _ (Ne.symm hj)) hlocal
    have hother := other_due_local (b := s.side j a.actor) hlocal
    rw [(step_frame hstep hj).1]
    change _ ≤ _ + if s.main a.actor = .idle ∧ t.main a.actor = .polling then 2 else 0 at hown
    unfold taken
    omega

def Action.isTreatMessage : Action n → Bool
  | .treatMessage _ _ => true
  | _ => false

def Action.isRequestResource : Action n → Bool
  | .requestResource _ => true
  | _ => false

/-- The treatment of a message takes one. -/
theorem taken_treatMessage {s t : State n} {i j : Fin n} (h : GapFree s)
    (hstep : step s (.treatMessage i j) = some t) :
    1 ≤ ∑ k ∈ Finset.univ.erase i, taken s t i k := by
  obtain ⟨msg, rest, hm, rfl⟩ := effect_of_step hstep
  have hreach : (machine n).Reachable s := h.mono fun _ _ _ => trivial
  have hj : j ≠ i := by
    rintro rfl
    exact absurd (inFlight_self hreach j) (by simp [hm])
  refine le_trans ?_ (Finset.single_le_sum (fun k _ => Nat.zero_le _)
    (Finset.mem_erase.mpr ⟨hj, Finset.mem_univ j⟩))
  cases msg <;> simp [taken, State.write, hj, hm]

/-- No other step than request_resource begins a wish. -/
theorem main_of_step {s t : State n} {a : Action n} (hstep : step s a = some t)
    (hidle : s.main a.actor = .idle) (hpolling : t.main a.actor = .polling) :
    a.isRequestResource = true := by
  have he := effect_of_step hstep
  cases a with
  | requestResource i => rfl
  | canEnterCriticalSection i | enterCriticalSection i | releaseResource i =>
    cases hidle.symm.trans he.1
  | treatMessage i j =>
    obtain ⟨msg, rest, hm, rfl⟩ := he
    simp only [State.write, Action.actor, Function.update_self] at hidle hpolling
    cases hidle.symm.trans hpolling

theorem due_pays : (machine n).Pays GapFree (fun s a => ¬ YieldsInGap s a)
    (fun a => if a.isTreatMessage then 1 else 0)
    (fun a => if a.isRequestResource then 2 * (n - 1) else 0) State.due where
  keeps s a t h hg hstep := .step h hg hstep
  pays s a t h hg hstep := by
    have hdue := due_step h hstep
    have hcharge : (∑ _j ∈ Finset.univ.erase a.actor,
        if s.main a.actor = .idle ∧ t.main a.actor = .polling then 2 else 0) ≤
          if a.isRequestResource then 2 * (n - 1) else 0 := by
      rw [Finset.sum_const, Finset.card_erase_of_mem (Finset.mem_univ _), Finset.card_univ,
        Fintype.card_fin, smul_eq_mul]
      by_cases hnew : s.main a.actor = .idle ∧ t.main a.actor = .polling
      · rw [if_pos hnew, if_pos (main_of_step hstep hnew.1 hnew.2), Nat.mul_comm]
      · rw [if_neg hnew]
        exact Nat.zero_le _
    have hcost : (if a.isTreatMessage then 1 else 0) ≤
        ∑ j ∈ Finset.univ.erase a.actor, taken s t a.actor j := by
      cases a with
      | treatMessage i j => exact taken_treatMessage h hstep
      | _ => exact Nat.zero_le _
    omega

/-- The number of all messages in flight. -/
def State.messages (s : State n) : ℕ := ∑ i, ∑ j, (s.inFlight i j).length

theorem length_eq (l : List Message) : l.length = requests l + replies l := by
  induction l with
  | nil => rfl
  | cons m l ih => cases m <;> simp [ih] <;> omega

theorem messages_le_due {s : State n} (h : (machine n).Reachable s) : s.messages ≤ s.due := by
  have hpairs : s.messages = pairSum fun i j => (s.inFlight i j).length := by
    refine Finset.sum_congr rfl fun i _ => (Finset.sum_erase _ ?_).symm
    rw [inFlight_self h, List.length_nil]
  have hsplit : (pairSum fun i j => (s.inFlight i j).length) =
      pairSum fun i j => requests (s.inFlight i j) + replies (s.inFlight j i) := by
    simp only [length_eq, pairSum_add]
    rw [pairSum_swap fun i j => replies (s.inFlight i j)]
  rw [hpairs, hsplit]
  refine pairSum_mono fun i j => ?_
  unfold RicartAgrawala.due
  omega

/-- The messages of a run, those in flight at its end included, are at most 2 (n - 1) for each
request: one REQUEST and one REPLY for each other client, however often permissions had to be
yielded and asked for again. -/
theorem messages_per_request (n : ℕ) (acts : List (Action n)) (s : State n)
    (hr : (machine n).run (initial n) acts = some s)
    (hg : (machine n).Along (fun u act => ¬ YieldsInGap u act) (initial n) acts) :
    acts.countP Action.isTreatMessage + s.messages ≤
      2 * (n - 1) * acts.countP Action.isRequestResource := by
  have hbill := due_pays.run (.init rfl) hg hr
  have hnone : (initial n).due = 0 := by
    simp [State.due, pairSum, RicartAgrawala.due, reserve, initial, State.side, Strategy.construct]
  rw [Machine.total_ite, Machine.total_ite, Nat.one_mul, hnone, Nat.zero_add] at hbill
  have hreach : (machine n).Reachable s := (hg.guarded (.init rfl) hr).mono fun _ _ _ => trivial
  have := messages_le_due hreach
  omega

/-- Client 1 has kept the permission of client 0 and asks only client 2. Then it has to yield
that permission to the preceding request of client 0, and asks for it. -/
def yieldingRun : List (Action 3) :=
  [.requestResource 1, .treatMessage 0 1, .treatMessage 2 1, .treatMessage 1 0,
    .treatMessage 1 2, .canEnterCriticalSection 1, .enterCriticalSection 1, .releaseResource 1,
    .requestResource 2, .treatMessage 0 2, .treatMessage 1 2, .treatMessage 2 0,
    .treatMessage 2 1, .canEnterCriticalSection 2, .enterCriticalSection 2, .releaseResource 2,
    .requestResource 1, .treatMessage 2 1, .treatMessage 1 2, .requestResource 0,
    .treatMessage 1 0, .treatMessage 2 0, .treatMessage 0 1, .treatMessage 0 2,
    .treatMessage 0 1, .canEnterCriticalSection 0, .enterCriticalSection 0, .releaseResource 0]

/-- Its four requests cost all the sixteen messages. -/
theorem messages_per_request_yielding : ∃ s, (machine 3).run (initial 3) yieldingRun = some s ∧
    yieldingRun.countP Action.isTreatMessage = 15 ∧ s.messages = 1 ∧
    yieldingRun.countP Action.isTreatMessage + s.messages ≤ 2 * (3 - 1) * 4 := by
  obtain ⟨s, hr, hp⟩ := (machine 3).exists_run (s := initial 3) yieldingRun
    (fun s => decide (s.messages = 1)) (by decide)
  exact ⟨s, hr, by decide, of_decide_eq_true hp,
    messages_per_request 3 yieldingRun s hr (by decide)⟩

end DistributedME.RicartAgrawala
