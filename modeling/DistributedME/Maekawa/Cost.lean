import DistributedME.Library.Potential
import DistributedME.Maekawa.Locks
import Mathlib.Algebra.BigOperators.Group.Finset.Piecewise

/-! What critical sections cost in messages, in every run. -/
namespace DistributedME.Maekawa
open Library
variable {n : ℕ}

/-- A message and the messages that it may still lead to. A REQUEST may lead to an INQUIRE, an
INQUIRE to a RELINQUISH, and a RELINQUISH or a RELEASE to a LOCKED. -/
def Body.weight : Body → ℕ
  | .request => 4
  | .inquire _ => 3
  | .relinquish _ | .release => 2
  | .locked _ | .failed => 1

def Message.weight (m : Message) : ℕ := m.body.weight

/-- A handler that has not made up its mind may send a RELINQUISH. -/
def Handler.weight : Handler → ℕ
  | .ready => 0
  | .inquiring _ _ => 2

/-- Who is not idle will send a RELEASE to each member of its quorum. -/
def MainThread.weight (quorum : Finset (Fin n)) : MainThread → ℕ
  | .idle => 0
  | .polling | .inside => 2 * quorum.card

/-- All that may still be sent without a new request. -/
def State.due (Q : Quorums n) (s : State n) : ℕ :=
  s.inFlight.weight Message.weight + ∑ i, ∑ j, (s.handler i j).weight +
    ∑ i, (s.main i).weight (Q.quorum i)

theorem due_write (Q : Quorums n) (s : State n) (i : Fin n) (c : Strategy n) (m : MainThread)
    (out : Fin n → List Message) :
    (s.write i c m out).due Q + (s.main i).weight (Q.quorum i) =
      s.due Q + ∑ j, ((out j).map Message.weight).sum + m.weight (Q.quorum i) := by
  have hmain := sum_update (fun i m => MainThread.weight (Q.quorum i) m) s.main i m
  simp only [State.due, State.write, Network.weight_post]
  omega

theorem due_receive (Q : Quorums n) (s : State n) (i j : Fin n) (rest : List Message) :
    (s.receive i j rest).due Q + ((s.inFlight j i).map Message.weight).sum =
      s.due Q + (rest.map Message.weight).sum := by
  have hput := s.inFlight.weight_put (w := Message.weight) j i rest
  simp only [State.due, State.receive]
  omega

theorem due_setHandler (Q : Quorums n) (s : State n) (i j : Fin n) (h : Handler) :
    (s.setHandler i j h).due Q + (s.handler i j).weight = s.due Q + h.weight := by
  have hset := sum_update_update (fun _ _ => Handler.weight) s.handler i j h
  simp only [State.due, State.setHandler]
  omega

/-- The same messages to every member of a quorum. -/
theorem weight_quorum (quorum : Finset (Fin n)) (msgs : List Message) :
    ∑ j, ((if j ∈ quorum then msgs else []).map Message.weight).sum =
      quorum.card * (msgs.map Message.weight).sum := by
  have hout (j : Fin n) : ((if j ∈ quorum then msgs else []).map Message.weight).sum =
      if j ∈ quorum then (msgs.map Message.weight).sum else 0 := by
    split_ifs <;> rfl
  rw [Finset.sum_congr rfl fun j _ => hout j, Finset.sum_ite_mem, Finset.univ_inter,
    Finset.sum_const, smul_eq_mul]

theorem weight_requestResource (c : Strategy n) (quorum : Finset (Fin n)) :
    ∑ k, (((c.requestResource quorum).2 k).map Message.weight).sum = 4 * quorum.card :=
  (weight_quorum quorum [⟨c.hgstSequenceNumber + 1, .request⟩]).trans (Nat.mul_comm _ 4)

theorem weight_releaseResource (c : Strategy n) (quorum : Finset (Fin n)) :
    ∑ k, (((c.releaseResource quorum).2 k).map Message.weight).sum = 2 * quorum.card :=
  (weight_quorum quorum [⟨c.ourSequenceNumber, .release⟩]).trans (Nat.mul_comm _ 2)

/-- One message to one client. -/
theorem weight_say (c : Strategy n) (j : Fin n) (body : Body) :
    ∑ k, ((Network.only j (c.say body) k).map Message.weight).sum = body.weight :=
  Network.weight_only j (c.say body)

theorem weight_relinquish (c : Strategy n) (j : Fin n) (grant : ℕ) :
    ∑ k, (((c.relinquish j grant).2 k).map Message.weight).sum = 2 := weight_say c j _

theorem weight_none : ∑ _k : Fin n, (([] : List Message).map Message.weight).sum = 0 := by simp

theorem weight_lock {c c' : Strategy n} {r : Request n} {out : Fin n → List Message}
    (h : c.lock r = some (c', out)) : ∑ k, ((out k).map Message.weight).sum = 1 := by
  obtain ⟨y, -, h⟩ := Option.map_eq_some_iff.mp h
  obtain ⟨-, rfl⟩ := Prod.mk.inj h
  exact Network.weight_only y _

/-- A REQUEST is answered by one LOCKED, FAILED or INQUIRE at most. -/
theorem weight_treatRequestMessage {c c' : Strategy n} {j : Fin n} {t : ℕ}
    {out : Fin n → List Message} (h : c.treatRequestMessage j t = some (c', out)) :
    ∑ k, ((out k).map Message.weight).sum ≤ 3 := by
  simp only [Strategy.treatRequestMessage] at h
  split_ifs at h
  · rw [weight_lock h]
    decide
  · obtain ⟨-, rfl⟩ := Prod.mk.inj (Option.some.inj h)
    rw [weight_say]
    decide
  · obtain ⟨y, -, h⟩ := Option.map_eq_some_iff.mp h
    split_ifs at h
    · obtain ⟨-, rfl⟩ := Prod.mk.inj h
      rw [weight_say]
      exact Nat.le_refl 3
    · obtain ⟨-, rfl⟩ := Prod.mk.inj h
      rw [weight_none]
      decide

theorem weight_treatReleaseMessage {c c' : Strategy n} {j : Fin n}
    {out : Fin n → List Message} (h : c.treatReleaseMessage j = some (c', out)) :
    ∑ k, ((out k).map Message.weight).sum ≤ 1 := by
  simp only [Strategy.treatReleaseMessage] at h
  split at h
  · exact (weight_lock h).le
  · obtain ⟨-, rfl⟩ := Prod.mk.inj (Option.some.inj h)
    rw [weight_none]
    decide

/-- The answers to a message weigh less than the message, with the handler that it leaves. -/
theorem weight_treatMessage {c c' : Strategy n} {j : Fin n} {message : Message}
    {out : Fin n → List Message} (h : c.treatMessage j message = some (c', out)) :
    1 + ∑ k, ((out k).map Message.weight).sum + message.body.handler.weight ≤ message.weight := by
  obtain ⟨t, body⟩ := message
  have hsilent {c'' : Strategy n} (h : some (c'', fun _ => []) = some (c', out)) :
      ∑ k, ((out k).map Message.weight).sum = 0 := by
    obtain ⟨-, rfl⟩ := Prod.mk.inj (Option.some.inj h)
    exact weight_none
  cases body with
  | request =>
    have hle := weight_treatRequestMessage h
    simp only [Body.handler, Handler.weight, Message.weight, Body.weight]
    omega
  | locked grant | inquire grant | failed =>
    rw [hsilent h]
    exact Nat.le_refl _
  | relinquish grant =>
    obtain ⟨top, -, h⟩ := Option.bind_eq_some_iff.mp h
    rw [weight_lock h]
    exact Nat.le_refl _
  | release =>
    have hle := weight_treatReleaseMessage h
    simp only [Body.handler, Handler.weight, Message.weight, Body.weight]
    omega

def Action.isTreatMessage : Action n → Bool
  | .treatMessage _ _ _ => true
  | _ => false

def Action.isRequestResource : Action n → Bool
  | .requestResource _ => true
  | _ => false

theorem due_pays (Q : Quorums n) {k : ℕ} (hk : ∀ i, (Q.quorum i).card ≤ k) :
    (machine Q).Pays (fun _ => True) (fun _ _ => True) (fun a => if a.isTreatMessage then 1 else 0)
      (fun a => if a.isRequestResource then 6 * k else 0) (State.due Q) where
  keeps _ _ _ _ _ _ := trivial
  pays s a t _ _ hstep := by
    have he := effect_of_step hstep
    cases a with
    | requestResource i =>
      obtain ⟨hm, rfl⟩ := he
      have hwrite := due_write Q s i ((s.strategy i).requestResource (Q.quorum i)).1 .polling
        ((s.strategy i).requestResource (Q.quorum i)).2
      have hcard := hk i
      rw [weight_requestResource, hm] at hwrite
      simp only [MainThread.weight] at hwrite
      simp only [Action.isTreatMessage, Action.isRequestResource, if_true, Bool.false_eq_true,
        if_false]
      omega
    | canEnterCriticalSection i =>
      obtain ⟨hm, rfl⟩ := he
      have hwrite := due_write Q s i (s.strategy i)
        (if (s.strategy i).canEnterCriticalSection (Q.quorum i) then .inside else .polling)
        fun _ => []
      rw [weight_none, hm] at hwrite
      have hsame : (if (s.strategy i).canEnterCriticalSection (Q.quorum i) then MainThread.inside
          else .polling).weight (Q.quorum i) = MainThread.polling.weight (Q.quorum i) := by
        split_ifs <;> rfl
      rw [hsame] at hwrite
      exact (Nat.zero_add _).trans_le (Nat.add_right_cancel hwrite).le
    | releaseResource i =>
      obtain ⟨hm, rfl⟩ := he
      have hwrite := due_write Q s i ((s.strategy i).releaseResource (Q.quorum i)).1 .idle
        ((s.strategy i).releaseResource (Q.quorum i)).2
      rw [weight_releaseResource, hm] at hwrite
      exact (Nat.zero_add _).trans_le (Nat.add_right_cancel hwrite).le
    | treatMessage i j place =>
      obtain ⟨before, message, behind, c, out, hl, -, hready, hc, rfl⟩ := he
      have hle := weight_treatMessage hc
      have hreceive := due_receive Q s i j (before ++ behind)
      have hwrite := due_write Q (s.receive i j (before ++ behind)) i c (s.main i) out
      have hset := due_setHandler Q ((s.receive i j (before ++ behind)).write i c (s.main i) out)
        i j message.body.handler
      rw [hl] at hreceive
      simp only [List.map_append, List.map_cons, List.sum_append, List.sum_cons] at hreceive
      simp only [Action.isTreatMessage, if_true]
      change _ + (s.main i).weight (Q.quorum i) = _ at hwrite
      omega
    | treatInquireMessage i j =>
      obtain ⟨grant, ⟨point, point', hi, rfl⟩ | ⟨hi, rfl⟩ | ⟨hi, rfl⟩⟩ := he
      · have hset := due_setHandler Q s i j (.inquiring point' grant)
        rw [hi] at hset
        exact (Nat.zero_add _).trans_le (Nat.add_right_cancel hset).le
      · have hset := due_setHandler Q s i j .ready
        rw [hi] at hset
        exact (Nat.zero_add _).trans_le (le_trans (Nat.le_add_right _ 2) hset.le)
      · have hset := due_setHandler Q (s.write i ((s.strategy i).relinquish j grant).1 (s.main i)
          ((s.strategy i).relinquish j grant).2) i j .ready
        have hwrite := due_write Q s i ((s.strategy i).relinquish j grant).1 (s.main i)
          ((s.strategy i).relinquish j grant).2
        rw [weight_relinquish] at hwrite
        change _ + (s.handler i j).weight = _ at hset
        rw [hi] at hset
        simp only [Handler.weight] at hset
        exact (Nat.zero_add _).trans_le (by omega)

/-- The number of all messages in flight, those of clients to themselves included. -/
def State.messages (s : State n) : ℕ := ∑ i, ∑ j, (s.inFlight i j).length

theorem one_le_weight (m : Message) : 1 ≤ m.weight := by
  obtain ⟨t, body⟩ := m
  cases body <;> exact Nat.succ_pos _

theorem messages_le_due (Q : Quorums n) (s : State n) : s.messages ≤ s.due Q := by
  have hone := s.inFlight.weight_mono one_le_weight
  rw [Network.weight_one] at hone
  unfold State.due State.messages
  omega

theorem initial_due (Q : Quorums n) : (initial n).due Q = 0 := by
  simp [State.due, Network.weight, Network.load, initial, Handler.weight, MainThread.weight]

/-- In every run the messages sent, those in flight at its end included, are at most six for each
request and member of a quorum: REQUEST, INQUIRE, RELINQUISH, LOCKED, RELEASE and LOCKED. -/
theorem messages_per_quorum (Q : Quorums n) (k : ℕ) (hk : ∀ i, (Q.quorum i).card ≤ k)
    (acts : List (Action n)) (s : State n) (hr : (machine Q).run (initial n) acts = some s) :
    acts.countP Action.isTreatMessage + s.messages ≤
      6 * k * acts.countP Action.isRequestResource := by
  have hbill := (due_pays Q hk).run trivial (Machine.along_trivial _ _ acts) hr
  have hmessages := messages_le_due Q s
  rw [Machine.total_ite, Machine.total_ite, Nat.one_mul, initial_due, Nat.zero_add] at hbill
  omega

/-- The run with a RELINQUISH, until client 0 has left and client 1 has all locks. -/
def handedRun : List (Action 2) :=
  yieldRun ++ [.releaseResource 0, .treatMessage 0 0 0, .treatMessage 1 0 0, .treatMessage 1 0 0,
    .treatMessage 1 1 0]

theorem messages_per_quorum_handed : ∃ s : State 2, s.messages = 0 ∧
    (s.strategy 1).receivedAllLocked (Quorums.pair.quorum 1) = true ∧
    handedRun.countP Action.isTreatMessage + s.messages ≤ 6 * 2 * 2 := by
  obtain ⟨s, hr, hp⟩ := (machine .pair).exists_run (s := initial 2) handedRun
    (fun s => s.messages = 0 &&
      (s.strategy 1).receivedAllLocked (Quorums.pair.quorum 1)) (by decide)
  simp only [Bool.and_eq_true, decide_eq_true_eq] at hp
  exact ⟨s, hp.1, hp.2, messages_per_quorum .pair 2 (by decide) handedRun s hr⟩

end DistributedME.Maekawa
