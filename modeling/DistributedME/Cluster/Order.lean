import DistributedME.Cluster.Replicas
import DistributedME.Cluster.Shutdown
import Mathlib.Algebra.BigOperators.Group.Finset.Piecewise

/-! A client does what the lines of its input say, once each and in their order, and the servers
carry it out in that order. -/
namespace DistributedME.Cluster
open Library
variable {n m : ℕ}

def Event.request : Event n m → Request m
  | read _ filename serverId _ => .read filename serverId
  | write _ filename _ => .write filename

/-- The line at hand, until its body is finished. -/
def Client.current (c : Client n m) : Option (Request m) :=
  match c.main with
  | .requesting request => some request
  | .requestRead filename serverId | .reading filename serverId => some (.read filename serverId)
  | .requestWrite filename _ _ => some (.write filename)
  | .start | .enquiring | .ready | .finished _ _ => none

def finishedRequests (i : Fin n) (history : List (Event n m)) : List (Request m) :=
  (history.filter fun e => e.client = i).map Event.request

/-- The finished lines, the line at hand and the lines to come. -/
def Client.requests (c : Client n m) (i : Fin n) (history : List (Event n m)) :
    List (Request m) :=
  finishedRequests i history ++ c.current.toList ++ c.input

private theorem finishedRequests_append (i : Fin n) (history events : List (Event n m)) :
    finishedRequests i (history ++ events) =
      finishedRequests i history ++ finishedRequests i events := by
  rw [finishedRequests, List.filter_append, List.map_append]
  rfl

private theorem finishedRequests_of_eq {i : Fin n} {events : List (Event n m)}
    (h : ∀ e ∈ events, e.client = i) : finishedRequests i events = events.map Event.request := by
  rw [finishedRequests, List.filter_eq_self.mpr]
  intro e he
  exact decide_eq_true (h e he)

private theorem finishedRequests_of_ne {i j : Fin n} {events : List (Event n m)} (hij : i ≠ j)
    (h : ∀ e ∈ events, e.client = j) : finishedRequests i events = [] := by
  rw [finishedRequests, List.filter_eq_nil_iff.mpr, List.map_nil]
  intro e he
  rw [h e he]
  simpa using Ne.symm hij

private theorem requests_of_main {config : Config n m} {i : Fin n} {c c' : Client n m}
    {out : Fin m → List Message} {events : List (Event n m)}
    (h : c.MainMove config i c' out events) (history : List (Event n m)) :
    c'.requests i (history ++ events) = c.requests i history := by
  unfold Client.requests
  rw [finishedRequests_append]
  cases h with
  | request hm hinput => simp [Client.current, hm, hinput, finishedRequests]
  | read hm hdone | write hnext hm hdone =>
    simp [Client.current, Client.finish, hm, finishedRequests, Event.client, Event.request]
  | enquire hm | enquired hm | enterRead hm | enterWrite hm ht | sendRead hm | sendWrite hnext hm
  | tell hnext hm | release hnext hm =>
    simp [Client.current, hm, finishedRequests]

def Traffic.InOrder (config : Config n m) (v : Traffic n m) : Prop :=
  ∀ i, (v.client i).requests i v.history = config.input i

theorem Traffic.InOrder.move {config : Config n m} {v v' : Traffic n m} (h : v.InOrder config)
    (hmove : v.Move config v') : v'.InOrder config := by
  cases hmove with
  | quiet hq =>
    intro i
    rw [← h i]
    simp only [Client.requests, Client.current, (hq i).main, (hq i).input]
  | main hc =>
    refine (Function.forall_update_iff v.client fun j c =>
      c.requests j _ = config.input j).mpr ⟨?_, fun j hj => ?_⟩
    · rw [requests_of_main hc]
      exact h _
    · rw [Client.requests, finishedRequests_append, finishedRequests_of_ne hj hc.client_eq,
        List.append_nil]
      exact h j
  | answer hk =>
    refine (Function.forall_update_iff v.client fun j c =>
      c.requests j _ = config.input j).mpr ⟨?_, fun j _ => h j⟩
    rw [← h _]
    simp only [Client.requests, Client.current, Client.main_treatServerPacket,
      Client.input_treatServerPacket]
  | write | read | other => exact h

theorem inOrder_of_reachable {config : Config n m} {s : State n m}
    (h : (machine config).Reachable s) : s.traffic.InOrder config := by
  refine h.invariant (I := fun s => s.traffic.InOrder config) ?_ ?_
  · rintro s rfl j
    simp [State.traffic, initial, Client.requests, Client.current, Client.construct,
      finishedRequests]
  · intro s a t hs _ hstep
    exact hs.move (move_of_step hstep)

theorem length_finishedRequests (s : State n m) (i : Fin n) :
    (finishedRequests i s.history).length = s.bodies i := by
  rw [finishedRequests, List.length_map, State.bodies, List.countP_eq_length_filter]

theorem finishedRequests_eq {config : Config n m} {s : State n m}
    (h : (machine config).Reachable s) (i : Fin n) :
    finishedRequests i s.history = (config.input i).take (s.bodies i) := by
  rw [← inOrder_of_reachable h i, Client.requests, List.append_assoc]
  exact (List.take_left' (length_finishedRequests s i)).symm

theorem finishedRequests_of_end {config : Config n m} {s : State n m}
    (h : (machine config).Reachable s) {i : Fin n}
    (hi : s.bodies i = (config.input i).length) :
    finishedRequests i s.history = config.input i ∧ (s.client i).current = none := by
  have hfinished : finishedRequests i s.history = config.input i := by
    rw [finishedRequests_eq h, hi, List.take_length]
  have horder : finishedRequests i s.history ++ (s.client i).current.toList ++
      (s.client i).input = config.input i := inOrder_of_reachable h i
  rw [hfinished, List.append_assoc, List.append_right_eq_self, List.append_eq_nil_iff] at horder
  exact ⟨hfinished, Option.toList_eq_nil_iff.mp horder.1⟩

/-- There is one line for every finished WRITE. -/
theorem length_written (filename : Bytes) (history : List (Event n m)) :
    (written filename history).length =
      history.countP fun e => e.request = .write filename := by
  induction history with
  | nil => rfl
  | cons e history ih =>
    rw [List.countP_cons, ← ih]
    cases e with
    | read i f k result =>
      by_cases hf : f = filename
      · subst hf
        simp only [written, Log.entries, List.filterMap_cons, Event.action, if_true, Event.request]
        simp [Log.Action.entry]
      · simp [written, Log.entries, Event.action, Event.request, hf]
    | write i f timestamp =>
      by_cases hf : f = filename
      · simp [written, Log.entries, Event.action, Log.Action.entry, Event.request, hf]
      · simp [written, Log.entries, Event.action, Event.request, hf]

/-- Every body is a body of one client. -/
theorem countP_eq_sum (history : List (Event n m)) (request : Request m) :
    history.countP (fun e => e.request = request) =
      ∑ i, (finishedRequests i history).count request := by
  induction history with
  | nil => simp [finishedRequests]
  | cons e history ih =>
    have hcons (i : Fin n) : (finishedRequests i (e :: history)).count request =
        (finishedRequests i history).count request +
          if i = e.client then (if e.request = request then 1 else 0) else 0 := by
      by_cases hi : e.client = i
      · simp [finishedRequests, hi, List.count_cons]
      · simp [finishedRequests, hi, Ne.symm hi]
    simp only [hcons, Finset.sum_add_distrib, Finset.sum_ite_eq', Finset.mem_univ, if_true]
    rw [List.countP_cons, ih]
    simp

/-! What is sent to a server, and what the server has treated. -/

/-- A request that server k has to do with. -/
def Request.concerns (k : Fin m) : Request m → Bool
  | read _ serverId => serverId = k
  | write _ => true

/-- The packet in which client i sends a request. -/
inductive Message.Carries (i : Fin n) : Message → Request m → Prop
  | read (filename : Bytes) (serverId : Fin m) :
      Carries i ⟨.clientRequestRead, filename⟩ (.read filename serverId)
  | write (filename : Bytes) (timestamp : ℕ) :
      Carries i ⟨.clientRequestWrite, filename ++ hash :: writeLine i timestamp⟩ (.write filename)

def Message.isRequest (packet : Message) : Bool :=
  packet.messageType = .clientRequestRead || packet.messageType = .clientRequestWrite

/-- What server k treats of client i in a step. -/
def treats (k : Fin m) (i : Fin n) (s : State n m) (a : Action n m) : List Message :=
  if a = .treatRequest k i then (s.inFlight (.client i) (.server k)).take 1 else []

/-- The request at hand, if it has been sent to server k. -/
def Client.sent (c : Client n m) (k : Fin m) : List (Request m) :=
  match c.main with
  | .reading filename serverId => if serverId = k then [.read filename serverId] else []
  | .requestWrite filename _ next => if k.val < next then [.write filename] else []
  | .start | .enquiring | .ready | .requesting _ | .requestRead _ _ | .finished _ _ => []

section sent
variable {config : Config n m} {s t : State n m} {a : Action n m} {i : Fin n} {k : Fin m}

private theorem filter_only {l : Fin m} {packet : Message} (h : packet.isRequest = false) :
    (Network.only l [packet] k).filter Message.isRequest = [] := by
  rw [List.filter_eq_nil_iff]
  intro p hp
  obtain rfl := List.mem_singleton.mp (Network.mem_only.mp hp).2
  simp [h]

/-- A main thread sends each request once to every server that it concerns, before it finishes
the body. -/
theorem sent_main {c c' : Client n m} {out : Fin m → List Message} {events : List (Event n m)}
    (h : c.MainMove config i c' out events) (k : Fin m) : ∃ requests,
    List.Forall₂ (Message.Carries i) ((out k).filter Message.isRequest) requests ∧
      (events.map Event.request).filter (Request.concerns k) ++ c'.sent k =
        c.sent k ++ requests := by
  cases h with
  | enquire hm | tell hnext hm =>
    exact ⟨[], by rw [filter_only rfl]; exact .nil, by simp [Client.sent, hm]⟩
  | enquired hm | request hm | enterRead hm | enterWrite hm | release hnext hm =>
    exact ⟨[], .nil, by simp [Client.sent, hm]⟩
  | @sendRead filename l hm =>
    by_cases hk : l = k
    · subst hk
      refine ⟨[.read filename l], ?_, by simp [Client.sent, hm]⟩
      rw [Network.only_self]
      exact .cons (.read filename l) .nil
    · refine ⟨[], ?_, by simp [Client.sent, hm, hk]⟩
      rw [Network.only_of_ne _ (Ne.symm hk)]
      exact .nil
  | @read filename l hm hdone =>
    refine ⟨[], .nil, ?_⟩
    simp [Client.sent, Client.finish, hm, Event.request, Request.concerns, List.filter_cons]
  | @sendWrite filename timestamp next hnext hm =>
    by_cases hk : k.val = next
    · subst hk
      refine ⟨[.write filename], ?_, by simp [Client.sent, hm]⟩
      rw [Network.only_self]
      exact .cons (.write filename timestamp) .nil
    · refine ⟨[], ?_, ?_⟩
      · rw [Network.only_of_ne _ fun hkn => hk (congrArg Fin.val hkn)]
        exact .nil
      · have hlt : k.val < next + 1 ↔ k.val < next := by omega
        simp [Client.sent, hm, hlt]
  | @write filename timestamp next hnext hm hdone =>
    refine ⟨[], .nil, ?_⟩
    simp [Client.sent, Client.finish, hm, Event.request, Request.concerns,
      k.isLt.trans_le hnext]

/-- What server k has treated of client i and what is under way are the requests of the finished
lines, and the one at hand if it has been sent. -/
def State.Carried (s : State n m) (i : Fin n) (k : Fin m) (treated : List Message) : Prop :=
  List.Forall₂ (Message.Carries i)
    ((treated ++ s.inFlight (.client i) (.server k)).filter Message.isRequest)
    ((finishedRequests i s.history).filter (Request.concerns k) ++ (s.client i).sent k)

private theorem State.Carried.same {treated treated' : List Message} (h : s.Carried i k treated)
    (hmail : treated' ++ t.inFlight (.client i) (.server k) =
      treated ++ s.inFlight (.client i) (.server k))
    (hhistory : finishedRequests i t.history = finishedRequests i s.history)
    (hmain : (t.client i).main = (s.client i).main) : t.Carried i k treated' := by
  rw [State.Carried, hmail, hhistory, Client.sent, hmain]
  exact h

private theorem carried_step {treated : List Message} (hs : s.Carried i k treated)
    (h : step config s a = some t) : t.Carried i k (treated ++ treats k i s a) := by
  have hquiet (hq : s.Quiet t) (htreats : treats k i s a = []) :
      t.Carried i k (treated ++ treats k i s a) := by
    rw [htreats, List.append_nil]
    exact hs.same (by rw [hq.requests]) (by rw [hq.history]) (hq.client i).main
  cases a with
  | sendCriticalSectionMessage | passServer | handleClientPacket | passClient | passRequests =>
    exact hquiet (quiet_step rfl h) rfl
  | mainStep j =>
    obtain ⟨⟨c, out, events⟩, hc, rfl⟩ := Option.map_eq_some_iff.mp h
    have hm := Client.mainMove_of_mainStep hc
    change State.Carried _ i k (treated ++ [])
    rw [List.append_nil]
    by_cases hj : i = j
    · subst hj
      obtain ⟨requests, hcarries, hsent⟩ := sent_main hm k
      have hfinished := finishedRequests_of_eq hm.client_eq
      simp only [State.Carried, history_record, history_post, history_setClient, client_record,
        client_post, client_setClient, Function.update_self, inFlight_record, inFlight_post,
        inFlight_setClient, Network.post_self, finishedRequests_append, hfinished,
        List.filter_append, List.append_assoc, hsent]
      rw [← List.append_assoc, ← List.append_assoc, ← List.filter_append]
      exact List.rel_append hs hcarries
    · apply hs.same
      · simp [Network.post_of_ne _ _ _ fun h => hj (Party.client.inj h)]
      · simp [finishedRequests_append, finishedRequests_of_ne hj hm.client_eq]
      · simp [Function.update_of_ne hj]
  | treatServerPacket j l =>
    simp only [step] at h
    split at h
    · cases h
    · split_ifs at h
      cases h
      change State.Carried _ i k (treated ++ [])
      rw [List.append_nil]
      apply hs.same
      · simp [Network.put_of_ne]
      · rfl
      · rw [client_setClient, client_receive, Function.update_apply]
        split_ifs with hj
        · rw [hj, Client.main_treatServerPacket]
        · rfl
  | treatRequest l j =>
    simp only [step] at h
    split at h
    · cases h
    · next packet rest hmail =>
      split_ifs at h
      obtain ⟨⟨v, answers⟩, hv, rfl⟩ := Option.map_eq_some_iff.mp h
      refine hs.same ?_ rfl rfl
      rw [inFlight_post, inFlight_setServer, inFlight_receive,
        Network.post_of_ne _ _ _ (by simp)]
      by_cases hlj : l = k ∧ j = i
      · obtain ⟨rfl, rfl⟩ := hlj
        rw [Network.put_self, hmail, treats, if_pos rfl, hmail, List.append_assoc]
        rfl
      · rw [Network.put_of_ne, treats, if_neg, List.append_nil]
        · rintro ⟨⟩
          exact hlj ⟨rfl, rfl⟩
        · rintro ⟨hi, hk⟩
          exact hlj ⟨(Party.server.inj hk).symm, (Party.client.inj hi).symm⟩

theorem carried_run {acts : List (Action n m)}
    (h : (machine config).run (initial config) acts = some s) (i : Fin n) (k : Fin m) :
    s.Carried i k ((machine config).trace (treats k i) (initial config) acts) := by
  have hfirst : (initial config).Carried i k [] := .nil
  exact Machine.invariant_trace (I := fun s treated => s.Carried i k treated)
    (fun _ _ _ _ hs hstep => carried_step hs hstep) hfirst h

private theorem length_requests (mail : List Message) : (mail.filter Message.isRequest).length =
    tally .clientRequestRead mail + tally .clientRequestWrite mail := by
  induction mail with
  | nil => rfl
  | cons packet mail ih =>
    rw [tally_cons, tally_cons, List.filter_cons]
    cases hp : packet.messageType <;> simp [Message.isRequest, hp] <;> omega

/-- A request is treated before its body is finished. -/
private theorem length_requests_le {c : Client n m} {requests answers : Fin m → List Message}
    (h : Exchanged i c requests answers) (k : Fin m) :
    ((requests k).filter Message.isRequest).length ≤ (c.sent k).length := by
  have hwrite := h.write k
  have hread := h.read k
  rw [length_requests]
  cases hw : c.owesWrite k with
  | true =>
    obtain ⟨filename, timestamp, next, hm, hk, -⟩ := Client.main_of_owesWrite hw
    have hr : c.owesRead k = false := by rw [Client.owesRead, hm]
    rw [hw, Bool.toNat_true] at hwrite
    rw [hr, Bool.toNat_false] at hread
    simp only [Client.sent, hm, if_pos hk, List.length_singleton]
    omega
  | false =>
    rw [hw, Bool.toNat_false] at hwrite
    cases hr : c.owesRead k with
    | true =>
      obtain ⟨filename, hm, -⟩ := Client.main_of_owesRead hr
      rw [hr, Bool.toNat_true] at hread
      simp only [Client.sent, hm, if_true, List.length_singleton]
      omega
    | false =>
      rw [hr, Bool.toNat_false] at hread
      omega

private theorem sent_of_current (c : Client n m) (k : Fin m) :
    c.sent k <+: c.current.toList.filter (Request.concerns k) := by
  unfold Client.sent Client.current
  split
  · next hm => simp [hm, Request.concerns, List.filter_cons]
  · next hm =>
    rw [hm]
    split_ifs
    · exact List.prefix_rfl
    · exact List.nil_prefix
  all_goals exact List.nil_prefix

end sent

def threeLines : Config 2 2 :=
  { writeThenRead with
    nRequests := 3
    input := ![[.write [102], .read [103] 1, .write [103]], []] }

/-- Client 0 writes to both servers, and server 1 has read for it. -/
def threeLinesRun : List (Action 2 2) :=
  firstBody 0 ++ [.mainStep 0, .treatRequest 1 0, .treatRequest 0 0, .treatServerPacket 0 0,
    .treatServerPacket 0 1, .mainStep 0, .mainStep 0, .mainStep 0, .mainStep 0, .mainStep 0,
    .treatRequest 1 0]

end DistributedME.Cluster
