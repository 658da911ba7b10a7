import DistributedME.Cluster.System

/-! What clients ask servers for, and what servers answer. Every request of a client is under
way, or its answer is, or the client knows the answer. -/
namespace DistributedME.Cluster
open Library
variable {n m : ℕ}

/-- The requests and answers under way, and the files. -/
structure Traffic (n m : ℕ) where
  client : Fin n → Client n m
  files : Fin m → Bytes → Option Bytes
  requests : Fin n → Fin m → List Message
  answers : Fin m → Fin n → List Message
  history : List (Event n m)

def State.traffic (s : State n m) : Traffic n m where
  client := s.client
  files k := (s.server k).files
  requests i k := s.inFlight (.client i) (.server k)
  answers := s.answers
  history := s.history

namespace Traffic

/-- Server k takes a request of client i and answers. -/
def serve (v : Traffic n m) (k : Fin m) (i : Fin n) (rest out : List Message) : Traffic n m :=
  { v with
    requests := Function.update v.requests i (Function.update (v.requests i) k rest)
    answers := Function.update v.answers k
      (Function.update (v.answers k) i (v.answers k i ++ out)) }

/-- Everything that a step can do to requests, answers and files. -/
inductive Move (config : Config n m) (v : Traffic n m) : Traffic n m → Prop
  | quiet {client : Fin n → Client n m} : (∀ i, (v.client i).Quiet (client i)) →
      Move config v { v with client := client }
  | main {i : Fin n} {c : Client n m} {out : Fin m → List Message} {events : List (Event n m)} :
      (v.client i).MainMove config i c out events → Move config v
        { v with
          client := Function.update v.client i c
          requests := Function.update v.requests i fun k => v.requests i k ++ out k
          history := v.history ++ events }
  | answer {k : Fin m} {i : Fin n} {packet : Message} {rest : List Message} :
      v.answers k i = packet :: rest → Move config v
        { v with
          client := Function.update v.client i ((v.client i).treatServerPacket k packet)
          answers := Function.update v.answers k (Function.update (v.answers k) i rest) }
  | write {k : Fin m} {i : Fin n} {packet : Message} {rest : List Message} {filename line : Bytes}
      {tokens : List Bytes} : v.requests i k = packet :: rest →
      packet.messageType = .clientRequestWrite →
      splitString hash packet.msg = filename :: line :: tokens → Move config v
        { v.serve k i rest [⟨.serverReplyWriteClient, []⟩] with
          files := Function.update v.files k (Function.update (v.files k) filename
            (some (writeToFile (v.files k filename) line))) }
  | read {k : Fin m} {i : Fin n} {packet : Message} {rest : List Message} {result : Bytes} :
      v.requests i k = packet :: rest → packet.messageType = .clientRequestRead →
      readLastLineOfFile (v.files k packet.msg) = some result →
      Move config v (v.serve k i rest [⟨.serverReplyReadClient, result⟩])
  | other {k : Fin m} {i : Fin n} {packet : Message} {rest out : List Message} :
      v.requests i k = packet :: rest → packet.messageType ≠ .clientRequestWrite →
      packet.messageType ≠ .clientRequestRead →
      (∀ p ∈ out, p.messageType = .serverReplyEnquiryClient) →
      Move config v (v.serve k i rest out)

end Traffic

theorem traffic_of_quiet {s t : State n m} (h : s.Quiet t) :
    t.traffic = { s.traffic with client := t.client } := by
  have hfiles : (fun k => (t.server k).files) = fun k => (s.server k).files := funext h.files
  have hrequests : (fun i k => t.inFlight (.client i) (.server k)) =
      fun i k => s.inFlight (.client i) (.server k) := by
    funext i k
    exact h.requests i k
  have hanswers : t.answers = s.answers := by
    funext k i
    exact h.answers k i
  rw [State.traffic, hfiles, hrequests, hanswers, h.history]
  rfl

/-- What a server does with a packet. -/
theorem treatPacket_cases {v v' : Server n} {i : Fin n} {packet : Message} {out : List Message}
    (h : v.treatPacket i packet = some (v', out)) :
    (packet.messageType = .clientRequestWrite ∧ ∃ filename line tokens,
      splitString hash packet.msg = filename :: line :: tokens ∧
      v'.files = Function.update v.files filename (some (writeToFile (v.files filename) line)) ∧
      out = [⟨.serverReplyWriteClient, []⟩]) ∨
    (packet.messageType = .clientRequestRead ∧ v'.files = v.files ∧ ∃ result,
      readLastLineOfFile (v.files packet.msg) = some result ∧
      out = [⟨.serverReplyReadClient, result⟩]) ∨
    (packet.messageType ≠ .clientRequestWrite ∧ packet.messageType ≠ .clientRequestRead ∧
      v'.files = v.files ∧ ∀ p ∈ out, p.messageType = .serverReplyEnquiryClient) := by
  unfold Server.treatPacket at h
  split at h
  · next ht =>
    cases h
    exact .inr (.inr ⟨by simp [ht], by simp [ht], rfl, by simp⟩)
  · next ht =>
    cases h
    exact .inr (.inr ⟨by simp [ht], by simp [ht], rfl, by simp⟩)
  · next ht =>
    obtain ⟨answer, hanswer, h⟩ := Option.map_eq_some_iff.mp h
    obtain ⟨result, hresult, rfl⟩ := Option.map_eq_some_iff.mp hanswer
    cases h
    exact .inr (.inl ⟨ht, rfl, result, hresult, rfl⟩)
  · next ht =>
    obtain ⟨⟨v₁, answer⟩, hanswer, h⟩ := Option.map_eq_some_iff.mp h
    cases h
    unfold Server.handleWriteRequest at hanswer
    split at hanswer
    · next filename line tokens hsplit =>
      cases hanswer
      exact .inl ⟨ht, filename, line, tokens, hsplit, rfl, rfl⟩
    · cases hanswer
  · next hd he hr hw =>
    cases h
    exact .inr (.inr ⟨hw, hr, rfl, by simp⟩)

theorem traffic_main (s : State n m) (i : Fin n) (c : Client n m) (out : Fin m → List Message)
    (events : List (Event n m)) :
    (((s.setClient i c).post (.client i) (toServers out)).record events).traffic =
      { s.traffic with
        client := Function.update s.client i c
        requests := Function.update s.traffic.requests i fun k => s.traffic.requests i k ++ out k
        history := s.history ++ events } := by
  have hrequests : (fun j k => (s.inFlight.post (.client i) (toServers out))
      (.client j) (.server k)) =
      Function.update s.traffic.requests i fun k => s.traffic.requests i k ++ out k := by
    funext j k
    rw [Network.post_apply, Function.update_apply]
    by_cases hj : j = i
    · rw [if_pos (congrArg Party.client hj), if_pos hj, hj]
      rfl
    · rw [if_neg fun h => hj (Party.client.inj h), if_neg hj, List.append_nil]
      rfl
  have hanswers : ((s.setClient i c).post (.client i) (toServers out)).answers = s.answers := by
    funext k j
    simp [State.answers]
  simp only [State.traffic, client_record, server_record, inFlight_record, history_record,
    client_post, server_post, inFlight_post, history_post, client_setClient, server_setClient,
    inFlight_setClient, history_setClient, hrequests]
  exact congrArg (fun answers => (⟨_, _, _, answers, _⟩ : Traffic n m)) hanswers

theorem traffic_answer (s : State n m) (i : Fin n) (k : Fin m) (c : Client n m)
    (rest : List Message) :
    ((s.receive (.client i) (.server k) rest).setClient i c).traffic =
      { s.traffic with
        client := Function.update s.client i c
        answers := Function.update s.answers k
          (Function.update (s.answers k) i (rest.filter Message.answers)) } := by
  have hanswers : ((s.receive (.client i) (.server k) rest).setClient i c).answers =
      Function.update s.answers k
        (Function.update (s.answers k) i (rest.filter Message.answers)) := by
    funext l j
    rw [update_update_apply]
    by_cases h : l = k ∧ j = i
    · rw [if_pos h, h.1, h.2]
      simp [State.answers]
    · rw [if_neg h]
      simp only [State.answers, inFlight_setClient, inFlight_receive]
      rw [Network.put_of_ne]
      rintro ⟨hl, hj⟩
      exact h ⟨Party.server.inj hl, Party.client.inj hj⟩
  have hrequests : (fun j l => (s.inFlight.put (.server k) (.client i) rest)
      (.client j) (.server l)) = s.traffic.requests := by
    funext j l
    rw [Network.put_of_ne]
    · rfl
    · simp
  simp only [State.traffic, client_setClient, server_setClient, inFlight_setClient,
    history_setClient, server_receive, inFlight_receive, history_receive, client_receive,
    hrequests, hanswers]

theorem traffic_serve (s : State n m) (k : Fin m) (i : Fin n) (v : Server n)
    (rest out : List Message) (hout : ∀ p ∈ out, p.answers = true) :
    (((s.receive (.server k) (.client i) rest).setServer k v).post (.server k)
        (Network.only (.client i) out)).traffic =
      { s.traffic.serve k i rest out with
        files := Function.update s.traffic.files k v.files } := by
  have hfiles : (fun l => (Function.update s.server k v l).files) =
      Function.update s.traffic.files k v.files := by
    funext l
    rw [Function.update_apply, Function.update_apply]
    split_ifs <;> rfl
  have hrequests : (fun j l => ((s.inFlight.put (.client i) (.server k) rest).post (.server k)
      (Network.only (.client i) out)) (.client j) (.server l)) =
      Function.update s.traffic.requests i
        (Function.update (s.traffic.requests i) k rest) := by
    funext j l
    rw [update_update_apply, Network.post_of_ne _ _ _ (by simp), Network.put]
    simp only [Party.client.injEq, Party.server.injEq]
    rfl
  have hanswers : (((s.receive (.server k) (.client i) rest).setServer k v).post (.server k)
      (Network.only (.client i) out)).answers =
      Function.update s.answers k
        (Function.update (s.answers k) i (s.answers k i ++ out)) := by
    funext l j
    have hfilter : out.filter Message.answers = out := List.filter_eq_self.mpr hout
    have hput : (s.inFlight.put (.client i) (.server k) rest) (.server l) (.client j) =
        s.inFlight (.server l) (.client j) := by
      rw [Network.put_of_ne]
      simp
    rw [update_update_apply]
    simp only [State.answers, inFlight_post, inFlight_setServer, inFlight_receive,
      Network.post_apply, hput, List.filter_append]
    by_cases h : l = k ∧ j = i
    · rw [if_pos h, h.1, h.2, if_pos rfl, Network.only_self, hfilter]
    · rw [if_neg h]
      by_cases hl : l = k
      · have hj : Party.client (m := m) j ≠ .client i := fun hj => h ⟨hl, Party.client.inj hj⟩
        rw [if_pos (congrArg Party.server hl), Network.only_of_ne _ hj, List.filter_nil,
          List.append_nil]
      · rw [if_neg fun hlk => hl (Party.server.inj hlk), List.filter_nil, List.append_nil]
  simp only [State.traffic, Traffic.serve, client_post, server_post, inFlight_post, history_post,
    client_setServer, server_setServer, inFlight_setServer, history_setServer, client_receive,
    server_receive, inFlight_receive, history_receive, hfiles, hrequests, hanswers]

theorem quiet_treatServerPacket {c : Client n m} (k : Fin m) {packet : Message}
    (hp : ¬ packet.answers = true) : c.Quiet (c.treatServerPacket k packet) := by
  have htype : packet.messageType = .serverReceivedAllDoneRequests := by
    simpa [Message.answers] using hp
  simp only [Client.treatServerPacket, htype]
  exact ⟨rfl, rfl, rfl, Nat.le_refl _, rfl, rfl, rfl⟩

/-- Every step is one move of the traffic. -/
theorem move_of_step {config : Config n m} {s t : State n m} {a : Action n m}
    (h : step config s a = some t) : s.traffic.Move config t.traffic := by
  have hquiet (hq : s.Quiet t) : s.traffic.Move config t.traffic := by
    rw [traffic_of_quiet hq]
    exact .quiet hq.client
  cases a with
  | sendCriticalSectionMessage | passServer | handleClientPacket | passClient | passRequests =>
    exact hquiet (quiet_step rfl h)
  | mainStep i =>
    obtain ⟨⟨c, out, events⟩, hc, rfl⟩ := Option.map_eq_some_iff.mp h
    rw [traffic_main]
    exact .main (Client.mainMove_of_mainStep hc)
  | treatServerPacket i k =>
    simp only [step] at h
    split at h
    · cases h
    · next packet rest hmail =>
      split_ifs at h
      cases h
      rw [traffic_answer]
      by_cases hp : packet.answers = true
      · refine .answer (v := s.traffic) ?_
        change (s.inFlight (.server k) (.client i)).filter Message.answers = _
        rw [hmail, List.filter_cons_of_pos hp]
      · -- the message that all clients are done answers no request
        have hsame : rest.filter Message.answers = s.answers k i := by
          rw [State.answers, hmail, List.filter_cons_of_neg hp]
        rw [hsame, Function.update_eq_self, Function.update_eq_self]
        refine .quiet (v := s.traffic) fun j => ?_
        rw [Function.update_apply]
        split_ifs with hj
        · rw [hj]
          exact quiet_treatServerPacket k hp
        · exact .refl _
  | treatRequest k i =>
    simp only [step] at h
    split at h
    · cases h
    · next packet rest hmail =>
      split_ifs at h
      obtain ⟨⟨v, out⟩, hv, rfl⟩ := Option.map_eq_some_iff.mp h
      have hpop : s.traffic.requests i k = packet :: rest := hmail
      have hsame (hfiles : v.files = (s.server k).files) :
          Function.update s.traffic.files k (v.setThread i .treating).files = s.traffic.files := by
        rw [Server.setThread, hfiles]
        exact Function.update_eq_self k s.traffic.files
      rcases treatPacket_cases hv with ⟨ht, filename, line, tokens, hsplit, hfiles, rfl⟩ |
        ⟨ht, hfiles, result, hresult, rfl⟩ | ⟨hw, hr, hfiles, hout⟩
      · rw [traffic_serve _ _ _ _ _ _ (by simp [Message.answers]), Server.setThread, hfiles]
        exact .write (v := s.traffic) hpop ht hsplit
      · rw [traffic_serve _ _ _ _ _ _ (by simp [Message.answers]), hsame hfiles]
        exact .read (v := s.traffic) hpop ht hresult
      · have hanswers : ∀ p ∈ out, p.answers = true := fun p hp => by
          simp [Message.answers, hout p hp]
        rw [traffic_serve _ _ _ _ _ _ hanswers, hsame hfiles]
        exact .other (v := s.traffic) hpop hw hr hout

/-- The number of packets of one type. -/
def tally (messageType : MessageType) (mail : List Message) : ℕ :=
  mail.countP fun p => p.messageType = messageType

@[simp] theorem tally_nil (messageType : MessageType) : tally messageType [] = 0 := rfl

@[simp] theorem tally_append (messageType : MessageType) (mail mail' : List Message) :
    tally messageType (mail ++ mail') = tally messageType mail + tally messageType mail' :=
  List.countP_append

theorem tally_cons (messageType : MessageType) (p : Message) (mail : List Message) :
    tally messageType (p :: mail) =
      tally messageType mail + (decide (p.messageType = messageType)).toNat := by
  rw [tally, List.countP_cons]
  by_cases h : p.messageType = messageType <;> simp [tally, h]

theorem tally_only (messageType : MessageType) (j k : Fin m) (p : Message) :
    tally messageType (Network.only j [p] k) =
      (decide (k = j ∧ p.messageType = messageType)).toNat := by
  unfold Network.only
  split_ifs with h
  · rw [tally_cons, tally_nil, Nat.zero_add]
    simp [h]
  · simp [h]

theorem tally_eq_zero {messageType : MessageType} {mail : List Message} :
    tally messageType mail = 0 ↔ ∀ p ∈ mail, p.messageType ≠ messageType := by
  simp [tally, List.countP_eq_zero]

section conservation
variable {request reply : MessageType} {owes : Bool} {mail answers : List Message} {p : Message}

/-- An answer was asked for. -/
theorem owed_of_answer (h : tally request mail + tally reply answers = owes.toNat)
    (hp : p ∈ answers) (ht : p.messageType = reply) : owes = true := by
  by_contra hno
  rw [Bool.eq_false_iff.mpr hno, Bool.toNat_false, Nat.add_eq_zero_iff] at h
  exact tally_eq_zero.mp h.2 p hp ht

/-- A request under way is the only one, and not yet answered. -/
theorem owed_of_request (h : tally request (p :: mail) + tally reply answers = owes.toNat)
    (ht : p.messageType = request) : owes = true ∧ tally request mail = 0 := by
  have := Bool.toNat_le owes
  simp only [tally_cons, ht, decide_true, Bool.toNat_true] at h
  exact ⟨Bool.toNat_eq_one.mp (by omega), by omega⟩

/-- A server takes a packet and answers it if it is a request. -/
theorem owed_update {requests answers : Fin m → List Message} {k : Fin m}
    {rest out : List Message} (hk : requests k = p :: rest)
    (hout : tally reply out = (decide (p.messageType = request)).toNat) {l : Fin m}
    (h : tally request (requests l) + tally reply (answers l) = owes.toNat) :
    tally request (Function.update requests k rest l) +
      tally reply (Function.update answers k (answers k ++ out) l) = owes.toNat := by
  by_cases hl : l = k
  · subst hl
    rw [hk, tally_cons] at h
    rw [Function.update_self, Function.update_self, tally_append, hout]
    omega
  · rwa [Function.update_of_ne hl, Function.update_of_ne hl]

/-- A client takes an answer. -/
theorem owed_pop {answers : Fin m → List Message} {k l : Fin m} {rest : List Message}
    (hk : answers k = p :: rest) (h : tally request mail + tally reply (answers l) = owes.toNat) :
    tally request mail + tally reply (Function.update answers k rest l) =
      (owes && !decide (l = k ∧ p.messageType = reply)).toNat := by
  by_cases hl : l = k
  · subst hl
    rw [Function.update_self]
    by_cases ht : p.messageType = reply
    · have howes := owed_of_answer h (hk ▸ List.mem_cons_self) ht
      rw [hk, tally_cons] at h
      simp only [howes, ht, decide_true, Bool.toNat_true] at h
      have hnone : tally request mail + tally reply rest = 0 := by omega
      simpa [ht] using hnone
    · rw [hk, tally_cons] at h
      simpa [ht] using h
  · simpa [hl] using h

end conservation

namespace Client

/-- A WRITE was sent to server k, and the client has not seen that it is done. -/
def owesWrite (c : Client n m) (k : Fin m) : Bool :=
  match c.main with
  | .requestWrite _ _ next => decide (k.val < next) && !c.serverDoneWriteRequest k
  | .start | .enquiring | .ready | .requesting _ | .requestRead _ _ | .reading _ _
  | .finished _ _ => false

/-- A READ was sent to server k, and the client has not seen its result. -/
def owesRead (c : Client n m) (k : Fin m) : Bool :=
  match c.main with
  | .reading _ serverId => decide (serverId = k) && !c.serverDoneReadRequest
  | .start | .enquiring | .ready | .requesting _ | .requestRead _ _ | .requestWrite _ _ _
  | .finished _ _ => false

theorem main_of_owesWrite {c : Client n m} {k : Fin m} (h : c.owesWrite k = true) :
    ∃ filename timestamp next, c.main = .requestWrite filename timestamp next ∧ k.val < next ∧
      c.serverDoneWriteRequest k = false := by
  unfold owesWrite at h
  split at h
  · next filename timestamp next hm =>
    simp only [Bool.and_eq_true, decide_eq_true_eq, Bool.not_eq_true'] at h
    exact ⟨filename, timestamp, next, hm, h.1, h.2⟩
  all_goals cases h

theorem main_of_owesRead {c : Client n m} {k : Fin m} (h : c.owesRead k = true) :
    ∃ filename, c.main = .reading filename k ∧ c.serverDoneReadRequest = false := by
  unfold owesRead at h
  split at h
  · next filename serverId hm =>
    simp only [Bool.and_eq_true, decide_eq_true_eq, Bool.not_eq_true'] at h
    obtain ⟨rfl, hdone⟩ := h
    exact ⟨filename, hm, hdone⟩
  all_goals cases h

theorem readResult_treatServerPacket (c : Client n m) (k : Fin m) (packet : Message) :
    (c.treatServerPacket k packet).readResult =
      if packet.messageType = .serverReplyReadClient then packet.msg else c.readResult := by
  unfold treatServerPacket
  split
  · next ht => simp [ht]
  · next ht => simp [ht]
  · next ht => simp [ht]
  · next ht => simp [ht]
  · next hread _ => rw [if_neg hread]

theorem serverDoneWriteRequest_treatServerPacket (c : Client n m) (k l : Fin m)
    (packet : Message) : (c.treatServerPacket k packet).serverDoneWriteRequest l =
      (c.serverDoneWriteRequest l ||
        decide (l = k ∧ packet.messageType = .serverReplyWriteClient)) := by
  unfold treatServerPacket
  split
  · next ht => simp [ht]
  · next ht => simp [ht]
  · next ht => simp [ht]
  · next ht => by_cases hl : l = k <;> simp [ht, hl]
  · next ht => simpa using fun _ h => (ht h).elim

theorem serverDoneReadRequest_treatServerPacket (c : Client n m) (k : Fin m)
    (packet : Message) : (c.treatServerPacket k packet).serverDoneReadRequest =
      (c.serverDoneReadRequest || decide (packet.messageType = .serverReplyReadClient)) := by
  unfold treatServerPacket
  split
  · next ht => simp [ht]
  · next ht => simp [ht]
  · next ht => simp [ht]
  · next ht => simp [ht]
  · next hread _ => simpa using fun h => (hread h).elim

theorem owesWrite_treatServerPacket (c : Client n m) (k l : Fin m) (packet : Message) :
    (c.treatServerPacket k packet).owesWrite l =
      (c.owesWrite l && !decide (l = k ∧ packet.messageType = .serverReplyWriteClient)) := by
  simp only [owesWrite, main_treatServerPacket, serverDoneWriteRequest_treatServerPacket]
  split <;> simp [Bool.and_assoc]

theorem owesRead_treatServerPacket (c : Client n m) (k l : Fin m) (packet : Message) :
    (c.treatServerPacket k packet).owesRead l =
      (c.owesRead l && !decide (packet.messageType = .serverReplyReadClient)) := by
  simp only [owesRead, main_treatServerPacket, serverDoneReadRequest_treatServerPacket]
  split <;> simp [Bool.and_assoc]

end Client

/-- What client i has sent to the servers and what they have answered. -/
structure Exchanged (i : Fin n) (c : Client n m) (requests answers : Fin m → List Message) :
    Prop where
  write : ∀ k, tally .clientRequestWrite (requests k) + tally .serverReplyWriteClient (answers k) =
    (c.owesWrite k).toNat
  read : ∀ k, tally .clientRequestRead (requests k) + tally .serverReplyReadClient (answers k) =
    (c.owesRead k).toNat
  writeUnsent : ∀ filename timestamp next, c.main = .requestWrite filename timestamp next →
    ∀ k : Fin m, next ≤ k.val → c.serverDoneWriteRequest k = false
  readUnsent : ∀ filename k, c.main = .requestRead filename k → c.serverDoneReadRequest = false
  writeText : ∀ k, ∀ p ∈ requests k, p.messageType = .clientRequestWrite →
    ∃ filename timestamp next, c.main = .requestWrite filename timestamp next ∧
      p.msg = filename ++ hash :: writeLine i timestamp
  readText : ∀ k, ∀ p ∈ requests k, p.messageType = .clientRequestRead →
    c.main = .reading p.msg k

namespace Exchanged
variable {i : Fin n} {c c' : Client n m} {requests answers : Fin m → List Message}

theorem construct (i : Fin n) (input : List (Request m)) :
    Exchanged i (.construct input) (fun _ => []) (fun _ => []) where
  write _ := rfl
  read _ := rfl
  writeUnsent _ _ _ h := nomatch h
  readUnsent _ _ h := nomatch h
  writeText _ _ h := absurd h List.not_mem_nil
  readText _ _ h := absurd h List.not_mem_nil

theorem quiet (h : Exchanged i c requests answers) (hq : c.Quiet c') :
    Exchanged i c' requests answers := by
  have hwrite (k : Fin m) : c'.owesWrite k = c.owesWrite k := by
    rw [Client.owesWrite, hq.main, hq.serverDoneWriteRequest]
    rfl
  have hread (k : Fin m) : c'.owesRead k = c.owesRead k := by
    rw [Client.owesRead, hq.main, hq.serverDoneReadRequest]
    rfl
  refine ⟨fun k => hwrite k ▸ h.write k, fun k => hread k ▸ h.read k, ?_, ?_, ?_, ?_⟩
  · rw [hq.main, hq.serverDoneWriteRequest]
    exact h.writeUnsent
  · rw [hq.main, hq.serverDoneReadRequest]
    exact h.readUnsent
  · rw [hq.main]
    exact h.writeText
  · rw [hq.main]
    exact h.readText

/-- Nothing is under way before and after a step. -/
theorem idle (h : Exchanged i c requests answers) (hw : ∀ k, c.owesWrite k = false)
    (hr : ∀ k, c.owesRead k = false) {out : Fin m → List Message}
    (hout : ∀ k, ∀ p ∈ out k,
      p.messageType ≠ .clientRequestWrite ∧ p.messageType ≠ .clientRequestRead)
    (hw' : ∀ k, c'.owesWrite k = false) (hr' : ∀ k, c'.owesRead k = false)
    (hwrite : ∀ filename timestamp next, c'.main = .requestWrite filename timestamp next →
      ∀ k : Fin m, next ≤ k.val → c'.serverDoneWriteRequest k = false)
    (hread : ∀ filename k, c'.main = .requestRead filename k → c'.serverDoneReadRequest = false) :
    Exchanged i c' (fun k => requests k ++ out k) answers := by
  have hwzero (k : Fin m) : tally .clientRequestWrite (out k) = 0 :=
    tally_eq_zero.mpr fun p hp => (hout k p hp).1
  have hrzero (k : Fin m) : tally .clientRequestRead (out k) = 0 :=
    tally_eq_zero.mpr fun p hp => (hout k p hp).2
  have hwsum (k : Fin m) := h.write k
  have hrsum (k : Fin m) := h.read k
  simp only [hw, hr, Bool.toNat_false, Nat.add_eq_zero_iff] at hwsum hrsum
  refine ⟨fun k => ?_, fun k => ?_, hwrite, hread, fun k p hp ht => ?_, fun k p hp ht => ?_⟩
  · rw [tally_append, hwzero, (hwsum k).1, (hwsum k).2, hw']
    rfl
  · rw [tally_append, hrzero, (hrsum k).1, (hrsum k).2, hr']
    rfl
  · rcases List.mem_append.mp hp with hp | hp
    · exact absurd ht (tally_eq_zero.mp (hwsum k).1 p hp)
    · exact absurd ht (hout k p hp).1
  · rcases List.mem_append.mp hp with hp | hp
    · exact absurd ht (tally_eq_zero.mp (hrsum k).1 p hp)
    · exact absurd ht (hout k p hp).2

/-- A client writes to no server. -/
theorem owesWrite_of_main (h : ∀ filename timestamp next,
    c.main ≠ .requestWrite filename timestamp next) (k : Fin m) : c.owesWrite k = false := by
  unfold Client.owesWrite
  split
  · next filename timestamp next hm => exact absurd hm (h filename timestamp next)
  all_goals rfl

theorem owesRead_of_main (h : ∀ filename k, c.main ≠ .reading filename k) (k : Fin m) :
    c.owesRead k = false := by
  unfold Client.owesRead
  split
  · next filename k hm => exact absurd hm (h filename k)
  all_goals rfl

theorem main {config : Config n m} {out : Fin m → List Message} {events : List (Event n m)}
    (h : Exchanged i c requests answers) (hc : c.MainMove config i c' out events) :
    Exchanged i c' (fun k => requests k ++ out k) answers := by
  cases hc with
  | enquire hm | enquired hm | request hm | enterRead hm | enterWrite hm | tell _ hm
  | release _ hm =>
    refine h.idle ?_ ?_ ?_ ?_ ?_ ?_ ?_
    all_goals simp [Client.owesWrite, Client.owesRead, hm, Network.mem_only]
  | read hm hdone | write _ hm hdone =>
    refine h.idle ?_ ?_ ?_ ?_ ?_ ?_ ?_
    all_goals simp [Client.owesWrite, Client.owesRead, Client.finish, hm, hdone]
  | @sendRead filename k hm =>
    have hdone := h.readUnsent filename k hm
    have hwrites := h.write
    have hreads := h.read
    simp only [owesWrite_of_main (c := c) (by simp [hm]), Bool.toNat_false,
      Nat.add_eq_zero_iff] at hwrites
    simp only [owesRead_of_main (c := c) (by simp [hm]), Bool.toNat_false,
      Nat.add_eq_zero_iff] at hreads
    refine ⟨fun l => ?_, fun l => ?_, by simp, by simp, fun l p hp ht => ?_, fun l p hp ht => ?_⟩
    · rw [tally_append, tally_only, (hwrites l).1, (hwrites l).2]
      simp [Client.owesWrite]
    · rw [tally_append, tally_only, (hreads l).1, (hreads l).2]
      simp [Client.owesRead, hdone, eq_comm]
    · rcases Network.mem_append_only.mp hp with hp | ⟨-, rfl⟩
      · exact absurd ht (tally_eq_zero.mp (hwrites l).1 p hp)
      · cases ht
    · rcases Network.mem_append_only.mp hp with hp | ⟨rfl, rfl⟩
      · exact absurd ht (tally_eq_zero.mp (hreads l).1 p hp)
      · rfl
  | @sendWrite filename timestamp next hnext hm =>
    have hdone := h.writeUnsent filename timestamp next hm
    have hreads := h.read
    simp only [owesRead_of_main (c := c) (by simp [hm]), Bool.toNat_false,
      Nat.add_eq_zero_iff] at hreads
    refine ⟨fun l => ?_, fun l => ?_, fun f t u hu l hl => ?_, by simp, fun l p hp ht => ?_,
      fun l p hp ht => ?_⟩
    · have hl := h.write l
      rw [tally_append, tally_only]
      simp only [Client.owesWrite, hm] at hl ⊢
      by_cases heq : l.val = next
      · -- the server that the request goes to now
        rw [hdone l (Nat.le_of_eq heq.symm)] at hl ⊢
        have : l = ⟨next, hnext⟩ := Fin.ext heq
        simp_all
      · have hne : ¬ l = ⟨next, hnext⟩ := fun hl => heq (congrArg Fin.val hl)
        have hlt : l.val < next + 1 ↔ l.val < next := by omega
        simp only [hne, hlt, false_and, decide_false, Bool.toNat_false]
        exact hl
    · rw [tally_append, tally_only, (hreads l).1, (hreads l).2]
      simp [Client.owesRead]
    · cases hu
      exact hdone l (Nat.le_of_succ_le hl)
    · rcases Network.mem_append_only.mp hp with hp | ⟨rfl, rfl⟩
      · obtain ⟨f, t, u, hu, htext⟩ := h.writeText l p hp ht
        cases hm.symm.trans hu
        exact ⟨_, _, _, rfl, htext⟩
      · exact ⟨_, _, _, rfl, rfl⟩
    · rcases Network.mem_append_only.mp hp with hp | ⟨-, rfl⟩
      · exact absurd ht (tally_eq_zero.mp (hreads l).1 p hp)
      · cases ht

/-- The client learns the answer. -/
theorem answer (h : Exchanged i c requests answers) {k : Fin m} {packet : Message}
    {rest : List Message} (hk : answers k = packet :: rest) :
    Exchanged i (c.treatServerPacket k packet) requests (Function.update answers k rest) := by
  have hp : packet ∈ answers k := hk ▸ List.mem_cons_self
  refine ⟨fun l => ?_, fun l => ?_, fun filename timestamp next hm l hl => ?_,
    fun filename l hm => ?_, fun l => ?_, fun l => ?_⟩
  · rw [Client.owesWrite_treatServerPacket]
    exact owed_pop hk (h.write l)
  · -- a client reads from one server at a time
    have honly : (c.owesRead l && !decide (packet.messageType = .serverReplyReadClient)) =
        (c.owesRead l && !decide (l = k ∧ packet.messageType = .serverReplyReadClient)) := by
      by_cases ht : packet.messageType = .serverReplyReadClient
      · obtain ⟨filename, hm, hdone⟩ := Client.main_of_owesRead (owed_of_answer (h.read _) hp ht)
        by_cases hl : l = k
        · simp [hl]
        · have hnone : c.owesRead l = false := by simp [Client.owesRead, hm, Ne.symm hl]
          rw [hnone, Bool.false_and, Bool.false_and]
      · simp [ht]
    rw [Client.owesRead_treatServerPacket, honly]
    exact owed_pop hk (h.read l)
  · rw [Client.main_treatServerPacket] at hm
    rw [Client.serverDoneWriteRequest_treatServerPacket, h.writeUnsent _ _ _ hm l hl,
      Bool.false_or, decide_eq_false_iff_not]
    rintro ⟨rfl, ht⟩
    obtain ⟨_, _, _, hm', hlt, -⟩ := Client.main_of_owesWrite (owed_of_answer (h.write _) hp ht)
    cases hm.symm.trans hm'
    exact Nat.not_lt.mpr hl hlt
  · rw [Client.main_treatServerPacket] at hm
    rw [Client.serverDoneReadRequest_treatServerPacket, h.readUnsent _ _ hm, Bool.false_or,
      decide_eq_false_iff_not]
    intro ht
    obtain ⟨_, hm', -⟩ := Client.main_of_owesRead (owed_of_answer (h.read _) hp ht)
    cases hm.symm.trans hm'
  · rw [Client.main_treatServerPacket]
    exact h.writeText l
  · rw [Client.main_treatServerPacket]
    exact h.readText l

/-- A server takes a request and answers it. -/
theorem request (h : Exchanged i c requests answers) {k : Fin m} {packet : Message}
    {rest out : List Message} (hk : requests k = packet :: rest)
    (hw : tally .serverReplyWriteClient out =
      (decide (packet.messageType = .clientRequestWrite)).toNat)
    (hr : tally .serverReplyReadClient out =
      (decide (packet.messageType = .clientRequestRead)).toNat) :
    Exchanged i c (Function.update requests k rest)
      (Function.update answers k (answers k ++ out)) := by
  have hsub (l : Fin m) {p : Message} (hp : p ∈ Function.update requests k rest l) :
      p ∈ requests l := by
    by_cases hl : l = k
    · subst hl
      rw [Function.update_self] at hp
      exact hk ▸ List.mem_cons_of_mem packet hp
    · rwa [Function.update_of_ne hl] at hp
  refine ⟨fun l => ?_, fun l => ?_, h.writeUnsent, h.readUnsent,
    fun l p hp => h.writeText l p (hsub l hp), fun l p hp => h.readText l p (hsub l hp)⟩
  · exact owed_update hk hw (h.write l)
  · exact owed_update hk hr (h.read l)

end Exchanged

/-- Every client has its requests under way, or their answers, or it knows the answers. -/
def Traffic.Exchanged (v : Traffic n m) : Prop :=
  ∀ i, Cluster.Exchanged i (v.client i) (v.requests i) fun k => v.answers k i

namespace Traffic
variable {config : Config n m} {v v' : Traffic n m}

theorem requests_serve (v : Traffic n m) (k : Fin m) (i : Fin n) (rest out : List Message)
    (j : Fin n) (l : Fin m) : (v.serve k i rest out).requests j l =
      if j = i ∧ l = k then rest else v.requests j l :=
  update_update_apply v.requests i k rest j l

theorem answers_serve (v : Traffic n m) (k : Fin m) (i : Fin n) (rest out : List Message)
    (l : Fin m) (j : Fin n) : (v.serve k i rest out).answers l j =
      if l = k ∧ j = i then v.answers k i ++ out else v.answers l j :=
  update_update_apply v.answers k i (v.answers k i ++ out) l j

theorem Exchanged.serve (h : v.Exchanged) {k : Fin m} {i : Fin n} {packet : Message}
    {rest out : List Message} (hk : v.requests i k = packet :: rest)
    (hw : tally .serverReplyWriteClient out =
      (decide (packet.messageType = .clientRequestWrite)).toNat)
    (hr : tally .serverReplyReadClient out =
      (decide (packet.messageType = .clientRequestRead)).toNat) :
    (v.serve k i rest out).Exchanged := by
  intro j
  by_cases hj : j = i
  · subst hj
    have hrequests : (v.serve k j rest out).requests j =
        Function.update (v.requests j) k rest := Function.update_self _ _ _
    have hanswers : (fun l => (v.serve k j rest out).answers l j) =
        Function.update (fun l => v.answers l j) k (v.answers k j ++ out) :=
      update_update_column v.answers k j _
    rw [hrequests, hanswers]
    exact (h j).request hk hw hr
  · have hrequests : (v.serve k i rest out).requests j = v.requests j :=
      Function.update_of_ne hj _ _
    have hanswers : (fun l => (v.serve k i rest out).answers l j) = fun l => v.answers l j :=
      update_update_column_of_ne v.answers k _ hj
    rw [hrequests, hanswers]
    exact h j

theorem Exchanged.move (h : v.Exchanged) (hmove : v.Move config v') : v'.Exchanged := by
  cases hmove with
  | quiet hq => exact fun i => (h i).quiet (hq i)
  | @main i c out events hc =>
    intro j
    by_cases hj : j = i
    · subst hj
      simp only [Function.update_self]
      exact (h j).main hc
    · simp only [Function.update_of_ne hj]
      exact h j
  | @answer k i packet rest hk =>
    intro j
    by_cases hj : j = i
    · subst hj
      simp only [Function.update_self, update_update_column]
      exact (h j).answer hk
    · simp only [Function.update_of_ne hj, update_update_column_of_ne v.answers k rest hj]
      exact h j
  | write hk ht hsplit => exact h.serve hk (by simp [tally_cons, ht]) (by simp [tally_cons, ht])
  | read hk ht hresult => exact h.serve hk (by simp [tally_cons, ht]) (by simp [tally_cons, ht])
  | other hk hw hr hout =>
    have hnone (messageType : MessageType) (hne : MessageType.serverReplyEnquiryClient ≠ messageType) :=
      tally_eq_zero.mpr fun p hp => (hout p hp).trans_ne hne
    refine h.serve hk ?_ ?_
    · rw [hnone _ (by decide), decide_eq_false hw]
      rfl
    · rw [hnone _ (by decide), decide_eq_false hr]
      rfl

end Traffic

theorem exchanged_initial (config : Config n m) : (initial config).traffic.Exchanged := fun i =>
  .construct i (config.input i)

/-- No request or answer is lost or doubled in any run. -/
theorem exchanged_of_reachable {config : Config n m} {s : State n m}
    (h : (machine config).Reachable s) : s.traffic.Exchanged := by
  refine Machine.Guarded.invariant (I := fun s => s.traffic.Exchanged) ?_ ?_ h
  · rintro s rfl
    exact exchanged_initial config
  · intro s a t hs _ hstep
    exact hs.move (move_of_step hstep)

end DistributedME.Cluster
