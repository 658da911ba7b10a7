import DistributedME.Cluster.Nodes
import DistributedME.Library.Machine

/-! All clients and servers, their threads, and the packets on the connections. When a client
enters its critical section is left open: any exclusion algorithm is one of the ways to choose. -/
namespace DistributedME.Cluster
open Library

inductive Party (n m : ℕ) where
  | client (i : Fin n)
  | server (k : Fin m)
  deriving DecidableEq, Repr

/-- The history of finished bodies is auxiliary. -/
structure State (n m : ℕ) where
  client : Fin n → Client n m
  server : Fin m → Server n
  inFlight : Network (Party n m) Message
  history : List (Event n m)

/-- The steps of the threads of client i and of server k. A thread that handles packets treats
the next packet, or does whatever else comes next. -/
inductive Action (n m : ℕ) where
  | mainStep (i : Fin n)
  | sendCriticalSectionMessage (i j : Fin n) (message : Message)
  | treatServerPacket (i : Fin n) (k : Fin m)
  | passServer (i : Fin n) (k : Fin m)
  | handleClientPacket (i j : Fin n) (place : ℕ)
  | passClient (i j : Fin n)
  | treatRequest (k : Fin m) (i : Fin n)
  | passRequests (k : Fin m) (i : Fin n)
  deriving DecidableEq, Repr

variable {n m : ℕ}

def toServers (out : Fin m → List Message) : Party n m → List Message
  | .server k => out k
  | .client _ => []

def State.setClient (s : State n m) (i : Fin n) (c : Client n m) : State n m :=
  { s with client := Function.update s.client i c }

def State.setServer (s : State n m) (k : Fin m) (v : Server n) : State n m :=
  { s with server := Function.update s.server k v }

def State.post (s : State n m) (a : Party n m) (out : Party n m → List Message) : State n m :=
  { s with inFlight := s.inFlight.post a out }

/-- Leave the rest of what is in flight from b to a. -/
def State.receive (s : State n m) (a b : Party n m) (rest : List Message) : State n m :=
  { s with inFlight := s.inFlight.put b a rest }

def State.record (s : State n m) (events : List (Event n m)) : State n m :=
  { s with history := s.history ++ events }

section updates
variable (s : State n m) (i : Fin n) (c : Client n m) (k : Fin m) (v : Server n)
  (a b : Party n m) (out : Party n m → List Message) (rest : List Message)
  (events : List (Event n m))

@[simp] theorem client_setClient : (s.setClient i c).client = Function.update s.client i c := rfl
@[simp] theorem server_setClient : (s.setClient i c).server = s.server := rfl
@[simp] theorem inFlight_setClient : (s.setClient i c).inFlight = s.inFlight := rfl
@[simp] theorem history_setClient : (s.setClient i c).history = s.history := rfl

@[simp] theorem client_setServer : (s.setServer k v).client = s.client := rfl
@[simp] theorem server_setServer : (s.setServer k v).server = Function.update s.server k v := rfl
@[simp] theorem inFlight_setServer : (s.setServer k v).inFlight = s.inFlight := rfl
@[simp] theorem history_setServer : (s.setServer k v).history = s.history := rfl

@[simp] theorem client_post : (s.post a out).client = s.client := rfl
@[simp] theorem server_post : (s.post a out).server = s.server := rfl
@[simp] theorem inFlight_post : (s.post a out).inFlight = s.inFlight.post a out := rfl
@[simp] theorem history_post : (s.post a out).history = s.history := rfl

@[simp] theorem client_receive : (s.receive a b rest).client = s.client := rfl
@[simp] theorem server_receive : (s.receive a b rest).server = s.server := rfl
@[simp] theorem inFlight_receive : (s.receive a b rest).inFlight = s.inFlight.put b a rest := rfl
@[simp] theorem history_receive : (s.receive a b rest).history = s.history := rfl

@[simp] theorem client_record : (s.record events).client = s.client := rfl
@[simp] theorem server_record : (s.record events).server = s.server := rfl
@[simp] theorem inFlight_record : (s.record events).inFlight = s.inFlight := rfl
@[simp] theorem history_record : (s.record events).history = s.history ++ events := rfl

end updates

def initial (config : Config n m) : State n m where
  client i := .construct (config.input i)
  server _ := .construct config.files
  inFlight := .empty
  history := []

def Thread.busy : Thread → Bool
  | .reading | .treating => true
  | .sending _ | .left => false

def Client.setServerThread (c : Client n m) (k : Fin m) (thread : Thread) : Client n m :=
  { c with serverThread := Function.update c.serverThread k thread }

def Client.setClientThread (c : Client n m) (j : Fin n) (thread : Thread) : Client n m :=
  { c with clientThread := Function.update c.clientThread j thread }

def Server.setThread (v : Server n) (i : Fin n) (thread : Thread) : Server n :=
  { v with thread := Function.update v.thread i thread }

/-- The client's thread for a server, when it has treated packets. A read of no bytes means
that the server has closed its side. -/
def passServer (s : State n m) (i : Fin n) (k : Fin m) : Option (State n m) :=
  let c := s.client i
  let afterRead : Thread := if c.allClientsDoneAllRequest then .left else .reading
  match c.serverThread k with
  | .reading =>
    if s.inFlight (.server k) (.client i) = [] ∧ (s.server k).thread i = .left then
      some (s.setClient i (c.setServerThread k .left))
    else none
  | .treating => some (s.setClient i (c.setServerThread k afterRead))
  | .sending next =>
    if h : next < n then
      c.increaseTimestamp.map fun c =>
        (s.setClient i (c.setServerThread k (.sending (next + 1)))).post (.client i)
          (Network.only (.client ⟨next, h⟩) [⟨.clientDoneAllRequest, []⟩])
    else some (s.setClient i (c.setServerThread k afterRead))
  | .left => none

/-- The client's thread for another client. The thread for its own messages looks at the flag
whether it has found a packet or not. -/
def passClient (s : State n m) (i j : Fin n) : Option (State n m) :=
  let c := s.client i
  let afterRead : Thread := if c.allClientsDoneAllRequest then .left else .reading
  match c.clientThread j with
  | .reading =>
    if i = j then some (s.setClient i (c.setClientThread j afterRead))
    else if s.inFlight (.client j) (.client i) = [] ∧ (s.client j).clientThread i = .left then
      some (s.setClient i (c.setClientThread j .left))
    else none
  | .treating => some (s.setClient i (c.setClientThread j afterRead))
  | .sending _ | .left => none

/-- The server's thread for a client. After a read that was not the client's last one it tells
all clients when all have done all requests. -/
def passRequests (s : State n m) (k : Fin m) (i : Fin n) : Option (State n m) :=
  let v := s.server k
  match v.thread i with
  | .reading =>
    if s.inFlight (.client i) (.server k) = [] ∧ (s.client i).serverThread k = .left then
      some (s.setServer k (v.setThread i .left))
    else none
  | .treating =>
    some (s.setServer k (v.setThread i
      (if v.checkAllClientsDoneAllRequest then .sending 0 else .reading)))
  | .sending next =>
    if h : next < n then
      some ((s.setServer k (v.setThread i (.sending (next + 1)))).post (.server k)
        (Network.only (.client ⟨next, h⟩) [⟨.serverReceivedAllDoneRequests, []⟩]))
    else some (s.setServer k (v.setThread i .reading))
  | .left => none

/-- The messages of a client to itself are taken in the order of their timestamps, which is
left open here. -/
def step (config : Config n m) (s : State n m) : Action n m → Option (State n m)
  | .mainStep i =>
    ((s.client i).mainStep config i).map fun (c, out, events) =>
      ((s.setClient i c).post (.client i) (toServers out)).record events
  | .sendCriticalSectionMessage i j message =>
    if isCriticalSectionAlgMessage message.messageType config.criticalSectionAlgType then
      (s.client i).increaseTimestamp.map fun c =>
        (s.setClient i c).post (.client i) (Network.only (.client j) [message])
    else none
  | .treatServerPacket i k =>
    match s.inFlight (.server k) (.client i) with
    | [] => none
    | packet :: rest =>
      if ((s.client i).serverThread k).busy then
        some ((s.receive (.client i) (.server k) rest).setClient i
          ((s.client i).treatServerPacket k packet))
      else none
  | .passServer i k => passServer s i k
  | .handleClientPacket i j place =>
    match (s.inFlight (.client j) (.client i))[place]? with
    | none => none
    | some packet =>
      if ((s.client i).clientThread j).busy ∧ (i = j ∨ place = 0) then
        some ((s.receive (.client i) (.client j)
          ((s.inFlight (.client j) (.client i)).eraseIdx place)).setClient i
            ((s.client i).handleClientPacket j packet))
      else none
  | .passClient i j => passClient s i j
  | .treatRequest k i =>
    match s.inFlight (.client i) (.server k) with
    | [] => none
    | packet :: rest =>
      if ((s.server k).thread i).busy then
        ((s.server k).treatPacket i packet).map fun (v, answers) =>
          ((s.receive (.server k) (.client i) rest).setServer k (v.setThread i .treating)).post
            (.server k) (Network.only (.client i) answers)
      else none
  | .passRequests k i => passRequests s k i

/-- The cluster with any exclusion algorithm. -/
def machine (config : Config n m) : Machine (State n m) (Action n m) where
  init s := s = initial config
  step := step config

/-! Most steps are about exclusion or about the end: they leave the requests and the files
alone. -/

/-- The same requests, and the same answers to them. -/
structure Client.Quiet (c c' : Client n m) : Prop where
  main : c'.main = c.main
  input : c'.input = c.input
  nRequestedRequests : c'.nRequestedRequests = c.nRequestedRequests
  timestamp : c.timestamp ≤ c'.timestamp
  serverDoneReadRequest : c'.serverDoneReadRequest = c.serverDoneReadRequest
  serverDoneWriteRequest : c'.serverDoneWriteRequest = c.serverDoneWriteRequest
  readResult : c'.readResult = c.readResult

/-- A packet of a server that answers a request. -/
def Message.answers (packet : Message) : Bool :=
  packet.messageType ≠ .serverReceivedAllDoneRequests

/-- The answers in flight to a client. -/
def State.answers (s : State n m) (k : Fin m) (i : Fin n) : List Message :=
  (s.inFlight (.server k) (.client i)).filter Message.answers

structure State.Quiet (s t : State n m) : Prop where
  client (i : Fin n) : (s.client i).Quiet (t.client i)
  files (k : Fin m) : (t.server k).files = (s.server k).files
  done (k : Fin m) : (t.server k).clientDoneAllRequest = (s.server k).clientDoneAllRequest
  requests (i : Fin n) (k : Fin m) :
    t.inFlight (.client i) (.server k) = s.inFlight (.client i) (.server k)
  answers (k : Fin m) (i : Fin n) : t.answers k i = s.answers k i
  history : t.history = s.history

namespace Client.Quiet
variable {c c' c'' : Client n m}

theorem refl (c : Client n m) : c.Quiet c := ⟨rfl, rfl, rfl, Nat.le_refl _, rfl, rfl, rfl⟩

theorem trans (h : c.Quiet c') (h' : c'.Quiet c'') : c.Quiet c'' where
  main := h'.main.trans h.main
  input := h'.input.trans h.input
  nRequestedRequests := h'.nRequestedRequests.trans h.nRequestedRequests
  timestamp := h.timestamp.trans h'.timestamp
  serverDoneReadRequest := h'.serverDoneReadRequest.trans h.serverDoneReadRequest
  serverDoneWriteRequest := h'.serverDoneWriteRequest.trans h.serverDoneWriteRequest
  readResult := h'.readResult.trans h.readResult

theorem increaseTimestamp (h : c.increaseTimestamp = some c') : c.Quiet c' := by
  obtain ⟨-, rfl⟩ := increaseTimestamp_eq_some h
  exact ⟨rfl, rfl, rfl, Nat.le_succ _, rfl, rfl, rfl⟩

theorem setServerThread (k : Fin m) (thread : Thread) : c.Quiet (c.setServerThread k thread) :=
  ⟨rfl, rfl, rfl, Nat.le_refl _, rfl, rfl, rfl⟩

theorem setClientThread (j : Fin n) (thread : Thread) : c.Quiet (c.setClientThread j thread) :=
  ⟨rfl, rfl, rfl, Nat.le_refl _, rfl, rfl, rfl⟩

theorem handleClientPacket (j : Fin n) (packet : Message) :
    c.Quiet (c.handleClientPacket j packet) :=
  ⟨rfl, rfl, rfl, Nat.le_refl _, rfl, rfl, rfl⟩

end Client.Quiet

namespace State.Quiet
variable {s t u : State n m}

theorem trans (h : s.Quiet t) (h' : t.Quiet u) : s.Quiet u where
  client i := (h.client i).trans (h'.client i)
  files k := (h'.files k).trans (h.files k)
  done k := (h'.done k).trans (h.done k)
  requests i k := (h'.requests i k).trans (h.requests i k)
  answers k i := (h'.answers k i).trans (h.answers k i)
  history := h'.history.trans h.history

theorem setClient {i : Fin n} {c : Client n m} (hc : (s.client i).Quiet c) :
    s.Quiet (s.setClient i c) where
  client j := by
    by_cases hj : j = i
    · subst j
      simpa using hc
    · simpa [hj] using Client.Quiet.refl (s.client j)
  files _ := rfl
  done _ := rfl
  requests _ _ := rfl
  answers _ _ := rfl
  history := rfl

theorem setThread {k : Fin m} {i : Fin n} {thread : Thread} :
    s.Quiet (s.setServer k ((s.server k).setThread i thread)) where
  client j := Client.Quiet.refl (s.client j)
  files k' := by
    by_cases hk : k' = k
    · subst k'
      simp [Server.setThread]
    · simp [hk]
  done k' := by
    by_cases hk : k' = k
    · subst k'
      simp [Server.setThread]
    · simp [hk]
  requests _ _ := rfl
  answers _ _ := rfl
  history := rfl

/-- A packet between clients. -/
theorem postClient {i j : Fin n} {packet : Message} :
    s.Quiet (s.post (.client i) (Network.only (.client j) [packet])) where
  client i := Client.Quiet.refl (s.client i)
  files _ := rfl
  done _ := rfl
  requests i' k := by
    simp only [inFlight_post, Network.post_apply]
    split_ifs <;> simp
  answers k i' := by simp [State.answers]
  history := rfl

/-- A packet of a server that is about the end. -/
theorem postServer {k : Fin m} {i : Fin n} {packet : Message} (hp : packet.answers = false) :
    s.Quiet (s.post (.server k) (Network.only (.client i) [packet])) where
  client i := Client.Quiet.refl (s.client i)
  files _ := rfl
  done _ := rfl
  requests i' k' := by simp
  answers k' i' := by
    simp only [State.answers, inFlight_post, Network.post_apply, List.filter_append]
    split_ifs
    · unfold Network.only
      split_ifs <;> simp [hp]
    · simp
  history := rfl

theorem receive {i j : Fin n} {rest : List Message} :
    s.Quiet (s.receive (.client i) (.client j) rest) where
  client i := Client.Quiet.refl (s.client i)
  files _ := rfl
  done _ := rfl
  requests i' k := by simp [Network.put]
  answers k i' := by simp [State.answers, Network.put]
  history := rfl

end State.Quiet

/-- The steps other than those of the main threads and of the threads that handle requests and
answers. -/
def Action.quiet : Action n m → Bool
  | .mainStep _ | .treatServerPacket _ _ | .treatRequest _ _ => false
  | .sendCriticalSectionMessage _ _ _ | .passServer _ _ | .handleClientPacket _ _ _
  | .passClient _ _ | .passRequests _ _ => true

theorem quiet_passServer {s t : State n m} {i : Fin n} {k : Fin m}
    (h : passServer s i k = some t) : s.Quiet t := by
  have hset (thread : Thread) :
      s.Quiet (s.setClient i ((s.client i).setServerThread k thread)) :=
    .setClient (.setServerThread k thread)
  cases hthread : (s.client i).serverThread k with
  | reading =>
    simp only [passServer, hthread] at h
    split_ifs at h
    cases h
    exact hset _
  | treating =>
    simp only [passServer, hthread, Option.some.injEq] at h
    subst h
    exact hset _
  | sending next =>
    simp only [passServer, hthread] at h
    by_cases hnext : next < n
    · rw [dif_pos hnext] at h
      obtain ⟨c, hc, rfl⟩ := Option.map_eq_some_iff.mp h
      have hclient := Client.Quiet.trans (.increaseTimestamp hc)
        (.setServerThread k (.sending (next + 1)))
      exact .trans (.setClient hclient) .postClient
    · rw [dif_neg hnext, Option.some.injEq] at h
      subst h
      exact hset _
  | left =>
    simp only [passServer, hthread] at h
    cases h

theorem quiet_passClient {s t : State n m} {i j : Fin n} (h : passClient s i j = some t) :
    s.Quiet t := by
  have hset (thread : Thread) :
      s.Quiet (s.setClient i ((s.client i).setClientThread j thread)) :=
    .setClient (.setClientThread j thread)
  cases hthread : (s.client i).clientThread j with
  | reading =>
    simp only [passClient, hthread] at h
    by_cases hself : i = j
    · rw [if_pos hself, Option.some.injEq] at h
      subst h
      exact hset _
    · rw [if_neg hself] at h
      split_ifs at h
      cases h
      exact hset _
  | treating =>
    simp only [passClient, hthread, Option.some.injEq] at h
    subst h
    exact hset _
  | sending next | left =>
    simp only [passClient, hthread] at h
    cases h

theorem quiet_passRequests {s t : State n m} {k : Fin m} {i : Fin n}
    (h : passRequests s k i = some t) : s.Quiet t := by
  cases hthread : (s.server k).thread i with
  | reading =>
    simp only [passRequests, hthread] at h
    split_ifs at h
    cases h
    exact .setThread
  | treating =>
    simp only [passRequests, hthread, Option.some.injEq] at h
    subst h
    exact .setThread
  | sending next =>
    simp only [passRequests, hthread] at h
    split_ifs at h
    · cases h
      exact .trans .setThread (.postServer rfl)
    · cases h
      exact .setThread
  | left =>
    simp only [passRequests, hthread] at h
    cases h

theorem quiet_step {config : Config n m} {s t : State n m} {a : Action n m}
    (ha : a.quiet = true) (h : step config s a = some t) : s.Quiet t := by
  cases a with
  | mainStep i | treatServerPacket i k | treatRequest k i => cases ha
  | sendCriticalSectionMessage i j message =>
    simp only [step] at h
    split_ifs at h
    obtain ⟨c, hc, rfl⟩ := Option.map_eq_some_iff.mp h
    exact .trans (.setClient (.increaseTimestamp hc)) .postClient
  | passServer i k => exact quiet_passServer h
  | handleClientPacket i j place =>
    simp only [step] at h
    split at h
    · cases h
    · split_ifs at h
      cases h
      exact .trans .receive (.setClient (.handleClientPacket j _))
  | passClient i j => exact quiet_passClient h
  | passRequests k i => exact quiet_passRequests h

end DistributedME.Cluster
