import DistributedME.Files
import DistributedME.Library.Network
import DistributedME.Packet
import Mathlib.Data.Fintype.Basic

/-! Clients and servers: their main threads, and how they treat packets. A connection carries
the packets of one sender, whose id is left out of them, and so are texts that are only
printed. -/
namespace DistributedME.Cluster
open Library

inductive CriticalSectionAlgType where
  | ra
  | mkw
  deriving DecidableEq, Repr

structure Message where
  messageType : MessageType
  msg : Bytes
  deriving DecidableEq, Repr

/-- A line of the input file. Enquiry lines, which Node.InputFile models, are left out here: they
ask for no critical section and are not counted in n_requested_requests. -/
inductive Request (m : ℕ) where
  | read (filename : Bytes) (serverId : Fin m)
  | write (filename : Bytes)
  deriving DecidableEq, Repr

def Request.filename {m : ℕ} : Request m → Bytes
  | read filename _ => filename
  | write filename => filename

/-- The parameters of a run. Ids are of type int. -/
structure Config (n m : ℕ) where
  ids : n < 2 ^ 31
  criticalSectionAlgType : CriticalSectionAlgType
  nRequests : ℕ
  /-- The server that a client asks for its files. -/
  enquiry : Fin n → Fin m
  input : Fin n → List (Request m)
  files : Bytes → Option Bytes

theorem two_ids : 2 < 2 ^ 31 := by decide

/-- Where the main thread of a client is. -/
inductive Main (m : ℕ) where
  | start
  | enquiring
  | ready
  /-- In request_resource, until the exclusion algorithm lets it enter. -/
  | requesting (request : Request m)
  /-- In requestRead, before and after the request is sent. -/
  | requestRead (filename : Bytes) (serverId : Fin m)
  | reading (filename : Bytes) (serverId : Fin m)
  /-- In requestWrite, which has sent the request to the servers before next. -/
  | requestWrite (filename : Bytes) (timestamp next : ℕ)
  /-- The body is done, and all servers before next know if it was the last one. -/
  | finished (filename : Bytes) (next : ℕ)
  deriving DecidableEq, Repr

/-- A thread that handles the packets of one connection: waiting in read, in the loop over the
packets of one read, in a loop that sends to the clients from next on, or at its end, with its
side of the connection closed. -/
inductive Thread where
  | reading
  | treating
  | sending (next : ℕ)
  | left
  deriving DecidableEq, Repr

structure Client (n m : ℕ) where
  main : Main m
  input : List (Request m)
  nRequestedRequests : ℕ
  timestamp : ℕ
  serverDoneEnquiryRequest : Bool
  serverDoneReadRequest : Bool
  serverDoneWriteRequest : Fin m → Bool
  readResult : Bytes
  allClientsDoneAllRequest : Bool
  serverThread : Fin m → Thread
  clientThread : Fin n → Thread

structure Server (n : ℕ) where
  files : Bytes → Option Bytes
  clientDoneAllRequest : Fin n → Bool
  thread : Fin n → Thread

/-- A body that a client has finished. -/
inductive Event (n m : ℕ) where
  | read (client : Fin n) (filename : Bytes) (serverId : Fin m) (result : Bytes)
  | write (client : Fin n) (filename : Bytes) (timestamp : ℕ)
  deriving DecidableEq, Repr

def Event.client {n m : ℕ} : Event n m → Fin n
  | read client _ _ _ => client
  | write client _ _ => client

variable {n m : ℕ}

def isCriticalSectionAlgMessage (messageType : MessageType) : CriticalSectionAlgType → Bool
  | .ra =>
    match messageType with
    | .clientRequestCsClient | .clientReplyCsClient => true
    | _ => false
  | .mkw =>
    match messageType with
    | .clientMkwRequestClient | .clientMkwInquireClient | .clientMkwRelinquishClient
    | .clientMkwFailedClient | .clientMkwLockedClient | .clientMkwReleaseClient => true
    | _ => false

namespace Client

def construct (input : List (Request m)) : Client n m where
  main := .start
  input := input
  nRequestedRequests := 0
  timestamp := 0
  serverDoneEnquiryRequest := false
  serverDoneReadRequest := false
  serverDoneWriteRequest := fun _ => false
  readResult := []
  allClientsDoneAllRequest := false
  serverThread := fun _ => .reading
  clientThread := fun _ => .reading

/-- The clock has no defined value after an overflow. -/
def increaseTimestamp (c : Client n m) : Option (Client n m) :=
  if c.timestamp + 1 < 2 ^ 31 then some { c with timestamp := c.timestamp + 1 } else none

/-- A message to a server takes a timestamp. -/
def sendMessageToServer (c : Client n m) (main : Main m) (k : Fin m) (messageType : MessageType)
    (msg : Bytes) : Option (Client n m × (Fin m → List Message) × List (Event n m)) :=
  c.increaseTimestamp.map fun c =>
    ({ c with main := main }, Network.only k [⟨messageType, msg⟩], [])

/-- What the critical section of a request does first. -/
def enterCriticalSection (c : Client n m) : Request m → Option (Client n m)
  | .read filename serverId =>
    some { c with serverDoneReadRequest := false, main := .requestRead filename serverId }
  | .write filename => c.increaseTimestamp.map fun c =>
    { c with
      serverDoneWriteRequest := fun _ => false
      main := .requestWrite filename c.timestamp 0 }

def checkAllServersDoneWriteRequest (c : Client n m) : Bool :=
  decide (∀ k, c.serverDoneWriteRequest k = true)

/-- The end of enterCriticalSection. -/
def finish (c : Client n m) (nRequests : ℕ) (filename : Bytes) : Client n m :=
  { c with main := .finished filename (if c.nRequestedRequests = nRequests then 0 else m) }

/-- The next step of the main thread of client i, what it sends, and the body that it finishes.
There is none while the thread has to wait. -/
def mainStep (config : Config n m) (i : Fin n) (c : Client n m) :
    Option (Client n m × (Fin m → List Message) × List (Event n m)) :=
  match c.main with
  | .start =>
    { c with serverDoneEnquiryRequest := false }.sendMessageToServer .enquiring
      (config.enquiry i) .clientEnquiry []
  | .enquiring =>
    if c.serverDoneEnquiryRequest then some ({ c with main := .ready }, fun _ => [], []) else none
  | .ready =>
    match c.input with
    | [] => none
    | request :: input =>
      some ({ c with
        main := .requesting request, input := input
        nRequestedRequests := c.nRequestedRequests + 1 }, fun _ => [], [])
  | .requesting request => (c.enterCriticalSection request).map fun c => (c, fun _ => [], [])
  | .requestRead filename serverId =>
    c.sendMessageToServer (.reading filename serverId) serverId .clientRequestRead filename
  | .reading filename serverId =>
    if c.serverDoneReadRequest then
      some (c.finish config.nRequests filename, fun _ => [],
        [.read i filename serverId c.readResult])
    else none
  | .requestWrite filename timestamp next =>
    if h : next < m then
      c.sendMessageToServer (.requestWrite filename timestamp (next + 1)) ⟨next, h⟩
        .clientRequestWrite (filename ++ hash :: writeLine i timestamp)
    else if c.checkAllServersDoneWriteRequest then
      some (c.finish config.nRequests filename, fun _ => [], [.write i filename timestamp])
    else none
  | .finished filename next =>
    if h : next < m then
      c.sendMessageToServer (.finished filename (next + 1)) ⟨next, h⟩ .clientDoneAllRequest []
    else some ({ c with main := .ready }, fun _ => [], [])

/-- Everything the main thread can do, one line for each way. -/
inductive MainMove (config : Config n m) (i : Fin n) (c : Client n m) :
    Client n m → (Fin m → List Message) → List (Event n m) → Prop
  | enquire : c.main = .start → MainMove config i c
      { c with
        serverDoneEnquiryRequest := false, timestamp := c.timestamp + 1, main := .enquiring }
      (Network.only (config.enquiry i) [⟨.clientEnquiry, []⟩]) []
  | enquired : c.main = .enquiring →
      MainMove config i c { c with main := .ready } (fun _ => []) []
  | request {request : Request m} {input : List (Request m)} : c.main = .ready →
      c.input = request :: input → MainMove config i c
        { c with
          main := .requesting request, input := input
          nRequestedRequests := c.nRequestedRequests + 1 } (fun _ => []) []
  | enterRead {filename : Bytes} {k : Fin m} : c.main = .requesting (.read filename k) →
      MainMove config i c
        { c with serverDoneReadRequest := false, main := .requestRead filename k }
        (fun _ => []) []
  | enterWrite {filename : Bytes} : c.main = .requesting (.write filename) →
      c.timestamp + 1 < 2 ^ 31 → MainMove config i c
        { c with
          timestamp := c.timestamp + 1, serverDoneWriteRequest := fun _ => false
          main := .requestWrite filename (c.timestamp + 1) 0 } (fun _ => []) []
  | sendRead {filename : Bytes} {k : Fin m} : c.main = .requestRead filename k →
      MainMove config i c
        { c with timestamp := c.timestamp + 1, main := .reading filename k }
        (Network.only k [⟨.clientRequestRead, filename⟩]) []
  | read {filename : Bytes} {k : Fin m} : c.main = .reading filename k →
      c.serverDoneReadRequest = true → MainMove config i c (c.finish config.nRequests filename)
        (fun _ => []) [.read i filename k c.readResult]
  | sendWrite {filename : Bytes} {timestamp next : ℕ} (h : next < m) :
      c.main = .requestWrite filename timestamp next → MainMove config i c
        { c with
          timestamp := c.timestamp + 1, main := .requestWrite filename timestamp (next + 1) }
        (Network.only ⟨next, h⟩
          [⟨.clientRequestWrite, filename ++ hash :: writeLine i timestamp⟩]) []
  | write {filename : Bytes} {timestamp next : ℕ} : m ≤ next →
      c.main = .requestWrite filename timestamp next →
      (∀ k, c.serverDoneWriteRequest k = true) →
      MainMove config i c (c.finish config.nRequests filename) (fun _ => [])
        [.write i filename timestamp]
  | tell {filename : Bytes} {next : ℕ} (h : next < m) : c.main = .finished filename next →
      MainMove config i c
        { c with timestamp := c.timestamp + 1, main := .finished filename (next + 1) }
        (Network.only ⟨next, h⟩ [⟨.clientDoneAllRequest, []⟩]) []
  | release {filename : Bytes} {next : ℕ} : m ≤ next → c.main = .finished filename next →
      MainMove config i c { c with main := .ready } (fun _ => []) []

theorem increaseTimestamp_eq_some {c c' : Client n m} (h : c.increaseTimestamp = some c') :
    c.timestamp + 1 < 2 ^ 31 ∧ c' = { c with timestamp := c.timestamp + 1 } := by
  unfold increaseTimestamp at h
  split_ifs at h with ht
  exact ⟨ht, (Option.some.inj h).symm⟩

theorem sendMessageToServer_eq_some {c c' : Client n m} {main : Main m} {k : Fin m}
    {messageType : MessageType} {msg : Bytes} {out : Fin m → List Message}
    {events : List (Event n m)}
    (h : c.sendMessageToServer main k messageType msg = some (c', out, events)) :
    c' = { c with timestamp := c.timestamp + 1, main := main } ∧
      out = Network.only k [⟨messageType, msg⟩] ∧ events = [] := by
  obtain ⟨c₁, hc, h⟩ := Option.map_eq_some_iff.mp h
  obtain ⟨-, rfl⟩ := increaseTimestamp_eq_some hc
  cases h
  exact ⟨rfl, rfl, rfl⟩

theorem mainMove_of_mainStep {config : Config n m} {i : Fin n} {c c' : Client n m}
    {out : Fin m → List Message} {events : List (Event n m)}
    (h : c.mainStep config i = some (c', out, events)) : MainMove config i c c' out events := by
  unfold mainStep at h
  split at h
  · next hm =>
    obtain ⟨rfl, rfl, rfl⟩ := sendMessageToServer_eq_some h
    exact .enquire hm
  · next hm =>
    split_ifs at h
    cases h
    exact .enquired hm
  · next hm =>
    split at h
    · cases h
    · next hinput =>
      cases h
      exact .request hm hinput
  · next request hm =>
    obtain ⟨c₁, hc, h⟩ := Option.map_eq_some_iff.mp h
    cases h
    cases request with
    | read filename k =>
      cases hc
      exact .enterRead hm
    | write filename =>
      obtain ⟨c₂, hc₂, rfl⟩ := Option.map_eq_some_iff.mp hc
      obtain ⟨ht, rfl⟩ := increaseTimestamp_eq_some hc₂
      exact .enterWrite hm ht
  · next hm =>
    obtain ⟨rfl, rfl, rfl⟩ := sendMessageToServer_eq_some h
    exact .sendRead hm
  · next hm =>
    split_ifs at h with hdone
    cases h
    exact .read hm hdone
  · next hm =>
    split_ifs at h with hnext hdone
    · obtain ⟨rfl, rfl, rfl⟩ := sendMessageToServer_eq_some h
      exact .sendWrite hnext hm
    · cases h
      exact .write (Nat.le_of_not_lt hnext) hm (of_decide_eq_true hdone)
  · next hm =>
    split_ifs at h with hnext
    · obtain ⟨rfl, rfl, rfl⟩ := sendMessageToServer_eq_some h
      exact .tell hnext hm
    · cases h
      exact .release (Nat.le_of_not_lt hnext) hm

/-- The packets that the servers send. Their other types have no effect here. -/
def treatServerPacket (c : Client n m) (k : Fin m) (packet : Message) : Client n m :=
  match packet.messageType with
  | .serverReceivedAllDoneRequests =>
    { c with
      allClientsDoneAllRequest := true
      serverThread := Function.update c.serverThread k (.sending 0) }
  | .serverReplyEnquiryClient =>
    { c with
      serverDoneEnquiryRequest := true
      serverThread := Function.update c.serverThread k .treating }
  | .serverReplyReadClient =>
    { c with
      readResult := packet.msg, serverDoneReadRequest := true
      serverThread := Function.update c.serverThread k .treating }
  | .serverReplyWriteClient =>
    { c with
      serverDoneWriteRequest := Function.update c.serverDoneWriteRequest k true
      serverThread := Function.update c.serverThread k .treating }
  | _ => { c with serverThread := Function.update c.serverThread k .treating }

@[simp] theorem main_treatServerPacket (c : Client n m) (k : Fin m) (packet : Message) :
    (c.treatServerPacket k packet).main = c.main := by
  unfold treatServerPacket
  split <;> rfl

@[simp] theorem input_treatServerPacket (c : Client n m) (k : Fin m) (packet : Message) :
    (c.treatServerPacket k packet).input = c.input := by
  unfold treatServerPacket
  split <;> rfl

@[simp] theorem nRequestedRequests_treatServerPacket (c : Client n m) (k : Fin m)
    (packet : Message) :
    (c.treatServerPacket k packet).nRequestedRequests = c.nRequestedRequests := by
  unfold treatServerPacket
  split <;> rfl

@[simp] theorem timestamp_treatServerPacket (c : Client n m) (k : Fin m) (packet : Message) :
    (c.treatServerPacket k packet).timestamp = c.timestamp := by
  unfold treatServerPacket
  split <;> rfl

/-- Packets of the exclusion algorithm have no effect here. -/
def handleClientPacket (c : Client n m) (j : Fin n) (packet : Message) : Client n m :=
  { c with
    allClientsDoneAllRequest :=
      c.allClientsDoneAllRequest || packet.messageType = .clientDoneAllRequest
    clientThread := Function.update c.clientThread j .treating }

/-- The file in whose critical section the client is. -/
def inCriticalSection (c : Client n m) : Option Bytes :=
  match c.main with
  | .requestRead filename _ | .reading filename _ | .requestWrite filename _ _
  | .finished filename _ => some filename
  | .start | .enquiring | .ready | .requesting _ => none

/-- The client waits for its critical section or for a server's answer. -/
def waits (c : Client n m) : Bool :=
  match c.main with
  | .enquiring | .requesting _ | .requestRead _ _ | .reading _ _ | .requestWrite _ _ _ => true
  | .start | .ready | .finished _ _ => false

end Client

namespace Server

def construct (files : Bytes → Option Bytes) : Server n where
  files := files
  clientDoneAllRequest := fun _ => false
  thread := fun _ => .reading

def handleReadRequest (v : Server n) (filename : Bytes) : Option Message :=
  (readLastLineOfFile (v.files filename)).map (⟨.serverReplyReadClient, ·⟩)

/-- There is no second token to write unless the message has both parts. -/
def handleWriteRequest (v : Server n) (msg : Bytes) : Option (Server n × Message) :=
  match splitString hash msg with
  | filename :: contentToWrite :: _ =>
    some ({ v with
      files := Function.update v.files filename
        (some (writeToFile (v.files filename) contentToWrite)) }, ⟨.serverReplyWriteClient, []⟩)
  | _ => none

/-- The packets that a client sends, and the answer. -/
def treatPacket (v : Server n) (i : Fin n) (packet : Message) :
    Option (Server n × List Message) :=
  match packet.messageType with
  | .clientDoneAllRequest =>
    some ({ v with clientDoneAllRequest := Function.update v.clientDoneAllRequest i true }, [])
  | .clientEnquiry => some (v, [⟨.serverReplyEnquiryClient, []⟩])
  | .clientRequestRead => (v.handleReadRequest packet.msg).map fun answer => (v, [answer])
  | .clientRequestWrite => (v.handleWriteRequest packet.msg).map fun (v, answer) => (v, [answer])
  | _ => some (v, [])

def checkAllClientsDoneAllRequest (v : Server n) : Bool :=
  decide (∀ i, v.clientDoneAllRequest i = true)

end Server

end DistributedME.Cluster
