import DistributedME.Cluster.Exchanges
import DistributedME.Node.Texts
import DistributedME.RicartAgrawala.System

/-! The whole program under Ricart-Agrawala: all threads of clients and servers, one strategy
object for each client and each of its files, and one connection between two clients for the
messages about all files. -/
namespace DistributedME.Program
open Library

structure Config (n m : ℕ) extends Cluster.Config n m where
  ra : criticalSectionAlgType = .ra
  /-- What getListHostedFiles finds. -/
  hosted : Fin m → List Bytes

/-- The list_files of a client that server k has answered. -/
def Config.listFiles {n m : ℕ} (config : Config n m) (k : Fin m) : List Bytes :=
  Node.Client.receiveEnquireResult (Node.Server.handleEnquiryRequest (config.hosted k))

/-- The threads of a client that call its strategy objects: the main thread, and one for each
client whose messages it handles. -/
inductive Worker (n : ℕ) where
  | main
  | handler (j : Fin n)
  deriving DecidableEq, Repr

/-- A locked part of a strategy's member function changes the object first and then sends. The
thread in it has locked the object until it has sent all that is unsent. -/
structure State (n m : ℕ) where
  cluster : Cluster.State n m
  criticalSectionAlgInit : Fin n → Bool
  criticalSectionAlgStrategy : Fin n → Bytes → Option (RicartAgrawala.Strategy n)
  /-- Where the main thread of a client is in the request_resource of a file. -/
  main : Fin n → Bytes → RicartAgrawala.MainThread
  unsent : Fin n → Bytes → List (Fin n × RicartAgrawala.Message)
  locked : Fin n → Worker n → Option Bytes

inductive Action (n m : ℕ) where
  | mainStep (i : Fin n)
  | sendMessageToClient (i : Fin n) (worker : Worker n)
  | treatServerPacket (i : Fin n) (k : Fin m)
  | passServer (i : Fin n) (k : Fin m)
  | handleClientPacket (i j : Fin n) (place : ℕ)
  | passClient (i j : Fin n)
  | treatRequest (k : Fin m) (i : Fin n)
  | passRequests (k : Fin m) (i : Fin n)
  deriving DecidableEq, Repr

variable {n m : ℕ}

/-- One locked part for a file. -/
def State.write (s : State n m) (i : Fin n) (worker : Worker n) (filename : Bytes)
    (c : RicartAgrawala.Strategy n) (main : RicartAgrawala.MainThread)
    (out : List (Fin n × RicartAgrawala.Message)) : State n m where
  cluster := s.cluster
  criticalSectionAlgInit := s.criticalSectionAlgInit
  criticalSectionAlgStrategy := Function.update s.criticalSectionAlgStrategy i
    (Function.update (s.criticalSectionAlgStrategy i) filename (some c))
  main := Function.update s.main i (Function.update (s.main i) filename main)
  unsent := Function.update s.unsent i (Function.update (s.unsent i) filename out)
  locked := Function.update s.locked i
    (Function.update (s.locked i) worker (if out = [] then none else some filename))

/-- A step that no strategy object takes part in. -/
def State.move (config : Config n m) (s : State n m) (a : Cluster.Action n m) :
    Option (State n m) :=
  (Cluster.step config.toConfig s.cluster a).map fun cluster => { s with cluster := cluster }

/-- The loop over need_to_sends. -/
def needToSends (out : Fin n → List RicartAgrawala.Message) :
    List (Fin n × RicartAgrawala.Message) :=
  (List.finRange n).flatMap fun j => (out j).map (j, ·)

def messageType : RicartAgrawala.Message → MessageType
  | .request _ => .clientRequestCsClient
  | .reply _ => .clientReplyCsClient

def ourSequenceNumber : RicartAgrawala.Message → ℕ
  | .request theirSequenceNumber | .reply theirSequenceNumber => theirSequenceNumber

/-- The packet for a message of client ME about a file. -/
def packet (filename : Bytes) (me : Fin n) (message : RicartAgrawala.Message) :
    Cluster.Message where
  messageType := messageType message
  msg := Node.getMsg filename (Int32.ofNat me) (Int32.ofNat (ourSequenceNumber message))

/-- A number that is an index of a vector of n elements. -/
def index (n : ℕ) (j : Int32) : Option (Fin n) :=
  if h : 0 ≤ j.toInt ∧ j.toInt.toNat < n then some ⟨j.toInt.toNat, h.2⟩ else none

/-- treat_message. Negative numbers are left out, as none is ever sent. -/
def treatMessage (c : RicartAgrawala.Strategy n) (me : Fin n) (messageType : MessageType)
    (msg : Bytes) :
    Option (RicartAgrawala.Strategy n × List (Fin n × RicartAgrawala.Message)) := do
  let tokens := splitString hash msg
  let j ← index n (← Node.atoi (← tokens[0]?))
  match messageType with
  | .clientReplyCsClient => some (c.treatReplyMessage j, [])
  | .clientRequestCsClient =>
    let theirSequenceNumber ← Node.atoi (← tokens[1]?)
    if 0 ≤ theirSequenceNumber.toInt then
      let (c, out) := c.treatRequestMessage me theirSequenceNumber.toInt.toNat j
      some (c, out.map (j, ·))
    else none
  | _ => some (c, [])

/-- The locked part for a packet of client j. There is none for a file of which the client has
no strategy object. -/
def State.treat (s : State n m) (i j : Fin n) (packet : Cluster.Message) :
    Option (State n m) := do
  let (filename, msg) ← Node.Client.handleClientPacket packet.msg
  let c ← s.criticalSectionAlgStrategy i filename
  if s.unsent i filename = [] then
    let (c, out) ← treatMessage c i packet.messageType msg
    some (s.write i (.handler j) filename c (s.main i filename) out)
  else none

def State.initCriticalSectionAlg (s : State n m) (i : Fin n) (listFiles : List Bytes) :
    State n m :=
  if s.criticalSectionAlgInit i then s
  else
    { s with
      criticalSectionAlgInit := Function.update s.criticalSectionAlgInit i true
      criticalSectionAlgStrategy := Function.update s.criticalSectionAlgStrategy i fun filename =>
        if listFiles.contains filename then some (.construct n)
        else s.criticalSectionAlgStrategy i filename }

/-- The clock and the sequence numbers have no defined values after an overflow. -/
def State.requestCriticalSection (config : Config n m) (s : State n m) (i : Fin n)
    (filename : Bytes) : Option (State n m) :=
  (s.criticalSectionAlgStrategy i filename).bind fun c =>
    if s.unsent i filename = [] ∧ c.hgstSequenceNumber + 1 < 2 ^ 31 then
      let (c, out) := c.requestResource i
      (s.move config (.mainStep i)).map fun s =>
        s.write i .main filename c .polling (needToSends out)
    else none

/-- The loop of request_resource, and enter_critical_section up to the body. -/
def State.enterCriticalSection (config : Config n m) (s : State n m) (i : Fin n)
    (filename : Bytes) : Option (State n m) :=
  (s.criticalSectionAlgStrategy i filename).bind fun c =>
    match s.main i filename with
    | .idle => none
    | .polling =>
      if s.unsent i filename = [] then
        let main := if c.canEnterCriticalSection i then .entering else .polling
        some (s.write i .main filename c main [])
      else none
    | .entering =>
      if s.unsent i filename = [] then
        some (s.write i .main filename c.enterCriticalSection .inside [])
      else none
    | .inside => s.move config (.mainStep i)

def State.releaseResource (config : Config n m) (s : State n m) (i : Fin n)
    (filename : Bytes) : Option (State n m) :=
  (s.criticalSectionAlgStrategy i filename).bind fun c =>
    if s.unsent i filename = [] then
      let (c, out) := c.releaseResource i
      (s.move config (.mainStep i)).map fun s =>
        s.write i .main filename c .idle (needToSends out)
    else none

def State.mainStep (config : Config n m) (s : State n m) (i : Fin n) : Option (State n m) :=
  if s.locked i .main ≠ none then none
  else match (s.cluster.client i).main with
  | .enquiring =>
    -- the loop that waits for list_files
    if config.listFiles (config.enquiry i) = [] then none else s.move config (.mainStep i)
  | .ready =>
    match (s.cluster.client i).input with
    | [] => none
    | request :: _ => s.requestCriticalSection config i request.filename
  | .requesting request => s.enterCriticalSection config i request.filename
  | .finished filename next =>
    if next < m then s.move config (.mainStep i) else s.releaseResource config i filename
  | _ => s.move config (.mainStep i)

/-- The thread sends the next message of its locked part. -/
def State.sendMessageToClient (config : Config n m) (s : State n m) (i : Fin n)
    (worker : Worker n) : Option (State n m) :=
  (s.locked i worker).bind fun filename =>
    match s.unsent i filename with
    | [] => none
    | (j, message) :: rest =>
      (s.move config (.sendCriticalSectionMessage i j (packet filename i message))).map fun s =>
        { s with
          unsent := Function.update s.unsent i (Function.update (s.unsent i) filename rest)
          locked := Function.update s.locked i
            (Function.update (s.locked i) worker (if rest = [] then none else some filename)) }

/-- The threads for the messages of clients are started after the enquiry. -/
def started (main : Cluster.Main m) : Bool :=
  match main with
  | .start | .enquiring => false
  | _ => true

def State.handleClientPacket (config : Config n m) (s : State n m) (i j : Fin n) (place : ℕ) :
    Option (State n m) :=
  ((s.cluster.inFlight (.client j) (.client i))[place]?).bind fun packet =>
    (s.move config (.handleClientPacket i j place)).bind fun s =>
      if Cluster.isCriticalSectionAlgMessage packet.messageType .ra then s.treat i j packet
      else some s

def step (config : Config n m) (s : State n m) : Action n m → Option (State n m)
  | .mainStep i => s.mainStep config i
  | .sendMessageToClient i worker => s.sendMessageToClient config i worker
  | .treatServerPacket i k =>
    (s.move config (.treatServerPacket i k)).map fun t =>
      if (s.cluster.inFlight (.server k) (.client i)).head?.any
          (·.messageType = .serverReplyEnquiryClient) then
        t.initCriticalSectionAlg i (config.listFiles k)
      else t
  | .passServer i k => s.move config (.passServer i k)
  | .handleClientPacket i j place =>
    if started (s.cluster.client i).main ∧ s.locked i (.handler j) = none then
      s.handleClientPacket config i j place
    else none
  | .passClient i j =>
    if started (s.cluster.client i).main ∧ s.locked i (.handler j) = none then
      s.move config (.passClient i j)
    else none
  | .treatRequest k i => s.move config (.treatRequest k i)
  | .passRequests k i => s.move config (.passRequests k i)

def initial (config : Config n m) : State n m where
  cluster := Cluster.initial config.toConfig
  criticalSectionAlgInit _ := false
  criticalSectionAlgStrategy _ _ := none
  main _ _ := .idle
  unsent _ _ := []
  locked _ _ := none

/-- The program under the Ricart-Agrawala strategy. -/
def machine (config : Config n m) : Machine (State n m) (Action n m) where
  init s := s = initial config
  step := step config

end DistributedME.Program
