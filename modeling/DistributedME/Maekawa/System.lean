import DistributedME.Library.Machine
import DistributedME.Maekawa.Strategy

/-! All clients of one file: the strategy objects, the main threads, one handler for each
incoming connection, and the messages on the connections. The handlers are the file's own here:
the threads of the source, which all files share, are in Maekawa.Connections. A message of a
client to itself is taken from message_queue in one step: the gap between top and pop, into which
a message about another file may be pushed, is left to Node.SelfMessages. -/
namespace DistributedME.Maekawa
open Library

/-- Each client belongs to its own quorum, and any two quorums intersect. -/
structure Quorums (n : ℕ) where
  quorum : Fin n → Finset (Fin n)
  self_mem : ∀ i, i ∈ quorum i
  inter : ∀ i j, (quorum i ∩ quorum j).Nonempty

/-- Where the main thread of a client is. It is inside from the poll that answers yes to
the reset of its release_resource. -/
inductive MainThread where
  | idle
  | polling
  | inside
  deriving DecidableEq, Repr

/-- Where treat_inquire_message is: the two polls of its loop, the two polls of its
conditional, and the section that sends RELINQUISH. -/
inductive InquirePoint where
  | loopFailed
  | loopLocked
  | ifFailed
  | ifLocked
  | relinquish
  deriving DecidableEq, Repr

/-- A handler treats its messages one after another. -/
inductive Handler where
  | ready
  | inquiring (point : InquirePoint) (grant : ℕ)
  deriving DecidableEq, Repr

structure State (n : ℕ) where
  strategy : Fin n → Strategy n
  main : Fin n → MainThread
  handler : Fin n → Fin n → Handler
  inFlight : Network (Fin n) Message

/-- The steps of client i: three sections of its main thread, the treatment of the message
at a place in its connection from j, and the next step of treat_inquire_message there. -/
inductive Action (n : ℕ) where
  | requestResource (i : Fin n)
  | canEnterCriticalSection (i : Fin n)
  | releaseResource (i : Fin n)
  | treatMessage (i j : Fin n) (place : ℕ)
  | treatInquireMessage (i j : Fin n)
  deriving DecidableEq, Repr

variable {n : ℕ}

/-- One section of client i. -/
def State.write (s : State n) (i : Fin n) (c : Strategy n) (m : MainThread)
    (out : Fin n → List Message) : State n where
  strategy := Function.update s.strategy i c
  main := Function.update s.main i m
  handler := s.handler
  inFlight := s.inFlight.post i out

/-- Leave the rest of what is in flight from j to i. -/
def State.receive (s : State n) (i j : Fin n) (rest : List Message) : State n :=
  { s with inFlight := s.inFlight.put j i rest }

def State.setHandler (s : State n) (i j : Fin n) (h : Handler) : State n :=
  { s with handler := Function.update s.handler i (Function.update (s.handler i) j h) }

def initial (n : ℕ) : State n where
  strategy := fun _ => .construct n
  main := fun _ => .idle
  handler := fun _ _ => .ready
  inFlight := .empty

/-- A connection delivers its oldest message. The messages of a client to itself wait in
message_queue, which gives out one of the least timestamps. -/
def State.Deliverable (s : State n) (i j : Fin n) (place : ℕ) (message : Message) : Prop :=
  if i = j then ∀ other ∈ s.inFlight i i, message.timestamp ≤ other.timestamp else place = 0

instance (s : State n) (i j : Fin n) (place : ℕ) (message : Message) :
    Decidable (s.Deliverable i j place message) := by
  unfold State.Deliverable
  infer_instance

/-- The handler that a treated message leaves behind. -/
def Body.handler : Body → Handler
  | .inquire grant => .inquiring .loopFailed grant
  | _ => .ready

def step (Q : Quorums n) (s : State n) : Action n → Option (State n)
  | .requestResource i =>
    if s.main i = .idle then
      let (c, out) := (s.strategy i).requestResource (Q.quorum i)
      some (s.write i c .polling out)
    else none
  | .canEnterCriticalSection i =>
    if s.main i = .polling then
      let m := if (s.strategy i).canEnterCriticalSection (Q.quorum i) then .inside else .polling
      some (s.write i (s.strategy i) m fun _ => [])
    else none
  | .releaseResource i =>
    if s.main i = .inside then
      let (c, out) := (s.strategy i).releaseResource (Q.quorum i)
      some (s.write i c .idle out)
    else none
  | .treatMessage i j place =>
    match (s.inFlight j i)[place]? with
    | none => none
    | some message =>
      if s.handler i j = .ready ∧ s.Deliverable i j place message then
        ((s.strategy i).treatMessage j message).map fun (c, out) =>
          ((s.receive i j ((s.inFlight j i).eraseIdx place)).write i c (s.main i) out).setHandler
            i j message.body.handler
      else none
  | .treatInquireMessage i j =>
    match s.handler i j with
    | .ready => none
    | .inquiring .loopFailed grant =>
      let point := if (s.strategy i).receivedFailed (Q.quorum i) then .ifFailed else .loopLocked
      some (s.setHandler i j (.inquiring point grant))
    | .inquiring .loopLocked grant =>
      let point := if (s.strategy i).receivedAllLocked (Q.quorum i) then .ifFailed else .loopFailed
      some (s.setHandler i j (.inquiring point grant))
    | .inquiring .ifFailed grant =>
      let point := if (s.strategy i).receivedFailed (Q.quorum i) then .relinquish else .ifLocked
      some (s.setHandler i j (.inquiring point grant))
    | .inquiring .ifLocked _ => some (s.setHandler i j .ready)
    | .inquiring .relinquish grant =>
      let (c, out) := (s.strategy i).relinquish j grant
      some ((s.write i c (s.main i) out).setHandler i j .ready)

/-- The clients of one file under the Maekawa strategy. -/
def machine (Q : Quorums n) : Machine (State n) (Action n) where
  init s := s = initial n
  step := step Q

/-- What a step found and what it wrote, one line for each kind of section. -/
def Effect (Q : Quorums n) (s : State n) (a : Action n) (t : State n) : Prop :=
  match a with
  | .requestResource i => s.main i = .idle ∧ t = s.write i
      ((s.strategy i).requestResource (Q.quorum i)).1 .polling
      ((s.strategy i).requestResource (Q.quorum i)).2
  | .canEnterCriticalSection i => s.main i = .polling ∧ t = s.write i (s.strategy i)
      (if (s.strategy i).canEnterCriticalSection (Q.quorum i) then .inside else .polling)
      fun _ => []
  | .releaseResource i => s.main i = .inside ∧ t = s.write i
      ((s.strategy i).releaseResource (Q.quorum i)).1 .idle
      ((s.strategy i).releaseResource (Q.quorum i)).2
  | .treatMessage i j place => ∃ before message behind c out,
      s.inFlight j i = before ++ message :: behind ∧ before.length = place ∧
      s.handler i j = .ready ∧ (s.strategy i).treatMessage j message = some (c, out) ∧
      t = ((s.receive i j (before ++ behind)).write i c (s.main i) out).setHandler
        i j message.body.handler
  | .treatInquireMessage i j => ∃ grant,
      (∃ point point', s.handler i j = .inquiring point grant ∧
        t = s.setHandler i j (.inquiring point' grant)) ∨
      (s.handler i j = .inquiring .ifLocked grant ∧ t = s.setHandler i j .ready) ∨
      (s.handler i j = .inquiring .relinquish grant ∧
        t = (s.write i ((s.strategy i).relinquish j grant).1 (s.main i)
          ((s.strategy i).relinquish j grant).2).setHandler i j .ready)

theorem effect_of_step {Q : Quorums n} {s t : State n} {a : Action n} (h : step Q s a = some t) :
    Effect Q s a t := by
  cases a with
  | treatMessage i j place =>
    simp only [step] at h
    split at h
    · cases h
    · next message hm =>
      split_ifs at h with hr
      obtain ⟨⟨c, out⟩, hc, rfl⟩ := Option.map_eq_some_iff.mp h
      obtain ⟨before, behind, hl, he, hlen⟩ := Network.split_at hm
      exact ⟨before, message, behind, c, out, hl, hlen, hr.1, hc, by rw [he]⟩
  | treatInquireMessage i j =>
    simp only [step] at h
    split at h <;> cases h
    · exact ⟨_, .inl ⟨_, _, ‹_›, rfl⟩⟩
    · exact ⟨_, .inl ⟨_, _, ‹_›, rfl⟩⟩
    · exact ⟨_, .inl ⟨_, _, ‹_›, rfl⟩⟩
    · exact ⟨_, .inr (.inl ⟨‹_›, rfl⟩)⟩
    · exact ⟨_, .inr (.inr ⟨‹_›, rfl⟩)⟩
  | _ =>
    simp only [step] at h
    split at h <;> cases h
    exact ⟨‹_›, rfl⟩

/-- A RELINQUISH is sent only for a lock that its client holds while it waits. -/
def inTime (s : State n) : Action n → Bool
  | .treatInquireMessage i j =>
    match s.handler i j with
    | .inquiring .relinquish _ =>
      s.main i = .polling && (s.strategy i).requestReply j = .locked
    | _ => true
  | _ => true

/-- Messages of a client to itself are treated in the order in which they were sent. -/
def inOrder : Action n → Bool
  | .treatMessage _ _ place => place == 0
  | _ => true

/-- A queued REQUEST finds room, and is refused or has the holder of the lock asked. -/
def heard (s : State n) : Action n → Bool
  | .treatMessage i j place =>
    match (s.inFlight j i)[place]? with
    | some ⟨theirSequenceNumber, .request⟩ =>
      let c := s.strategy i
      let request : Request n := ⟨theirSequenceNumber, some j⟩
      !c.isLocked || (c.waitingQueue.size < MESSAGE_QUEUE_MAX_SIZE &&
        ({ c with waitingQueue := (c.waitingQueue.push request).1 }.refuses request ||
          c.lockingRequest.sender.all c.isInquireReplied))
    | _ => true
  | _ => true

/-- The handler is in the loop of treat_inquire_message. -/
def Handler.spins : Handler → Bool
  | .inquiring .loopFailed _ | .inquiring .loopLocked _ => true
  | _ => false

def Body.isInquire : Body → Bool
  | .inquire _ => true
  | _ => false

/-- An INQUIRE finds its client with the lock, and the client does not release while a handler
is still in its loop. -/
def noticed (s : State n) : Action n → Bool
  | .treatMessage i j place =>
    match (s.inFlight j i)[place]? with
    | some ⟨_, .inquire _⟩ => (s.strategy i).requestReply j = .locked
    | _ => true
  | .releaseResource i => decide (∀ j, (s.handler i j).spins = false)
  | _ => true

/-- The INQUIRE of arbiter k is on its way to client i, or with its handler. -/
def State.asking (s : State n) (k i : Fin n) : Bool :=
  s.handler i k ≠ .ready || (s.inFlight k i).any fun message => message.body.isInquire

/-- The handler of an INQUIRE goes by what holds when it answers. It lets the INQUIRE go only if
the client has all locks, or has released this one. It sends RELINQUISH in time, and not for a
client that has all locks and has let the INQUIRE of another arbiter go on their account. -/
def answers (Q : Quorums n) (s : State n) : Action n → Bool
  | .treatInquireMessage i j =>
    match s.handler i j with
    | .inquiring .relinquish _ =>
      s.main i = .polling && (s.strategy i).requestReply j = .locked &&
        (!(s.strategy i).receivedAllLocked (Q.quorum i) ||
          decide (∀ k, k = j ∨ (s.strategy k).isInquireReplied i = true ∨ s.asking k i = true))
    | .inquiring .ifLocked _ =>
      !(s.main i = .polling && (s.strategy i).requestReply j = .locked) ||
        (s.strategy i).receivedAllLocked (Q.quorum i)
    | _ => true
  | _ => true

theorem inTime_of_answers {Q : Quorums n} {s : State n} {a : Action n}
    (h : answers Q s a = true) : inTime s a = true := by
  cases a with
  | treatInquireMessage i j =>
    simp only [answers, inTime] at h ⊢
    split <;> simp_all
  | _ => rfl

end DistributedME.Maekawa
