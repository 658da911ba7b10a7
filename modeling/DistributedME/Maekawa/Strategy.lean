import DistributedME.Library.Network
import DistributedME.MessageQueue
import Mathlib.Data.Fintype.Basic

/-! The object MKWCriticalSectionAlgStrategy of one client and one file. Each locked section
is one function of the object that also returns what it sends. A function that returns an
option has no value where the source has no defined behaviour. -/
namespace DistributedME.Maekawa
open Library

/-- A REQUEST packet as waiting_queue and locking_request keep it. The sender is none where
the source stores -1. Sequence numbers are unbounded. -/
structure Request (n : ℕ) where
  timestamp : ℕ
  sender : Option (Fin n)
  deriving DecidableEq, Repr

def Request.senderId {n : ℕ} (r : Request n) : ℤ :=
  match r.sender with
  | some j => (j : ℕ)
  | none => -1

/-- The pair that the packet comparator compares. -/
def Request.key {n : ℕ} (r : Request n) : ℤ ×ₗ ℤ := toLex ((r.timestamp : ℤ), r.senderId)

/-- What a packet of the algorithm is about. The number of a grant is auxiliary: it names the
LOCKED that an INQUIRE or a RELINQUISH refers to, and no section looks at it. -/
inductive Body where
  | request
  | locked (grant : ℕ)
  | inquire (grant : ℕ)
  | relinquish (grant : ℕ)
  | failed
  | release
  deriving DecidableEq, Repr

/-- The timestamp of a packet is the our_sequence_number of its sender. -/
structure Message where
  timestamp : ℕ
  body : Body
  deriving DecidableEq, Repr

inductive RequestReplyType where
  | none
  | waiting
  | failed
  | locked
  deriving DecidableEq, Repr

/-- The counter of grants is auxiliary and counts the LOCKED messages sent. -/
structure Strategy (n : ℕ) where
  ourSequenceNumber : ℕ
  hgstSequenceNumber : ℕ
  waitingQueue : MessageQueue (Request.key (n := n)) MESSAGE_QUEUE_MAX_SIZE
  requestReply : Fin n → RequestReplyType
  lockingRequest : Request n
  isLocked : Bool
  isInquireReplied : Fin n → Bool
  grants : ℕ

variable {n : ℕ}

namespace Strategy

/-- is_locked has no initializer in the source and is taken as false. -/
def construct (n : ℕ) : Strategy n where
  ourSequenceNumber := 0
  hgstSequenceNumber := 0
  waitingQueue := .construct
  requestReply := fun _ => .none
  lockingRequest := ⟨0, none⟩
  isLocked := false
  isInquireReplied := fun _ => true
  grants := 0

/-- A packet of this object. -/
def say (c : Strategy n) (body : Body) : List Message := [⟨c.ourSequenceNumber, body⟩]

/-- The locked part of request_resource. -/
def requestResource (c : Strategy n) (quorum : Finset (Fin n)) :
    Strategy n × (Fin n → List Message) :=
  let c := { c with ourSequenceNumber := c.hgstSequenceNumber + 1 }
  ({ c with requestReply := fun i => if i ∈ quorum then .waiting else c.requestReply i },
    fun i => if i ∈ quorum then c.say .request else [])

def resetRequestReply (c : Strategy n) (quorum : Finset (Fin n)) : Strategy n :=
  { c with requestReply := fun i => if i ∈ quorum then .none else c.requestReply i }

def releaseResource (c : Strategy n) (quorum : Finset (Fin n)) :
    Strategy n × (Fin n → List Message) :=
  (c.resetRequestReply quorum, fun i => if i ∈ quorum then c.say .release else [])

/-- Make a request the locking one and send LOCKED to its client. -/
def lock (c : Strategy n) (r : Request n) : Option (Strategy n × (Fin n → List Message)) :=
  r.sender.map fun j =>
    ({ c with lockingRequest := r, grants := c.grants + 1 },
      Network.only j (c.say (.locked (c.grants + 1))))

/-- A queued request that the locking request or the top of the queue precedes is refused. -/
def refuses (c : Strategy n) (request : Request n) : Bool :=
  packetComparator (request.timestamp, request.senderId)
      (c.lockingRequest.timestamp, c.lockingRequest.senderId) ||
    c.waitingQueue.top?.any fun top =>
      packetComparator (request.timestamp, request.senderId) (top.timestamp, top.senderId)

/-- The request is put into the queue before it is compared with the top of the queue. -/
def treatRequestMessage (c : Strategy n) (j : Fin n) (theirSequenceNumber : ℕ) :
    Option (Strategy n × (Fin n → List Message)) :=
  let c := { c with hgstSequenceNumber := max c.hgstSequenceNumber theirSequenceNumber }
  let request : Request n := ⟨theirSequenceNumber, some j⟩
  if !c.isLocked then { c with isLocked := true }.lock request
  else
    let c := { c with waitingQueue := (c.waitingQueue.push request).1 }
    if c.refuses request then some (c, Network.only j (c.say .failed))
    else c.lockingRequest.sender.map fun lockingNodeId =>
      if c.isInquireReplied lockingNodeId then
        ({ c with isInquireReplied := Function.update c.isInquireReplied lockingNodeId false },
          Network.only lockingNodeId (c.say (.inquire c.grants)))
      else (c, fun _ => [])

/-- The locked section of treat_inquire_message that sends RELINQUISH to j. -/
def relinquish (c : Strategy n) (j : Fin n) (grant : ℕ) : Strategy n × (Fin n → List Message) :=
  ({ c with requestReply := Function.update c.requestReply j .failed },
    Network.only j (c.say (.relinquish grant)))

def treatRelinquishMessage (c : Strategy n) (j : Fin n) :
    Option (Strategy n × (Fin n → List Message)) :=
  c.waitingQueue.top?.bind fun mostPrecedingRequest =>
    { c with
      waitingQueue := (c.waitingQueue.pop.push c.lockingRequest).1
      isInquireReplied := Function.update c.isInquireReplied j true }.lock mostPrecedingRequest

def treatFailedMessage (c : Strategy n) (j : Fin n) : Strategy n :=
  { c with requestReply := Function.update c.requestReply j .failed }

def treatLockedMessage (c : Strategy n) (j : Fin n) : Strategy n :=
  { c with requestReply := Function.update c.requestReply j .locked }

def treatReleaseMessage (c : Strategy n) (j : Fin n) :
    Option (Strategy n × (Fin n → List Message)) :=
  let c := { c with isInquireReplied := Function.update c.isInquireReplied j true }
  match c.waitingQueue.top? with
  | some top => { c with waitingQueue := c.waitingQueue.pop }.lock top
  | none =>
    some ({ c with
      isLocked := false
      lockingRequest := { c.lockingRequest with sender := none } }, fun _ => [])

/-- treat_message looks at the message type. An INQUIRE changes nothing under the lock before
its handler has found out what to answer. -/
def treatMessage (c : Strategy n) (j : Fin n) (message : Message) :
    Option (Strategy n × (Fin n → List Message)) :=
  match message.body with
  | .request => c.treatRequestMessage j message.timestamp
  | .locked _ => some (c.treatLockedMessage j, fun _ => [])
  | .inquire _ => some (c, fun _ => [])
  | .relinquish _ => c.treatRelinquishMessage j
  | .failed => some (c.treatFailedMessage j, fun _ => [])
  | .release => c.treatReleaseMessage j

def receivedFailed (c : Strategy n) (quorum : Finset (Fin n)) : Bool :=
  decide (∃ i ∈ quorum, c.requestReply i = .failed)

def receivedAllLocked (c : Strategy n) (quorum : Finset (Fin n)) : Bool :=
  decide (∀ i ∈ quorum, c.requestReply i = .locked)

/-- can_enter_critical_section asks the same question. -/
def canEnterCriticalSection (c : Strategy n) (quorum : Finset (Fin n)) : Bool :=
  decide (∀ i ∈ quorum, c.requestReply i = .locked)

theorem refuses_iff (c : Strategy n) (r : Request n) : c.refuses r = true ↔
    c.lockingRequest.key < r.key ∨ ∃ top ∈ c.waitingQueue.items.head?, top.key < r.key := by
  have hkey (a b : Request n) :
      packetComparator ((a.timestamp : ℤ), a.senderId) (b.timestamp, b.senderId) = true ↔
        b.key < a.key := packetComparator_iff _ _
  simp only [refuses, Bool.or_eq_true, hkey, Option.any_eq_true]
  rfl

end Strategy

/-- Requests of one key come from the same client with the same number. -/
theorem eq_of_key_eq {r r' : Request n} (h : r.key = r'.key) : r = r' := by
  obtain ⟨ht, hs⟩ := Prod.mk.inj (toLex.injective h)
  obtain ⟨t, j⟩ := r
  obtain ⟨t', j'⟩ := r'
  obtain rfl : t = t' := Int.ofNat.inj ht
  cases j with
  | none =>
    cases j' with
    | none => rfl
    | some j' =>
      simp only [Request.senderId] at hs
      omega
  | some j =>
    cases j' with
    | none =>
      simp only [Request.senderId] at hs
      omega
    | some j' =>
      simp only [Request.senderId] at hs
      obtain rfl : j = j' := by omega
      rfl

end DistributedME.Maekawa
