import DistributedME.Node.ReceiveLoops
import DistributedME.Node.Texts

/-! What nodes put on their sockets: every message is written to a local buffer first, and its
length is that of the packet. -/
namespace DistributedME.Node
open Library

inductive NodeType where
  | server
  | client
  deriving DecidableEq, Repr

structure Sender where
  id : Int32
  nodeType : NodeType
  timestamp : Int32
  deriving DecidableEq, Repr

/-- A message is pushed to the node's own queue, or its length and that many bytes of memory
are given to send. -/
inductive Sent where
  | toSelf (packet : Packet)
  | toSocket (length : ℕ) (bytes : Bytes)
  deriving DecidableEq, Repr

/-- The conversion of getMessageLength to int and then to the size of a memory area. -/
def sendLength (p : Packet) : ℕ := ((Int32.ofNat p.getMessageLength).toInt % 2 ^ 64).toNat

/-- Memory from the local buffer on, when toMessage has written to it. -/
def bufferOnwards (p : Packet) (memory : Bytes) : Bytes :=
  let written := (p.toMessage maxBufferSize).1
  written ++ memory.drop written.length

def send (p : Packet) (memory : Bytes) : Sent :=
  .toSocket (sendLength p) ((bufferOnwards p memory).take (sendLength p))

namespace Sender

/-- The clock has no defined value after an overflow. -/
def createMessage (c : Sender) (receiverId : Int32) (messageType : MessageType) (msg : Bytes) :
    Option (Sender × Packet) :=
  if c.timestamp.toInt + 1 < 2 ^ 31 then
    let timestamp := c.timestamp + 1
    some ({ c with timestamp := timestamp }, ⟨messageType, c.id, receiverId, timestamp, msg⟩)
  else none

/-- What toMessage returns is not looked at. -/
def sendMessageTo (c : Sender) (receiverNodeType : NodeType) (receiverId : Int32)
    (messageType : MessageType) (msg memory : Bytes) : Option (Sender × Sent) :=
  (c.createMessage receiverId messageType msg).map fun (c, sentPacket) =>
    if receiverId = c.id ∧ receiverNodeType = c.nodeType then (c, .toSelf sentPacket)
    else (c, send sentPacket memory)

def sendCriticalSectionMessageToClient (c : Sender) (clientId : Int32) (messageType : MessageType)
    (msg : Bytes) (ourSequenceNumber : Int32) (memory : Bytes) : Option (Sender × Sent) :=
  (c.createMessage clientId messageType msg).map fun (c, sentPacket) =>
    let sentPacket := { sentPacket with timestamp := ourSequenceNumber }
    if clientId = c.id ∧ NodeType.client = c.nodeType then (c, .toSelf sentPacket)
    else (c, send sentPacket memory)

end Sender

/-- The bytes given to send are within the buffer and the encoding of the packet, which the
receiver reads back, and toMessage had room for the whole text. -/
def Complete (p : Packet) (sent : Sent) : Prop :=
  ∃ length bytes, sent = .toSocket length bytes ∧ length ≤ maxBufferSize ∧
    bytes = packetCode.encode p ∧ messageToPacket bytes = some p ∧
    (p.toMessage maxBufferSize).2 = 0

private theorem sendLength_of_lt {p : Packet} (h : p.getMessageLength < 2 ^ 31) :
    sendLength p = p.getMessageLength := by
  rw [sendLength, Int32.toInt_ofNat_of_lt h]
  omega

private theorem send_of_le {p : Packet} (h : p.getMessageLength ≤ maxBufferSize) (memory : Bytes) :
    send p memory = .toSocket p.getMessageLength (sendMessageTo p) := by
  have hlen : p.getMessageLength < 2 ^ 31 := Nat.lt_of_le_of_lt h (by decide)
  rw [send, sendLength_of_lt hlen, bufferOnwards, Packet.toMessage_of_le h, sendMessageTo,
    Packet.toMessage_of_le h, ← p.length_header_append, List.take_left, List.take_length]

theorem complete_send_iff (p : Packet) (memory : Bytes) :
    Complete p (send p memory) ↔ messageMsgOffset + p.msg.length ≤ maxBufferSize := by
  have hsize : p.getMessageLength = messageMsgOffset + p.msg.length := by
    rw [← p.length_header_append, List.length_append, p.length_header]
  constructor
  · rintro ⟨length, bytes, hsent, hlength, hbytes, -, -⟩
    obtain ⟨rfl, rfl⟩ := Sent.toSocket.inj hsent
    have hle := congrArg List.length hbytes
    rw [List.length_take] at hle
    have henc : (packetCode.encode p).length = p.getMessageLength := p.length_header_append
    omega
  · intro h
    rw [← hsize] at h
    have hlen : p.getMessageLength < 2 ^ 31 := Nat.lt_of_le_of_lt h (by decide)
    have henc : sendMessageTo p = packetCode.encode p := encoding_of_le h
    refine ⟨_, _, send_of_le h memory, h, henc, ?_, ?_⟩
    · rw [henc, ← List.append_nil (packetCode.encode p)]
      exact messageToPacket_append hlen []
    · rw [Packet.toMessage_of_le h]

theorem sent_whole_iff (c c' : Sender) (receiverNodeType : NodeType) (receiverId : Int32)
    (messageType : MessageType) (msg memory : Bytes) (ourSequenceNumber : Int32) (sent : Sent) :
    (c.sendMessageTo receiverNodeType receiverId messageType msg memory = some (c', sent) →
      ¬ (receiverId = c.id ∧ receiverNodeType = c.nodeType) →
      (Complete ⟨messageType, c.id, receiverId, c'.timestamp, msg⟩ sent ↔
        messageMsgOffset + msg.length ≤ maxBufferSize)) ∧
    (c.sendCriticalSectionMessageToClient receiverId messageType msg ourSequenceNumber memory =
        some (c', sent) →
      ¬ (receiverId = c.id ∧ NodeType.client = c.nodeType) →
      (Complete ⟨messageType, c.id, receiverId, ourSequenceNumber, msg⟩ sent ↔
        messageMsgOffset + msg.length ≤ maxBufferSize)) := by
  constructor
  · intro hsent hremote
    obtain ⟨⟨c₁, p⟩, hp, hsent⟩ := Option.map_eq_some_iff.mp hsent
    unfold Sender.createMessage at hp
    split_ifs at hp
    cases hp
    simp only [if_neg hremote] at hsent
    cases hsent
    exact complete_send_iff _ memory
  · intro hsent hremote
    obtain ⟨⟨c₁, p⟩, hp, hsent⟩ := Option.map_eq_some_iff.mp hsent
    unfold Sender.createMessage at hp
    split_ifs at hp
    cases hp
    simp only [if_neg hremote] at hsent
    cases hsent
    exact complete_send_iff _ memory

theorem sent_whole_read : ∃ c sent, Sender.sendMessageTo ⟨1, .server, 4⟩ .client 1
      .serverReplyReadClient [48, comma, 55] [] = some (c, sent) ∧
    Complete ⟨.serverReplyReadClient, 1, 1, 5, [48, comma, 55]⟩ sent :=
  ⟨⟨1, .server, 5⟩, _, rfl, ((sent_whole_iff ⟨1, .server, 4⟩ ⟨1, .server, 5⟩ .client 1
    .serverReplyReadClient [48, comma, 55] [] 0 _).1 rfl (by decide)).mpr (by decide)⟩

def manyFiles : List Bytes :=
  (List.range 33).map fun i => UInt8.ofNat (65 + i) :: .replicate 254 97

/-- The answer to an ENQUIRY about 33 files with names of 255 bytes does not fit. -/
theorem sent_whole_fails : ¬ ∀ (names : List Bytes) (c c' : Sender) (clientId : Int32)
    (memory : Bytes) (sent : Sent), names.Nodup →
    (∀ name ∈ names, name ≠ [] ∧ hash ∉ name ∧ name.length ≤ 255) → c.nodeType = .server →
    c.sendMessageTo .client clientId .serverReplyEnquiryClient
      (Server.handleEnquiryRequest names) memory = some (c', sent) →
    Complete ⟨.serverReplyEnquiryClient, c.id, clientId, c'.timestamp,
      Server.handleEnquiryRequest names⟩ sent := by
  intro h
  have hsent (msg : Bytes) : Sender.sendMessageTo ⟨0, .server, 0⟩ .client 0
      .serverReplyEnquiryClient msg [] = some (⟨0, .server, 1⟩,
        send ⟨.serverReplyEnquiryClient, 0, 0, 1, msg⟩ []) := rfl
  have hcomplete := h manyFiles ⟨0, .server, 0⟩ ⟨0, .server, 1⟩ 0 [] _ (by decide +kernel)
    (by decide +kernel) rfl (hsent _)
  have hlen : (Server.handleEnquiryRequest manyFiles).length = 8447 := by decide +kernel
  have hfits := (complete_send_iff _ _).mp hcomplete
  simp only [hlen] at hfits
  exact absurd hfits (by decide)

end DistributedME.Node
