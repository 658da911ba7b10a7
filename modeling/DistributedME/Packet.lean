import DistributedME.Library.Framing
import Mathlib.Data.Prod.Lex
import Mathlib.Data.Fin.VecNotation
import Mathlib.Data.Fintype.Basic
import Mathlib.Tactic.FinCases
import Mathlib.Algebra.Order.Ring.Int

/-! The packets that nodes exchange, and their encoding. -/
namespace DistributedME
open Library

/-- The enumerators in the order of the source. An int that is cast to the enumeration may
also be none of them. -/
inductive MessageType where
  | clientEnquiry
  | clientRequestRead
  | clientRequestWrite
  | clientEcho
  | serverRequestServer
  | serverReplyServer
  | serverReplyEnquiryClient
  | serverReplyReadClient
  | serverReplyWriteClient
  | serverEcho
  | clientDoneAllRequest
  | serverReceivedAllDoneRequests
  | clientRequestCsClient
  | clientReplyCsClient
  | clientMkwRequestClient
  | clientMkwLockedClient
  | clientMkwInquireClient
  | clientMkwRelinquishClient
  | clientMkwFailedClient
  | clientMkwReleaseClient
  | unlisted (code : UInt32) (h : 20 ≤ code.toNat)
  deriving DecidableEq, Repr

structure Packet where
  messageType : MessageType
  senderId : Int32
  receiverId : Int32
  timestamp : Int32
  msg : List UInt8
  deriving DecidableEq, Repr

namespace MessageType

/-- The value of an enumerator. -/
def toInt : MessageType → Int32
  | clientEnquiry => 0
  | clientRequestRead => 1
  | clientRequestWrite => 2
  | clientEcho => 3
  | serverRequestServer => 4
  | serverReplyServer => 5
  | serverReplyEnquiryClient => 6
  | serverReplyReadClient => 7
  | serverReplyWriteClient => 8
  | serverEcho => 9
  | clientDoneAllRequest => 10
  | serverReceivedAllDoneRequests => 11
  | clientRequestCsClient => 12
  | clientReplyCsClient => 13
  | clientMkwRequestClient => 14
  | clientMkwLockedClient => 15
  | clientMkwInquireClient => 16
  | clientMkwRelinquishClient => 17
  | clientMkwFailedClient => 18
  | clientMkwReleaseClient => 19
  | unlisted code _ => code.toInt32

/-- The enumerator with this number. -/
def listed : Fin 20 → MessageType :=
  ![clientEnquiry, clientRequestRead, clientRequestWrite, clientEcho, serverRequestServer,
    serverReplyServer, serverReplyEnquiryClient, serverReplyReadClient, serverReplyWriteClient,
    serverEcho, clientDoneAllRequest, serverReceivedAllDoneRequests, clientRequestCsClient,
    clientReplyCsClient, clientMkwRequestClient, clientMkwLockedClient, clientMkwInquireClient,
    clientMkwRelinquishClient, clientMkwFailedClient, clientMkwReleaseClient]

/-- The cast from int. -/
def ofInt (i : Int32) : MessageType :=
  if h : i.toUInt32.toNat < 20 then listed ⟨i.toUInt32.toNat, h⟩
  else .unlisted i.toUInt32 (Nat.le_of_not_lt h)

theorem ofInt_toInt (t : MessageType) : ofInt t.toInt = t := by
  cases t with
  | unlisted code h => simp [toInt, ofInt, Nat.not_lt.mpr h]
  | _ => rfl

private theorem toInt_listed (k : Fin 20) : (listed k).toInt = Int32.ofNat k := by
  fin_cases k <;> rfl

theorem toInt_ofInt (i : Int32) : (ofInt i).toInt = i := by
  unfold ofInt
  split_ifs with h
  · rw [toInt_listed, ← UInt32.toInt32_ofNat', UInt32.ofNat_toNat, Int32.toInt32_toUInt32]
  · exact Int32.toInt32_toUInt32 i

end MessageType

def messageLenOffset : ℕ := 0
def messageTypeOffset : ℕ := messageLenOffset + 4
def messageSenderIdOffset : ℕ := messageTypeOffset + 4
def messageReceiverIdOffset : ℕ := messageSenderIdOffset + 4
def messageTimestampOffset : ℕ := messageReceiverIdOffset + 4
def messageMsgOffset : ℕ := messageTimestampOffset + 4

/-- The four bytes of an int, the least significant one first. -/
def intToChar (x : Int32) : List UInt8 :=
  let u := x.toUInt32.toNat
  [UInt8.ofNat u, UInt8.ofNat (u / 2 ^ 8), UInt8.ofNat (u / 2 ^ 16), UInt8.ofNat (u / 2 ^ 24)]

/-- There is no value where the source would read beyond the given memory. -/
def charToInt : List UInt8 → Option Int32
  | b₀ :: b₁ :: b₂ :: b₃ :: _ =>
    some (UInt32.ofNat (b₀.toNat + 2 ^ 8 * b₁.toNat + 2 ^ 16 * b₂.toNat + 2 ^ 24 * b₃.toNat)).toInt32
  | _ => none

@[simp] theorem length_intToChar (x : Int32) : (intToChar x).length = 4 := rfl

theorem charToInt_intToChar (x : Int32) (rest : List UInt8) :
    charToInt (intToChar x ++ rest) = some x := by
  have hx := x.toUInt32.toNat_lt
  have hu : UInt32.ofNat (x.toUInt32.toNat % 2 ^ 8 + 2 ^ 8 * (x.toUInt32.toNat / 2 ^ 8 % 2 ^ 8) +
      2 ^ 16 * (x.toUInt32.toNat / 2 ^ 16 % 2 ^ 8) +
      2 ^ 24 * (x.toUInt32.toNat / 2 ^ 24 % 2 ^ 8)) = x.toUInt32 := by
    apply UInt32.toNat_inj.mp
    rw [UInt32.toNat_ofNat']
    omega
  simp only [intToChar, List.cons_append, List.nil_append, charToInt, UInt8.toNat_ofNat']
  rw [hu, Int32.toInt32_toUInt32]

theorem intToChar_of_charToInt {l : List UInt8} {x : Int32} (h : charToInt l = some x) :
    4 ≤ l.length ∧ intToChar x = l.take 4 := by
  obtain _ | ⟨b₀, _ | ⟨b₁, _ | ⟨b₂, _ | ⟨b₃, l⟩⟩⟩⟩ := l <;> cases h
  have h₀ := b₀.toNat_lt
  have h₁ := b₁.toNat_lt
  have h₂ := b₂.toNat_lt
  have h₃ := b₃.toNat_lt
  refine ⟨by simp, ?_⟩
  simp only [intToChar, UInt32.toUInt32_toInt32, UInt32.toNat_ofNat', List.take_succ_cons,
    List.take_zero, List.cons.injEq, and_true]
  refine ⟨?_, ?_, ?_, ?_⟩ <;> apply UInt8.toNat_inj.mp <;> rw [UInt8.toNat_ofNat'] <;> omega

namespace Packet

def getPacketLength (p : Packet) : ℕ := 16 + p.msg.length

def getMessageLength (p : Packet) : ℕ := 4 + p.getPacketLength

/-- What toMessage writes before the message text. -/
def header (p : Packet) : List UInt8 :=
  intToChar (Int32.ofNat p.getMessageLength) ++ intToChar p.messageType.toInt ++
    intToChar p.senderId ++ intToChar p.receiverId ++ intToChar p.timestamp

/-- The bytes written to the buffer, and how many of the text did not fit. The comparison is
one of unsigned numbers, so that a buffer that is too short for the header passes it. -/
def toMessage (p : Packet) (bufferSize : ℕ) : List UInt8 × ℕ :=
  let available := bufferSize - messageMsgOffset
  if bufferSize < messageMsgOffset ∨ p.msg.length ≤ available then (p.header ++ p.msg, 0)
  else (p.header ++ p.msg.take available, p.msg.length - available)

end Packet

/-- The conversion of a length that is too small to the size of a string fails, and so does
reading beyond the given memory. -/
def messageToPacket (message : List UInt8) : Option Packet := do
  let messageLen ← charToInt (message.drop messageLenOffset)
  let messageType ← charToInt (message.drop messageTypeOffset)
  let senderId ← charToInt (message.drop messageSenderIdOffset)
  let receiverId ← charToInt (message.drop messageReceiverIdOffset)
  let timestamp ← charToInt (message.drop messageTimestampOffset)
  if (messageMsgOffset : ℤ) ≤ messageLen.toInt ∧ messageLen.toInt ≤ message.length then
    some ⟨.ofInt messageType, senderId, receiverId, timestamp,
      (message.drop messageMsgOffset).take (messageLen.toInt.toNat - messageMsgOffset)⟩
  else none

/-- The loop of splitReadDataFromSocket. -/
def splitFrom (data : List UInt8) (valread numRead : ℕ) : Option (List Packet) :=
  if numRead < valread then
    (messageToPacket (data.drop numRead)).bind fun packet =>
      (splitFrom data valread (numRead + packet.getMessageLength)).map (packet :: ·)
  else some []
termination_by valread - numRead
decreasing_by
  simp only [Packet.getMessageLength]
  omega

/-- The memory at data may go on beyond the valread bytes that were received. -/
def splitReadDataFromSocket (data : List UInt8) (valread : ℕ) : Option (List Packet) :=
  splitFrom data valread 0

theorem Packet.length_header (p : Packet) : p.header.length = messageMsgOffset := by
  simp [Packet.header, messageMsgOffset, messageTimestampOffset, messageReceiverIdOffset,
    messageSenderIdOffset, messageTypeOffset, messageLenOffset]

theorem Packet.toMessage_of_le {p : Packet} {bufferSize : ℕ}
    (h : p.getMessageLength ≤ bufferSize) : p.toMessage bufferSize = (p.header ++ p.msg, 0) := by
  refine if_pos (.inr ?_)
  simp only [Packet.getMessageLength, Packet.getPacketLength] at h
  simp only [messageMsgOffset, messageTimestampOffset, messageReceiverIdOffset,
    messageSenderIdOffset, messageTypeOffset, messageLenOffset]
  omega

theorem Packet.length_header_append (p : Packet) :
    (p.header ++ p.msg).length = p.getMessageLength := by
  rw [List.length_append, p.length_header, Packet.getMessageLength, Packet.getPacketLength,
    ← Nat.add_assoc]
  rfl

theorem drop_intToChar (x : Int32) (l : List UInt8) (k : ℕ) :
    (intToChar x ++ l).drop (k + 4) = l.drop k := rfl

/-- A packet is read back whatever follows it. -/
theorem messageToPacket_append {p : Packet} (h : p.getMessageLength < 2 ^ 31)
    (rest : List UInt8) : messageToPacket (p.header ++ p.msg ++ rest) = some p := by
  have hlen : (Int32.ofNat p.getMessageLength).toInt = p.getMessageLength :=
    Int32.toInt_ofNat_of_lt h
  have hsum : p.getMessageLength = 20 + p.msg.length := by
    simp only [Packet.getMessageLength, Packet.getPacketLength]
    omega
  simp only [messageToPacket, Packet.header, List.append_assoc, messageMsgOffset,
    messageTimestampOffset, messageReceiverIdOffset, messageSenderIdOffset, messageTypeOffset,
    messageLenOffset, drop_intToChar, List.drop_zero, charToInt_intToChar, Option.bind_eq_bind,
    Option.bind_some, hlen, MessageType.ofInt_toInt]
  rw [if_pos]
  · rw [Int.toNat_natCast, hsum, Nat.zero_add, Nat.add_sub_cancel_left, List.take_left]
  · simp only [List.length_append, length_intToChar]
    omega

/-- What is read as a packet is its encoding. -/
theorem prefix_of_messageToPacket {message : List UInt8} {p : Packet}
    (h : messageToPacket message = some p) :
    p.getMessageLength < 2 ^ 31 ∧ p.header ++ p.msg <+: message := by
  simp only [messageToPacket, Option.bind_eq_bind, Option.bind_eq_some_iff] at h
  obtain ⟨len, hlen, type, htype, sender, hsender, receiver, hreceiver, time, htime, h⟩ := h
  split_ifs at h with hfit
  cases h
  obtain ⟨hlow, hhigh⟩ := hfit
  simp only [messageMsgOffset, messageTimestampOffset, messageReceiverIdOffset,
    messageSenderIdOffset, messageTypeOffset, messageLenOffset, List.drop_zero] at *
  have hbound := len.toInt_lt
  have hsum : Packet.getMessageLength ⟨.ofInt type, sender, receiver, time,
      (message.drop 20).take (len.toInt.toNat - 20)⟩ = len.toInt.toNat := by
    simp only [Packet.getMessageLength, Packet.getPacketLength, List.length_take, List.length_drop]
    omega
  have hlen' : Int32.ofNat len.toInt.toNat = len := by
    apply Int32.toInt_inj.mp
    rw [Int32.toInt_ofNat_of_lt (by omega)]
    omega
  rw [Packet.header, hsum, hlen', MessageType.toInt_ofInt]
  refine ⟨by omega, ?_⟩
  rw [(intToChar_of_charToInt hlen).2, (intToChar_of_charToInt htype).2,
    (intToChar_of_charToInt hsender).2, (intToChar_of_charToInt hreceiver).2,
    (intToChar_of_charToInt htime).2, ← List.take_add, ← List.take_add, ← List.take_add,
    ← List.take_add, ← List.take_add]
  exact List.take_prefix _ _

/-- The encoding of packets whose length fits into an int. -/
def packetCode : Code Packet UInt8 where
  valid p := p.getMessageLength < 2 ^ 31
  encode p := p.header ++ p.msg
  decode := messageToPacket
  encode_ne_nil p h := by
    have := congrArg List.length h
    rw [p.length_header_append] at this
    simp [Packet.getMessageLength] at this
  decode_append _ rest h := messageToPacket_append h rest
  prefix_of_decode _ _ h := prefix_of_messageToPacket h

theorem splitFrom_eq_split (data : List UInt8) (valread numRead : ℕ) :
    splitFrom data valread numRead = packetCode.split (data.drop numRead) (valread - numRead) := by
  fun_induction splitFrom data valread numRead with
  | case1 numRead h ih =>
    rw [Code.split, if_pos (by omega)]
    congr 1
    funext p
    rw [ih, List.drop_drop, Nat.sub_sub, packetCode, p.length_header_append]
  | case2 numRead h => rw [Code.split, if_neg (by omega)]

/-- The loop is the splitting of an encoded sequence of packets. -/
theorem splitReadDataFromSocket_eq_split (data : List UInt8) (valread : ℕ) :
    splitReadDataFromSocket data valread = packetCode.split data valread :=
  splitFrom_eq_split data valread 0

end DistributedME
