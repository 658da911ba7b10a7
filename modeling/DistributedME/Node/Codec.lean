import DistributedME.Packet
import Mathlib.Algebra.Order.BigOperators.Group.List
import Mathlib.Algebra.Order.Group.Nat

/-! Sequences of packets and the byte strings that consist of whole messages. -/
namespace DistributedME.Node
open Library

/-- A chain of length prefixes, each of which counts the header and ends within the bytes. -/
inductive PrefixChain : List UInt8 → Prop
  | nil : PrefixChain []
  | cons {data : List UInt8} {messageLen : Int32} : charToInt data = some messageLen →
      (messageMsgOffset : ℤ) ≤ messageLen.toInt → messageLen.toInt ≤ data.length →
      PrefixChain (data.drop messageLen.toInt.toNat) → PrefixChain data

theorem exists_charToInt {l : List UInt8} (h : 4 ≤ l.length) : ∃ x, charToInt l = some x := by
  match l, h with
  | _ :: _ :: _ :: _ :: _, _ => exact ⟨_, rfl⟩

/-- Whatever follows a proper length is a packet of that length. -/
theorem exists_messageToPacket {data : List UInt8} {messageLen : Int32}
    (hlen : charToInt data = some messageLen) (hlow : (messageMsgOffset : ℤ) ≤ messageLen.toInt)
    (hhigh : messageLen.toInt ≤ data.length) :
    ∃ p, messageToPacket data = some p ∧ p.getMessageLength = messageLen.toInt.toNat := by
  have hroom : 20 ≤ data.length := by
    have : (messageMsgOffset : ℤ) = 20 := rfl
    omega
  have hfield (k : ℕ) (hk : k ≤ 16) : ∃ x, charToInt (data.drop k) = some x := by
    apply exists_charToInt
    rw [List.length_drop]
    omega
  obtain ⟨type, htype⟩ := hfield messageTypeOffset (by decide)
  obtain ⟨sender, hsender⟩ := hfield messageSenderIdOffset (by decide)
  obtain ⟨receiver, hreceiver⟩ := hfield messageReceiverIdOffset (by decide)
  obtain ⟨time, htime⟩ := hfield messageTimestampOffset (by decide)
  refine ⟨⟨.ofInt type, sender, receiver, time,
    (data.drop messageMsgOffset).take (messageLen.toInt.toNat - messageMsgOffset)⟩, ?_, ?_⟩
  · simp only [messageToPacket, messageLenOffset, List.drop_zero, hlen, htype, hsender, hreceiver,
      htime, Option.bind_eq_bind, Option.bind_some]
    exact if_pos ⟨hlow, hhigh⟩
  · have : messageMsgOffset = 20 := rfl
    simp only [Packet.getMessageLength, Packet.getPacketLength, List.length_take, List.length_drop]
    omega

theorem charToInt_header {p : Packet} (h : packetCode.valid p) (rest : List UInt8) :
    ∃ messageLen, charToInt (packetCode.encode p ++ rest) = some messageLen ∧
      messageLen.toInt = p.getMessageLength := by
  refine ⟨Int32.ofNat p.getMessageLength, ?_, Int32.toInt_ofNat_of_lt h⟩
  change charToInt (p.header ++ p.msg ++ rest) = _
  simp only [Packet.header, List.append_assoc]
  exact charToInt_intToChar _ _

/-- The strings with such a chain are those that consist of whole messages. -/
theorem prefixChain_iff {data : List UInt8} : PrefixChain data ↔
    ∃ packets, (∀ p ∈ packets, packetCode.valid p) ∧ data = packetCode.encodeAll packets := by
  constructor
  · intro h
    induction h with
    | nil => exact ⟨[], List.forall_mem_nil _, rfl⟩
    | cons hlen hlow hhigh _ ih =>
      obtain ⟨p, hp, hplen⟩ := exists_messageToPacket hlen hlow hhigh
      obtain ⟨packets, hvalid, hrest⟩ := ih
      obtain ⟨hpvalid, rest, rfl⟩ := prefix_of_messageToPacket hp
      rw [← hplen, ← p.length_header_append, List.drop_left] at hrest
      exact ⟨p :: packets, List.forall_mem_cons.mpr ⟨hpvalid, hvalid⟩, by rw [hrest]; rfl⟩
  · rintro ⟨packets, hvalid, rfl⟩
    induction packets with
    | nil => exact .nil
    | cons p packets ih =>
      obtain ⟨hp, hpackets⟩ := List.forall_mem_cons.mp hvalid
      rw [Code.encodeAll_cons]
      obtain ⟨messageLen, hlen, hp'⟩ := charToInt_header hp (packetCode.encodeAll packets)
      have hsize : (packetCode.encode p).length = p.getMessageLength := p.length_header_append
      have hlow : messageMsgOffset ≤ p.getMessageLength := by
        rw [← p.length_header_append, List.length_append, p.length_header]
        exact Nat.le_add_right _ _
      refine .cons hlen (by omega) ?_ ?_
      · rw [List.length_append, hsize, hp']
        omega
      · rw [hp', Int.toNat_natCast, ← hsize, List.drop_left]
        exact ih hpackets

theorem length_encodeAll (ps : List Packet) :
    (packetCode.encodeAll ps).length = (ps.map Packet.getMessageLength).sum := by
  induction ps with
  | nil => rfl
  | cons p ps ih =>
    rw [Code.encodeAll_cons, List.length_append, ih, List.map_cons, List.sum_cons]
    exact congrArg (· + _) p.length_header_append

/-- The bytes of a packet that was written to a buffer of the given size, up to its length. -/
def encoding (p : Packet) (bufferSize : ℕ) : List UInt8 :=
  (p.toMessage bufferSize).1.take p.getMessageLength

theorem encoding_of_le {p : Packet} {bufferSize : ℕ} (h : p.getMessageLength ≤ bufferSize) :
    encoding p bufferSize = packetCode.encode p := by
  rw [encoding, Packet.toMessage_of_le h, ← p.length_header_append, List.take_length]
  rfl

/-- Encoding and splitting undo each other, between all lists of packets, each with a buffer
that is large enough, and all strings with a chain of length prefixes. What follows the string
in memory is not looked at. -/
theorem packets_correspond_to_chains :
    (∀ (packets : List (Packet × ℕ)) (beyond : List UInt8),
      (∀ p ∈ packets, p.1.getMessageLength ≤ p.2) →
      (packets.map fun p => p.1.getMessageLength).sum < 2 ^ 31 →
      splitReadDataFromSocket (packets.flatMap (fun p => encoding p.1 p.2) ++ beyond)
        (packets.map fun p => p.1.getMessageLength).sum = some (packets.map Prod.fst)) ∧
    ∀ data : List UInt8, PrefixChain data → ∃ packets : List Packet,
      (∀ beyond, splitReadDataFromSocket (data ++ beyond) data.length = some packets) ∧
      (packets.flatMap fun p => encoding p p.getMessageLength) = data := by
  constructor
  · intro packets beyond hroom htotal
    have hvalid : ∀ p ∈ packets.map Prod.fst, packetCode.valid p := by
      intro p hp
      obtain ⟨q, hq, rfl⟩ := List.mem_map.mp hp
      have hle := List.single_le_sum (fun _ _ => Nat.zero_le _) _
        (List.mem_map_of_mem (f := fun p : Packet × ℕ => p.1.getMessageLength) hq)
      exact Nat.lt_of_le_of_lt hle htotal
    have hbytes : packets.flatMap (fun p => encoding p.1 p.2) =
        packetCode.encodeAll (packets.map Prod.fst) := by
      rw [Code.encodeAll, List.flatMap_map]
      exact List.flatMap_congr fun p hp => encoding_of_le (hroom p hp)
    have hlength := length_encodeAll (packets.map Prod.fst)
    rw [List.map_map] at hlength
    rw [hbytes, splitReadDataFromSocket_eq_split]
    exact hlength ▸ packetCode.split_encodeAll hvalid beyond
  · intro data hchain
    obtain ⟨packets, hvalid, rfl⟩ := prefixChain_iff.mp hchain
    refine ⟨packets, fun beyond => ?_, ?_⟩
    · rw [splitReadDataFromSocket_eq_split]
      exact packetCode.split_encodeAll hvalid beyond
    · rw [Code.encodeAll]
      exact List.flatMap_congr fun p _ => encoding_of_le (Nat.le_refl _)

/-- The packets of the tests. -/
def lamductan : Packet :=
  ⟨.clientEnquiry, 0, 1, 2, [108, 97, 109, 100, 117, 99, 116, 97, 110]⟩

def utdallas : Packet :=
  ⟨.clientEnquiry, 5, 6, 7, [117, 116, 100, 97, 108, 108, 97, 115, 32, 49, 50, 51]⟩

theorem packets_correspond_to_chains_two :
    splitReadDataFromSocket (encoding lamductan 1024 ++ encoding utdallas 1024) 61 =
      some [lamductan, utdallas] ∧
    ∃ packets, ∀ beyond,
      splitReadDataFromSocket (packetCode.encodeAll [lamductan, utdallas] ++ beyond) 61 =
        some packets := by
  constructor
  · exact packets_correspond_to_chains.1 [(lamductan, 1024), (utdallas, 1024)] [] (by decide)
      (by decide)
  · have hvalid : ∀ p ∈ [lamductan, utdallas], p.getMessageLength < 2 ^ 31 := by decide
    have hchain := prefixChain_iff.mpr ⟨[lamductan, utdallas], hvalid, rfl⟩
    obtain ⟨packets, hsplit, -⟩ := packets_correspond_to_chains.2 _ hchain
    exact ⟨packets, hsplit⟩

end DistributedME.Node
