import DistributedME.Node.Codec

/-! What the receive loops of clients and servers dispatch from one connection, for every way
in which the bytes sent are cut into reads. -/
namespace DistributedME.Node
open Library

def maxBufferSize : ℕ := 8192

/-- The bytes that a packet puts on a connection. -/
def sendMessageTo (p : Packet) : List UInt8 := (p.toMessage maxBufferSize).1.take p.getMessageLength

/-- A read that has returned bytes, and whether another thread has set
all_clients_done_all_request when the loop looks at it after the read. Reads that time out are
repeated. -/
structure Read where
  bytes : List UInt8
  allDone : Bool
  deriving DecidableEq, Repr

/-- One pass of a receive loop: what it took for packets, and those that it treated. -/
structure Pass where
  valread : ℕ
  vPackets : List Packet
  dispatched : List Packet
  deriving DecidableEq, Repr

/-- The loops differ in what they treat of the packets of one read, and in when they are left.
A loop starts with any bytes in its buffer and clears it after each read. It ends when no byte
is left to be read. -/
def receiveLoop (treat : List Packet → Bool → List Packet × Bool) (rbuff : List UInt8) :
    List Read → Option (List Pass)
  | [] => some []
  | r :: reads =>
    (splitReadDataFromSocket (r.bytes ++ rbuff.drop r.bytes.length) r.bytes.length).bind
      fun vPackets =>
        let (dispatched, leaves) := treat vPackets r.allDone
        let pass : Pass := ⟨r.bytes.length, vPackets, dispatched⟩
        if leaves then some [pass]
        else (receiveLoop treat (.replicate maxBufferSize 0) reads).map (pass :: ·)

/-- The packets of one read from a server. All others are dropped when the servers have
received all done requests. -/
def treatServerPackets : List Packet → Bool → List Packet × Bool
  | [], allDone => ([], allDone)
  | packet :: vPackets, allDone =>
    if packet.messageType = .serverReceivedAllDoneRequests then ([packet], true)
    else
      let (dispatched, leaves) := treatServerPackets vPackets allDone
      (packet :: dispatched, leaves)

/-- The packets of one read from another client. -/
def treatClientPackets : List Packet → Bool → List Packet × Bool
  | [], allDone => ([], allDone)
  | packet :: vPackets, allDone =>
    let (dispatched, leaves) :=
      treatClientPackets vPackets (allDone || packet.messageType = .clientDoneAllRequest)
    (packet :: dispatched, leaves)

def Client.handleServerMessages : List UInt8 → List Read → Option (List Pass) :=
  receiveLoop treatServerPackets

def Client.handleClientMessages : List UInt8 → List Read → Option (List Pass) :=
  receiveLoop treatClientPackets

/-- A server goes on until the client closes the connection. -/
def Server.handleClientMessages : List UInt8 → List Read → Option (List Pass) :=
  receiveLoop fun vPackets _ => (vPackets, false)

/-- Exactly the sent packets are dispatched, in order and each once, and the packets that were
found in a read take no more bytes than the read returned. -/
def Framed (sent : List Packet) (outcome : Option (List Pass)) : Prop :=
  ∃ passes, outcome = some passes ∧ passes.flatMap Pass.dispatched = sent ∧
    ∀ pass ∈ passes, (pass.vPackets.map Packet.getMessageLength).sum ≤ pass.valread

/-- Every read returns the bytes of one group of packets. -/
structure Cut (groups : List (List Packet)) (sent : List Packet) (reads : List Read) : Prop where
  packets : groups.flatten = sent
  bytes : reads.map Read.bytes = groups.map fun group => group.flatMap sendMessageTo

/-- A loop that goes on after a read has treated all packets of it. -/
def Orderly (treat : List Packet → Bool → List Packet × Bool) : Prop :=
  ∀ vPackets allDone, (treat vPackets allDone).1 <+: vPackets ∧
    ((treat vPackets allDone).2 = false → (treat vPackets allDone).1 = vPackets)

/-- The loop treats every packet of the groups, and is not left before the last read. -/
def Undisturbed (treat : List Packet → Bool → List Packet × Bool) :
    List (List Packet) → List Read → Prop
  | group :: groups, r :: reads =>
    (treat group r.allDone).1 = group ∧ (reads ≠ [] → (treat group r.allDone).2 = false) ∧
      Undisturbed treat groups reads
  | _, _ => True

/-- A pass that stays within its read has found the packets that the read consists of. -/
theorem pass_iff {data beyond : List UInt8} {ps : List Packet} :
    splitReadDataFromSocket (data ++ beyond) data.length = some ps ∧
        (ps.map Packet.getMessageLength).sum ≤ data.length ↔
      (∀ p ∈ ps, packetCode.valid p) ∧ data = packetCode.encodeAll ps := by
  rw [splitReadDataFromSocket_eq_split, ← length_encodeAll]
  exact packetCode.split_eq_some_iff

section receiveLoop
variable {treat : List Packet → Bool → List Packet × Bool} {rbuff : List UInt8} {r : Read}
  {reads : List Read}

theorem receiveLoop_cons {passes : List Pass} :
    receiveLoop treat rbuff (r :: reads) = some passes ↔ ∃ ps,
      splitReadDataFromSocket (r.bytes ++ rbuff.drop r.bytes.length) r.bytes.length = some ps ∧
      if (treat ps r.allDone).2 then passes = [⟨r.bytes.length, ps, (treat ps r.allDone).1⟩]
      else ∃ passes', receiveLoop treat (.replicate maxBufferSize 0) reads = some passes' ∧
        passes = ⟨r.bytes.length, ps, (treat ps r.allDone).1⟩ :: passes' := by
  rw [receiveLoop, Option.bind_eq_some_iff]
  refine exists_congr fun ps => and_congr_right fun _ => ?_
  simp only
  split_ifs
  · rw [Option.some.injEq, eq_comm]
  · rw [Option.map_eq_some_iff]
    exact exists_congr fun _ => and_congr_right fun _ => eq_comm

/-- A loop that dispatches what was sent has found whole packets in every read. -/
theorem cut_of_framed (ht : Orderly treat) {sent : List Packet}
    (hne : ∀ r ∈ reads, r.bytes ≠ [])
    (hstream : (reads.map Read.bytes).flatten = packetCode.encodeAll sent)
    (h : Framed sent (receiveLoop treat rbuff reads)) :
    ∃ groups : List (List Packet), groups.flatten = sent ∧
      reads.map Read.bytes = groups.map packetCode.encodeAll ∧ Undisturbed treat groups reads := by
  induction reads generalizing rbuff sent with
  | nil =>
    have hsent : sent = [] := packetCode.encodeAll_eq_nil hstream.symm
    exact ⟨[], hsent.symm, rfl, trivial⟩
  | cons r reads ih =>
    obtain ⟨passes, hpasses, rfl, hover⟩ := h
    obtain ⟨ps, hps, h⟩ := receiveLoop_cons.mp hpasses
    obtain ⟨hfront, hall⟩ := ht ps r.allDone
    obtain ⟨-, hne⟩ := List.forall_mem_cons.mp hne
    rw [List.map_cons, List.flatten_cons] at hstream
    split_ifs at h with hleaves
    · -- the loop was left, so this read was the last one
      subst h
      have hbytes := (pass_iff.mp ⟨hps, hover _ List.mem_cons_self⟩).2
      rw [List.flatMap_cons, List.flatMap_nil, List.append_nil] at hstream
      have hlen := congrArg List.length hstream
      rw [List.length_append, hbytes] at hlen
      dsimp only at hlen
      have hgroup := packetCode.eq_of_prefix_of_length_le hfront (by omega)
      rw [hgroup] at hlen
      have hrest : reads = [] := by
        cases reads with
        | nil => rfl
        | cons r' reads =>
          have := List.length_pos_iff.mpr (hne r' List.mem_cons_self)
          simp only [List.map_cons, List.flatten_cons, List.length_append] at hlen
          omega
      subst hrest
      refine ⟨[ps], ?_, ?_, hgroup, by simp, trivial⟩
      · simp [hgroup]
      · simp [hbytes]
    · obtain ⟨passes, hrest, rfl⟩ := h
      obtain ⟨hfirst, hover⟩ := List.forall_mem_cons.mp hover
      have hbytes := (pass_iff.mp ⟨hps, hfirst⟩).2
      have hgroup := hall (Bool.not_eq_true _ ▸ hleaves)
      rw [List.flatMap_cons, hgroup, Code.encodeAll_append, ← hbytes,
        List.append_cancel_left_eq] at hstream
      obtain ⟨groups, hgroups, hmap, hrun⟩ := ih hne hstream ⟨passes, hrest, rfl, hover⟩
      refine ⟨ps :: groups, ?_, ?_, hgroup, fun _ => Bool.not_eq_true _ ▸ hleaves, hrun⟩
      · rw [List.flatten_cons, hgroups, List.flatMap_cons, hgroup]
      · rw [List.map_cons, List.map_cons, hbytes, hmap]

/-- A loop dispatches the packets of reads that consist of whole packets. -/
theorem framed_of_cut {groups : List (List Packet)}
    (hvalid : ∀ p ∈ groups.flatten, packetCode.valid p)
    (hbytes : reads.map Read.bytes = groups.map packetCode.encodeAll)
    (hrun : Undisturbed treat groups reads) :
    Framed groups.flatten (receiveLoop treat rbuff reads) := by
  induction reads generalizing rbuff groups with
  | nil =>
    obtain rfl := List.map_eq_nil_iff.mp hbytes.symm
    exact ⟨[], rfl, rfl, List.forall_mem_nil _⟩
  | cons r reads ih =>
    obtain _ | ⟨group, groups⟩ := groups
    · cases hbytes
    obtain ⟨hgroup, hgoes, hrun⟩ := hrun
    obtain ⟨hr, hbytes⟩ := List.cons.inj hbytes
    obtain ⟨hfirst, hrest⟩ := List.forall_mem_append.mp hvalid
    have hpass : splitReadDataFromSocket (r.bytes ++ rbuff.drop r.bytes.length) r.bytes.length =
        some group ∧ (group.map Packet.getMessageLength).sum ≤ r.bytes.length :=
      pass_iff.mpr ⟨hfirst, hr⟩
    obtain ⟨hsplit, hover⟩ := hpass
    by_cases hleaves : (treat group r.allDone).2 = true
    · obtain rfl : reads = [] := by
        by_contra hreads
        exact Bool.false_ne_true ((hgoes hreads).symm.trans hleaves)
      obtain rfl := List.map_eq_nil_iff.mp hbytes.symm
      refine ⟨[⟨r.bytes.length, group, (treat group r.allDone).1⟩],
        receiveLoop_cons.mpr ⟨group, hsplit, ?_⟩, ?_, List.forall_mem_singleton.mpr hover⟩
      · rw [if_pos hleaves]
      · simp [hgroup]
    · obtain ⟨passes, hpasses, hsent, hovers⟩ := @ih (.replicate maxBufferSize 0) _
        hrest hbytes hrun
      refine ⟨⟨r.bytes.length, group, (treat group r.allDone).1⟩ :: passes,
        receiveLoop_cons.mpr ⟨group, hsplit, ?_⟩, ?_, List.forall_mem_cons.mpr ⟨hover, hovers⟩⟩
      · rw [if_neg hleaves]
        exact ⟨passes, hpasses, rfl⟩
      · rw [List.flatMap_cons, hsent, hgroup, List.flatten_cons]

end receiveLoop

theorem treatClientPackets_fst (ps : List Packet) (allDone : Bool) :
    (treatClientPackets ps allDone).1 = ps := by
  induction ps generalizing allDone with
  | nil => rfl
  | cons p ps ih => exact congrArg (p :: ·) (ih _)

theorem treatClientPackets_snd (ps : List Packet) (allDone : Bool) :
    (treatClientPackets ps allDone).2 = false ↔
      allDone = false ∧ ∀ p ∈ ps, p.messageType ≠ .clientDoneAllRequest := by
  induction ps generalizing allDone with
  | nil => simp [treatClientPackets]
  | cons p ps ih =>
    refine (ih _).trans ?_
    rw [Bool.or_eq_false_iff, decide_eq_false_iff_not, List.forall_mem_cons, and_assoc]

theorem treatServerPackets_fst (ps : List Packet) (allDone : Bool) :
    (treatServerPackets ps allDone).1 = ps ↔
      ∀ p ∈ ps.dropLast, p.messageType ≠ .serverReceivedAllDoneRequests := by
  induction ps with
  | nil => simp [treatServerPackets]
  | cons p ps ih =>
    rw [treatServerPackets]
    split_ifs with hp
    · cases ps with
      | nil => simp
      | cons q ps => simp [hp]
    · rw [List.cons.injEq, eq_self, true_and, ih]
      cases ps with
      | nil => simp
      | cons q ps => simp [hp]

theorem treatServerPackets_snd (ps : List Packet) (allDone : Bool) :
    (treatServerPackets ps allDone).2 = false ↔
      allDone = false ∧ ∀ p ∈ ps, p.messageType ≠ .serverReceivedAllDoneRequests := by
  induction ps with
  | nil => simp [treatServerPackets]
  | cons p ps ih =>
    rw [treatServerPackets]
    split_ifs with hp
    · simp [hp]
    · simpa [hp] using ih

theorem orderly_client : Orderly treatClientPackets := by
  intro ps allDone
  rw [treatClientPackets_fst]
  exact ⟨List.prefix_rfl, fun _ => rfl⟩

theorem orderly_server : Orderly treatServerPackets := by
  intro ps allDone
  induction ps with
  | nil => exact ⟨List.prefix_rfl, fun _ => rfl⟩
  | cons p ps ih =>
    rw [treatServerPackets]
    split_ifs
    · exact ⟨List.cons_prefix_cons.mpr ⟨rfl, List.nil_prefix⟩, fun h => nomatch h⟩
    · exact ⟨List.cons_prefix_cons.mpr ⟨rfl, ih.1⟩, fun h => congrArg (p :: ·) (ih.2 h)⟩

theorem undisturbed_always (groups : List (List Packet)) (reads : List Read) :
    Undisturbed (fun vPackets _ => (vPackets, false)) groups reads := by
  induction reads generalizing groups with
  | nil => cases groups <;> trivial
  | cons r reads ih =>
    cases groups with
    | nil => trivial
    | cons group groups => exact ⟨rfl, fun _ => rfl, ih groups⟩

theorem undisturbed_client {groups : List (List Packet)} {reads : List Read}
    (hl : groups.length = reads.length) : Undisturbed treatClientPackets groups reads ↔
      (∀ r ∈ reads.dropLast, r.allDone = false) ∧
      ∀ group ∈ groups.dropLast, ∀ p ∈ group, p.messageType ≠ .clientDoneAllRequest := by
  induction reads generalizing groups with
  | nil =>
    obtain rfl := List.eq_nil_of_length_eq_zero hl
    simp [Undisturbed]
  | cons r reads ih =>
    obtain _ | ⟨group, groups⟩ := groups
    · cases hl
    have hl := Nat.succ.inj hl
    have hempty : reads = [] ↔ groups = [] := by
      rw [← List.length_eq_zero_iff, ← hl, List.length_eq_zero_iff]
    rw [Undisturbed, treatClientPackets_fst, treatClientPackets_snd, ih hl]
    by_cases hreads : reads = []
    · simp [hreads, hempty.mp hreads]
    · rw [List.dropLast_cons_of_ne_nil hreads, List.dropLast_cons_of_ne_nil (mt hempty.mpr hreads),
        List.forall_mem_cons, List.forall_mem_cons]
      tauto

theorem undisturbed_server {groups : List (List Packet)} {reads : List Read}
    (hl : groups.length = reads.length) (hne : ∀ group ∈ groups, group ≠ []) :
    Undisturbed treatServerPackets groups reads ↔ (∀ r ∈ reads.dropLast, r.allDone = false) ∧
      ∀ p ∈ groups.flatten.dropLast, p.messageType ≠ .serverReceivedAllDoneRequests := by
  induction reads generalizing groups with
  | nil =>
    obtain rfl := List.eq_nil_of_length_eq_zero hl
    simp [Undisturbed]
  | cons r reads ih =>
    obtain _ | ⟨group, groups⟩ := groups
    · cases hl
    have hl := Nat.succ.inj hl
    have hempty : reads = [] ↔ groups = [] := by
      rw [← List.length_eq_zero_iff, ← hl, List.length_eq_zero_iff]
    obtain ⟨-, hne⟩ := List.forall_mem_cons.mp hne
    rw [Undisturbed, treatServerPackets_fst, treatServerPackets_snd, ih hl hne]
    by_cases hreads : reads = []
    · simp [hreads, hempty.mp hreads]
    · -- packets of a later group follow, so that all packets of this one count
      have hrest : groups.flatten ≠ [] := by
        obtain ⟨g, gs, rfl⟩ := List.exists_cons_of_ne_nil (mt hempty.mpr hreads)
        rw [List.flatten_cons]
        exact List.append_ne_nil_of_left_ne_nil (hne g List.mem_cons_self) _
      rw [List.dropLast_cons_of_ne_nil hreads, List.flatten_cons,
        List.dropLast_append_of_ne_nil hrest, List.forall_mem_append, List.forall_mem_cons]
      have hpart (h : ∀ p ∈ group, p.messageType ≠ .serverReceivedAllDoneRequests) :
          ∀ p ∈ group.dropLast, p.messageType ≠ .serverReceivedAllDoneRequests :=
        fun p hp => h p (List.mem_of_mem_dropLast hp)
      tauto

theorem sendMessageTo_eq {p : Packet} (h : p.getMessageLength ≤ maxBufferSize) :
    sendMessageTo p = packetCode.encode p := by
  rw [sendMessageTo, Packet.toMessage_of_le h, ← p.length_header_append, List.take_length]
  rfl

theorem flatMap_sendMessageTo {ps : List Packet}
    (h : ∀ p ∈ ps, p.getMessageLength ≤ maxBufferSize) :
    ps.flatMap sendMessageTo = packetCode.encodeAll ps :=
  List.flatMap_congr fun p hp => sendMessageTo_eq (h p hp)

/-- What one loop makes of a connection. -/
theorem framed_iff_cut {treat : List Packet → Bool → List Packet × Bool} (ht : Orderly treat)
    {rbuff : List UInt8} {sent : List Packet} {reads : List Read}
    (hsize : ∀ p ∈ sent, p.getMessageLength ≤ maxBufferSize)
    (hread : ∀ r ∈ reads, 1 ≤ r.bytes.length)
    (hstream : (reads.map Read.bytes).flatten = sent.flatMap sendMessageTo) :
    Framed sent (receiveLoop treat rbuff reads) ↔
      ∃ groups, Cut groups sent reads ∧ Undisturbed treat groups reads := by
  have hcode {groups : List (List Packet)} (hg : groups.flatten = sent) :
      (groups.map fun group => group.flatMap sendMessageTo) = groups.map packetCode.encodeAll := by
    refine List.map_congr_left fun group hmem => flatMap_sendMessageTo fun p hp => hsize p ?_
    exact hg ▸ List.mem_flatten_of_mem hmem hp
  constructor
  · intro h
    obtain ⟨groups, hg, hbytes, hrun⟩ := cut_of_framed ht
      (fun r hr => List.length_pos_iff.mp (hread r hr))
      (hstream.trans (flatMap_sendMessageTo hsize)) h
    exact ⟨groups, ⟨hg, hbytes.trans (hcode hg).symm⟩, hrun⟩
  · rintro ⟨groups, ⟨rfl, hbytes⟩, hrun⟩
    refine framed_of_cut (fun p hp => ?_) (hbytes.trans (hcode rfl)) hrun
    exact (hsize p hp).trans_lt (by decide)

/-- Every loop dispatches what was sent just when each read returns whole packets and the loop
is not left before the last packet. -/
theorem framing_iff_whole_packets (rbuff : List UInt8) (sent : List Packet) (reads : List Read)
    (hsize : ∀ p ∈ sent, p.getMessageLength ≤ maxBufferSize)
    (hread : ∀ r ∈ reads, 1 ≤ r.bytes.length ∧ r.bytes.length ≤ maxBufferSize)
    (hstream : (reads.map Read.bytes).flatten = sent.flatMap sendMessageTo) :
    (Framed sent (Server.handleClientMessages rbuff reads) ↔
      ∃ groups, Cut groups sent reads) ∧
    (Framed sent (Client.handleClientMessages rbuff reads) ↔
      ∃ groups, Cut groups sent reads ∧ (∀ r ∈ reads.dropLast, r.allDone = false) ∧
        ∀ group ∈ groups.dropLast, ∀ p ∈ group, p.messageType ≠ .clientDoneAllRequest) ∧
    (Framed sent (Client.handleServerMessages rbuff reads) ↔
      ∃ groups, Cut groups sent reads ∧ (∀ r ∈ reads.dropLast, r.allDone = false) ∧
        ∀ p ∈ sent.dropLast, p.messageType ≠ .serverReceivedAllDoneRequests) := by
  have hread r hr := (hread r hr).1
  have hlength {groups : List (List Packet)} (hc : Cut groups sent reads) :
      groups.length = reads.length := by
    simpa using (congrArg List.length hc.bytes).symm
  have hne {groups : List (List Packet)} (hc : Cut groups sent reads) :
      ∀ group ∈ groups, group ≠ [] := by
    rintro group hmem rfl
    have hnil : [] ∈ reads.map Read.bytes := by
      rw [hc.bytes]
      exact List.mem_map.mpr ⟨[], hmem, rfl⟩
    obtain ⟨r, hr, hbytes⟩ := List.mem_map.mp hnil
    have := hread r hr
    simp [hbytes] at this
  refine ⟨?_, ?_, ?_⟩
  · refine (framed_iff_cut (fun ps _ => ⟨List.prefix_rfl, fun _ => rfl⟩) hsize hread hstream).trans
      (exists_congr fun groups => and_iff_left (undisturbed_always groups reads))
  · refine (framed_iff_cut orderly_client hsize hread hstream).trans
      (exists_congr fun groups => and_congr_right fun hc => ?_)
    exact undisturbed_client (hlength hc)
  · refine (framed_iff_cut orderly_server hsize hread hstream).trans
      (exists_congr fun groups => and_congr_right fun hc => ?_)
    rw [undisturbed_server (hlength hc) (hne hc), hc.packets]

theorem framing_of_shared_read : Framed [lamductan, utdallas]
    (Client.handleServerMessages (.replicate maxBufferSize 0)
      [⟨sendMessageTo lamductan ++ sendMessageTo utdallas, true⟩]) := by
  exact (framing_iff_whole_packets _ _ _ (by decide) (by decide) (by decide)).2.2.mpr
    ⟨[[lamductan, utdallas]], ⟨rfl, by decide⟩, by decide, by decide⟩

/-- A first read of ten bytes holds no whole packet, and is taken for one. -/
theorem framing_of_cut_packet_fails : ¬ ∀ (rbuff : List UInt8) (sent : List Packet)
    (reads : List Read), (∀ p ∈ sent, p.getMessageLength ≤ maxBufferSize) →
    (∀ r ∈ reads, 1 ≤ r.bytes.length ∧ r.bytes.length ≤ maxBufferSize) →
    (reads.map Read.bytes).flatten = sent.flatMap sendMessageTo →
    Framed sent (Server.handleClientMessages rbuff reads) ∧
      Framed sent (Client.handleClientMessages rbuff reads) ∧
      Framed sent (Client.handleServerMessages rbuff reads) := by
  intro h
  have hframed := (h (.replicate maxBufferSize 0) [lamductan]
    [⟨(sendMessageTo lamductan).take 10, false⟩, ⟨(sendMessageTo lamductan).drop 10, false⟩]
    (by decide) (by decide) (by decide)).1
  obtain ⟨groups, hc, -⟩ := (framed_iff_cut (fun ps _ => ⟨List.prefix_rfl, fun _ => rfl⟩)
    (by decide) (by decide) (by decide)).mp hframed
  obtain ⟨hpackets, hbytes⟩ := hc
  obtain _ | ⟨group, groups⟩ := groups
  · cases hpackets
  have hlen : ((sendMessageTo lamductan).take 10).length = (group.flatMap sendMessageTo).length :=
    congrArg List.length (List.cons.inj hbytes).1
  -- the first group is empty or the whole packet
  obtain ⟨rfl, -⟩ | ⟨rest, rfl, -⟩ := List.append_eq_cons_iff.mp hpackets
  · exact absurd hlen (by decide)
  · have hwhole : (sendMessageTo lamductan).length = 29 := by decide
    rw [List.flatMap_cons, List.length_append, List.length_take, hwhole] at hlen
    omega

end DistributedME.Node
