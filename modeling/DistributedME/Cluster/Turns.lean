import DistributedME.Cluster.Shutdown

/-! What a step does to the threads that handle packets, and to the packets that they treat. -/
namespace DistributedME.Cluster
open Library
variable {n m : ℕ}

/-- The same threads and the same flag. -/
structure Client.SameThreads (c c' : Client n m) : Prop where
  server : c'.serverThread = c.serverThread
  client : c'.clientThread = c.clientThread
  flag : c'.allClientsDoneAllRequest = c.allClientsDoneAllRequest

theorem Client.SameThreads.refl (c : Client n m) : c.SameThreads c := ⟨rfl, rfl, rfl⟩

theorem Client.SameThreads.of_eq {c c' : Client n m} (h : c' = c) : c.SameThreads c' := by
  rw [h]
  exact .refl c

/-- Where a thread of a client goes after a read. -/
def Client.afterRead (c : Client n m) : Thread :=
  if c.allClientsDoneAllRequest then .left else .reading

/-- What a step makes of the threads of client j. -/
inductive Turn (s : State n m) (a : Action n m) (t : State n m) (j : Fin n) : Prop
  | same : (s.client j).SameThreads (t.client j) → Turn s a t j
  | treat {k : Fin m} {packet : Message} {rest : List Message} :
      s.inFlight (.server k) (.client j) = packet :: rest →
      ((s.client j).serverThread k).busy = true →
      t.client j = (s.client j).treatServerPacket k packet → Turn s a t j
  | closed {k : Fin m} : (s.client j).serverThread k = .reading → (s.server k).thread j = .left →
      t.client j = (s.client j).setServerThread k .left → Turn s a t j
  | read {k : Fin m} : a = .passServer j k → (s.client j).serverThread k = .treating →
      t.client j = (s.client j).setServerThread k (s.client j).afterRead → Turn s a t j
  | tell {k : Fin m} {next : ℕ} (h : next < n) : (s.client j).serverThread k = .sending next →
      ((s.client j).setServerThread k (.sending (next + 1))).SameThreads (t.client j) →
      (∃ packet ∈ t.inFlight (.client j) (.client ⟨next, h⟩),
        packet.messageType = .clientDoneAllRequest) → Turn s a t j
  | told {k : Fin m} {next : ℕ} : n ≤ next → (s.client j).serverThread k = .sending next →
      t.client j = (s.client j).setServerThread k (s.client j).afterRead → Turn s a t j
  | handle {l : Fin n} {place : ℕ} {packet : Message} :
      (s.inFlight (.client l) (.client j))[place]? = some packet →
      ((s.client j).clientThread l).busy = true →
      t.client j = (s.client j).handleClientPacket l packet → Turn s a t j
  | closedClient {l : Fin n} : (s.client j).clientThread l = .reading →
      (s.client l).clientThread j = .left →
      t.client j = (s.client j).setClientThread l .left → Turn s a t j
  | readClient {l : Fin n} : (s.client j).clientThread l = .treating ∨
        (s.client j).clientThread l = .reading ∧ j = l →
      t.client j = (s.client j).setClientThread l (s.client j).afterRead → Turn s a t j

/-- What a step makes of the threads of server k. -/
inductive ServerTurn (s t : State n m) (k : Fin m) : Prop
  | same : (t.server k).thread = (s.server k).thread →
      (t.server k).clientDoneAllRequest = (s.server k).clientDoneAllRequest → ServerTurn s t k
  | treat {i : Fin n} {packet : Message} {rest answers : List Message} {v : Server n} :
      s.inFlight (.client i) (.server k) = packet :: rest →
      ((s.server k).thread i).busy = true →
      (s.server k).treatPacket i packet = some (v, answers) →
      t.server k = v.setThread i .treating → ServerTurn s t k
  | closed {i : Fin n} : (s.server k).thread i = .reading → (s.client i).serverThread k = .left →
      t.server k = (s.server k).setThread i .left → ServerTurn s t k
  | read {i : Fin n} : (s.server k).thread i = .treating →
      t.server k = (s.server k).setThread i
        (if (s.server k).checkAllClientsDoneAllRequest then .sending 0 else .reading) →
      ServerTurn s t k
  | tell {i : Fin n} {next : ℕ} (h : next < n) : (s.server k).thread i = .sending next →
      t.server k = (s.server k).setThread i (.sending (next + 1)) →
      (∃ packet ∈ t.inFlight (.server k) (.client ⟨next, h⟩),
        packet.messageType = .serverReceivedAllDoneRequests) → ServerTurn s t k
  | told {i : Fin n} {next : ℕ} : n ≤ next → (s.server k).thread i = .sending next →
      t.server k = (s.server k).setThread i .reading → ServerTurn s t k

section turns
variable {config : Config n m} {s t : State n m} {a : Action n m}

theorem sameThreads_main {i : Fin n} {c c' : Client n m} {out : Fin m → List Message}
    {events : List (Event n m)} (h : c.MainMove config i c' out events) : c.SameThreads c' := by
  cases h <;> exact ⟨rfl, rfl, rfl⟩

/-- Client i is the only one that does something. -/
theorem turn_of_update {i j : Fin n} {c : Client n m}
    (h : t.client = Function.update s.client i c) (hi : t.client i = c → Turn s a t i) :
    Turn s a t j := by
  rcases update_cases h j with ⟨rfl, hj⟩ | hj
  · exact hi hj
  · exact .same (.of_eq hj)

theorem turn_of_passServer {i j : Fin n} {k : Fin m} (ha : a = .passServer i k)
    (h : passServer s i k = some t) : Turn s a t j := by
  cases hthread : (s.client i).serverThread k with
  | reading =>
    simp only [passServer, hthread] at h
    split_ifs at h with hclosed
    cases h
    exact turn_of_update rfl fun hi => .closed hthread hclosed.2 hi
  | treating =>
    simp only [passServer, hthread, Option.some.injEq] at h
    subst h
    exact turn_of_update rfl fun hi => .read ha hthread hi
  | sending next =>
    simp only [passServer, hthread] at h
    by_cases hnext : next < n
    · rw [dif_pos hnext] at h
      obtain ⟨c, hc, rfl⟩ := Option.map_eq_some_iff.mp h
      obtain ⟨-, rfl⟩ := Client.increaseTimestamp_eq_some hc
      refine turn_of_update rfl fun hi => .tell hnext hthread ?_ ?_
      · rw [hi]
        exact ⟨rfl, rfl, rfl⟩
      · refine ⟨⟨.clientDoneAllRequest, []⟩, Network.mem_post.mpr (.inr ⟨rfl, ?_⟩), rfl⟩
        rw [Network.only_self]
        exact List.mem_singleton_self _
    · rw [dif_neg hnext, Option.some.injEq] at h
      subst h
      exact turn_of_update rfl fun hi => .told (Nat.le_of_not_lt hnext) hthread hi
  | left =>
    simp only [passServer, hthread] at h
    cases h

theorem turn_of_passClient {i j l : Fin n} (h : passClient s i l = some t) : Turn s a t j := by
  cases hthread : (s.client i).clientThread l with
  | reading =>
    simp only [passClient, hthread] at h
    by_cases hself : i = l
    · rw [if_pos hself, Option.some.injEq] at h
      subst h
      exact turn_of_update rfl fun hi => .readClient (.inr ⟨hthread, hself⟩) hi
    · rw [if_neg hself] at h
      split_ifs at h with hclosed
      cases h
      exact turn_of_update rfl fun hi => .closedClient hthread hclosed.2 hi
  | treating =>
    simp only [passClient, hthread, Option.some.injEq] at h
    subst h
    exact turn_of_update rfl fun hi => .readClient (.inl hthread) hi
  | sending | left =>
    simp only [passClient, hthread] at h
    cases h

theorem client_passRequests {k : Fin m} {i : Fin n} (h : passRequests s k i = some t) :
    t.client = s.client := by
  unfold passRequests at h
  dsimp only at h
  split at h
  · split_ifs at h
    cases h
    rfl
  · cases h
    rfl
  · split_ifs at h <;> (cases h; rfl)
  · cases h

theorem turn_of_step (h : step config s a = some t) (j : Fin n) : Turn s a t j := by
  cases a with
  | mainStep i =>
    obtain ⟨⟨c, out, events⟩, hc, rfl⟩ := Option.map_eq_some_iff.mp h
    refine turn_of_update rfl fun hi => .same ?_
    rw [hi]
    exact sameThreads_main (Client.mainMove_of_mainStep hc)
  | sendCriticalSectionMessage i l message =>
    simp only [step] at h
    split_ifs at h
    obtain ⟨c, hc, rfl⟩ := Option.map_eq_some_iff.mp h
    obtain ⟨-, rfl⟩ := Client.increaseTimestamp_eq_some hc
    refine turn_of_update rfl fun hi => .same ?_
    rw [hi]
    exact ⟨rfl, rfl, rfl⟩
  | treatServerPacket i k =>
    simp only [step] at h
    split at h
    · cases h
    · next packet rest hmail =>
      split_ifs at h with hbusy
      cases h
      exact turn_of_update rfl fun hi => .treat hmail hbusy hi
  | passServer i k => exact turn_of_passServer rfl h
  | handleClientPacket i l place =>
    simp only [step] at h
    split at h
    · cases h
    · next packet hplace =>
      split_ifs at h with hbusy
      cases h
      exact turn_of_update rfl fun hi => .handle hplace hbusy.1 hi
  | passClient i l => exact turn_of_passClient h
  | treatRequest k i =>
    simp only [step] at h
    split at h
    · cases h
    · split_ifs at h
      obtain ⟨v, -, rfl⟩ := Option.map_eq_some_iff.mp h
      exact .same (.refl _)
  | passRequests k i =>
    apply Turn.same
    rw [client_passRequests h]
    exact .refl _

/-- Server k is the only one that does something. -/
theorem serverTurn_of_update {k l : Fin m} {v : Server n}
    (h : t.server = Function.update s.server k v) (hk : t.server k = v → ServerTurn s t k) :
    ServerTurn s t l := by
  rcases update_cases h l with ⟨rfl, hl⟩ | hl
  · exact hk hl
  · apply ServerTurn.same <;> rw [hl]

theorem serverTurn_of_passRequests {k l : Fin m} {i : Fin n} (h : passRequests s k i = some t) :
    ServerTurn s t l := by
  cases hthread : (s.server k).thread i with
  | reading =>
    simp only [passRequests, hthread] at h
    split_ifs at h with hclosed
    cases h
    exact serverTurn_of_update rfl fun hk => .closed hthread hclosed.2 hk
  | treating =>
    simp only [passRequests, hthread, Option.some.injEq] at h
    subst h
    exact serverTurn_of_update rfl fun hk => .read hthread hk
  | sending next =>
    simp only [passRequests, hthread] at h
    by_cases hnext : next < n
    · rw [dif_pos hnext, Option.some.injEq] at h
      subst h
      refine serverTurn_of_update rfl fun hk => .tell hnext hthread hk ?_
      refine ⟨⟨.serverReceivedAllDoneRequests, []⟩, Network.mem_post.mpr (.inr ⟨rfl, ?_⟩), rfl⟩
      rw [Network.only_self]
      exact List.mem_singleton_self _
    · rw [dif_neg hnext, Option.some.injEq] at h
      subst h
      exact serverTurn_of_update rfl fun hk => .told (Nat.le_of_not_lt hnext) hthread hk
  | left =>
    simp only [passRequests, hthread] at h
    cases h

theorem server_passServer {i : Fin n} {k : Fin m} (h : passServer s i k = some t) :
    t.server = s.server := by
  unfold passServer at h
  dsimp only at h
  split at h
  · split_ifs at h
    cases h
    rfl
  · cases h
    rfl
  · split at h
    · obtain ⟨c, -, rfl⟩ := Option.map_eq_some_iff.mp h
      rfl
    · cases h
      rfl
  · cases h

theorem server_passClient {i j : Fin n} (h : passClient s i j = some t) :
    t.server = s.server := by
  unfold passClient at h
  dsimp only at h
  split at h
  · split_ifs at h <;> (cases h; rfl)
  · cases h
    rfl
  · cases h
  · cases h

theorem serverTurn_of_step (h : step config s a = some t) (k : Fin m) : ServerTurn s t k := by
  have hsame (hserver : t.server = s.server) : ServerTurn s t k := by
    apply ServerTurn.same <;> rw [hserver]
  cases a with
  | mainStep i =>
    obtain ⟨⟨c, out, events⟩, -, rfl⟩ := Option.map_eq_some_iff.mp h
    exact hsame rfl
  | sendCriticalSectionMessage i l message =>
    simp only [step] at h
    split_ifs at h
    obtain ⟨c, -, rfl⟩ := Option.map_eq_some_iff.mp h
    exact hsame rfl
  | treatServerPacket i l =>
    simp only [step] at h
    split at h
    · cases h
    · split_ifs at h
      cases h
      exact hsame rfl
  | passServer i l => exact hsame (server_passServer h)
  | handleClientPacket i l place =>
    simp only [step] at h
    split at h
    · cases h
    · split_ifs at h
      cases h
      exact hsame rfl
  | passClient i l => exact hsame (server_passClient h)
  | treatRequest l i =>
    simp only [step] at h
    split at h
    · cases h
    · next packet rest hmail =>
      split_ifs at h with hbusy
      obtain ⟨⟨v, answers⟩, hv, rfl⟩ := Option.map_eq_some_iff.mp h
      exact serverTurn_of_update rfl fun hl => .treat hmail hbusy hv hl
  | passRequests l i => exact serverTurn_of_passRequests h

end turns

/-! What becomes of the packets. -/

/-- The packet from x to y is treated by the thread of y for x. -/
inductive Received (s t : State n m) : Party n m → Party n m → Message → Prop
  | server {i : Fin n} {k : Fin m} {packet : Message} :
      t.client i = (s.client i).treatServerPacket k packet →
      Received s t (.server k) (.client i) packet
  | client {i j : Fin n} {packet : Message} :
      t.client i = (s.client i).handleClientPacket j packet →
      Received s t (.client j) (.client i) packet
  | request {i : Fin n} {k : Fin m} {packet : Message} {v : Server n} {answers : List Message} :
      (s.server k).treatPacket i packet = some (v, answers) →
      t.server k = v.setThread i .treating → Received s t (.client i) (.server k) packet

section packets
variable {config : Config n m} {s t : State n m} {a : Action n m} {x y : Party n m}
  {packet : Message}

theorem mem_receive {b c : Party n m} {before behind : List Message} {taken : Message}
    (h : s.inFlight c b = before ++ taken :: behind) (hp : packet ∈ s.inFlight x y) :
    packet ∈ (s.inFlight.put c b (before ++ behind)) x y ∨ x = c ∧ y = b ∧ packet = taken := by
  by_cases hxy : x = c ∧ y = b
  · obtain ⟨rfl, rfl⟩ := hxy
    rw [Network.put_self]
    rw [h] at hp
    simp only [List.mem_append, List.mem_cons] at hp ⊢
    grind
  · rw [Network.put_of_ne _ _ hxy]
    exact .inl hp

theorem mem_passServer {i : Fin n} {k : Fin m} (h : passServer s i k = some t)
    (hp : packet ∈ s.inFlight x y) : packet ∈ t.inFlight x y := by
  unfold passServer at h
  dsimp only at h
  split at h
  · split_ifs at h
    cases h
    exact hp
  · cases h
    exact hp
  · split at h
    · obtain ⟨c, -, rfl⟩ := Option.map_eq_some_iff.mp h
      exact Network.mem_post.mpr (.inl hp)
    · cases h
      exact hp
  · cases h

theorem inFlight_passClient {i j : Fin n} (h : passClient s i j = some t) :
    t.inFlight = s.inFlight := by
  unfold passClient at h
  dsimp only at h
  split at h
  · split_ifs at h <;> (cases h; rfl)
  · cases h
    rfl
  · cases h
  · cases h

theorem mem_passRequests {k : Fin m} {i : Fin n} (h : passRequests s k i = some t)
    (hp : packet ∈ s.inFlight x y) : packet ∈ t.inFlight x y := by
  unfold passRequests at h
  dsimp only at h
  split at h
  · split_ifs at h
    cases h
    exact hp
  · cases h
    exact hp
  · split_ifs at h
    · cases h
      exact Network.mem_post.mpr (.inl hp)
    · cases h
      exact hp
  · cases h

/-- A packet stays in flight until it is treated. -/
theorem stays_or_received (h : step config s a = some t) (hp : packet ∈ s.inFlight x y) :
    packet ∈ t.inFlight x y ∨ Received s t x y packet := by
  cases a with
  | mainStep i =>
    obtain ⟨⟨c, out, events⟩, -, rfl⟩ := Option.map_eq_some_iff.mp h
    exact .inl (Network.mem_post.mpr (.inl hp))
  | sendCriticalSectionMessage i j message =>
    simp only [step] at h
    split_ifs at h
    obtain ⟨c, -, rfl⟩ := Option.map_eq_some_iff.mp h
    exact .inl (Network.mem_post.mpr (.inl hp))
  | treatServerPacket i k =>
    simp only [step] at h
    split at h
    · cases h
    · next first rest hmail =>
      split_ifs at h
      cases h
      have hmail' : s.inFlight (.server k) (.client i) = [] ++ first :: rest := hmail
      rcases mem_receive hmail' hp with hstays | ⟨rfl, rfl, rfl⟩
      · exact .inl hstays
      · exact .inr (.server (Function.update_self ..))
  | passServer i k => exact .inl (mem_passServer h hp)
  | handleClientPacket i j place =>
    simp only [step] at h
    split at h
    · cases h
    · next first hplace =>
      split_ifs at h
      cases h
      obtain ⟨before, behind, hmail, herase, -⟩ := Network.split_at hplace
      rcases mem_receive hmail hp with hstays | ⟨rfl, rfl, rfl⟩
      · left
        rw [herase]
        exact hstays
      · exact .inr (.client (Function.update_self ..))
  | passClient i j =>
    left
    rw [inFlight_passClient h]
    exact hp
  | treatRequest k i =>
    simp only [step] at h
    split at h
    · cases h
    · next first rest hmail =>
      split_ifs at h
      obtain ⟨⟨v, answers⟩, hv, rfl⟩ := Option.map_eq_some_iff.mp h
      have hmail' : s.inFlight (.client i) (.server k) = [] ++ first :: rest := hmail
      rcases mem_receive hmail' hp with hstays | ⟨rfl, rfl, rfl⟩
      · exact .inl (Network.mem_post.mpr (.inl hstays))
      · exact .inr (.request hv (Function.update_self ..))
  | passRequests k i => exact .inl (mem_passRequests h hp)

/-- Only a thread in its loop over the clients sends this packet. -/
theorem mem_or_sending {k : Fin m} {j : Fin n} (h : step config s a = some t)
    (hp : packet ∈ t.inFlight (.server k) (.client j))
    (htype : packet.messageType = .serverReceivedAllDoneRequests) :
    packet ∈ s.inFlight (.server k) (.client j) ∨
      ∃ i next, (s.server k).thread i = .sending next := by
  have hclient (i : Fin n) (out : Party n m → List Message)
      (hmem : packet ∈ s.inFlight.post (.client i) out (.server k) (.client j)) :
      packet ∈ s.inFlight (.server k) (.client j) := by
    rcases Network.mem_post.mp hmem with hold | ⟨hsender, -⟩
    · exact hold
    · cases hsender
  cases a with
  | mainStep i =>
    obtain ⟨⟨c, out, events⟩, -, rfl⟩ := Option.map_eq_some_iff.mp h
    exact .inl (hclient i (toServers out) hp)
  | sendCriticalSectionMessage i l message =>
    simp only [step] at h
    split_ifs at h
    obtain ⟨c, -, rfl⟩ := Option.map_eq_some_iff.mp h
    exact .inl (hclient i (Network.only (.client l) [message]) hp)
  | treatServerPacket i l =>
    simp only [step] at h
    split at h
    · cases h
    · next first rest hmail =>
      split_ifs at h
      cases h
      exact .inl (Network.mem_of_mem_put (hmail ▸ List.subset_cons_self _ _) hp)
  | passServer i l =>
    left
    simp only [step, passServer] at h
    split at h
    · split_ifs at h
      cases h
      exact hp
    · cases h
      exact hp
    · split at h
      · obtain ⟨c, -, rfl⟩ := Option.map_eq_some_iff.mp h
        rw [inFlight_post, inFlight_setClient] at hp
        exact hclient i _ hp
      · cases h
        exact hp
    · cases h
  | handleClientPacket i l place =>
    simp only [step] at h
    split at h
    · cases h
    · split_ifs at h
      cases h
      rw [inFlight_setClient, inFlight_receive] at hp
      exact .inl (Network.mem_of_mem_put List.eraseIdx_subset hp)
  | passClient i l =>
    left
    rw [← inFlight_passClient h]
    exact hp
  | treatRequest l i =>
    simp only [step] at h
    split at h
    · cases h
    · next first rest hmail =>
      split_ifs at h
      obtain ⟨⟨v, answers⟩, hv, rfl⟩ := Option.map_eq_some_iff.mp h
      left
      rcases Network.mem_post.mp hp with hold | ⟨-, hanswer⟩
      · rw [inFlight_setServer, inFlight_receive] at hold
        exact Network.mem_of_mem_put (hmail ▸ List.subset_cons_self _ _) hold
      · obtain ⟨-, -, hanswers⟩ := treatPacket_eq_some hv
        exact absurd htype (hanswers packet (Network.mem_only.mp hanswer).2)
  | passRequests l i =>
    simp only [step, passRequests] at h
    split at h
    · split_ifs at h
      cases h
      exact .inl hp
    · cases h
      exact .inl hp
    · next next hthread =>
      split_ifs at h
      · cases h
        rcases Network.mem_post.mp hp with hold | ⟨hsender, -⟩
        · exact .inl hold
        · cases hsender
          exact .inr ⟨i, next, hthread⟩
      · cases h
        exact .inl hp
    · cases h

end packets

end DistributedME.Cluster
