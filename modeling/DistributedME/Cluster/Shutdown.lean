import DistributedME.Cluster.System

/-! The end of all clients is known nowhere before all clients are at their end. -/
namespace DistributedME.Cluster
open Library
variable {n m : ℕ}

/-- The bodies that client i has finished. -/
def State.bodies (s : State n m) (i : Fin n) : ℕ := s.history.countP fun e => e.client = i

/-- A request has begun and its body is not finished. -/
def Client.pending (c : Client n m) : Bool :=
  match c.main with
  | .requesting _ | .requestRead _ _ | .reading _ _ | .requestWrite _ _ _ => true
  | .start | .enquiring | .ready | .finished _ _ => false

/-- How far a client is, as it counts it itself. -/
structure Counted (config : Config n m) (c : Client n m) (done : ℕ) : Prop where
  lines : c.nRequestedRequests + c.input.length = config.nRequests
  bodies : done + c.pending.toNat = c.nRequestedRequests
  early : c.main = .start ∨ c.main = .enquiring → done = 0
  last : ∀ filename next, c.main = .finished filename next → next < m → done = config.nRequests

/-- The server knows that all clients have done all requests. -/
def Server.knows (v : Server n) : Prop := ∃ i, (v.thread i).busy = false

def Client.knows (c : Client n m) : Prop :=
  c.allClientsDoneAllRequest = true ∨ (∃ k, (c.serverThread k).busy = false) ∨
    ∃ j, (c.clientThread j).busy = false

/-- A packet from a to b that says that all clients have done all requests. -/
def Tells (a b : Party n m) (packet : Message) : Prop :=
  packet.messageType = .serverReceivedAllDoneRequests ∨
    packet.messageType = .clientDoneAllRequest ∧ ∃ i j, a = .client i ∧ b = .client j

/-- Somebody knows that all clients have done all requests, or will when it treats its mail. -/
def State.AllKnown (s : State n m) : Prop :=
  (∃ i, (s.client i).knows) ∨ (∃ k, (s.server k).knows) ∨
    ∃ a b packet, packet ∈ s.inFlight a b ∧ Tells a b packet

/-- Some server knows that client i has done all requests, or will. -/
def State.Known (s : State n m) (i : Fin n) : Prop :=
  (∃ k, (s.server k).clientDoneAllRequest i = true) ∨
    ∃ k packet, packet ∈ s.inFlight (.client i) (.server k) ∧
      packet.messageType = .clientDoneAllRequest

/-- What the main thread of client i keeps. -/
theorem counted_main {config : Config n m} {i : Fin n} {c c' : Client n m} {done : ℕ}
    {out : Fin m → List Message} {events : List (Event n m)} (h : Counted config c done)
    (hm : c.MainMove config i c' out events) :
    Counted config c' (done + events.countP fun e => e.client = i) := by
  obtain ⟨hlines, hbodies, hearly, hlast⟩ := h
  have hfinish {filename : Bytes} (hp : c.pending = true) :
      Counted config (c.finish config.nRequests filename) (done + 1) := by
    simp only [hp, Bool.toNat_true] at hbodies
    refine ⟨hlines, by simpa [Client.finish, Client.pending] using hbodies, by simp [Client.finish],
      fun f next he hlt => ?_⟩
    simp only [Client.finish, Main.finished.injEq] at he
    obtain ⟨-, rfl⟩ := he
    split_ifs at hlt with hall
    · exact hbodies.trans hall
    · exact absurd hlt (Nat.lt_irrefl m)
  cases hm with
  | enquire hmain =>
    have := hearly (.inl hmain)
    exact ⟨hlines, by simpa [Client.pending, hmain] using hbodies, fun _ => this, by simp⟩
  | enquired hmain =>
    exact ⟨hlines, by simpa [Client.pending, hmain] using hbodies, by simp, by simp⟩
  | request hmain hinput =>
    refine ⟨?_, ?_, by simp, by simp⟩
    · simp only [hinput, List.length_cons] at hlines ⊢
      omega
    · simp [Client.pending, hmain] at hbodies ⊢
      exact hbodies
  | enterRead hmain | enterWrite hmain ht | sendRead hmain | sendWrite hnext hmain =>
    exact ⟨hlines, by simpa [Client.pending, hmain] using hbodies, by simp, by simp⟩
  | read hmain hdone | write hnext hmain hdone =>
    simpa [Event.client] using hfinish (by simp [Client.pending, hmain])
  | tell hnext hmain =>
    have := hlast _ _ hmain hnext
    exact ⟨hlines, by simpa [Client.pending, hmain] using hbodies, by simp, fun _ _ _ _ => this⟩
  | release hnext hmain =>
    exact ⟨hlines, by simpa [Client.pending, hmain] using hbodies, by simp, by simp⟩

/-- The main thread does not touch what the client knows. -/
theorem knows_main {config : Config n m} {i : Fin n} {c c' : Client n m}
    {out : Fin m → List Message} {events : List (Event n m)}
    (hm : c.MainMove config i c' out events) : c'.knows ↔ c.knows := by
  cases hm <;> exact Iff.rfl

theorem knows_setServerThread {c : Client n m} {k : Fin m} {thread : Thread}
    (ht : thread.busy = false → c.knows) (h : (c.setServerThread k thread).knows) : c.knows := by
  rcases h with h | ⟨k', h⟩ | ⟨j, h⟩
  · exact .inl h
  · by_cases hk : k' = k
    · subst k'
      exact ht (by simpa [Client.setServerThread] using h)
    · exact .inr (.inl ⟨k', by simpa [Client.setServerThread, hk] using h⟩)
  · exact .inr (.inr ⟨j, h⟩)

theorem knows_setClientThread {c : Client n m} {j : Fin n} {thread : Thread}
    (ht : thread.busy = false → c.knows) (h : (c.setClientThread j thread).knows) : c.knows := by
  rcases h with h | ⟨k, h⟩ | ⟨j', h⟩
  · exact .inl h
  · exact .inr (.inl ⟨k, h⟩)
  · by_cases hj : j' = j
    · subst j'
      exact ht (by simpa [Client.setClientThread] using h)
    · exact .inr (.inr ⟨j', by simpa [Client.setClientThread, hj] using h⟩)

theorem knows_setThread {v : Server n} {i : Fin n} {thread : Thread}
    (ht : thread.busy = false → v.knows) (h : (v.setThread i thread).knows) : v.knows := by
  obtain ⟨i', h⟩ := h
  by_cases hi : i' = i
  · subst i'
    exact ht (by simpa [Server.setThread] using h)
  · exact ⟨i', by simpa [Server.setThread, hi] using h⟩

/-- A thread that is about to read again, or has seen that all is done. -/
theorem knows_of_afterRead {c : Client n m}
    (h : (if c.allClientsDoneAllRequest then Thread.left else .reading).busy = false) :
    c.knows := by
  split_ifs at h with hflag
  · exact .inl hflag
  · cases h

section causes
variable {s : State n m}

/-- A change of one client whose knowledge had a cause. -/
theorem allKnown_setClient {i : Fin n} {c : Client n m} (hc : c.knows → s.AllKnown)
    (h : (s.setClient i c).AllKnown) : s.AllKnown := by
  rcases h with ⟨j, h⟩ | h
  · by_cases hj : j = i
    · subst j
      exact hc (by simpa using h)
    · exact .inl ⟨j, by simpa [hj] using h⟩
  · exact .inr h

theorem allKnown_setServer {k : Fin m} {v : Server n} (hv : v.knows → s.AllKnown)
    (h : (s.setServer k v).AllKnown) : s.AllKnown := by
  rcases h with h | ⟨k', h⟩ | h
  · exact .inl h
  · by_cases hk : k' = k
    · subst k'
      exact hv (by simpa using h)
    · exact .inr (.inl ⟨k', by simpa [hk] using h⟩)
  · exact .inr (.inr h)

theorem allKnown_post {a : Party n m} {out : Party n m → List Message}
    (ho : ∀ b, ∀ packet ∈ out b, Tells a b packet → s.AllKnown)
    (h : (s.post a out).AllKnown) : s.AllKnown := by
  rcases h with h | h | ⟨a', b, packet, hp, ht⟩
  · exact .inl h
  · exact .inr (.inl h)
  · rcases Network.mem_post.mp hp with hold | ⟨rfl, hnew⟩
    · exact .inr (.inr ⟨a', b, packet, hold, ht⟩)
    · exact ho b packet hnew ht

theorem allKnown_receive {a b : Party n m} {rest : List Message} (hr : rest ⊆ s.inFlight b a)
    (h : (s.receive a b rest).AllKnown) : s.AllKnown := by
  rcases h with h | h | ⟨a', b', packet, hp, ht⟩
  · exact .inl h
  · exact .inr (.inl h)
  · exact .inr (.inr ⟨a', b', packet, Network.mem_of_mem_put hr hp, ht⟩)

/-- A main thread tells the servers about itself only. -/
theorem not_tells_toServers {config : Config n m} {i : Fin n} {c c' : Client n m}
    {out : Fin m → List Message} {events : List (Event n m)}
    (hm : c.MainMove config i c' out events) {b : Party n m} {packet : Message}
    (hp : packet ∈ toServers out b) : ¬ Tells (.client i) b packet := by
  cases b with
  | client j => exact absurd hp List.not_mem_nil
  | server k =>
    rintro (htype | ⟨-, _, _, -, hb⟩)
    · cases hm with
      | enquire | sendRead | sendWrite | tell =>
        obtain ⟨-, hmem⟩ := Network.mem_only.mp hp
        obtain rfl := List.mem_singleton.mp hmem
        cases htype
      | enquired | request | enterRead | enterWrite | read | write | release =>
        exact absurd hp List.not_mem_nil
    · cases hb

variable {t : State n m}

theorem allKnown_passServer {i : Fin n} {k : Fin m} (h : passServer s i k = some t)
    (ht : t.AllKnown) : s.AllKnown := by
  have hclient (hk : (s.client i).knows) : s.AllKnown := .inl ⟨i, hk⟩
  cases hthread : (s.client i).serverThread k with
  | reading =>
    simp only [passServer, hthread] at h
    split_ifs at h with heof
    cases h
    -- the server has left its side only because it knew
    refine allKnown_setClient (fun _ => .inr (.inl ⟨k, i, ?_⟩)) ht
    rw [heof.2]
    rfl
  | treating =>
    simp only [passServer, hthread, Option.some.injEq] at h
    subst h
    exact allKnown_setClient (fun hk => hclient (knows_setServerThread knows_of_afterRead hk)) ht
  | sending next => exact hclient (.inr (.inl ⟨k, by rw [hthread]; rfl⟩))
  | left => exact hclient (.inr (.inl ⟨k, by rw [hthread]; rfl⟩))

theorem allKnown_passClient {i j : Fin n} (h : passClient s i j = some t)
    (ht : t.AllKnown) : s.AllKnown := by
  have hclient (hk : (s.client i).knows) : s.AllKnown := .inl ⟨i, hk⟩
  cases hthread : (s.client i).clientThread j with
  | reading =>
    simp only [passClient, hthread] at h
    by_cases hself : i = j
    · rw [if_pos hself, Option.some.injEq] at h
      subst h
      exact allKnown_setClient (fun hk => hclient (knows_setClientThread knows_of_afterRead hk)) ht
    · rw [if_neg hself] at h
      split_ifs at h with heof
      cases h
      refine allKnown_setClient (fun _ => .inl ⟨j, .inr (.inr ⟨i, ?_⟩)⟩) ht
      rw [heof.2]
      rfl
  | treating =>
    simp only [passClient, hthread, Option.some.injEq] at h
    subst h
    exact allKnown_setClient (fun hk => hclient (knows_setClientThread knows_of_afterRead hk)) ht
  | sending next => exact hclient (.inr (.inr ⟨j, by rw [hthread]; rfl⟩))
  | left => exact hclient (.inr (.inr ⟨j, by rw [hthread]; rfl⟩))

/-- A server comes to know by what its clients have told it. -/
theorem allKnown_passRequests {k : Fin m} {i : Fin n} (h : passRequests s k i = some t)
    (ht : t.AllKnown) : s.AllKnown ∨ ∀ j, s.Known j := by
  have hserver (hk : (s.server k).knows) : s.AllKnown := .inr (.inl ⟨k, hk⟩)
  cases hthread : (s.server k).thread i with
  | reading =>
    simp only [passRequests, hthread] at h
    split_ifs at h with heof
    cases h
    refine .inl (allKnown_setServer (fun _ => .inl ⟨i, .inr (.inl ⟨k, ?_⟩)⟩) ht)
    rw [heof.2]
    rfl
  | treating =>
    simp only [passRequests, hthread, Option.some.injEq] at h
    subst h
    by_cases hall : (s.server k).checkAllClientsDoneAllRequest = true
    · exact .inr fun j => .inl ⟨k, of_decide_eq_true hall j⟩
    · refine .inl (allKnown_setServer (fun hk => hserver (knows_setThread ?_ hk)) ht)
      rw [if_neg hall]
      intro hb
      cases hb
  | sending next => exact .inl (hserver ⟨i, by rw [hthread]; rfl⟩)
  | left => exact .inl (hserver ⟨i, by rw [hthread]; rfl⟩)

end causes

/-- What a server does with a packet. -/
theorem treatPacket_eq_some {v v' : Server n} {i : Fin n} {packet : Message}
    {answers : List Message} (h : v.treatPacket i packet = some (v', answers)) :
    v'.thread = v.thread ∧
      (∀ j, v'.clientDoneAllRequest j = true → v.clientDoneAllRequest j = true ∨
        j = i ∧ packet.messageType = .clientDoneAllRequest) ∧
      ∀ answer ∈ answers, answer.messageType ≠ .serverReceivedAllDoneRequests := by
  unfold Server.treatPacket at h
  split at h
  · next hp =>
    cases h
    refine ⟨rfl, fun j hj => ?_, by simp⟩
    simp only [Function.update_apply] at hj
    split_ifs at hj with hji
    · exact .inr ⟨hji, hp⟩
    · exact .inl hj
  · cases h
    exact ⟨rfl, fun _ hj => .inl hj, by simp⟩
  · obtain ⟨answer, ha, h⟩ := Option.map_eq_some_iff.mp h
    obtain ⟨_, -, rfl⟩ := Option.map_eq_some_iff.mp ha
    cases h
    exact ⟨rfl, fun _ hj => .inl hj, by simp⟩
  · obtain ⟨⟨v₁, answer⟩, ha, h⟩ := Option.map_eq_some_iff.mp h
    cases h
    unfold Server.handleWriteRequest at ha
    split at ha
    · cases ha
      exact ⟨rfl, fun _ hj => .inl hj, by simp⟩
    · cases ha
  · cases h
    exact ⟨rfl, fun _ hj => .inl hj, by simp⟩

/-- What a client learns from a server's packet. -/
theorem knows_treatServerPacket {c : Client n m} {k : Fin m} {packet : Message}
    (hp : packet.messageType ≠ .serverReceivedAllDoneRequests)
    (h : (c.treatServerPacket k packet).knows) : c.knows := by
  have hthread : (c.setServerThread k .treating).knows → c.knows :=
    knows_setServerThread fun hb => nomatch hb
  unfold Client.treatServerPacket at h
  split at h
  · next hp' => exact absurd hp' hp
  all_goals exact hthread h

theorem knows_handleClientPacket {c : Client n m} {j : Fin n} {packet : Message}
    (hp : packet.messageType ≠ .clientDoneAllRequest)
    (h : (c.handleClientPacket j packet).knows) : c.knows := by
  have hthread : (c.setClientThread j .treating).knows := by
    simpa [Client.handleClientPacket, Client.setClientThread, Client.knows, hp] using h
  exact knows_setClientThread (fun hb => by cases hb) hthread

theorem isCriticalSectionAlgMessage_ne {messageType : MessageType} {alg : CriticalSectionAlgType}
    (h : isCriticalSectionAlgMessage messageType alg = true) :
    messageType ≠ .serverReceivedAllDoneRequests ∧ messageType ≠ .clientDoneAllRequest := by
  constructor <;> (rintro rfl; cases alg <;> cases h)

/-- Whoever comes to know that all clients are at their end was told, or has been told by each
of them. -/
theorem allKnown_step {config : Config n m} {s t : State n m} {a : Action n m}
    (h : step config s a = some t) (ht : t.AllKnown) : s.AllKnown ∨ ∀ i, s.Known i := by
  cases a with
  | mainStep i =>
    obtain ⟨⟨c, out, events⟩, hc, rfl⟩ := Option.map_eq_some_iff.mp h
    have hm := Client.mainMove_of_mainStep hc
    have htells (b : Party n m) (packet : Message) (hp : packet ∈ toServers out b)
        (hb : Tells (.client i) b packet) : (s.setClient i c).AllKnown :=
      absurd hb (not_tells_toServers hm hp)
    exact .inl (allKnown_setClient (fun hk => .inl ⟨i, (knows_main hm).mp hk⟩) (allKnown_post htells ht))
  | sendCriticalSectionMessage i j message =>
    simp only [step] at h
    split_ifs at h with hmsg
    obtain ⟨c, hc, rfl⟩ := Option.map_eq_some_iff.mp h
    obtain ⟨-, rfl⟩ := Client.increaseTimestamp_eq_some hc
    have hsent := allKnown_post (fun b packet hp htells => ?_) ht
    · refine .inl (allKnown_setClient (fun hk => ?_) hsent)
      exact .inl ⟨i, hk⟩
    · obtain ⟨rfl, hmem⟩ := Network.mem_only.mp hp
      obtain rfl := List.mem_singleton.mp hmem
      have hne := isCriticalSectionAlgMessage_ne hmsg
      exact htells.elim (absurd · hne.1) fun h => absurd h.1 hne.2
  | treatServerPacket i k =>
    simp only [step] at h
    split at h
    · cases h
    · next packet rest hpackets =>
      split_ifs at h
      cases h
      have hmem : packet ∈ s.inFlight (.server k) (.client i) := by simp [hpackets]
      by_cases hp : packet.messageType = .serverReceivedAllDoneRequests
      · exact .inl (.inr (.inr ⟨.server k, .client i, packet, hmem, .inl hp⟩))
      · have hrest : rest ⊆ s.inFlight (.server k) (.client i) := by simp [hpackets]
        refine .inl (allKnown_receive hrest (allKnown_setClient (fun hk => ?_) ht))
        exact .inl ⟨i, knows_treatServerPacket hp hk⟩
  | passServer i k => exact .inl (allKnown_passServer h ht)
  | handleClientPacket i j place =>
    simp only [step] at h
    split at h
    · cases h
    · next packet hpacket =>
      split_ifs at h
      cases h
      have hmem := List.mem_of_getElem? hpacket
      by_cases hp : packet.messageType = .clientDoneAllRequest
      · exact .inl (.inr (.inr ⟨.client j, .client i, packet, hmem, .inr ⟨hp, j, i, rfl, rfl⟩⟩))
      · refine .inl (allKnown_receive List.eraseIdx_subset
          (allKnown_setClient (fun hk => ?_) ht))
        exact .inl ⟨i, knows_handleClientPacket hp hk⟩
  | passClient i j => exact .inl (allKnown_passClient h ht)
  | treatRequest k i =>
    simp only [step] at h
    split at h
    · cases h
    · next packet rest hpackets =>
      split_ifs at h
      obtain ⟨⟨v, answers⟩, hv, rfl⟩ := Option.map_eq_some_iff.mp h
      obtain ⟨hthread, -, hanswers⟩ := treatPacket_eq_some hv
      have hrest : rest ⊆ s.inFlight (.client i) (.server k) := by simp [hpackets]
      refine .inl (allKnown_receive hrest (allKnown_setServer (fun hk => ?_)
        (allKnown_post ?_ ht)))
      · have hv' : v.knows := knows_setThread (fun hb => by cases hb) hk
        unfold Server.knows at hv'
        rw [hthread] at hv'
        exact .inr (.inl ⟨k, hv'⟩)
      · intro b packet hp htells
        obtain ⟨rfl, hmem⟩ := Network.mem_only.mp hp
        rcases htells with htype | ⟨-, _, _, ha, -⟩
        · exact absurd htype (hanswers packet hmem)
        · cases ha
  | passRequests k i => exact allKnown_passRequests h ht

/-- The threads for packets do not touch what a client counts. -/
theorem Counted.of_eq {config : Config n m} {c c' : Client n m} {done : ℕ}
    (h : Counted config c done) (hmain : c'.main = c.main) (hinput : c'.input = c.input)
    (hn : c'.nRequestedRequests = c.nRequestedRequests) : Counted config c' done where
  lines := by rw [hinput, hn]; exact h.lines
  bodies := by rw [hn, ← h.bodies, Client.pending, Client.pending, hmain]
  early := by rw [hmain]; exact h.early
  last := by rw [hmain]; exact h.last

/-- Only the client itself finishes its bodies. -/
theorem countP_of_mainMove {config : Config n m} {i j : Fin n} {c c' : Client n m}
    {out : Fin m → List Message} {events : List (Event n m)} (hij : j ≠ i)
    (hm : c.MainMove config i c' out events) : (events.countP fun e => e.client = j) = 0 := by
  cases hm <;> simp [Event.client, hij.symm]

def State.AllCounted (config : Config n m) (s : State n m) : Prop :=
  ∀ i, Counted config (s.client i) (s.bodies i)

theorem bodies_record (s : State n m) (events : List (Event n m)) (i : Fin n) :
    (s.record events).bodies i = s.bodies i + events.countP fun e => e.client = i :=
  List.countP_append

/-- What a step does to what the clients count. -/
theorem counted_step {config : Config n m} {s t : State n m} {a : Action n m}
    (hs : s.AllCounted config) (h : step config s a = some t) : t.AllCounted config := by
  intro j
  by_cases ha : a.quiet = true
  · have hquiet := quiet_step ha h
    have hj := hquiet.client j
    rw [State.bodies, hquiet.history]
    exact (hs j).of_eq hj.main hj.input hj.nRequestedRequests
  · cases a with
    | mainStep i =>
      obtain ⟨⟨c, out, events⟩, hc, rfl⟩ := Option.map_eq_some_iff.mp h
      have hm := Client.mainMove_of_mainStep hc
      rw [bodies_record]
      by_cases hij : j = i
      · subst j
        have hi := counted_main (hs i) hm
        exact hi.of_eq (by simp)
          (by simp)
          (by simp)
      · rw [countP_of_mainMove hij hm]
        exact (hs j).of_eq (by simp [hij])
          (by simp [hij])
          (by simp [hij])
    | treatServerPacket i k =>
      simp only [step] at h
      split at h
      · cases h
      · next packet rest hpackets =>
        split_ifs at h
        cases h
        by_cases hij : j = i
        · subst j
          exact (hs i).of_eq (by simp) (by simp) (by simp)
        · exact (hs j).of_eq (by simp [hij]) (by simp [hij]) (by simp [hij])
    | treatRequest k i =>
      simp only [step] at h
      split at h
      · cases h
      · split_ifs at h
        obtain ⟨⟨v, answers⟩, hv, rfl⟩ := Option.map_eq_some_iff.mp h
        exact hs j
    | sendCriticalSectionMessage i j message | passServer i k | handleClientPacket i j place
    | passClient i j | passRequests k i => exact absurd rfl ha

/-- A client tells a server only when it is at its end. -/
theorem done_of_tell {config : Config n m} {i : Fin n} {c c' : Client n m} {done : ℕ}
    {out : Fin m → List Message} {events : List (Event n m)} (h : Counted config c done)
    (hm : c.MainMove config i c' out events) {k : Fin m} {packet : Message} (hp : packet ∈ out k)
    (htype : packet.messageType = .clientDoneAllRequest) : done = config.nRequests := by
  cases hm with
  | tell hnext hmain => exact h.last _ _ hmain hnext
  | enquire | sendRead | sendWrite =>
    obtain ⟨-, hp⟩ := Network.mem_only.mp hp
    obtain rfl := List.mem_singleton.mp hp
    cases htype
  | enquired | request | enterRead | enterWrite | read | write | release =>
    exact absurd hp List.not_mem_nil

theorem known_step {config : Config n m} {s t : State n m} {a : Action n m}
    (hs : s.AllCounted config) (h : step config s a = some t) {j : Fin n} (ht : t.Known j) :
    s.Known j ∨ s.bodies j = config.nRequests := by
  by_cases ha : a.quiet = true
  · have hquiet := quiet_step ha h
    simp only [State.Known, hquiet.done, hquiet.requests] at ht
    exact .inl ht
  · cases a with
    | mainStep i =>
      obtain ⟨⟨c, out, events⟩, hc, rfl⟩ := Option.map_eq_some_iff.mp h
      rcases ht with hflag | ⟨k, packet, hp, htype⟩
      · exact .inl (.inl hflag)
      · rcases Network.mem_post.mp hp with hold | ⟨hij, hnew⟩
        · exact .inl (.inr ⟨k, packet, hold, htype⟩)
        · cases hij
          exact .inr (done_of_tell (hs j) (Client.mainMove_of_mainStep hc) hnew htype)
    | treatServerPacket i k =>
      simp only [step] at h
      split at h
      · cases h
      · next packet rest hpackets =>
        split_ifs at h
        cases h
        rcases ht with hflag | ⟨k', packet', hp, htype⟩
        · exact .inl (.inl hflag)
        · refine .inl (.inr ⟨k', packet', ?_, htype⟩)
          have hrest : rest ⊆ s.inFlight (.server k) (.client i) := by simp [hpackets]
          exact Network.mem_of_mem_put hrest (by simpa using hp)
    | treatRequest k i =>
      simp only [step] at h
      split at h
      · cases h
      · next packet rest hpackets =>
        split_ifs at h
        obtain ⟨⟨v, answers⟩, hv, rfl⟩ := Option.map_eq_some_iff.mp h
        obtain ⟨-, hflags, -⟩ := treatPacket_eq_some hv
        rcases ht with ⟨k', hflag⟩ | ⟨k', packet', hp, htype⟩
        · by_cases hk : k' = k
          · subst k'
            rcases hflags j (by simpa [Server.setThread] using hflag)
              with hold | ⟨rfl, htype⟩
            · exact .inl (.inl ⟨k, hold⟩)
            · exact .inl (.inr ⟨k, packet, by simp [hpackets], htype⟩)
          · exact .inl (.inl ⟨k', by simpa [hk] using hflag⟩)
        · have hrest : rest ⊆ s.inFlight (.client i) (.server k) := by simp [hpackets]
          refine .inl (.inr ⟨k', packet', Network.mem_of_mem_put hrest ?_, htype⟩)
          simpa using hp
    | sendCriticalSectionMessage i j message | passServer i k | handleClientPacket i j place
    | passClient i j | passRequests k i => exact absurd rfl ha

theorem bodies_step {config : Config n m} {s t : State n m} {a : Action n m}
    (h : step config s a = some t) (j : Fin n) : s.bodies j ≤ t.bodies j := by
  by_cases ha : a.quiet = true
  · rw [State.bodies, State.bodies, (quiet_step ha h).history]
  · cases a with
    | mainStep i =>
      obtain ⟨⟨c, out, events⟩, hc, rfl⟩ := Option.map_eq_some_iff.mp h
      exact (bodies_record s events j).symm ▸ Nat.le_add_right _ _
    | treatServerPacket i k =>
      simp only [step] at h
      split at h
      · cases h
      · split_ifs at h
        cases h
        exact Nat.le_refl _
    | treatRequest k i =>
      simp only [step] at h
      split at h
      · cases h
      · split_ifs at h
        obtain ⟨⟨v, answers⟩, hv, rfl⟩ := Option.map_eq_some_iff.mp h
        exact Nat.le_refl _
    | sendCriticalSectionMessage i j message | passServer i k | handleClientPacket i j place
    | passClient i j | passRequests k i => exact absurd rfl ha

/-- What is known is so. -/
structure Ended (config : Config n m) (s : State n m) : Prop where
  counted : s.AllCounted config
  known (i : Fin n) : s.Known i → s.bodies i = config.nRequests
  allKnown : s.AllKnown → ∀ i, s.bodies i = config.nRequests

theorem ended_initial {config : Config n m}
    (hinput : ∀ i, (config.input i).length = config.nRequests) :
    Ended config (initial config) where
  counted i :=
    ⟨by simpa [initial, Client.construct] using hinput i, rfl, fun _ => rfl, fun _ _ h => nomatch h⟩
  known i h := by
    rcases h with ⟨k, hflag⟩ | ⟨k, packet, hp, -⟩
    · exact absurd hflag Bool.false_ne_true
    · exact absurd hp List.not_mem_nil
  allKnown h := by
    rcases h with ⟨i, hflag | ⟨k, hb⟩ | ⟨j, hb⟩⟩ | ⟨k, i, hb⟩ | ⟨a, b, packet, hp, -⟩
    · exact absurd hflag Bool.false_ne_true
    · cases hb
    · cases hb
    · cases hb
    · exact absurd hp List.not_mem_nil

theorem ended_step {config : Config n m} {s t : State n m} {a : Action n m}
    (hs : Ended config s) (h : step config s a = some t) : Ended config t := by
  have hcounted := counted_step hs.counted h
  -- a client that has finished all its bodies has no more requests
  have hstable (i : Fin n) (hi : s.bodies i = config.nRequests) :
      t.bodies i = config.nRequests := by
    have hle := bodies_step h i
    have hlines := (hcounted i).lines
    have hbodies := (hcounted i).bodies
    omega
  have hknown (i : Fin n) (hi : t.Known i) : s.bodies i = config.nRequests :=
    (known_step hs.counted h hi).elim (hs.known i) id
  refine ⟨hcounted, fun i hi => hstable i (hknown i hi), fun hall i => hstable i ?_⟩
  rcases allKnown_step h hall with hall | hall
  · exact hs.allKnown hall i
  · exact hs.known i (hall i)

/-- The run lemma. -/
theorem ended_kept {config : Config n m}
    (hinput : ∀ i, (config.input i).length = config.nRequests) {s : State n m}
    (h : (machine config).Reachable s) : Ended config s :=
  Machine.Guarded.invariant (I := Ended config) (by rintro _ rfl; exact ended_initial hinput)
    (fun _ _ _ hI _ hs => ended_step hI hs) h

/-- A client that has finished all its bodies does not wait. -/
theorem Counted.not_waits {config : Config n m} {c : Client n m} (hn : 1 ≤ config.nRequests)
    (h : Counted config c config.nRequests) : c.waits = false := by
  have hlines := h.lines
  have hbodies := h.bodies
  cases hm : c.main with
  | start | ready | finished => simp [Client.waits, hm]
  | enquiring => exact absurd (h.early (.inr hm)) (Nat.ne_of_gt hn)
  | requesting | requestRead | reading | requestWrite =>
    simp only [Client.pending, hm, Bool.toNat_true] at hbodies
    omega

/-- A thread that has left its connection knows why. -/
theorem allKnown_of_left {s : State n m} (h : (∃ i k, (s.client i).serverThread k = .left) ∨
    (∃ i j, (s.client i).clientThread j = .left) ∨ ∃ k i, (s.server k).thread i = .left) :
    s.AllKnown := by
  rcases h with ⟨i, k, h⟩ | ⟨i, j, h⟩ | ⟨k, i, h⟩
  · exact .inl ⟨i, .inr (.inl ⟨k, by rw [h]; rfl⟩)⟩
  · exact .inl ⟨i, .inr (.inr ⟨j, by rw [h]; rfl⟩)⟩
  · exact .inr (.inl ⟨k, i, by rw [h]; rfl⟩)

/-- The flag of a client, and the packets that set it, are true of all clients, and no thread
leaves its connection while a client waits. -/
theorem no_early_shutdown (config : Config n m) (hn : 1 ≤ config.nRequests)
    (hinput : ∀ i, (config.input i).length = config.nRequests) (s : State n m)
    (h : (machine config).Reachable s) :
    ((∃ i, (s.client i).allClientsDoneAllRequest = true) ∨
        (∃ a b, ∃ packet ∈ s.inFlight a b,
          packet.messageType = .serverReceivedAllDoneRequests) ∨
        (∃ i j, ∃ packet ∈ s.inFlight (.client i) (.client j),
          packet.messageType = .clientDoneAllRequest) →
      ∀ i, s.bodies i = config.nRequests) ∧
    ((∃ i k, (s.client i).serverThread k = .left) ∨
        (∃ i j, (s.client i).clientThread j = .left) ∨
        (∃ k i, (s.server k).thread i = .left) →
      ∀ i, (s.client i).waits = false) := by
  have hended := ended_kept hinput h
  constructor
  · intro hknown
    apply hended.allKnown
    rcases hknown with ⟨i, hflag⟩ | ⟨a, b, packet, hp, htype⟩ | ⟨i, j, packet, hp, htype⟩
    · exact .inl ⟨i, .inl hflag⟩
    · exact .inr (.inr ⟨a, b, packet, hp, .inl htype⟩)
    · exact .inr (.inr ⟨.client i, .client j, packet, hp, .inr ⟨htype, i, j, rfl, rfl⟩⟩)
  · intro hleft i
    have hi := hended.counted i
    rw [hended.allKnown (allKnown_of_left hleft) i] at hi
    exact hi.not_waits hn

/-- Two clients that each append one line to a file of one server. -/
def twoWrites : Config 2 1 where
  ids := two_ids
  criticalSectionAlgType := .ra
  nRequests := 1
  enquiry _ := 0
  input _ := [.write [102]]
  files _ := none

/-- Client i from its start to the packet that says that it is done. -/
def wholeClient (i : Fin 2) : List (Action 2 1) :=
  [.mainStep i, .treatRequest 0 i, .treatServerPacket i 0, .mainStep i, .mainStep i, .mainStep i,
    .mainStep i, .treatRequest 0 i, .treatServerPacket i 0, .mainStep i, .mainStep i,
    .treatRequest 0 i, .passRequests 0 i]

/-- Both clients, the server tells client 0, which tells both and leaves. -/
def endRun : List (Action 2 1) :=
  wholeClient 0 ++ wholeClient 1 ++
    [.passRequests 0 1, .treatServerPacket 0 0, .passServer 0 0, .passServer 0 0, .passServer 0 0]

theorem no_early_shutdown_in_endRun : ∃ s, (machine twoWrites).Reachable s ∧
    (s.client 0).allClientsDoneAllRequest = true ∧ (s.client 0).serverThread 0 = .left ∧
    (∀ i, s.bodies i = 1) ∧ ∀ i, (s.client i).waits = false := by
  obtain ⟨s, hs, hp⟩ := (machine twoWrites).exists_reachable_of_run (s := initial twoWrites) rfl
    endRun (fun s => (s.client 0).allClientsDoneAllRequest && (s.client 0).serverThread 0 = .left)
    (by decide +kernel)
  obtain ⟨hflag, hleft⟩ := Bool.and_eq_true_iff.mp hp
  have hleft := of_decide_eq_true hleft
  have hend := no_early_shutdown twoWrites (by decide) (by decide) s hs
  exact ⟨s, hs, hflag, hleft, hend.1 (.inl ⟨0, hflag⟩), hend.2 (.inl ⟨0, 0, hleft⟩)⟩

end DistributedME.Cluster
