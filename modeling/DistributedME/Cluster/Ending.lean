import DistributedME.Cluster.Turns

/-! How the threads get to their end: each server tells all clients, and each client that is told
tells all clients. -/
namespace DistributedME.Cluster
open Library
variable {n m : ℕ}

/-- A thread that has treated a server's packets, but not yet its announcement of the end, sees
that all is done, and leaves. -/
def State.LeavesEarly (s : State n m) : Action n m → Prop
  | .passServer i k => (s.client i).serverThread k = .treating ∧
      (s.client i).allClientsDoneAllRequest = true
  | _ => False

/-- What a step makes of the thread of client i for server k. -/
inductive ServerThreadTurn (s : State n m) (a : Action n m) (t : State n m) (i : Fin n)
    (k : Fin m) : Prop
  | same : (t.client i).serverThread k = (s.client i).serverThread k → ServerThreadTurn s a t i k
  | treat : ((s.client i).serverThread k).busy = true →
      (t.client i).serverThread k = .treating → ServerThreadTurn s a t i k
  | informed {packet : Message} : ((s.client i).serverThread k).busy = true →
      packet ∈ s.inFlight (.server k) (.client i) →
      packet.messageType = .serverReceivedAllDoneRequests →
      (t.client i).serverThread k = .sending 0 → (t.client i).allClientsDoneAllRequest = true →
      ServerThreadTurn s a t i k
  | closed : (s.client i).serverThread k = .reading → (s.server k).thread i = .left →
      (t.client i).serverThread k = .left → ServerThreadTurn s a t i k
  | read : a = .passServer i k → (s.client i).serverThread k = .treating →
      (t.client i).serverThread k = (s.client i).afterRead → ServerThreadTurn s a t i k
  | tell {next : ℕ} (h : next < n) : (s.client i).serverThread k = .sending next →
      (t.client i).serverThread k = .sending (next + 1) →
      (∃ packet ∈ t.inFlight (.client i) (.client ⟨next, h⟩),
        packet.messageType = .clientDoneAllRequest) → ServerThreadTurn s a t i k
  | told {next : ℕ} : n ≤ next → (s.client i).serverThread k = .sending next →
      (t.client i).serverThread k = (s.client i).afterRead → ServerThreadTurn s a t i k

/-- What a step makes of the thread of client i for client j. -/
inductive ClientThreadTurn (s t : State n m) (i j : Fin n) : Prop
  | same : (t.client i).clientThread j = (s.client i).clientThread j → ClientThreadTurn s t i j
  | treat : (s.client i).clientThread j ≠ .left → (t.client i).clientThread j = .treating →
      ClientThreadTurn s t i j
  | closed : (s.client i).clientThread j = .reading → (t.client i).clientThread j = .left →
      ClientThreadTurn s t i j
  | read : (s.client i).clientThread j ≠ .left →
      (t.client i).clientThread j = (s.client i).afterRead → ClientThreadTurn s t i j

/-- What a step makes of the thread of server k for client i. -/
inductive RequestThreadTurn (s t : State n m) (k : Fin m) (i : Fin n) : Prop
  | same : (t.server k).thread i = (s.server k).thread i → RequestThreadTurn s t k i
  | treat : ((s.server k).thread i).busy = true → (t.server k).thread i = .treating →
      RequestThreadTurn s t k i
  | closed : (s.server k).thread i = .reading → (s.client i).serverThread k = .left →
      (t.server k).thread i = .left → RequestThreadTurn s t k i
  | read : (s.server k).thread i = .treating → (t.server k).thread i =
        (if (s.server k).checkAllClientsDoneAllRequest then .sending 0 else .reading) →
      RequestThreadTurn s t k i
  | tell {next : ℕ} (h : next < n) : (s.server k).thread i = .sending next →
      (t.server k).thread i = .sending (next + 1) →
      (∃ packet ∈ t.inFlight (.server k) (.client ⟨next, h⟩),
        packet.messageType = .serverReceivedAllDoneRequests) → RequestThreadTurn s t k i
  | told {next : ℕ} : n ≤ next → (s.server k).thread i = .sending next →
      (t.server k).thread i = .reading → RequestThreadTurn s t k i

section turns
variable {config : Config n m} {s t : State n m} {a : Action n m}

theorem treatServerPacket_thread (c : Client n m) (k : Fin m) (packet : Message) :
    (c.treatServerPacket k packet).serverThread = Function.update c.serverThread k
      (if packet.messageType = .serverReceivedAllDoneRequests then .sending 0 else .treating) ∧
    (c.treatServerPacket k packet).clientThread = c.clientThread ∧
    (c.treatServerPacket k packet).allClientsDoneAllRequest =
      (c.allClientsDoneAllRequest || packet.messageType = .serverReceivedAllDoneRequests) := by
  unfold Client.treatServerPacket
  split <;> simp_all

theorem clientDone_of_treatPacket {v v' : Server n} {i j : Fin n} {packet : Message}
    {answers : List Message} (h : v.treatPacket i packet = some (v', answers))
    (hj : v.clientDoneAllRequest j = true ∨
      j = i ∧ packet.messageType = .clientDoneAllRequest) :
    v'.clientDoneAllRequest j = true := by
  unfold Server.treatPacket at h
  split at h
  · cases h
    simp only [Function.update_apply]
    split_ifs with hji
    · rfl
    · exact hj.resolve_right fun hdone => hji hdone.1
  · next htype =>
    cases h
    exact hj.resolve_right fun hdone => by simp [htype] at hdone
  · next htype =>
    obtain ⟨answer, -, h⟩ := Option.map_eq_some_iff.mp h
    cases h
    exact hj.resolve_right fun hdone => by simp [htype] at hdone
  · next htype =>
    obtain ⟨⟨v₁, answer⟩, ha, h⟩ := Option.map_eq_some_iff.mp h
    cases h
    unfold Server.handleWriteRequest at ha
    split at ha
    · cases ha
      exact hj.resolve_right fun hdone => by simp [htype] at hdone
    · cases ha
  · next htype _ _ _ =>
    cases h
    exact hj.resolve_right fun hdone => htype hdone.2

theorem serverThreadTurn_of_step (h : step config s a = some t) (i : Fin n) (k : Fin m) :
    ServerThreadTurn s a t i k := by
  have hset {l : Fin m} {thread : Thread}
      (ht : t.client i = (s.client i).setServerThread l thread) :
      (t.client i).serverThread = Function.update (s.client i).serverThread l thread :=
    congrArg Client.serverThread ht
  cases turn_of_step h i with
  | same hsame => exact .same (by rw [hsame.server])
  | @treat l packet rest hmail hbusy ht =>
    obtain ⟨hthread, -, hflag⟩ := treatServerPacket_thread (s.client i) l packet
    rw [← ht] at hthread hflag
    rcases update_cases hthread k with ⟨rfl, hk⟩ | hk
    · split_ifs at hk with htype
      · apply ServerThreadTurn.informed hbusy (hmail ▸ List.mem_cons_self) htype hk
        rw [hflag]
        simp [htype]
      · exact .treat hbusy hk
    · exact .same hk
  | closed hreading hleft ht =>
    rcases update_cases (hset ht) k with ⟨rfl, hk⟩ | hk
    · exact .closed hreading hleft hk
    · exact .same hk
  | read ha htreating ht =>
    rcases update_cases (hset ht) k with ⟨rfl, hk⟩ | hk
    · exact .read ha htreating hk
    · exact .same hk
  | tell hnext hsending ht hpacket =>
    rcases update_cases ht.server k with ⟨rfl, hk⟩ | hk
    · exact .tell hnext hsending hk hpacket
    · exact .same hk
  | told hnext hsending ht =>
    rcases update_cases (hset ht) k with ⟨rfl, hk⟩ | hk
    · exact .told hnext hsending hk
    · exact .same hk
  | handle _ _ ht | closedClient _ _ ht | readClient _ ht =>
    apply ServerThreadTurn.same
    rw [ht]
    rfl

theorem clientThreadTurn_of_step (h : step config s a = some t) (i j : Fin n) :
    ClientThreadTurn s t i j := by
  have hset {l : Fin n} {thread : Thread}
      (ht : t.client i = (s.client i).setClientThread l thread) :
      (t.client i).clientThread = Function.update (s.client i).clientThread l thread :=
    congrArg Client.clientThread ht
  cases turn_of_step h i with
  | same hsame => exact .same (by rw [hsame.client])
  | @treat l packet rest hmail hbusy ht =>
    apply ClientThreadTurn.same
    rw [ht, (treatServerPacket_thread (s.client i) l packet).2.1]
  | closed _ _ ht | read _ _ ht | told _ _ ht =>
    apply ClientThreadTurn.same
    rw [ht]
    rfl
  | tell _ _ ht =>
    apply ClientThreadTurn.same
    rw [ht.client]
    rfl
  | @handle l place packet hplace hbusy ht =>
    have hthread : (t.client i).clientThread =
        Function.update (s.client i).clientThread l .treating := congrArg Client.clientThread ht
    rcases update_cases hthread j with ⟨rfl, hj⟩ | hj
    · apply ClientThreadTurn.treat _ hj
      intro hleft
      rw [hleft] at hbusy
      cases hbusy
    · exact .same hj
  | closedClient hreading _ ht =>
    rcases update_cases (hset ht) j with ⟨rfl, hj⟩ | hj
    · exact .closed hreading hj
    · exact .same hj
  | readClient hbusy ht =>
    rcases update_cases (hset ht) j with ⟨rfl, hj⟩ | hj
    · apply ClientThreadTurn.read _ hj
      intro hleft
      rw [hleft] at hbusy
      rcases hbusy with hbusy | ⟨hbusy, -⟩ <;> cases hbusy
    · exact .same hj

theorem requestThreadTurn_of_step (h : step config s a = some t) (k : Fin m) (i : Fin n) :
    RequestThreadTurn s t k i := by
  have hset {l : Fin n} {thread : Thread}
      (ht : t.server k = (s.server k).setThread l thread) :
      (t.server k).thread = Function.update (s.server k).thread l thread :=
    congrArg Server.thread ht
  cases serverTurn_of_step h k with
  | same hthread => exact .same (by rw [hthread])
  | @treat l packet rest answers v hmail hbusy hv ht =>
    obtain ⟨hthread, -, -⟩ := treatPacket_eq_some hv
    have hthread' : (t.server k).thread = Function.update (s.server k).thread l .treating := by
      rw [ht, ← hthread]
      rfl
    rcases update_cases hthread' i with ⟨rfl, hi⟩ | hi
    · exact .treat hbusy hi
    · exact .same hi
  | closed hreading hleft ht =>
    rcases update_cases (hset ht) i with ⟨rfl, hi⟩ | hi
    · exact .closed hreading hleft hi
    · exact .same hi
  | read htreating ht =>
    rcases update_cases (hset ht) i with ⟨rfl, hi⟩ | hi
    · exact .read htreating hi
    · exact .same hi
  | tell hnext hsending ht hpacket =>
    rcases update_cases (hset ht) i with ⟨rfl, hi⟩ | hi
    · exact .tell hnext hsending hi hpacket
    · exact .same hi
  | told hnext hsending ht =>
    rcases update_cases (hset ht) i with ⟨rfl, hi⟩ | hi
    · exact .told hnext hsending hi
    · exact .same hi

/-- What a server has been told it does not forget. -/
theorem clientDone_of_step (h : step config s a = some t) {k : Fin m} {i : Fin n}
    (hi : (s.server k).clientDoneAllRequest i = true) :
    (t.server k).clientDoneAllRequest i = true := by
  cases serverTurn_of_step h k with
  | same _ hflags => rw [hflags, hi]
  | @treat l packet rest answers v hmail hbusy hv ht =>
    have hv' : v.clientDoneAllRequest i = true := clientDone_of_treatPacket hv (.inl hi)
    rw [ht]
    exact hv'
  | closed _ _ ht | read _ ht | tell _ _ ht | told _ _ ht =>
    rw [ht]
    exact hi

/-- The last client to tell a server has its packet treated by a thread that will look. -/
theorem clientsDone_or_treating (h : step config s a = some t) {k : Fin m}
    (hall : ∀ i, (t.server k).clientDoneAllRequest i = true) :
    (∀ i, (s.server k).clientDoneAllRequest i = true) ∨
      ∃ i, (t.server k).thread i = .treating := by
  cases serverTurn_of_step h k with
  | same _ hflags =>
    rw [hflags] at hall
    exact .inl hall
  | @treat l packet rest answers v hmail hbusy hv ht =>
    right
    refine ⟨l, ?_⟩
    rw [ht]
    exact Function.update_self ..
  | closed _ _ ht | read _ ht | tell _ _ ht | told _ _ ht =>
    rw [ht] at hall
    exact .inl hall

theorem left_of_step (h : step config s a = some t) {i : Fin n} {k : Fin m}
    (hleft : (s.client i).serverThread k = .left) : (t.client i).serverThread k = .left := by
  cases serverThreadTurn_of_step h i k with
  | same hsame => rw [hsame, hleft]
  | treat hbusy | informed hbusy | closed hbusy | read _ hbusy | tell _ hbusy | told _ hbusy =>
    rw [hleft] at hbusy
    cases hbusy

/-- The flag of a client is never cleared. -/
theorem flag_of_step (h : step config s a = some t) {i : Fin n}
    (hi : (s.client i).allClientsDoneAllRequest = true) :
    (t.client i).allClientsDoneAllRequest = true := by
  cases turn_of_step h i with
  | same hsame => rw [hsame.flag, hi]
  | @treat l packet rest hmail hbusy ht =>
    rw [ht, (treatServerPacket_thread (s.client i) l packet).2.2, hi, Bool.true_or]
  | closed _ _ ht | read _ _ ht | told _ _ ht | closedClient _ _ ht | readClient _ ht =>
    rw [ht]
    exact hi
  | tell _ _ ht =>
    rw [ht.flag]
    exact hi
  | handle _ _ ht =>
    rw [ht, Client.handleClientPacket, hi, Bool.true_or]

end turns

/-! Who has said that all is done, and who will hear it. -/

/-- Client i has told server k that it is at its end, and the server knows or will know it. -/
def State.Told (s : State n m) (i : Fin n) (k : Fin m) : Prop :=
  (s.server k).clientDoneAllRequest i = true ∨
    ∃ packet ∈ s.inFlight (.client i) (.server k), packet.messageType = .clientDoneAllRequest

/-- All requests of the client are done, and its loop over the servers is past server k. -/
def Client.HasTold (nRequests : ℕ) (c : Client n m) (k : Fin m) : Prop :=
  c.nRequestedRequests = nRequests ∧
    (c.main = .ready ∨ ∃ filename next, c.main = .finished filename next ∧ k < next)

/-- Server k has told client j that all is done, or some thread of it will. -/
def State.Announced (s : State n m) (k : Fin m) (j : Fin n) : Prop :=
  ((s.client j).serverThread k).busy = false ∨
    (∃ packet ∈ s.inFlight (.server k) (.client j),
      packet.messageType = .serverReceivedAllDoneRequests) ∨
    ∃ i next, (s.server k).thread i = .sending next ∧ next ≤ j

/-- Client i has told client j, whose thread for it has left or will. -/
def State.Reached (s : State n m) (i j : Fin n) : Prop :=
  (s.client j).clientThread i = .left ∨
    (s.client j).clientThread i = .treating ∧ (s.client j).allClientsDoneAllRequest = true ∨
    ∃ packet ∈ s.inFlight (.client i) (.client j), packet.messageType = .clientDoneAllRequest

/-- The thread has left after its loop over the clients, or its loop is past client j. -/
def Thread.Past (thread : Thread) (j : Fin n) : Prop :=
  thread = .left ∨ ∃ next, thread = .sending next ∧ j < next

section kept
variable {config : Config n m} {s t : State n m} {a : Action n m}

theorem told_of_step (h : step config s a = some t) {i : Fin n} {k : Fin m} (ht : s.Told i k) :
    t.Told i k := by
  rcases ht with hflag | ⟨packet, hp, htype⟩
  · exact .inl (clientDone_of_step h hflag)
  · rcases stays_or_received h hp with hp | hreceived
    · exact .inr ⟨packet, hp, htype⟩
    · cases hreceived with
      | @request _ _ _ v answers hv ht =>
        left
        have hv' : v.clientDoneAllRequest i = true :=
          clientDone_of_treatPacket hv (.inr ⟨rfl, htype⟩)
        rw [ht]
        exact hv'

theorem hasTold_main {i : Fin n} {c c' : Client n m} {out : Fin m → List Message}
    {events : List (Event n m)} {done : ℕ} {k : Fin m} (hn : 1 ≤ config.nRequests)
    (hcounted : Counted config c done) (hm : c.MainMove config i c' out events)
    (h : c'.HasTold config.nRequests k) : c.HasTold config.nRequests k ∨
      ∃ packet ∈ out k, packet.messageType = .clientDoneAllRequest := by
  obtain ⟨hall, hplace⟩ := h
  cases hm with
  | tell hnext hmain =>
    rcases hplace with hready | ⟨_, _, hfinished, hk⟩
    · cases hready
    · cases hfinished
      rcases Nat.lt_succ_iff_lt_or_eq.mp hk with hlt | heq
      · exact .inl ⟨hall, .inr ⟨_, _, hmain, hlt⟩⟩
      · right
        refine ⟨⟨.clientDoneAllRequest, []⟩, Network.mem_only.mpr ⟨Fin.ext heq, ?_⟩, rfl⟩
        exact List.mem_singleton_self _
  | release hnext hmain => exact .inl ⟨hall, .inr ⟨_, _, hmain, k.isLt.trans_le hnext⟩⟩
  | enquired hmain =>
    -- nothing is requested so far
    have hbodies := hcounted.bodies
    have hearly := hcounted.early (.inr hmain)
    simp only [Client.pending, hmain, Bool.toNat_false] at hbodies
    have hall' : c.nRequestedRequests = config.nRequests := hall
    omega
  | read hmain | write _ hmain =>
    simp only [Client.finish] at hall hplace
    rcases hplace with hready | ⟨_, _, hfinished, hk⟩
    · cases hready
    · cases hfinished
      rw [if_pos hall] at hk
      exact absurd hk (Nat.not_lt_zero k)
  | enquire | request | enterRead | enterWrite | sendRead | sendWrite =>
    rcases hplace with hready | ⟨_, _, hfinished, -⟩
    · cases hready
    · cases hfinished

theorem hasTold_of_step (hn : 1 ≤ config.nRequests) (hcounted : s.AllCounted config)
    (h : step config s a = some t) {i : Fin n} {k : Fin m}
    (ht : (t.client i).HasTold config.nRequests k) :
    (s.client i).HasTold config.nRequests k ∨ t.Told i k := by
  have hsame (hmain : (t.client i).main = (s.client i).main)
      (hrequested : (t.client i).nRequestedRequests = (s.client i).nRequestedRequests) :
      (s.client i).HasTold config.nRequests k := by
    rw [Client.HasTold, hmain, hrequested] at ht
    exact ht
  by_cases ha : a.quiet = true
  · have hclient := (quiet_step ha h).client i
    exact .inl (hsame hclient.main hclient.nRequestedRequests)
  · cases a with
    | mainStep j =>
      obtain ⟨⟨c, out, events⟩, hc, rfl⟩ := Option.map_eq_some_iff.mp h
      by_cases hij : i = j
      · subst hij
        have hc' : c.HasTold config.nRequests k := by simpa using ht
        rcases hasTold_main hn (hcounted i) (Client.mainMove_of_mainStep hc) hc' with
          htold | ⟨packet, hp, htype⟩
        · exact .inl htold
        · exact .inr (.inr ⟨packet, Network.mem_post.mpr (.inr ⟨rfl, hp⟩), htype⟩)
      · exact .inl (hsame (by simp [hij]) (by simp [hij]))
    | treatServerPacket j l =>
      simp only [step] at h
      split at h
      · cases h
      · next packet rest hpackets =>
        split_ifs at h
        cases h
        by_cases hij : i = j
        · subst hij
          exact .inl (hsame (by simp) (by simp))
        · exact .inl (hsame (by simp [hij]) (by simp [hij]))
    | treatRequest l j =>
      simp only [step] at h
      split at h
      · cases h
      · split_ifs at h
        obtain ⟨v, -, rfl⟩ := Option.map_eq_some_iff.mp h
        exact .inl (hsame rfl rfl)
    | sendCriticalSectionMessage | passServer | handleClientPacket | passClient | passRequests =>
      exact absurd rfl ha

theorem reached_of_step (h : step config s a = some t) {i j : Fin n} (hs : s.Reached i j) :
    t.Reached i j := by
  rcases hs with hleft | ⟨htreating, hflag⟩ | ⟨packet, hp, htype⟩
  · cases clientThreadTurn_of_step h j i with
    | same hsame =>
      left
      rw [hsame, hleft]
    | treat hstays | read hstays => exact absurd hleft hstays
    | closed hreading =>
      rw [hleft] at hreading
      cases hreading
  · cases clientThreadTurn_of_step h j i with
    | same hsame =>
      right; left
      rw [hsame]
      exact ⟨htreating, flag_of_step h hflag⟩
    | treat _ hthread => exact .inr (.inl ⟨hthread, flag_of_step h hflag⟩)
    | closed hreading =>
      rw [htreating] at hreading
      cases hreading
    | read _ hthread =>
      left
      rw [hthread, Client.afterRead, if_pos hflag]
  · rcases stays_or_received h hp with hp | hreceived
    · exact .inr (.inr ⟨packet, hp, htype⟩)
    · right; left
      cases hreceived with
      | client ht =>
        rw [ht]
        exact ⟨Function.update_self .., by simp [Client.handleClientPacket, htype]⟩

end kept

/-- Nobody who is told, or tells, is forgotten. -/
structure Ending (config : Config n m) (s : State n m) : Prop where
  told : ∀ i k, (s.client i).HasTold config.nRequests k → s.Told i k
  flag : ∀ i k, ((s.client i).serverThread k).busy = false →
    (s.client i).allClientsDoneAllRequest = true
  known : ∀ k i, ((s.server k).thread i).busy = false ∨
    ((s.client i).serverThread k).busy = false ∨
    (∃ packet ∈ s.inFlight (.server k) (.client i),
      packet.messageType = .serverReceivedAllDoneRequests) →
    ∀ j, (s.server k).clientDoneAllRequest j = true
  announced : ∀ k, (∀ j, (s.server k).clientDoneAllRequest j = true) →
    (∃ i, (s.server k).thread i = .treating) ∨ ∀ j, s.Announced k j
  closed : ∀ k i, (s.server k).thread i = .left → (s.client i).serverThread k = .left
  reached : ∀ i k j, ((s.client i).serverThread k).Past j → s.Reached i j
  listens : ∀ i j next, (s.client i).clientThread j ≠ .sending next

theorem ending_initial {config : Config n m} (hn : 1 ≤ config.nRequests) :
    Ending config (initial config) where
  told i k h := by
    have hzero : 0 = config.nRequests := h.1
    omega
  flag i k h := by cases h
  known k i h := by
    rcases h with h | h | ⟨packet, hp, -⟩
    · cases h
    · cases h
    · cases hp
  announced k h := by
    right
    intro j
    cases h j
  closed k i h := by cases h
  reached i k j h := by
    rcases h with h | ⟨next, h, -⟩ <;> cases h
  listens i j next h := by cases h

namespace Ending
variable {config : Config n m} {s t : State n m} {a : Action n m}

/-- A server's thread that has left has been left by the client first. -/
theorem not_closed (hs : Ending config s) {i : Fin n} {k : Fin m}
    (hreading : (s.client i).serverThread k = .reading) : (s.server k).thread i ≠ .left := by
  intro hleft
  have hclient := hs.closed k i hleft
  rw [hreading] at hclient
  cases hclient

theorem flag_step (hs : Ending config s) (h : step config s a = some t) (i : Fin n) (k : Fin m)
    (ht : ((t.client i).serverThread k).busy = false) :
    (t.client i).allClientsDoneAllRequest = true := by
  have hbusy {thread : Thread} (hthread : (s.client i).serverThread k = thread)
      (hfree : thread.busy = false) : (t.client i).allClientsDoneAllRequest = true := by
    apply flag_of_step h
    apply hs.flag i k
    rw [hthread, hfree]
  cases serverThreadTurn_of_step h i k with
  | same hsame => exact hbusy hsame.symm ht
  | treat _ htreating =>
    rw [htreating] at ht
    cases ht
  | informed _ _ _ _ hflag => exact hflag
  | closed hreading hleft => exact absurd hleft (hs.not_closed hreading)
  | read _ _ hthread =>
    rw [hthread, Client.afterRead] at ht
    split_ifs at ht with hflag
    · exact flag_of_step h hflag
    · cases ht
  | tell _ hsending => exact hbusy hsending rfl
  | told _ hsending => exact hbusy hsending rfl

/-- A thread for a server ends up free only by what its server has told it. -/
theorem known_step (hs : Ending config s) (hearly : ¬ s.LeavesEarly a)
    (h : step config s a = some t) (k : Fin m) (i : Fin n)
    (ht : ((t.server k).thread i).busy = false ∨ ((t.client i).serverThread k).busy = false ∨
      (∃ packet ∈ t.inFlight (.server k) (.client i),
        packet.messageType = .serverReceivedAllDoneRequests)) (j : Fin n) :
    (t.server k).clientDoneAllRequest j = true := by
  apply clientDone_of_step h
  have hserver {l : Fin n} {thread : Thread} (hthread : (s.server k).thread l = thread)
      (hfree : thread.busy = false) : (s.server k).clientDoneAllRequest j = true := by
    apply hs.known k l (.inl _)
    rw [hthread, hfree]
  have hclient {thread : Thread} (hthread : (s.client i).serverThread k = thread)
      (hfree : thread.busy = false) : (s.server k).clientDoneAllRequest j = true := by
    apply hs.known k i (.inr (.inl _))
    rw [hthread, hfree]
  rcases ht with ht | ht | ⟨packet, hp, htype⟩
  · cases requestThreadTurn_of_step h k i with
    | same hsame => exact hserver hsame.symm ht
    | treat _ htreating =>
      rw [htreating] at ht
      cases ht
    | closed _ hleft => exact hclient hleft rfl
    | read _ hthread =>
      rw [hthread] at ht
      split_ifs at ht with hall
      · exact of_decide_eq_true hall j
      · cases ht
    | tell _ hsending => exact hserver hsending rfl
    | told _ hsending => exact hserver hsending rfl
  · cases serverThreadTurn_of_step h i k with
    | same hsame => exact hclient hsame.symm ht
    | treat _ htreating =>
      rw [htreating] at ht
      cases ht
    | informed _ hp htype => exact hs.known k i (.inr (.inr ⟨_, hp, htype⟩)) j
    | closed hreading hleft => exact absurd hleft (hs.not_closed hreading)
    | read ha htreating hthread =>
      rw [hthread, Client.afterRead] at ht
      split_ifs at ht with hflag
      · subst ha
        exact absurd ⟨htreating, hflag⟩ hearly
      · cases ht
    | tell _ hsending => exact hclient hsending rfl
    | told _ hsending => exact hclient hsending rfl
  · rcases mem_or_sending h hp htype with hold | ⟨l, next, hsending⟩
    · exact hs.known k i (.inr (.inr ⟨packet, hold, htype⟩)) j
    · exact hserver hsending rfl

theorem closed_step (hs : Ending config s) (h : step config s a = some t) (k : Fin m) (i : Fin n)
    (ht : (t.server k).thread i = .left) : (t.client i).serverThread k = .left := by
  have hleft : (s.client i).serverThread k = .left := by
    cases requestThreadTurn_of_step h k i with
    | same hsame =>
      rw [hsame] at ht
      exact hs.closed k i ht
    | closed _ hleft => exact hleft
    | treat _ hthread | tell _ _ hthread | told _ _ hthread =>
      rw [hthread] at ht
      cases ht
    | read _ hthread =>
      rw [hthread] at ht
      split_ifs at ht
  exact left_of_step h hleft

theorem reached_step (hs : Ending config s) (hearly : ¬ s.LeavesEarly a)
    (h : step config s a = some t) (i : Fin n) (k : Fin m) (j : Fin n)
    (ht : ((t.client i).serverThread k).Past j) : t.Reached i j := by
  cases serverThreadTurn_of_step h i k with
  | same hsame =>
    rw [hsame] at ht
    exact reached_of_step h (hs.reached i k j ht)
  | treat _ hthread =>
    rw [hthread] at ht
    rcases ht with ht | ⟨next, ht, -⟩ <;> cases ht
  | informed _ _ _ hthread =>
    rw [hthread] at ht
    rcases ht with ht | ⟨next, ht, hlt⟩
    · cases ht
    · cases ht
      exact absurd hlt (Nat.not_lt_zero j)
  | closed hreading hleft => exact absurd hleft (hs.not_closed hreading)
  | read ha htreating hthread =>
    rw [hthread, Client.afterRead] at ht
    split_ifs at ht with hflag
    · subst ha
      exact absurd ⟨htreating, hflag⟩ hearly
    · rcases ht with ht | ⟨next, ht, -⟩ <;> cases ht
  | @tell next hnext hsending hthread hpacket =>
    rw [hthread] at ht
    rcases ht with ht | ⟨next', ht, hlt⟩
    · cases ht
    · cases ht
      rcases Nat.lt_succ_iff_lt_or_eq.mp hlt with hlt | heq
      · exact reached_of_step h (hs.reached i k j (.inr ⟨next, hsending, hlt⟩))
      · obtain rfl : j = ⟨next, hnext⟩ := Fin.ext heq
        exact .inr (.inr hpacket)
  | told hnext hsending =>
    exact reached_of_step h (hs.reached i k j (.inr ⟨_, hsending, j.isLt.trans_le hnext⟩))

/-- The announcement of a server is made, on its way or received. -/
theorem announced_of_step (hs : Ending config s) (h : step config s a = some t) {k : Fin m}
    {j : Fin n} (hsaid : s.Announced k j) : t.Announced k j := by
  rcases hsaid with hfree | ⟨packet, hp, htype⟩ | ⟨i, next, hsending, hle⟩
  · left
    cases serverThreadTurn_of_step h j k with
    | same hsame => rw [hsame, hfree]
    | treat hbusy | informed hbusy =>
      rw [hfree] at hbusy
      cases hbusy
    | closed _ _ hthread =>
      rw [hthread]
      rfl
    | read _ htreating =>
      rw [htreating] at hfree
      cases hfree
    | tell _ _ hthread =>
      rw [hthread]
      rfl
    | told _ _ hthread =>
      rw [hthread, Client.afterRead, if_pos (hs.flag j k hfree)]
      rfl
  · rcases stays_or_received h hp with hp | hreceived
    · exact .inr (.inl ⟨packet, hp, htype⟩)
    · left
      cases hreceived with
      | server ht =>
        rw [ht, (treatServerPacket_thread (s.client j) k packet).1, Function.update_self,
          if_pos htype]
        rfl
  · cases requestThreadTurn_of_step h k i with
    | same hsame => exact .inr (.inr ⟨i, next, hsame.trans hsending, hle⟩)
    | treat hbusy =>
      rw [hsending] at hbusy
      cases hbusy
    | closed hreading | read hreading =>
      rw [hsending] at hreading
      cases hreading
    | @tell next' hnext hsending' hthread hpacket =>
      obtain rfl : next = next' := by
        rw [hsending] at hsending'
        exact Thread.sending.inj hsending'
      rcases Nat.lt_or_eq_of_le hle with hlt | heq
      · exact .inr (.inr ⟨i, next + 1, hthread, hlt⟩)
      · obtain rfl : j = ⟨next, hnext⟩ := Fin.ext heq.symm
        exact .inr (.inl hpacket)
    | @told next' hnext hsending' =>
      obtain rfl : next = next' := by
        rw [hsending] at hsending'
        exact Thread.sending.inj hsending'
      exact absurd (hnext.trans hle) (Nat.not_le_of_lt j.isLt)

theorem announced_step (hs : Ending config s) (h : step config s a = some t) (k : Fin m)
    (hall : ∀ j, (t.server k).clientDoneAllRequest j = true) :
    (∃ i, (t.server k).thread i = .treating) ∨ ∀ j, t.Announced k j := by
  rcases clientsDone_or_treating h hall with hbefore | htreating
  · rcases hs.announced k hbefore with ⟨i, hi⟩ | hsaid
    · cases requestThreadTurn_of_step h k i with
      | same hsame => exact .inl ⟨i, hsame.trans hi⟩
      | treat _ hthread => exact .inl ⟨i, hthread⟩
      | closed hreading =>
        rw [hi] at hreading
        cases hreading
      | read _ hthread =>
        right
        intro j
        refine .inr (.inr ⟨i, 0, ?_, Nat.zero_le _⟩)
        rw [hthread, if_pos]
        exact decide_eq_true hbefore
      | tell _ hsending | told _ hsending =>
        rw [hi] at hsending
        cases hsending
    · exact .inr fun j => hs.announced_of_step h (hsaid j)
  · exact .inl htreating

theorem listens_step (hs : Ending config s) (h : step config s a = some t) (i j : Fin n)
    (next : ℕ) : (t.client i).clientThread j ≠ .sending next := by
  intro ht
  cases clientThreadTurn_of_step h i j with
  | same hsame => exact hs.listens i j next (hsame.symm.trans ht)
  | treat _ hthread | closed _ hthread =>
    rw [hthread] at ht
    cases ht
  | read _ hthread =>
    rw [hthread, Client.afterRead] at ht
    split_ifs at ht

end Ending

theorem ending_step {config : Config n m} {s t : State n m} {a : Action n m}
    (hn : 1 ≤ config.nRequests) (hcounted : s.AllCounted config) (hs : Ending config s)
    (hearly : ¬ s.LeavesEarly a) (h : step config s a = some t) : Ending config t where
  told i k ht := (hasTold_of_step hn hcounted h ht).elim
    (fun htold => told_of_step h (hs.told i k htold)) id
  flag := hs.flag_step h
  known := hs.known_step hearly h
  announced := hs.announced_step h
  closed := hs.closed_step h
  reached := hs.reached_step hearly h
  listens := hs.listens_step h

/-- The run lemma. -/
theorem ending_kept {config : Config n m} (hn : 1 ≤ config.nRequests)
    (hinput : ∀ i, (config.input i).length = config.nRequests) {s : State n m}
    (h : (machine config).Guarded (fun s a => ¬ s.LeavesEarly a) s) : Ending config s := by
  have hboth := h.invariant (I := fun s => Ended config s ∧ Ending config s)
    (by rintro _ rfl; exact ⟨ended_initial hinput, ending_initial hn⟩)
    (fun _ _ _ hI hearly hs => ⟨ended_step hI.1 hs, ending_step hn hI.1.counted hI.2 hearly hs⟩)
  exact hboth.2

/-! Two clients that leave all their servers before these have told them the end never tell each
other. -/

/-- Client i waits for client j, to which it will not send any more. -/
structure State.Stranded (s : State n m) (i j : Fin n) : Prop where
  server : ∀ k, (s.client i).serverThread k = .left
  client : (s.client i).clientThread j = .reading
  inFlight : s.inFlight (.client i) (.client j) = []

section stranded
variable {config : Config n m} {s t : State n m} {a : Action n m} {i j : Fin n}

/-- Clients without threads for servers send each other messages of the exclusion algorithm
only. -/
theorem inFlight_of_left (h : step config s a = some t)
    (hsend : ∀ message, a ≠ .sendCriticalSectionMessage i j message)
    (hleft : ∀ k, (s.client i).serverThread k = .left)
    (hnone : s.inFlight (.client i) (.client j) = []) :
    t.inFlight (.client i) (.client j) = [] := by
  cases a with
  | mainStep x =>
    obtain ⟨⟨c, out, events⟩, -, rfl⟩ := Option.map_eq_some_iff.mp h
    simp [Network.post_apply, hnone, toServers]
  | sendCriticalSectionMessage x y message =>
    simp only [step] at h
    split_ifs at h
    obtain ⟨c, -, rfl⟩ := Option.map_eq_some_iff.mp h
    simp only [inFlight_post, inFlight_setClient, Network.post_apply, hnone]
    split_ifs with hx
    · cases hx
      rw [List.nil_append, Network.only_of_ne]
      rintro ⟨⟩
      exact hsend message rfl
    · rfl
  | treatServerPacket x k =>
    simp only [step] at h
    split at h
    · cases h
    · split_ifs at h
      cases h
      simp [Network.put, hnone]
  | passServer x k =>
    simp only [step, passServer] at h
    split at h
    · split_ifs at h
      cases h
      exact hnone
    · cases h
      exact hnone
    · next hsending =>
      split at h
      · obtain ⟨c, -, rfl⟩ := Option.map_eq_some_iff.mp h
        have hx : i ≠ x := by
          rintro rfl
          rw [hleft k] at hsending
          cases hsending
        simp [hnone, hx]
      · cases h
        exact hnone
    · cases h
  | handleClientPacket x y place =>
    simp only [step] at h
    split at h
    · cases h
    · next packet hplace =>
      split_ifs at h
      cases h
      simp only [inFlight_setClient, inFlight_receive, Network.put]
      split_ifs with hxy
      · rw [← hxy.1, ← hxy.2, hnone, List.eraseIdx_nil]
      · exact hnone
  | passClient x y => rw [inFlight_passClient h, hnone]
  | treatRequest k x =>
    simp only [step] at h
    split at h
    · cases h
    · split_ifs at h
      obtain ⟨v, -, rfl⟩ := Option.map_eq_some_iff.mp h
      simp [Network.put, hnone]
  | passRequests k x =>
    simp only [step, passRequests] at h
    split at h
    · split_ifs at h
      cases h
      exact hnone
    · cases h
      exact hnone
    · split_ifs at h <;> cases h
      · simp [hnone]
      · exact hnone
    · cases h

theorem stranded_of_step (hij : i ≠ j) (h : step config s a = some t)
    (hsend : ∀ message, a ≠ .sendCriticalSectionMessage i j message)
    (hi : s.Stranded i j) (hj : s.Stranded j i) : t.Stranded i j where
  server k := left_of_step h (hi.server k)
  inFlight := inFlight_of_left h hsend hi.server hi.inFlight
  client := by
    cases turn_of_step h i with
    | same hsame => rw [hsame.client, hi.client]
    | @treat l packet rest hmail hbusy ht =>
      rw [ht, (treatServerPacket_thread (s.client i) l packet).2.1, hi.client]
    | closed _ _ ht | read _ _ ht | told _ _ ht =>
      rw [ht]
      exact hi.client
    | tell _ _ ht =>
      rw [ht.client]
      exact hi.client
    | @handle l place packet hplace hbusy ht =>
      have hl : j ≠ l := by
        rintro rfl
        rw [hj.inFlight] at hplace
        cases hplace
      rw [ht]
      exact (Function.update_of_ne hl _ _).trans hi.client
    | @closedClient l hreading hleft ht =>
      have hl : j ≠ l := by
        rintro rfl
        rw [hj.client] at hleft
        cases hleft
      rw [ht]
      exact (Function.update_of_ne hl _ _).trans hi.client
    | @readClient l hbusy ht =>
      have hl : j ≠ l := by
        rintro rfl
        rw [hi.client] at hbusy
        rcases hbusy with hbusy | ⟨-, hself⟩
        · cases hbusy
        · exact hij hself
      rw [ht]
      exact (Function.update_of_ne hl _ _).trans hi.client

end stranded

end DistributedME.Cluster
