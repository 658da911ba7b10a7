import DistributedME.Cluster.System
import DistributedME.Library.Potential
import Mathlib.Data.Fintype.BigOperators
import Mathlib.Data.Fintype.Sum

/-! What the packets on the connections have to do with the threads that handle them. Each step
of such a thread makes it less, with all that the thread sends. -/
namespace DistributedME.Cluster
open Library
variable {n m : ℕ}

def partyEquiv (n m : ℕ) : Fin n ⊕ Fin m ≃ Party n m where
  toFun := Sum.elim .client .server
  invFun
    | .client i => .inl i
    | .server k => .inr k
  left_inv := by rintro (i | k) <;> rfl
  right_inv := by rintro (i | k) <;> rfl

instance : Fintype (Party n m) := .ofEquiv _ (partyEquiv n m)

theorem sum_party (f : Party n m → ℕ) :
    ∑ a, f a = ∑ i, f (.client i) + ∑ k, f (.server k) := by
  rw [← (partyEquiv n m).sum_comp f, Fintype.sum_sum_type]
  rfl

/-- What a thread has to do for what it has read: it treats packets, sends n of them, or reads. -/
def Thread.work (n treating each : ℕ) : Thread → ℕ
  | .reading => 1
  | .treating => treating
  | .sending next => (n - next) * each + 2
  | .left => 0

section work
variable (n treating each next : ℕ)

@[simp] theorem work_reading : Thread.reading.work n treating each = 1 := rfl
@[simp] theorem work_treating : Thread.treating.work n treating each = treating := rfl
@[simp] theorem work_left : Thread.left.work n treating each = 0 := rfl
@[simp] theorem work_sending :
    (Thread.sending next).work n treating each = (n - next) * each + 2 := rfl

end work

/-- A server's word that all clients are done makes a client tell all clients. -/
def doneWork (n : ℕ) : ℕ := 3 * n + 2

/-- A server that has treated packets may have to send its word to all clients. -/
def treatingWork (n : ℕ) : ℕ := n * (doneWork n + 1) + 3

/-- A packet, with what is sent because of it. -/
def packetWork : Party n m → Party n m → Message → ℕ
  | .client _, .server _, _ => treatingWork n + 2
  | .client _, .client _, _ => 2
  | .server _, _, packet =>
    if packet.messageType = .serverReceivedAllDoneRequests then doneWork n else 2

def Client.threadWork (c : Client n m) : ℕ :=
  ∑ k, (c.serverThread k).work n 2 3 + ∑ j, (c.clientThread j).work n 2 3

def Server.threadWork (v : Server n) : ℕ :=
  ∑ i, (v.thread i).work n (treatingWork n) (doneWork n + 1)

/-- What is left for all threads that handle packets. -/
def State.handling (s : State n m) : ℕ :=
  s.inFlight.load packetWork + ∑ i, (s.client i).threadWork + ∑ k, (s.server k).threadWork

section updates
variable (s : State n m)

theorem handling_setClient (i : Fin n) (c : Client n m) :
    (s.setClient i c).handling + (s.client i).threadWork = s.handling + c.threadWork := by
  have hsum := sum_update (fun _ => Client.threadWork) s.client i c
  simp only [State.handling, client_setClient, server_setClient, inFlight_setClient]
  omega

theorem handling_setServer (k : Fin m) (v : Server n) :
    (s.setServer k v).handling + (s.server k).threadWork = s.handling + v.threadWork := by
  have hsum := sum_update (fun _ => Server.threadWork) s.server k v
  simp only [State.handling, client_setServer, server_setServer, inFlight_setServer]
  omega

theorem handling_post (a : Party n m) (out : Party n m → List Message) :
    (s.post a out).handling =
      s.handling + ∑ b, ((out b).map (packetWork a b)).sum := by
  simp only [State.handling, client_post, server_post, inFlight_post, Network.load_post]
  omega

theorem handling_post_only (a b : Party n m) (packets : List Message) :
    (s.post a (Network.only b packets)).handling =
      s.handling + (packets.map (packetWork a b)).sum := by
  rw [handling_post, Network.load_only (packetWork a) b packets]

/-- A packet is taken from where it is. -/
theorem handling_receive {a b : Party n m} {before behind : List Message} {packet : Message}
    (h : s.inFlight b a = before ++ packet :: behind) :
    (s.receive a b (before ++ behind)).handling + packetWork b a packet = s.handling := by
  have hput := Network.load_put (w := packetWork) s.inFlight b a (before ++ behind)
  simp only [h, List.map_append, List.map_cons, List.sum_append, List.sum_cons] at hput
  simp only [State.handling, client_receive, server_receive, inFlight_receive]
  omega

theorem handling_receive_first {a b : Party n m} {rest : List Message} {packet : Message}
    (h : s.inFlight b a = packet :: rest) :
    (s.receive a b rest).handling + packetWork b a packet = s.handling := by
  have hmail : s.inFlight b a = [] ++ packet :: rest := h
  have htake := handling_receive s hmail
  rwa [List.nil_append] at htake

end updates

section threads
variable {c : Client n m} {v : Server n}

theorem threadWork_setServerThread (c : Client n m) (k : Fin m) (thread : Thread) :
    (c.setServerThread k thread).threadWork + (c.serverThread k).work n 2 3 =
      c.threadWork + thread.work n 2 3 := by
  have hsum := sum_update (fun _ => Thread.work n 2 3) c.serverThread k thread
  simp only [Client.threadWork, Client.setServerThread]
  omega

theorem threadWork_setClientThread (c : Client n m) (j : Fin n) (thread : Thread) :
    (c.setClientThread j thread).threadWork + (c.clientThread j).work n 2 3 =
      c.threadWork + thread.work n 2 3 := by
  have hsum := sum_update (fun _ => Thread.work n 2 3) c.clientThread j thread
  simp only [Client.threadWork, Client.setClientThread]
  omega

theorem threadWork_setThread (v : Server n) (i : Fin n) (thread : Thread) :
    (v.setThread i thread).threadWork + (v.thread i).work n (treatingWork n) (doneWork n + 1) =
      v.threadWork + thread.work n (treatingWork n) (doneWork n + 1) := by
  have hsum := sum_update (fun _ => Thread.work n (treatingWork n) (doneWork n + 1)) v.thread i
    thread
  simp only [Server.threadWork, Server.setThread]
  omega

/-- A thread that can treat a packet has at least its read before it. -/
theorem one_le_work {treating each : ℕ} {thread : Thread} (h : thread.busy = true)
    (htreating : 1 ≤ treating) : 1 ≤ thread.work n treating each := by
  cases thread with
  | reading => exact Nat.le_refl 1
  | treating => exact htreating
  | sending | left => cases h

/-- The loop over the clients takes one step for each. -/
theorem sending_work {next each : ℕ} (h : next < n) (treating : ℕ) :
    (Thread.sending next).work n treating each =
      (Thread.sending (next + 1)).work n treating each + each := by
  have hleft : n - next = n - (next + 1) + 1 := by omega
  simp only [work_sending, hleft, Nat.succ_mul]
  omega

theorem threadWork_treatServerPacket (i : Fin n) {k : Fin m} (packet : Message)
    (h : (c.serverThread k).busy = true) : 1 + (c.treatServerPacket k packet).threadWork ≤
      c.threadWork + packetWork (.server k) (.client i : Party n m) packet := by
  have hbusy : 1 ≤ (c.serverThread k).work n 2 3 := one_le_work h (by omega)
  have hset := threadWork_setServerThread c k
  have hsending := hset (.sending 0)
  have htreating := hset .treating
  simp only [Client.setServerThread, work_sending, work_treating] at hsending htreating
  by_cases htype : packet.messageType = .serverReceivedAllDoneRequests
  · have hthreads : (c.treatServerPacket k packet).threadWork =
        { c with serverThread := Function.update c.serverThread k (.sending 0) }.threadWork := by
      simp only [Client.treatServerPacket, htype, Client.threadWork]
    simp only [packetWork, if_pos htype, doneWork, hthreads]
    omega
  · have hthreads : (c.treatServerPacket k packet).threadWork =
        { c with serverThread := Function.update c.serverThread k .treating }.threadWork := by
      unfold Client.treatServerPacket
      split <;> first | rfl | exact absurd ‹_› htype
    simp only [packetWork, if_neg htype, hthreads]
    omega

theorem threadWork_handleClientPacket (i : Fin n) {j : Fin n} (packet : Message)
    (h : (c.clientThread j).busy = true) : 1 + (c.handleClientPacket j packet).threadWork ≤
      c.threadWork + packetWork (.client j) (.client i : Party n m) packet := by
  have hbusy : 1 ≤ (c.clientThread j).work n 2 3 := one_le_work h (by omega)
  have htreating := threadWork_setClientThread c j .treating
  have hthreads : (c.handleClientPacket j packet).threadWork =
      (c.setClientThread j .treating).threadWork := rfl
  rw [work_treating] at htreating
  simp only [packetWork, hthreads]
  omega

/-- A server answers with at most one packet, which is no word that all is done. -/
theorem load_of_treatPacket {i : Fin n} {k : Fin m} {packet : Message} {v' : Server n}
    {out : List Message} (h : v.treatPacket i packet = some (v', out)) :
    (out.map (packetWork (.server k) (.client i : Party n m))).sum ≤ 2 ∧ v'.thread = v.thread := by
  unfold Server.treatPacket at h
  split at h
  · cases h
    exact ⟨Nat.zero_le _, rfl⟩
  · cases h
    exact ⟨Nat.le_refl _, rfl⟩
  · obtain ⟨answer, hanswer, h⟩ := Option.map_eq_some_iff.mp h
    obtain ⟨result, -, rfl⟩ := Option.map_eq_some_iff.mp hanswer
    cases h
    exact ⟨Nat.le_refl _, rfl⟩
  · obtain ⟨⟨v₁, answer⟩, hanswer, h⟩ := Option.map_eq_some_iff.mp h
    cases h
    unfold Server.handleWriteRequest at hanswer
    split at hanswer
    · cases hanswer
      exact ⟨Nat.le_refl _, rfl⟩
    · cases hanswer
  · cases h
    exact ⟨Nat.zero_le _, rfl⟩

end threads

/-- The steps of the threads that handle packets. -/
def Action.handles : Action n m → Bool
  | .mainStep _ | .sendCriticalSectionMessage _ _ _ => false
  | _ => true

/-- The thread for a client's own messages looks at the flag, which is not set. -/
def State.Idles (s : State n m) : Action n m → Prop
  | .passClient i j => i = j ∧ (s.client i).clientThread j = .reading ∧
      (s.client i).allClientsDoneAllRequest = false
  | _ => False

section steps
variable {s t : State n m}

/-- Where a thread goes after a read. -/
theorem work_afterRead (c : Client n m) :
    (if c.allClientsDoneAllRequest then Thread.left else .reading).work n 2 3 ≤ 1 := by
  split_ifs <;> simp

/-- A thread goes on, and sends what weighs as much as it has less to do. -/
theorem handling_serverThread {i : Fin n} {c : Client n m} (k : Fin m) {thread : Thread}
    {sent : ℕ} (hc : c.threadWork = (s.client i).threadWork)
    (hthread : c.serverThread k = (s.client i).serverThread k)
    (hless : sent + thread.work n 2 3 ≤ ((s.client i).serverThread k).work n 2 3) :
    sent + (s.setClient i (c.setServerThread k thread)).handling ≤ s.handling := by
  have hthreads := threadWork_setServerThread c k thread
  have hsum := handling_setClient s i (c.setServerThread k thread)
  rw [hthread] at hthreads
  omega

theorem handling_clientThread {i : Fin n} (j : Fin n) {thread : Thread}
    (hless : 1 + thread.work n 2 3 ≤ ((s.client i).clientThread j).work n 2 3) :
    1 + (s.setClient i ((s.client i).setClientThread j thread)).handling ≤ s.handling := by
  have hthreads := threadWork_setClientThread (s.client i) j thread
  have hsum := handling_setClient s i ((s.client i).setClientThread j thread)
  omega

theorem handling_thread {k : Fin m} (i : Fin n) {thread : Thread} {sent : ℕ}
    (hless : sent + thread.work n (treatingWork n) (doneWork n + 1) ≤
      ((s.server k).thread i).work n (treatingWork n) (doneWork n + 1)) :
    sent + (s.setServer k ((s.server k).setThread i thread)).handling ≤ s.handling := by
  have hthreads := threadWork_setThread (s.server k) i thread
  have hsum := handling_setServer s k ((s.server k).setThread i thread)
  omega

/-- The packet that is sent. -/
theorem handling_sent {a b : Party n m} {packet : Message}
    (h : packetWork a b packet + 1 + s.handling ≤ t.handling) :
    1 + (s.post a (Network.only b [packet])).handling ≤ t.handling := by
  rw [handling_post_only]
  simp only [List.map_cons, List.map_nil, List.sum_cons, List.sum_nil]
  omega

theorem handling_passServer {i : Fin n} {k : Fin m} (h : passServer s i k = some t) :
    1 + t.handling ≤ s.handling := by
  have hafter := work_afterRead (s.client i)
  cases hthread : (s.client i).serverThread k with
  | reading =>
    simp only [passServer, hthread] at h
    split_ifs at h
    cases h
    apply handling_serverThread k rfl rfl
    rw [hthread, work_left, work_reading]
  | treating =>
    simp only [passServer, hthread, Option.some.injEq] at h
    subst h
    apply handling_serverThread k rfl rfl
    rw [hthread, work_treating]
    omega
  | sending next =>
    simp only [passServer, hthread] at h
    by_cases hnext : next < n
    · rw [dif_pos hnext] at h
      obtain ⟨c, hc, rfl⟩ := Option.map_eq_some_iff.mp h
      obtain ⟨-, hc⟩ := Client.increaseTimestamp_eq_some hc
      have hwork : c.threadWork = (s.client i).threadWork := by
        rw [hc]
        rfl
      have hsame : c.serverThread k = (s.client i).serverThread k := by rw [hc]
      apply handling_sent
      apply handling_serverThread k hwork hsame
      rw [hthread, sending_work hnext, Nat.add_comm]
      exact Nat.le_refl _
    · rw [dif_neg hnext, Option.some.injEq] at h
      subst h
      apply handling_serverThread k rfl rfl
      rw [hthread, work_sending]
      omega
  | left =>
    simp only [passServer, hthread] at h
    cases h

theorem handling_passClient {i j : Fin n} (hidle : ¬ s.Idles (.passClient i j))
    (h : passClient s i j = some t) : 1 + t.handling ≤ s.handling := by
  have hafter := work_afterRead (s.client i)
  cases hthread : (s.client i).clientThread j with
  | reading =>
    have hleave : 1 + Thread.left.work n 2 3 ≤ ((s.client i).clientThread j).work n 2 3 := by
      rw [hthread, work_left, work_reading]
    simp only [passClient, hthread] at h
    by_cases hself : i = j
    · rw [if_pos hself, Option.some.injEq] at h
      subst h
      cases hflag : (s.client i).allClientsDoneAllRequest with
      | false => exact absurd ⟨hself, hthread, hflag⟩ hidle
      | true => exact handling_clientThread j hleave
    · rw [if_neg hself] at h
      split_ifs at h
      cases h
      exact handling_clientThread j hleave
  | treating =>
    simp only [passClient, hthread, Option.some.injEq] at h
    subst h
    apply handling_clientThread j
    rw [hthread, work_treating]
    omega
  | sending | left =>
    simp only [passClient, hthread] at h
    cases h

theorem handling_passRequests {k : Fin m} {i : Fin n} (h : passRequests s k i = some t) :
    1 + t.handling ≤ s.handling := by
  cases hthread : (s.server k).thread i with
  | reading =>
    simp only [passRequests, hthread] at h
    split_ifs at h
    cases h
    apply handling_thread i
    rw [hthread, work_left, work_reading]
  | treating =>
    simp only [passRequests, hthread, Option.some.injEq] at h
    subst h
    apply handling_thread i
    rw [hthread, work_treating, treatingWork]
    split_ifs
    · rw [work_sending, Nat.sub_zero]
      omega
    · rw [work_reading]
      omega
  | sending next =>
    simp only [passRequests, hthread] at h
    split_ifs at h with hnext
    · cases h
      apply handling_sent
      apply handling_thread i
      rw [hthread, sending_work hnext, Nat.add_comm]
      exact Nat.le_refl _
    · cases h
      apply handling_thread i
      rw [hthread, work_sending, work_reading]
      omega
  | left =>
    simp only [passRequests, hthread] at h
    cases h

theorem handling_of_step {config : Config n m} {a : Action n m} (ha : a.handles = true)
    (hidle : ¬ s.Idles a) (h : step config s a = some t) : 1 + t.handling ≤ s.handling := by
  cases a with
  | treatServerPacket i k =>
    simp only [step] at h
    split at h
    · cases h
    · next packet rest hmail =>
      split_ifs at h with hbusy
      cases h
      have htake := handling_receive_first s hmail
      have hset := handling_setClient (s.receive (.client i) (.server k) rest) i
        ((s.client i).treatServerPacket k packet)
      have hthreads := threadWork_treatServerPacket i packet hbusy
      rw [client_receive] at hset
      omega
  | handleClientPacket i j place =>
    simp only [step] at h
    split at h
    · cases h
    · next packet hplace =>
      split_ifs at h with hbusy
      cases h
      obtain ⟨before, behind, hmail, herase, -⟩ := Network.split_at hplace
      have htake := handling_receive s hmail
      have hset := handling_setClient (s.receive (.client i) (.client j) (before ++ behind)) i
        ((s.client i).handleClientPacket j packet)
      have hthreads := threadWork_handleClientPacket i packet hbusy.1
      rw [client_receive] at hset
      rw [herase]
      omega
  | treatRequest k i =>
    simp only [step] at h
    split at h
    · cases h
    · next packet rest hmail =>
      split_ifs at h with hbusy
      obtain ⟨⟨v, out⟩, hv, rfl⟩ := Option.map_eq_some_iff.mp h
      have htake := handling_receive_first s hmail
      have hset := handling_setServer (s.receive (.server k) (.client i) rest) k
        (v.setThread i .treating)
      obtain ⟨hload, hthread⟩ := load_of_treatPacket (i := i) (k := k) hv
      have hthreads := threadWork_setThread v i .treating
      have hpos : 1 ≤ ((s.server k).thread i).work n (treatingWork n) (doneWork n + 1) :=
        one_le_work hbusy (Nat.le_add_left 1 _)
      have hsame : v.threadWork = (s.server k).threadWork := by
        rw [Server.threadWork, hthread, Server.threadWork]
      rw [hthread, work_treating] at hthreads
      rw [server_receive] at hset
      rw [handling_post_only]
      simp only [packetWork] at htake
      dsimp only at hload ⊢
      omega
  | passServer i k => exact handling_passServer h
  | passClient i j => exact handling_passClient hidle h
  | passRequests k i => exact handling_passRequests h
  | mainStep | sendCriticalSectionMessage => cases ha

/-- What the main thread sends is for servers. -/
theorem handling_of_main {config : Config n m} {i : Fin n} {c : Client n m}
    {out : Fin m → List Message} {events : List (Event n m)}
    (h : (s.client i).MainMove config i c out events) :
    (((s.setClient i c).post (.client i) (toServers out)).record events).handling =
      s.handling + ∑ k, ((out k).map (packetWork (.client i) (.server k))).sum := by
  have hthreads : c.threadWork = (s.client i).threadWork := by
    cases h <;> rfl
  have hset := handling_setClient s i c
  have hpost := handling_post (s.setClient i c) (.client i) (toServers out)
  rw [sum_party] at hpost
  simp only [toServers, List.map_nil, List.sum_nil, Finset.sum_const_zero, Nat.zero_add] at hpost
  have hrecord : (((s.setClient i c).post (.client i) (toServers out)).record events).handling =
      ((s.setClient i c).post (.client i) (toServers out)).handling := rfl
  omega

theorem handling_of_send {config : Config n m} {i j : Fin n} {packet : Message}
    (h : step config s (.sendCriticalSectionMessage i j packet) = some t) :
    t.handling = s.handling + 2 := by
  simp only [step] at h
  split_ifs at h
  obtain ⟨c, hc, rfl⟩ := Option.map_eq_some_iff.mp h
  obtain ⟨-, hc⟩ := Client.increaseTimestamp_eq_some hc
  have hthreads : c.threadWork = (s.client i).threadWork := by
    rw [hc]
    rfl
  have hset := handling_setClient s i c
  rw [handling_post_only]
  simp only [packetWork, List.map_cons, List.map_nil, List.sum_cons, List.sum_nil]
  omega

end steps

end DistributedME.Cluster
