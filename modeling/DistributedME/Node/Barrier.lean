import DistributedME.Library.Machine
import DistributedME.Packet
import Mathlib.Data.Fintype.Card

/-! The connections of a server. Its main thread stores the socket of every client that connects,
and each handler thread waits until there is a socket for every client. A socket that is not
there yet is recognised by the value zero. -/
namespace DistributedME.Barrier
open Library

def MAX_CLIENTS : ℕ := 5

/-- The bytes at client_sockfd. -/
abbrev Memory := Fin (4 * MAX_CLIENTS) → UInt8

def memset (memory : Memory) (value : UInt8) (count : ℕ) : Memory :=
  fun k => if k < count then value else memory k

def nClients (n : ℕ) : ℕ := min MAX_CLIENTS n

theorem byte_lt {n : ℕ} (i : Fin (nClients n)) (k : Fin 4) : 4 * i.val + k < 4 * MAX_CLIENTS := by
  have := i.isLt
  unfold nClients at this
  omega

def Memory.sockfd {n : ℕ} (memory : Memory) (i : Fin (nClients n)) : Int32 :=
  (charToInt (List.ofFn fun k : Fin 4 => memory ⟨4 * i + k, byte_lt i k⟩)).getD 0

inductive Serving (n : ℕ) where
  | accepting
  /-- In the loop over the packets of the first read. -/
  | storing (clients : List (Fin n)) (socket : Int32)
  | joining
  deriving DecidableEq, Repr

/-- A thread that has looked at the sockets before the index, or has left the barrier. -/
inductive Handler where
  | waiting (index : ℕ)
  | passed
  deriving DecidableEq, Repr

/-- What was stored is auxiliary: no thread looks at it. -/
structure Server (n : ℕ) where
  clientSockfd : Fin n → Int32
  setClients : Finset (Fin n)
  serving : Serving n
  handlers : List Handler
  stored : Fin n → Bool

inductive Action (n : ℕ) where
  /-- A connection is accepted, and read once. The packets are told by their senders. -/
  | accept (socket : Int32) (senders : List (Fin n))
  | store
  | test
  /-- A handler thread looks at one socket, or leaves the loop. -/
  | poll (thread : ℕ)
  deriving DecidableEq, Repr

namespace Server

/-- The constructors of Node and Server, in the memory that they are given. -/
def construct (n : ℕ) (memory : Memory) : Server (nClients n) where
  clientSockfd := (memset memory 0 (nClients n)).sockfd
  setClients := ∅
  serving := .accepting
  handlers := []
  stored := fun _ => false

variable {n : ℕ}

def waitForAllClientsConnected (s : Server n) (index : ℕ) : Handler :=
  if h : index < n then
    if s.clientSockfd ⟨index, h⟩ = 0 then .waiting 0 else .waiting (index + 1)
  else .passed

def step (s : Server n) : Action n → Option (Server n)
  | .accept socket senders =>
    if s.serving = .accepting ∧ 0 ≤ socket then some { s with serving := .storing senders socket }
    else none
  | .store =>
    match s.serving with
    | .storing (clientId :: clients) socket =>
      some { s with
        setClients := insert clientId s.setClients
        clientSockfd := Function.update s.clientSockfd clientId socket
        stored := Function.update s.stored clientId true
        handlers := s.handlers ++ [.waiting 0]
        serving := .storing clients socket }
    | _ => none
  | .test =>
    match s.serving with
    | .storing [] _ =>
      some { s with serving := if s.setClients.card = n then .joining else .accepting }
    | _ => none
  | .poll thread =>
    match s.handlers[thread]? with
    | some (.waiting index) =>
      some { s with handlers := s.handlers.set thread (s.waitForAllClientsConnected index) }
    | _ => none

end Server

def machine (n : ℕ) (memory : Memory) : Machine (Server (nClients n)) (Action (nClients n)) where
  init s := s = .construct n memory
  step := Server.step

private theorem sockfd_eq_zero_iff {n : ℕ} (memory : Memory) (i : Fin (nClients n)) :
    memory.sockfd i = 0 ↔ ∀ k : Fin 4, memory ⟨4 * i + k, byte_lt i k⟩ = 0 := by
  obtain ⟨x, hx⟩ : ∃ x, charToInt (List.ofFn fun k : Fin 4 => memory ⟨4 * i + k, byte_lt i k⟩) =
      some x := ⟨_, rfl⟩
  have hbytes := (intToChar_of_charToInt hx).2
  rw [List.take_of_length_le (List.length_ofFn).le] at hbytes
  rw [Memory.sockfd, hx, Option.getD_some]
  constructor
  · rintro rfl k
    have hzero : List.ofFn (fun _ : Fin 4 => (0 : UInt8)) = _ := hbytes
    exact (congrFun (List.ofFn_injective hzero) k).symm
  · intro hzero
    simp only [hzero] at hx
    exact (Option.some.inj hx).symm

/-- The bytes of the sockets that memset does not reach. It counts bytes, and not ints. -/
def Cleared (n : ℕ) (memory : Memory) : Prop :=
  ∀ k : Fin (4 * MAX_CLIENTS), nClients n ≤ k → k < 4 * nClients n → memory k = 0

theorem construct_clears_iff (n : ℕ) (memory : Memory) :
    (∀ i, (Server.construct n memory).clientSockfd i = 0) ↔ Cleared n memory := by
  simp only [Server.construct, sockfd_eq_zero_iff]
  constructor
  · intro h k hlow hhigh
    have hk := h ⟨k / 4, by omega⟩ ⟨k % 4, by omega⟩
    simp only [memset, Nat.div_add_mod] at hk
    rwa [if_neg (Nat.not_lt.mpr hlow)] at hk
  · intro h i k
    have hi := i.isLt
    unfold memset
    split_ifs with hlow
    · rfl
    · exact h _ (Nat.not_lt.mp hlow) (by simp only; omega)

namespace Server
variable {n : ℕ}

def Waits (s : Server n) : Prop := .passed ∈ s.handlers → ∀ i, s.stored i = true

def Knows (s : Server n) : Handler → Prop
  | .waiting index => ∀ i : Fin n, i < index → s.stored i = true
  | .passed => ∀ i, s.stored i = true

structure Kept (s : Server n) : Prop where
  stored : ∀ i, s.clientSockfd i ≠ 0 → s.stored i = true
  handlers : ∀ h ∈ s.handlers, s.Knows h

private theorem Knows.mono {s t : Server n} {h : Handler} (hk : s.Knows h)
    (hst : ∀ i, s.stored i = true → t.stored i = true) : t.Knows h := by
  cases h with
  | waiting index => exact fun i hi => hst i (hk i hi)
  | passed => exact fun i => hst i (hk i)

private theorem Kept.knows_wait {s : Server n} (h : s.Kept) {index : ℕ}
    (hk : s.Knows (.waiting index)) : s.Knows (s.waitForAllClientsConnected index) := by
  unfold waitForAllClientsConnected
  split_ifs with hindex hzero
  · exact fun i hi => absurd hi (Nat.not_lt_zero _)
  · intro i hi
    rcases Nat.lt_succ_iff_lt_or_eq.mp hi with hi | hi
    · exact hk i hi
    · exact h.stored i (by rwa [show i = ⟨index, hindex⟩ from Fin.ext hi])
  · exact fun i => hk i (i.isLt.trans_le (Nat.not_lt.mp hindex))

private theorem kept_step {s t : Server n} (h : s.Kept) {a : Action n} (hs : s.step a = some t) :
    t.Kept := by
  cases a with
  | accept socket senders =>
    simp only [step, Option.ite_none_right_eq_some, Option.some.injEq] at hs
    obtain ⟨-, rfl⟩ := hs
    exact ⟨h.stored, h.handlers⟩
  | store =>
    simp only [step] at hs
    split at hs
    · next clientId clients socket hserving =>
      cases hs
      have hmono (i : Fin n) (hi : s.stored i = true) :
          Function.update s.stored clientId true i = true := by
        rw [Function.update_apply]
        split_ifs
        · rfl
        · exact hi
      refine ⟨fun i hi => ?_, fun handler hmem => ?_⟩
      · simp only [Function.update_apply] at hi ⊢
        split_ifs at hi ⊢
        · rfl
        · exact h.stored i hi
      · rcases List.mem_append.mp hmem with hmem | hmem
        · exact (h.handlers handler hmem).mono hmono
        · rw [List.mem_singleton.mp hmem]
          exact fun i hi => absurd hi (Nat.not_lt_zero _)
    · cases hs
  | test =>
    simp only [step] at hs
    split at hs
    · cases hs
      exact ⟨h.stored, h.handlers⟩
    · cases hs
  | poll thread =>
    simp only [step] at hs
    split at hs
    · next index hthread =>
      cases hs
      refine ⟨h.stored, fun handler hmem => ?_⟩
      rcases List.mem_or_eq_of_mem_set hmem with hmem | rfl
      · exact h.handlers handler hmem
      · exact h.knows_wait (h.handlers _ (List.mem_of_getElem? hthread))
    · cases hs

end Server

theorem waits_of_cleared {n : ℕ} {memory : Memory} (hclear : Cleared n memory)
    {s : Server (nClients n)} (h : (machine n memory).Reachable s) : s.Waits := by
  have hkept : s.Kept := by
    refine h.invariant ?_ fun s a t hI _ hs => Server.kept_step (s := s) (t := t) (a := a) hI hs
    rintro _ rfl
    refine ⟨fun i hi => ?_, fun _ hmem => absurd hmem List.not_mem_nil⟩
    exact absurd ((construct_clears_iff n memory).mpr hclear i) hi
  exact fun hpassed => hkept.handlers _ hpassed

/-- Client g has not connected, but there is something at its place that is not zero. All clients
of the list have connected. -/
structure Server.Misled {n : ℕ} (g : Fin n) (clients : List (Fin n)) (s : Server n) : Prop where
  accepting : s.serving = .accepting
  notMem : g ∉ s.setClients
  stored : s.stored g = false
  garbage : s.clientSockfd g ≠ 0
  connected : ∀ c ∈ clients, s.clientSockfd c ≠ 0
  handlers : ∀ h ∈ s.handlers, h = .waiting 0
  length : s.handlers.length = clients.length

section misled
variable {n : ℕ} {memory : Memory} {g : Fin (nClients n)}

private theorem misled_cons {s : Server (nClients n)} (hr : (machine n memory).Reachable s)
    {clients : List (Fin (nClients n))} (h : s.Misled g clients) {c : Fin (nClients n)}
    (hc : c ≠ g) : ∃ t, (machine n memory).Reachable t ∧ t.Misled g (c :: clients) := by
  have hnotMem : g ∉ insert c s.setClients := by
    rw [Finset.mem_insert, not_or]
    exact ⟨hc.symm, h.notMem⟩
  have hcard : (insert c s.setClients).card ≠ nClients n := by
    have hlt := Finset.card_lt_univ_of_notMem hnotMem
    rw [Fintype.card_fin] at hlt
    exact hlt.ne
  let t : Server (nClients n) := { s with
    setClients := insert c s.setClients
    clientSockfd := Function.update s.clientSockfd c 1
    stored := Function.update s.stored c true
    handlers := s.handlers ++ [.waiting 0] }
  have hrun : (machine n memory).run s [.accept 1 [c], .store, .test] = some t := by
    simp [Machine.run, machine, Server.step, h.accepting, hcard, t]
  refine ⟨t, hr.run hrun, h.accepting, hnotMem, ?_, ?_, fun c' hc' => ?_, fun handler hmem => ?_,
    ?_⟩
  · exact (Function.update_of_ne hc.symm ..).trans h.stored
  · simp only [t, Function.update_of_ne hc.symm]
    exact h.garbage
  · simp only [t, Function.update_apply]
    split_ifs with heq
    · decide
    · exact h.connected c' ((List.mem_cons.mp hc').resolve_left heq)
  · rcases List.mem_append.mp hmem with hmem | hmem
    · exact h.handlers handler hmem
    · exact List.mem_singleton.mp hmem
  · simp [t, h.length]

private theorem exists_misled (hg : (Server.construct n memory).clientSockfd g ≠ 0)
    {clients : List (Fin (nClients n))} (hclients : g ∉ clients) :
    ∃ s, (machine n memory).Reachable s ∧ s.Misled g clients := by
  induction clients with
  | nil =>
    exact ⟨_, .init rfl, rfl, Finset.notMem_empty g, rfl, hg,
      fun _ hc => absurd hc List.not_mem_nil, fun _ hh => absurd hh List.not_mem_nil, rfl⟩
  | cons c clients ih =>
    obtain ⟨hc, hclients⟩ := List.ne_and_not_mem_of_not_mem_cons hclients
    obtain ⟨s, hr, h⟩ := ih hclients
    exact misled_cons hr h hc.symm

private theorem exists_passed {s : Server (nClients n)} (hr : (machine n memory).Reachable s)
    (hsockfd : ∀ i, s.clientSockfd i ≠ 0) (hfirst : s.handlers[0]? = some (.waiting 0)) :
    ∃ t, (machine n memory).Reachable t ∧ t.stored = s.stored ∧ .passed ∈ t.handlers := by
  have hpoll (index : ℕ) (hle : index ≤ nClients n) :
      ∃ handlers, (machine n memory).Reachable { s with handlers := handlers } ∧
        handlers[0]? = some (.waiting index) := by
    induction index with
    | zero => exact ⟨s.handlers, hr, hfirst⟩
    | succ index ih =>
      obtain ⟨handlers, hr, hindex⟩ := ih (Nat.le_of_succ_le hle)
      have hlt := (List.getElem?_eq_some_iff.mp hindex).1
      refine ⟨handlers.set 0 (.waiting (index + 1)), .step hr trivial (a := .poll 0) ?_, ?_⟩
      · simp only [machine, Server.step, hindex, Server.waitForAllClientsConnected]
        rw [dif_pos (Nat.lt_of_succ_le hle), if_neg (hsockfd _)]
      · exact List.getElem?_set_self hlt
  obtain ⟨handlers, hr, hindex⟩ := hpoll (nClients n) le_rfl
  have hlt := (List.getElem?_eq_some_iff.mp hindex).1
  refine ⟨{ s with handlers := handlers.set 0 .passed }, .step hr trivial (a := .poll 0) ?_, rfl,
    List.mem_set hlt _⟩
  simp [machine, Server.step, hindex, Server.waitForAllClientsConnected]

end misled

/-- Among two clients or more, a place that is not cleared lets a handler pass too early. -/
theorem waits_iff_cleared {n : ℕ} (hn : 2 ≤ nClients n) (memory : Memory) :
    (∀ s, (machine n memory).Reachable s → s.Waits) ↔ Cleared n memory := by
  refine ⟨fun h => (construct_clears_iff n memory).mp fun g => ?_, fun h _ hs =>
    waits_of_cleared h hs⟩
  by_contra hg
  let clients := (List.finRange (nClients n)).filter (· ≠ g)
  have hmem (c : Fin (nClients n)) : c ∈ clients ↔ c ≠ g := by simp [clients]
  have hclients : g ∉ clients := fun hg => (hmem g).mp hg rfl
  obtain ⟨s, hr, hs⟩ := exists_misled hg hclients
  have hsockfd (i : Fin (nClients n)) : s.clientSockfd i ≠ 0 := by
    by_cases hi : i = g
    · exact hi ▸ hs.garbage
    · exact hs.connected i ((hmem i).mpr hi)
  -- somebody else has connected, and has a handler
  obtain ⟨c, hc⟩ : ∃ c, c ≠ g := by
    have : Nontrivial (Fin (nClients n)) := Fin.nontrivial_iff_two_le.mpr hn
    exact exists_ne g
  have hlength : 0 < s.handlers.length := by
    rw [hs.length]
    exact List.length_pos_of_mem ((hmem c).mpr hc)
  have hfirst : s.handlers[0]? = some (.waiting 0) := by
    rw [List.getElem?_eq_getElem hlength, hs.handlers _ (List.getElem_mem hlength)]
  obtain ⟨t, ht, hstored, hpassed⟩ := exists_passed hr hsockfd hfirst
  have := h t ht hpassed g
  rw [hstored, hs.stored] at this
  cases this

/-- The barrier waits for everyone just when memory holds zeros in the bytes of client_sockfd
that the constructor does not write. -/
theorem barrier_waits_iff (n : ℕ) (memory : Memory) :
    ((∀ i, (Server.construct n memory).clientSockfd i = 0) ∧
      ∀ s, (machine n memory).Reachable s → s.Waits) ↔ Cleared n memory :=
  ⟨fun h => (construct_clears_iff n memory).mp h.1, fun h =>
    ⟨(construct_clears_iff n memory).mpr h, fun _ hs => waits_of_cleared h hs⟩⟩

/-- Client 0 connects, and its handler takes what is left in the place of client 1 for a socket. -/
theorem barrier_waits_fails : ¬ ∀ (n : ℕ) (memory : Memory),
    (∀ i, (Server.construct n memory).clientSockfd i = 0) ∧
      ∀ s, (machine n memory).Reachable s → s.Waits := by
  intro h
  let late : Fin (nClients 2) := ⟨1, by decide⟩
  obtain ⟨s, hr, hs⟩ := (machine 2 fun _ => 1).exists_reachable_of_run rfl
    [.accept 5 [⟨0, by decide⟩], .store, .poll 0, .poll 0, .poll 0]
    (fun s => .passed ∈ s.handlers ∧ s.stored late = false) (by decide)
  obtain ⟨hpassed, hstored⟩ := of_decide_eq_true hs
  cases hstored.symm.trans ((h 2 fun _ => 1).2 s hr hpassed late)

end DistributedME.Barrier
