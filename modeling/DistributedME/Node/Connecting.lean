import DistributedME.Files
import DistributedME.Library.Machine
import DistributedME.Library.Network
import Mathlib.Data.Finset.Max
import Mathlib.Data.Fintype.Card
import Mathlib.Data.List.Lex
import Mathlib.Data.Prod.Lex

/-! How clients connect to each other. Everybody listens already, so that a connect completes
at once and puts the connection into the backlog of the listener. -/
namespace DistributedME.Connecting
open Library

/-- An address as a node keeps it. The string ends at its first zero byte. -/
structure Address where
  ipAddr : Bytes
  port : ℤ
  nonzero : (0 : UInt8) ∉ ipAddr

/-- The first difference decides, and the end of a string counts as a zero. -/
def strcmp : Bytes → Bytes → ℤ
  | [], [] => 0
  | [], y :: _ => -y.toNat
  | x :: _, [] => x.toNat
  | x :: xs, y :: ys => if x = y then strcmp xs ys else x.toNat - y.toNat

def Address.compare (own other : Address) : ℤ :=
  let cmpIpAddr := strcmp own.ipAddr other.ipAddr
  if cmpIpAddr ≠ 0 then cmpIpAddr
  else if own.port = other.port then 0
  else if own.port < other.port then -1
  else 1

/-- The end of a connection that connected, and the one that accepted. -/
inductive Side where
  | active
  | passive
  deriving DecidableEq, Repr

structure Socket where
  connection : ℕ
  side : Side
  deriving DecidableEq, Repr

/-- The echo is the sender of the CLIENT_ECHO that was written to the connection. -/
structure Connection (n : ℕ) where
  connector : Fin n
  acceptor : Fin n
  echo : Option (Fin n)
  deriving DecidableEq, Repr

/-- Where connectToOtherClient is: at its start, before the CLIENT_ECHO is sent, or before one
is read. -/
inductive Phase where
  | looping
  | echoing
  | reading (connection : ℕ)
  deriving DecidableEq, Repr

/-- The index is the variable of the loop of connectToOtherClients. The number of times that
an entry was assigned is auxiliary. -/
structure State (n : ℕ) where
  index : Fin n → ℕ
  phase : Fin n → Phase
  clientSockfd : Fin n → Fin n → Option Socket
  assigned : Fin n → Fin n → ℕ
  connections : List (Connection n)
  backlog : Fin n → List ℕ

/-- Client i takes its next step, or takes the connection at a place of its backlog. -/
inductive Action (n : ℕ) where
  | proceed (i : Fin n)
  | acceptNewSocket (i : Fin n) (place : ℕ)
  deriving DecidableEq, Repr

variable {n : ℕ}

def initial (n : ℕ) : State n where
  index _ := 0
  phase _ := .looping
  clientSockfd _ _ := none
  assigned _ _ := 0
  connections := []
  backlog _ := []

namespace State

/-- The loop goes on to the next index. -/
def goOn (s : State n) (i : Fin n) : State n :=
  { s with
    index := Function.update s.index i (s.index i + 1)
    phase := Function.update s.phase i .looping }

def assign (s : State n) (i j : Fin n) (socket : Socket) : State n :=
  { s with
    clientSockfd := Function.update s.clientSockfd i
      (Function.update (s.clientSockfd i) j (some socket))
    assigned := Function.update s.assigned i
      (Function.update (s.assigned i) j (s.assigned i j + 1)) }

/-- The active branch of connectToOtherClient up to the assignment. -/
def connect (s : State n) (i k : Fin n) : State n :=
  { s.assign i k ⟨s.connections.length, .active⟩ with
    phase := Function.update s.phase i .echoing
    connections := s.connections ++ [⟨i, k, none⟩]
    backlog := Function.update s.backlog k (s.backlog k ++ [s.connections.length]) }

/-- CLIENT_ECHO goes to a connection. -/
def echo (s : State n) (i : Fin n) (c : ℕ) : State n :=
  { s with connections := s.connections.modify c fun x => { x with echo := some i } }

def accept (s : State n) (i : Fin n) (c place : ℕ) : State n :=
  { s with
    phase := Function.update s.phase i (.reading c)
    backlog := Function.update s.backlog i ((s.backlog i).eraseIdx place) }

end State

/-- A client connects to the clients of greater addresses, accepts anybody at the index of any
other client, and files a connection that it accepted under the sender of the echo. -/
def step (address : Fin n → Address) (s : State n) : Action n → Option (State n)
  | .proceed i =>
    if h : s.index i < n then
      let k : Fin n := ⟨s.index i, h⟩
      match s.phase i with
      | .looping =>
        if k = i then some (s.goOn i)
        else if (address i).compare (address k) < 0 then some (s.connect i k)
        else none
      | .echoing => (s.clientSockfd i k).map fun socket => (s.echo i socket.connection).goOn i
      | .reading c => (s.connections[c]?.bind Connection.echo).map fun sender =>
        (s.assign i sender ⟨c, .passive⟩).goOn i
    else none
  | .acceptNewSocket i place =>
    if h : s.index i < n then
      let k : Fin n := ⟨s.index i, h⟩
      if s.phase i = .looping ∧ k ≠ i ∧ ¬ (address i).compare (address k) < 0 then
        (s.backlog i)[place]?.map fun c => s.accept i c place
      else none
    else none

def machine (address : Fin n → Address) : Machine (State n) (Action n) where
  init s := s = initial n
  step := step address

/-- The loop of client i has ended. -/
def State.Finished (s : State n) (i : Fin n) : Prop := n ≤ s.index i

instance (s : State n) (i : Fin n) : Decidable (s.Finished i) :=
  inferInstanceAs (Decidable (n ≤ s.index i))

/-- One connection from client j to client i, and its two ends. -/
structure State.Joined (s : State n) (j i : Fin n) (c : ℕ) : Prop where
  connection : ∃ x, s.connections[c]? = some x ∧ x.connector = j ∧ x.acceptor = i
  active : s.clientSockfd j i = some ⟨c, .active⟩
  passive : s.clientSockfd i j = some ⟨c, .passive⟩

/-- Every two clients share one connection, there is no other one, and every entry was assigned
once. -/
structure State.Paired (s : State n) : Prop where
  joined : ∀ i j, i ≠ j → ∃ c, s.Joined i j c ∨ s.Joined j i c
  backlog : ∀ i, s.backlog i = []
  connections : ∀ c x, s.connections[c]? = some x → s.Joined x.connector x.acceptor c
  assigned : ∀ i j, i ≠ j → s.assigned i j = 1

/-- Lexicographic order on the bytes, then on the port. -/
def Address.key (a : Address) : List ℕ ×ₗ ℤ := toLex (a.ipAddr.map UInt8.toNat, a.port)

theorem strcmp_eq_zero {x y : Bytes} (hx : (0 : UInt8) ∉ x) (hy : (0 : UInt8) ∉ y) :
    strcmp x y = 0 ↔ x = y := by
  induction x generalizing y with
  | nil =>
    cases y with
    | nil => exact iff_of_true rfl rfl
    | cons b y =>
      have hb : b ≠ 0 := fun hb => hy (hb ▸ List.mem_cons_self)
      have hpos : b.toNat ≠ 0 := fun h => hb (UInt8.toNat_inj.mp h)
      simp only [strcmp, reduceCtorEq, iff_false]
      omega
  | cons a x ih =>
    have ha : a ≠ 0 := fun ha => hx (ha ▸ List.mem_cons_self)
    have hpos : a.toNat ≠ 0 := fun h => ha (UInt8.toNat_inj.mp h)
    cases y with
    | nil =>
      simp only [strcmp, reduceCtorEq, iff_false]
      omega
    | cons b y =>
      rw [strcmp, List.cons.injEq]
      split_ifs with hab
      · rw [ih (fun h => hx (List.mem_cons_of_mem a h)) (fun h => hy (List.mem_cons_of_mem b h))]
        exact (and_iff_right hab).symm
      · have hne : a.toNat ≠ b.toNat := fun h => hab (UInt8.toNat_inj.mp h)
        refine iff_of_false (by omega) fun h => hab h.1

theorem strcmp_neg {x y : Bytes} (hy : (0 : UInt8) ∉ y) :
    strcmp x y < 0 ↔ x.map UInt8.toNat < y.map UInt8.toNat := by
  induction x generalizing y with
  | nil =>
    cases y with
    | nil => exact iff_of_false (lt_irrefl 0) (lt_irrefl _)
    | cons b y =>
      have hb : b ≠ 0 := fun hb => hy (hb ▸ List.mem_cons_self)
      have hpos : b.toNat ≠ 0 := fun h => hb (UInt8.toNat_inj.mp h)
      refine iff_of_true ?_ (List.nil_lt_cons _ _)
      simp only [strcmp]
      omega
  | cons a x ih =>
    cases y with
    | nil =>
      refine iff_of_false ?_ (List.not_lt_nil _)
      simp only [strcmp]
      omega
    | cons b y =>
      rw [strcmp, List.map_cons, List.map_cons, List.cons_lt_cons_iff]
      split_ifs with hab
      · rw [ih fun h => hy (List.mem_cons_of_mem b h), hab]
        simp
      · have hne : a.toNat ≠ b.toNat := fun h => hab (UInt8.toNat_inj.mp h)
        simp only [hne, false_and, or_false]
        omega

/-- The comparison is a strict order on addresses. -/
theorem compare_neg (a b : Address) : a.compare b < 0 ↔ a.key < b.key := by
  rw [Address.key, Address.key, Prod.Lex.toLex_lt_toLex, Address.compare]
  have hmap : a.ipAddr.map UInt8.toNat = b.ipAddr.map UInt8.toNat ↔ a.ipAddr = b.ipAddr :=
    (List.map_injective_iff.mpr fun _ _ h => UInt8.toNat_inj.mp h).eq_iff
  rw [← strcmp_neg b.nonzero, hmap, ← strcmp_eq_zero a.nonzero b.nonzero]
  split_ifs <;> omega

theorem key_injective {a b : Address} (h : a.key = b.key) : a = b := by
  obtain ⟨hip, hport⟩ := Prod.mk.inj (toLex.injective h)
  obtain ⟨x, p, hx⟩ := a
  obtain ⟨y, q, hy⟩ := b
  obtain rfl : x = y := List.map_injective_iff.mpr (fun _ _ h => UInt8.toNat_inj.mp h) hip
  obtain rfl : p = q := hport
  rfl

theorem getElem?_concat_eq_some {α : Type*} {l : List α} {a x : α} {c : ℕ} :
    (l ++ [a])[c]? = some x ↔ l[c]? = some x ∨ c = l.length ∧ x = a := by
  rcases lt_trichotomy c l.length with hlt | rfl | hgt
  · rw [List.getElem?_append_left hlt]
    simp [hlt.ne]
  · simp [eq_comm]
  · rw [List.getElem?_eq_none (by simp; omega), List.getElem?_eq_none hgt.le]
    simp [hgt.ne']

variable {address : Fin n → Address}

/-- Client i connects to client k. -/
def Smaller (address : Fin n → Address) (i k : Fin n) : Prop := (address i).compare (address k) < 0

instance (i k : Fin n) : Decidable (Smaller address i k) :=
  inferInstanceAs (Decidable ((address i).compare (address k) < 0))

theorem Smaller.asymm {i k : Fin n} (h : Smaller address i k) : ¬ Smaller address k i := by
  intro h'
  exact lt_asymm ((compare_neg _ _).mp h) ((compare_neg _ _).mp h')

theorem Smaller.ne {i k : Fin n} (h : Smaller address i k) : i ≠ k := by
  rintro rfl
  exact h.asymm h

theorem smaller_or (ha : Function.Injective address) {i k : Fin n} (hik : i ≠ k) :
    Smaller address i k ∨ Smaller address k i := by
  rcases lt_trichotomy (address i).key (address k).key with h | h | h
  · exact .inl ((compare_neg _ _).mpr h)
  · exact absurd (ha (key_injective h)) hik
  · exact .inr ((compare_neg _ _).mpr h)

namespace State

theorem assign_clientSockfd (s : State n) (i k : Fin n) (socket : Socket) (j l : Fin n) :
    (s.assign i k socket).clientSockfd j l =
      if j = i ∧ l = k then some socket else s.clientSockfd j l :=
  update_update_apply _ _ _ _ _ _

theorem assign_assigned (s : State n) (i k : Fin n) (socket : Socket) (j l : Fin n) :
    (s.assign i k socket).assigned j l = s.assigned j l + if j = i ∧ l = k then 1 else 0 := by
  refine (update_update_apply _ _ _ _ _ _).trans ?_
  split_ifs with h
  · rw [h.1, h.2]
  · rfl

/-- Client i has connected to client k. -/
def Reached (s : State n) (i k : Fin n) : Prop :=
  k.val < s.index i ∨ k.val = s.index i ∧ s.phase i = .echoing

/-- A connection waits in the backlog, is being read, or is filed. -/
inductive Placed (s : State n) (c : ℕ) (x : Connection n) : Prop
  | waits : c ∈ s.backlog x.acceptor → s.phase x.acceptor ≠ .reading c →
      s.clientSockfd x.acceptor x.connector = none → Placed s c x
  | read : c ∉ s.backlog x.acceptor → s.phase x.acceptor = .reading c →
      s.clientSockfd x.acceptor x.connector = none → Placed s c x
  | filed : c ∉ s.backlog x.acceptor → s.phase x.acceptor ≠ .reading c →
      s.clientSockfd x.acceptor x.connector = some ⟨c, .passive⟩ → Placed s c x

theorem Placed.congr {s t : State n} {c : ℕ} {x y : Connection n} (h : s.Placed c x)
    (hb : c ∈ t.backlog y.acceptor ↔ c ∈ s.backlog x.acceptor)
    (hp : t.phase y.acceptor = .reading c ↔ s.phase x.acceptor = .reading c)
    (hs : t.clientSockfd y.acceptor y.connector = s.clientSockfd x.acceptor x.connector) :
    t.Placed c y := by
  cases h with
  | waits hwaits hread hnone => exact .waits (hb.mpr hwaits) (mt hp.mp hread) (hs.trans hnone)
  | read hwaits hread hnone => exact .read (mt hb.mp hwaits) (hp.mpr hread) (hs.trans hnone)
  | filed hwaits hread hsome => exact .filed (mt hb.mp hwaits) (mt hp.mp hread) (hs.trans hsome)

theorem Placed.sockfd_of_waiting {s : State n} {c : ℕ} {x : Connection n} (h : s.Placed c x)
    (hmem : c ∈ s.backlog x.acceptor) : s.clientSockfd x.acceptor x.connector = none := by
  cases h with
  | waits _ _ hnone => exact hnone
  | read hnot _ _ | filed hnot _ _ => exact absurd hmem hnot

/-- The connection that is being read has left the backlog, and is not filed. -/
theorem Placed.of_reading {s : State n} {c : ℕ} {x : Connection n} (h : s.Placed c x)
    (hread : s.phase x.acceptor = .reading c) :
    c ∉ s.backlog x.acceptor ∧ s.clientSockfd x.acceptor x.connector = none := by
  cases h with
  | waits _ hnot _ | filed _ hnot _ => exact absurd hread hnot
  | read hnotin _ hnone => exact ⟨hnotin, hnone⟩

/-- What holds of a connection. -/
structure Link (address : Fin n → Address) (s : State n) (c : ℕ) (x : Connection n) : Prop where
  smaller : Smaller address x.connector x.acceptor
  held : s.clientSockfd x.connector x.acceptor = some ⟨c, .active⟩
  echo : x.echo = some x.connector ∨
    x.echo = none ∧ s.phase x.connector = .echoing ∧ x.acceptor.val = s.index x.connector
  placed : s.Placed c x

/-- A socket of client i for client k belongs to a connection between them. -/
def Owns (s : State n) (i k : Fin n) (socket : Socket) : Prop :=
  ∃ x, s.connections[socket.connection]? = some x ∧
    match socket.side with
    | .active => x.connector = i ∧ x.acceptor = k
    | .passive => x.connector = k ∧ x.acceptor = i

/-- The smaller clients that client i has filed, and those whose index it has passed. -/
def filed (address : Fin n → Address) (s : State n) (i : Fin n) : Finset (Fin n) :=
  {j | Smaller address j i ∧ s.clientSockfd i j ≠ none}

def passed (address : Fin n → Address) (s : State n) (i : Fin n) : Finset (Fin n) :=
  {j | Smaller address j i ∧ j.val < s.index i}

section goOn
variable {s : State n} {i j : Fin n}

@[simp] theorem goOn_index_self (s : State n) (i : Fin n) :
    (s.goOn i).index i = s.index i + 1 := Function.update_self _ _ _

theorem goOn_index_of_ne (s : State n) (h : j ≠ i) : (s.goOn i).index j = s.index j :=
  Function.update_of_ne h _ _

@[simp] theorem goOn_phase_self (s : State n) (i : Fin n) : (s.goOn i).phase i = .looping :=
  Function.update_self _ _ _

theorem goOn_phase_of_ne (s : State n) (h : j ≠ i) : (s.goOn i).phase j = s.phase j :=
  Function.update_of_ne h _ _

/-- A client in the middle of a connection is another one. -/
theorem ne_of_goOn_phase {p : Phase} (hj : (s.goOn i).phase j = p) (hp : p ≠ .looping) :
    j ≠ i := by
  rintro rfl
  exact hp (hj.symm.trans (goOn_phase_self s j))

theorem goOn_phase_iff {p : Phase} (hp : p ≠ .looping) (hi : s.phase i ≠ p) :
    (s.goOn i).phase j = p ↔ s.phase j = p := by
  by_cases hj : j = i
  · rw [hj, goOn_phase_self]
    exact iff_of_false hp.symm hi
  · rw [goOn_phase_of_ne s hj]

/-- No client is reached by going on, unless its CLIENT_ECHO was sent. -/
theorem reached_goOn (hi : ∀ l : Fin n, l.val = s.index i → Smaller address i l →
    s.phase i = .echoing) {l : Fin n} (hjl : Smaller address j l) :
    (s.goOn i).Reached j l ↔ s.Reached j l := by
  rw [Reached, Reached]
  by_cases hj : j = i
  · subst hj
    have hecho (hl : l.val = s.index j) := hi l hl hjl
    rw [goOn_index_self, goOn_phase_self, Nat.lt_succ_iff_lt_or_eq]
    simp only [reduceCtorEq, and_false, or_false]
    exact or_congr_right (and_iff_left_of_imp hecho).symm
  · rw [goOn_index_of_ne s hj, goOn_phase_of_ne s hj]

theorem passed_goOn_of_not (hi : ∀ l : Fin n, l.val = s.index i → ¬ Smaller address l i) :
    (s.goOn i).passed address j = s.passed address j := by
  refine Finset.filter_congr fun l _ => and_congr_right fun hlj => ?_
  by_cases hj : j = i
  · subst hj
    have hne : l.val ≠ s.index j := fun hl => hi l hl hlj
    rw [goOn_index_self]
    omega
  · rw [goOn_index_of_ne s hj]

theorem passed_goOn_of_ne (hj : j ≠ i) : (s.goOn i).passed address j = s.passed address j := by
  refine Finset.filter_congr fun l _ => ?_
  rw [goOn_index_of_ne s hj]

/-- The index of a smaller client is passed. -/
theorem passed_goOn {k : Fin n} (hk : k.val = s.index i) (hki : Smaller address k i) :
    (s.goOn i).passed address i = insert k (s.passed address i) := by
  ext l
  simp only [passed, Finset.mem_filter, Finset.mem_univ, true_and, Finset.mem_insert,
    goOn_index_self]
  by_cases hl : l = k
  · simp [hl, hki, hk]
  · have hne : l.val ≠ s.index i := fun hval => hl (Fin.ext (hval.trans hk.symm))
    simp only [hl, false_or]
    exact and_congr_right fun _ => by omega

end goOn

section connect
variable (s : State n) (i k : Fin n)

theorem connect_clientSockfd (j l : Fin n) : (s.connect i k).clientSockfd j l =
    if j = i ∧ l = k then some ⟨s.connections.length, .active⟩ else s.clientSockfd j l :=
  assign_clientSockfd s i k _ j l

@[simp] theorem connect_phase_self : (s.connect i k).phase i = .echoing :=
  Function.update_self _ _ _

theorem connect_phase_of_ne {j : Fin n} (hj : j ≠ i) : (s.connect i k).phase j = s.phase j :=
  Function.update_of_ne hj _ _

theorem mem_connect_backlog {j : Fin n} {c : ℕ} : c ∈ (s.connect i k).backlog j ↔
    c ∈ s.backlog j ∨ j = k ∧ c = s.connections.length := by
  simp only [State.connect, Function.update_apply]
  split_ifs with hj <;> simp [hj]

theorem connect_connections {c : ℕ} {x : Connection n} :
    (s.connect i k).connections[c]? = some x ↔
      s.connections[c]? = some x ∨ c = s.connections.length ∧ x = ⟨i, k, none⟩ :=
  getElem?_concat_eq_some

end connect

structure Kept (address : Fin n → Address) (s : State n) : Prop where
  link : ∀ c x, s.connections[c]? = some x → s.Link address c x
  owns : ∀ i k socket, s.clientSockfd i k = some socket → s.Owns i k socket
  reached : ∀ i k, Smaller address i k → (s.clientSockfd i k ≠ none ↔ s.Reached i k)
  queued : ∀ i, ∀ c ∈ s.backlog i, ∃ x, s.connections[c]? = some x ∧ x.acceptor = i
  nodup : ∀ i, (s.backlog i).Nodup
  reading : ∀ i c, s.phase i = .reading c →
    (∃ x, s.connections[c]? = some x ∧ x.acceptor = i) ∧
      ∃ k : Fin n, k.val = s.index i ∧ Smaller address k i
  echoing : ∀ i, s.phase i = .echoing → ∃ k : Fin n, k.val = s.index i ∧ Smaller address i k
  counted : ∀ i, (s.filed address i).card = (s.passed address i).card
  assigned : ∀ i k, s.assigned i k = (s.clientSockfd i k).isSome.toNat

namespace Kept
variable {s : State n}

theorem initial (address : Fin n → Address) : (Connecting.initial n).Kept address where
  link c x h := by simp [Connecting.initial] at h
  owns i k socket h := nomatch h
  reached i k _ := by simp [Connecting.initial, Reached]
  queued i c h := nomatch h
  nodup i := List.nodup_nil
  reading i c h := nomatch h
  echoing i h := nomatch h
  counted i := by simp [Connecting.initial, filed, passed]
  assigned i k := rfl

section goOn
variable {u : State n} {i j : Fin n}

/-- Going on keeps what holds of the clients in the middle of a connection. -/
theorem echoing_goOn (h : s.Kept address) (hphase : u.phase = s.phase) (hindex : u.index = s.index)
    (hj : (u.goOn i).phase j = .echoing) :
    ∃ k : Fin n, k.val = (u.goOn i).index j ∧ Smaller address j k := by
  have hji := ne_of_goOn_phase hj (by simp)
  rw [goOn_phase_of_ne u hji, hphase] at hj
  rw [goOn_index_of_ne u hji, hindex]
  exact h.echoing j hj

theorem reading_goOn (h : s.Kept address) (hphase : u.phase = s.phase) (hindex : u.index = s.index)
    {c : ℕ} (hj : (u.goOn i).phase j = .reading c) :
    (∃ x, s.connections[c]? = some x ∧ x.acceptor = j) ∧
      ∃ k : Fin n, k.val = (u.goOn i).index j ∧ Smaller address k j := by
  have hji := ne_of_goOn_phase hj (by simp)
  rw [goOn_phase_of_ne u hji, hphase] at hj
  rw [goOn_index_of_ne u hji, hindex]
  exact h.reading j c hj

end goOn

/-- Every assignment is counted. -/
theorem assigned_assign (h : s.Kept address) {i k : Fin n} (hnone : s.clientSockfd i k = none)
    (socket : Socket) (j l : Fin n) : (s.assign i k socket).assigned j l =
      ((s.assign i k socket).clientSockfd j l).isSome.toNat := by
  rw [assign_assigned, assign_clientSockfd, h.assigned]
  split_ifs with hjl
  · rw [hjl.1, hjl.2, hnone]
    rfl
  · rfl

/-- A client passes its own index. -/
theorem skip (h : s.Kept address) {i : Fin n} (hi : i.val = s.index i)
    (hlooping : s.phase i = .looping) : (s.goOn i).Kept address := by
  have hself {l : Fin n} (hl : l.val = s.index i) : l = i := Fin.ext (hl.trans hi.symm)
  have hreading (j : Fin n) (c : ℕ) : (s.goOn i).phase j = .reading c ↔ s.phase j = .reading c :=
    goOn_phase_iff (by simp) (by simp [hlooping])
  have hechoing (j : Fin n) : (s.goOn i).phase j = .echoing ↔ s.phase j = .echoing :=
    goOn_phase_iff (by simp) (by simp [hlooping])
  have hindex {j : Fin n} {p : Phase} (hj : (s.goOn i).phase j = p) (hp : p ≠ .looping) :
      (s.goOn i).index j = s.index j := goOn_index_of_ne s (ne_of_goOn_phase hj hp)
  refine ⟨fun c x hc => ?_, h.owns, fun j k hjk => ?_, h.queued, h.nodup,
    fun _ _ => h.reading_goOn rfl rfl, fun _ => h.echoing_goOn rfl rfl, fun j => ?_, h.assigned⟩
  · obtain ⟨hsmaller, hheld, hecho, hplaced⟩ := h.link c x hc
    refine ⟨hsmaller, hheld, hecho.imp_right ?_, hplaced.congr .rfl (hreading _ _) rfl⟩
    rintro ⟨hnone, hechoes, hk⟩
    have hechoes := (hechoing _).mpr hechoes
    exact ⟨hnone, hechoes, hk.trans (hindex hechoes (by simp)).symm⟩
  · refine (h.reached j k hjk).trans (reached_goOn (fun l hl hil => ?_) hjk).symm
    exact absurd (hself hl).symm hil.ne
  · refine (h.counted j).trans (congrArg Finset.card (passed_goOn_of_not fun l hl hli => ?_)).symm
    exact hli.ne (hself hl)

theorem sockfd_of_index (h : s.Kept address) {i k : Fin n} (hk : k.val = s.index i)
    (hphase : s.phase i ≠ .echoing) (hik : Smaller address i k) : s.clientSockfd i k = none := by
  by_contra hsome
  rcases (h.reached i k hik).mp hsome with hlt | ⟨-, hechoing⟩
  · exact absurd hk hlt.ne
  · exact hphase hechoing

/-- Nobody has filed a client that did not connect. -/
theorem sockfd_of_none (h : s.Kept address) {i k : Fin n} (hik : Smaller address i k)
    (hnone : s.clientSockfd i k = none) : s.clientSockfd k i = none := by
  by_contra hsome
  obtain ⟨⟨c, side⟩, hsocket⟩ := Option.ne_none_iff_exists'.mp hsome
  obtain ⟨x, hx, hside⟩ := h.owns k i _ hsocket
  have hlink := h.link c x hx
  cases side with
  | active =>
    obtain ⟨rfl, rfl⟩ := hside
    exact hik.asymm hlink.smaller
  | passive =>
    obtain ⟨rfl, rfl⟩ := hside
    rw [hlink.held] at hnone
    cases hnone

/-- The number of a new connection is not in use. -/
theorem ne_length {c : ℕ} {x : Connection n} (hc : s.connections[c]? = some x) :
    c ≠ s.connections.length := (List.getElem?_eq_some_iff.mp hc).1.ne

theorem length_notMem (h : s.Kept address) (j : Fin n) : s.connections.length ∉ s.backlog j := by
  intro hmem
  obtain ⟨x, hx, -⟩ := h.queued j _ hmem
  exact ne_length hx rfl

/-- A client connects to the client at its index. -/
theorem connect (h : s.Kept address) {i k : Fin n} (hk : k.val = s.index i)
    (hlooping : s.phase i = .looping) (hik : Smaller address i k) :
    (s.connect i k).Kept address := by
  have hnone : s.clientSockfd i k = none := h.sockfd_of_index hk (by simp [hlooping]) hik
  have hback : s.clientSockfd k i = none := h.sockfd_of_none hik hnone
  have hold {j l : Fin n} {y : Option Socket} (hy : s.clientSockfd j l = y) (hne : y ≠ none) :
      (s.connect i k).clientSockfd j l = y := by
    rw [connect_clientSockfd, if_neg, hy]
    rintro ⟨rfl, rfl⟩
    exact hne (hy.symm.trans hnone)
  have hreading (j : Fin n) (c : ℕ) :
      (s.connect i k).phase j = .reading c ↔ s.phase j = .reading c := by
    by_cases hj : j = i
    · rw [hj, connect_phase_self, hlooping]
      simp
    · rw [connect_phase_of_ne s i k hj]
  refine ⟨fun c x hc => ?_, fun j l socket hs => ?_, fun j l hjl => ?_, fun j c hc => ?_,
    fun j => ?_, fun j c hj => ?_, fun j hj => ?_, fun j => ?_, h.assigned_assign hnone _⟩
  · rcases (connect_connections ..).mp hc with hc | ⟨rfl, rfl⟩
    · obtain ⟨hsmaller, hheld, hecho, hplaced⟩ := h.link c x hc
      refine ⟨hsmaller, hold hheld (by simp), ?_, hplaced.congr ?_ (hreading _ _) ?_⟩
      · refine hecho.imp_right fun ⟨hno, hechoing, hx⟩ => ⟨hno, ?_, hx⟩
        rw [connect_phase_of_ne, hechoing]
        rintro hi
        rw [hi, hlooping] at hechoing
        cases hechoing
      · simp [mem_connect_backlog, ne_length hc]
      · rw [connect_clientSockfd, if_neg]
        rintro ⟨rfl, rfl⟩
        exact hik.asymm hsmaller
    · refine ⟨hik, ?_, .inr ⟨rfl, connect_phase_self .., hk⟩, .waits ?_ ?_ ?_⟩
      · rw [connect_clientSockfd, if_pos ⟨rfl, rfl⟩]
      · exact (mem_connect_backlog ..).mpr (.inr ⟨rfl, rfl⟩)
      · intro hread
        obtain ⟨⟨x, hx, -⟩, -⟩ := h.reading k _ ((hreading _ _).mp hread)
        exact ne_length hx rfl
      · rw [connect_clientSockfd, if_neg fun hki => hik.ne hki.2, hback]
  · rw [connect_clientSockfd] at hs
    split_ifs at hs with hjl
    · obtain ⟨rfl, rfl⟩ := hjl
      cases hs
      exact ⟨_, (connect_connections ..).mpr (.inr ⟨rfl, rfl⟩), rfl, rfl⟩
    · obtain ⟨x, hx, hside⟩ := h.owns j l socket hs
      exact ⟨x, (connect_connections ..).mpr (.inl hx), hside⟩
  · rw [connect_clientSockfd]
    by_cases hj : j = i
    · subst hj
      by_cases hl : l = k
      · rw [if_pos ⟨rfl, hl⟩]
        exact iff_of_true (by simp) (.inr ⟨hl ▸ hk, connect_phase_self ..⟩)
      · have hne : l.val ≠ s.index j := fun hval => hl (Fin.ext (hval.trans hk.symm))
        rw [if_neg fun hjl => hl hjl.2, h.reached j l hjl]
        exact or_congr_right (iff_of_false (fun hval => hne hval.1) fun hval => hne hval.1)
    · rw [if_neg fun hjl => hj hjl.1, h.reached j l hjl, Reached, Reached,
        connect_phase_of_ne s i k hj]
      rfl
  · rcases (mem_connect_backlog ..).mp hc with hc | ⟨rfl, rfl⟩
    · obtain ⟨x, hx, hacceptor⟩ := h.queued j c hc
      exact ⟨x, (connect_connections ..).mpr (.inl hx), hacceptor⟩
    · exact ⟨_, (connect_connections ..).mpr (.inr ⟨rfl, rfl⟩), rfl⟩
  · simp only [State.connect, Function.update_apply]
    split_ifs with hj
    · exact List.nodup_append.mpr ⟨h.nodup k, List.nodup_singleton _, fun c hc c' hc' hcc' =>
        h.length_notMem k (List.mem_singleton.mp hc' ▸ hcc' ▸ hc)⟩
    · exact h.nodup j
  · obtain ⟨⟨x, hx, hacceptor⟩, hindex⟩ := h.reading j c ((hreading _ _).mp hj)
    exact ⟨⟨x, (connect_connections ..).mpr (.inl hx), hacceptor⟩, hindex⟩
  · by_cases hji : j = i
    · exact ⟨k, hji ▸ hk, hji ▸ hik⟩
    · exact h.echoing j ((connect_phase_of_ne _ _ _ hji).symm.trans hj)
  · refine Eq.trans (congrArg Finset.card (Finset.filter_congr fun l _ => ?_)) (h.counted j)
    refine and_congr_right fun hlj => ?_
    rw [connect_clientSockfd, if_neg]
    rintro ⟨rfl, rfl⟩
    exact hik.asymm hlj

/-- A client passes the index of the client that it has sent CLIENT_ECHO to. -/
theorem echo (h : s.Kept address) {i k : Fin n} (hk : k.val = s.index i)
    (hechoing : s.phase i = .echoing) {socket : Socket}
    (hs : s.clientSockfd i k = some socket) :
    ((s.echo i socket.connection).goOn i).Kept address := by
  let u := s.echo i socket.connection
  have hself {l : Fin n} (hl : l.val = s.index i) : l = k := Fin.ext (hl.trans hk.symm)
  have hik : Smaller address i k := by
    obtain ⟨k', hk', hik⟩ := h.echoing i hechoing
    exact hself hk' ▸ hik
  have hreading (j : Fin n) (c : ℕ) : (u.goOn i).phase j = .reading c ↔ s.phase j = .reading c :=
    goOn_phase_iff (by simp) (by simp [u, State.echo, hechoing])
  have hphase {j : Fin n} (hj : j ≠ i) : (u.goOn i).phase j = s.phase j := goOn_phase_of_ne u hj
  have hindex {j : Fin n} (hj : j ≠ i) : (u.goOn i).index j = s.index j := goOn_index_of_ne u hj
  have hconn (c : ℕ) (y : Connection n) : (u.goOn i).connections[c]? = some y ↔
      ∃ x, s.connections[c]? = some x ∧
        y = if c = socket.connection then { x with echo := some i } else x := by
    change (s.connections.modify _ _)[c]? = some y ↔ _
    rw [List.getElem?_modify, Option.map_eq_map, Option.map_eq_some_iff]
    refine exists_congr fun x => and_congr_right fun _ => ?_
    simp only [eq_comm]
  have hends {c : ℕ} {x : Connection n} (hx : s.connections[c]? = some x) : ∃ y,
      (u.goOn i).connections[c]? = some y ∧ y.connector = x.connector ∧
        y.acceptor = x.acceptor := by
    refine ⟨_, (hconn c _).mpr ⟨x, hx, rfl⟩, ?_⟩
    split_ifs <;> exact ⟨rfl, rfl⟩
  refine ⟨fun c y hc => ?_, fun j l y hy => ?_, fun j l hjl => ?_, fun j c hc => ?_, h.nodup,
    fun j c hj => ?_, fun _ => h.echoing_goOn rfl rfl, fun j => ?_, h.assigned⟩
  · obtain ⟨x, hx, rfl⟩ := (hconn c y).mp hc
    obtain ⟨hsmaller, hheld, hecho, hplaced⟩ := h.link c x hx
    split_ifs with hcs
    · have hconnector : x.connector = i := by
        obtain ⟨x', hx', hside⟩ := h.owns i k socket hs
        rw [← hcs, hx, Option.some.injEq] at hx'
        obtain ⟨c', side⟩ := socket
        subst hx'
        cases side with
        | active => exact hside.1
        | passive =>
          rw [hside.1, hside.2] at hsmaller
          exact absurd hsmaller hik.asymm
      exact ⟨hsmaller, hheld, .inl (congrArg some hconnector.symm),
        hplaced.congr .rfl (hreading _ _) rfl⟩
    · refine ⟨hsmaller, hheld, hecho.imp_right ?_, hplaced.congr .rfl (hreading _ _) rfl⟩
      rintro ⟨hno, hechoes, hacceptor⟩
      have hne : x.connector ≠ i := by
        rintro rfl
        obtain rfl := hself hacceptor
        rw [hheld, Option.some.injEq] at hs
        exact hcs (congrArg Socket.connection hs)
      exact ⟨hno, (hphase hne).trans hechoes, hacceptor.trans (hindex hne).symm⟩
  · obtain ⟨x, hx, hside⟩ := h.owns j l y hy
    obtain ⟨x', hx', hconnector, hacceptor⟩ := hends hx
    refine ⟨x', hx', ?_⟩
    rw [hconnector, hacceptor]
    exact hside
  · exact (h.reached j l hjl).trans (reached_goOn (fun _ _ _ => hechoing) hjl).symm
  · obtain ⟨x, hx, hacceptor⟩ := h.queued j c hc
    obtain ⟨x', hx', -, hacceptor'⟩ := hends hx
    exact ⟨x', hx', hacceptor'.trans hacceptor⟩
  · obtain ⟨⟨x, hx, hacceptor⟩, hsmaller⟩ := h.reading_goOn (u := u) rfl rfl hj
    obtain ⟨x', hx', -, hacceptor'⟩ := hends hx
    exact ⟨⟨x', hx', hacceptor'.trans hacceptor⟩, hsmaller⟩
  · refine (h.counted j).trans (congrArg Finset.card (passed_goOn_of_not fun l hl hli => ?_)).symm
    exact hik.asymm (hself hl ▸ hli)

/-- A client takes a connection from its backlog at the index of a smaller client. -/
theorem accept (h : s.Kept address) {i k : Fin n} (hk : k.val = s.index i)
    (hlooping : s.phase i = .looping) (hki : Smaller address k i) {c place : ℕ}
    (hc : (s.backlog i)[place]? = some c) : (s.accept i c place).Kept address := by
  let t := s.accept i c place
  obtain ⟨before, behind, hsplit, herase, -⟩ := Network.split_at hc
  have hnodup := h.nodup i
  rw [hsplit] at hnodup
  obtain ⟨hnotin, hrest⟩ := List.nodup_cons.mp (List.perm_middle.nodup_iff.mp hnodup)
  have hphase {j : Fin n} (hj : j ≠ i) : t.phase j = s.phase j := Function.update_of_ne hj _ _
  have hown : t.phase i = .reading c := Function.update_self _ _ _
  have hkept {j : Fin n} (hj : j ≠ i) : t.backlog j = s.backlog j := Function.update_of_ne hj _ _
  have hleft : t.backlog i = before ++ behind := (Function.update_self _ _ _).trans herase
  have hother {j : Fin n} {c' : ℕ} (hne : j = i → c' ≠ c) :
      c' ∈ t.backlog j ↔ c' ∈ s.backlog j := by
    by_cases hj : j = i
    · rw [hj, hleft, hsplit]
      simp [hne hj]
    · rw [hkept hj]
  have hsub {j : Fin n} {c' : ℕ} (hmem : c' ∈ t.backlog j) : c' ∈ s.backlog j := by
    refine (hother ?_).mp hmem
    rintro rfl rfl
    exact hnotin (hleft ▸ hmem)
  have hreading {j : Fin n} {c' : ℕ} (hne : j = i → c' ≠ c) :
      t.phase j = .reading c' ↔ s.phase j = .reading c' := by
    by_cases hj : j = i
    · rw [hj, hown, hlooping]
      simp [(hne hj).symm]
    · rw [hphase hj]
  have hechoing {j : Fin n} (hj : t.phase j = .echoing ∨ s.phase j = .echoing) : j ≠ i := by
    rintro rfl
    rcases hj with hj | hj
    · exact absurd (hown.symm.trans hj) (by simp)
    · exact absurd (hlooping.symm.trans hj) (by simp)
  have hmem : c ∈ s.backlog i := List.mem_of_getElem? hc
  obtain ⟨x, hx, hacceptor⟩ := h.queued i c hmem
  refine ⟨fun c' y hc' => ?_, h.owns, fun j l hjl => ?_, fun j c' hc' => h.queued j c' (hsub hc'),
    fun j => ?_, fun j c' hj => ?_, fun j hj => ?_, h.counted, h.assigned⟩
  · obtain ⟨hsmaller, hheld, hecho, hplaced⟩ := h.link c' y hc'
    refine ⟨hsmaller, hheld, hecho.imp_right fun ⟨hno, hechoes, hy⟩ =>
      ⟨hno, (hphase (hechoing (.inr hechoes))).trans hechoes, hy⟩, ?_⟩
    by_cases hcc : c' = c
    · subst hcc
      obtain rfl : x = y := Option.some.inj (hx.symm.trans hc')
      refine .read ?_ ?_ (hplaced.sockfd_of_waiting (hacceptor ▸ hmem))
      · rw [hacceptor, hleft]
        exact hnotin
      · rw [hacceptor, hown]
    · exact hplaced.congr (hother fun _ => hcc) (hreading fun _ => hcc) rfl
  · refine (h.reached j l hjl).trans ?_
    rw [Reached, Reached]
    by_cases hj : j = i
    · rw [hj, hown, hlooping]
      simp [State.accept]
    · rw [hphase hj]
      rfl
  · by_cases hj : j = i
    · rw [hj]
      exact hleft ▸ hrest
    · exact (hkept hj).symm ▸ h.nodup j
  · by_cases hji : j = i
    · subst hji
      obtain rfl : c = c' := Phase.reading.inj (hown.symm.trans hj)
      exact ⟨⟨x, hx, hacceptor⟩, k, hk, hki⟩
    · exact h.reading j c' ((hphase hji).symm.trans hj)
  · exact h.echoing j ((hphase (hechoing (.inl hj))).symm.trans hj)

/-- A client files the connection that it reads, and passes the index of a smaller client. -/
theorem file (h : s.Kept address) {i : Fin n} {c : ℕ} (hread : s.phase i = .reading c)
    {x : Connection n} (hx : s.connections[c]? = some x) :
    ((s.assign i x.connector ⟨c, .passive⟩).goOn i).Kept address := by
  let u := s.assign i x.connector ⟨c, .passive⟩
  obtain ⟨⟨x', hx', hacceptor⟩, k, hk, hki⟩ := h.reading i c hread
  obtain rfl : x = x' := Option.some.inj (hx.symm.trans hx')
  obtain ⟨hxi, hheld, -, hplaced⟩ := h.link c x hx
  obtain ⟨hnotin, hnone⟩ := hplaced.of_reading (hacceptor ▸ hread)
  rw [hacceptor] at hxi hheld hnotin hnone
  have hphase {j : Fin n} (hj : j ≠ i) : (u.goOn i).phase j = s.phase j := goOn_phase_of_ne u hj
  have hindex {j : Fin n} (hj : j ≠ i) : (u.goOn i).index j = s.index j := goOn_index_of_ne u hj
  have hsock (j l : Fin n) : (u.goOn i).clientSockfd j l =
      if j = i ∧ l = x.connector then some ⟨c, .passive⟩ else s.clientSockfd j l :=
    assign_clientSockfd s i x.connector _ j l
  have hupward {j l : Fin n} (hjl : Smaller address j l) :
      (u.goOn i).clientSockfd j l = s.clientSockfd j l := by
    rw [hsock, if_neg]
    rintro ⟨rfl, rfl⟩
    exact hjl.asymm hxi
  refine ⟨fun c' y hc' => ?_, fun j l socket hs => ?_, fun j l hjl => ?_, h.queued, h.nodup,
    fun _ _ => h.reading_goOn rfl rfl, fun _ => h.echoing_goOn rfl rfl, fun j => ?_,
    h.assigned_assign hnone _⟩
  · obtain ⟨hsmaller, hheld', hecho, hplaced'⟩ := h.link c' y hc'
    refine ⟨hsmaller, (hupward hsmaller).trans hheld', ?_, ?_⟩
    · refine hecho.imp_right fun ⟨hno, hechoes, hy⟩ => ?_
      have hne : y.connector ≠ i := by
        intro hyi
        rw [hyi, hread] at hechoes
        cases hechoes
      exact ⟨hno, (hphase hne).trans hechoes, hy.trans (hindex hne).symm⟩
    · by_cases hcc : c' = c
      · subst hcc
        obtain rfl : x = y := Option.some.inj (hx.symm.trans hc')
        refine .filed (hacceptor ▸ hnotin) ?_ ?_
        · rw [hacceptor, goOn_phase_self]
          simp
        · rw [hsock, if_pos ⟨hacceptor, rfl⟩]
      · refine hplaced'.congr .rfl ?_ ?_
        · by_cases hyi : y.acceptor = i
          · rw [hyi, goOn_phase_self, hread]
            simp [Ne.symm hcc]
          · rw [hphase hyi]
        · rw [hsock, if_neg]
          rintro ⟨hyi, hyx⟩
          rw [hyi, hyx, hheld, Option.some.injEq] at hheld'
          exact hcc (congrArg Socket.connection hheld').symm
  · rw [hsock] at hs
    split_ifs at hs with hjl
    · obtain ⟨rfl, rfl⟩ := hjl
      cases hs
      exact ⟨x, hx, rfl, hacceptor⟩
    · exact h.owns j l socket hs
  · rw [hupward hjl, h.reached j l hjl]
    refine (reached_goOn (fun l hl hil => ?_) hjl).symm
    exact absurd hki (Fin.ext (hl.trans hk.symm) ▸ hil).asymm
  · by_cases hj : j = i
    · -- one more client is filed, and one more index is passed
      subst hj
      have hfiled : (u.goOn j).filed address j = insert x.connector (s.filed address j) := by
        ext l
        simp only [filed, Finset.mem_filter, Finset.mem_univ, true_and, Finset.mem_insert, hsock]
        by_cases hl : l = x.connector
        · simp [hl, hxi]
        · simp [hl]
      have hpassed : (u.goOn j).passed address j = insert k (s.passed address j) :=
        passed_goOn hk hki
      rw [hfiled, hpassed, Finset.card_insert_of_notMem, Finset.card_insert_of_notMem, h.counted]
      · simp [passed, hk]
      · simp [filed, hnone]
    · have hpassed : (u.goOn i).passed address j = s.passed address j := passed_goOn_of_ne hj
      rw [hpassed, ← h.counted j]
      refine congrArg Finset.card (Finset.filter_congr fun l _ => ?_)
      rw [hsock, if_neg fun hjl => hj hjl.1]

/-- The step lemma. -/
theorem step (ha : Function.Injective address) (h : s.Kept address) {a : Action n} {t : State n}
    (hs : step address s a = some t) : t.Kept address := by
  cases a with
  | proceed i =>
    cases hphase : s.phase i with
    | looping =>
      simp only [Connecting.step, hphase] at hs
      split_ifs at hs with hlt hself hik <;> cases hs
      · exact h.skip (congrArg Fin.val hself).symm hphase
      · exact h.connect rfl hphase hik
    | echoing =>
      simp only [Connecting.step, hphase] at hs
      split_ifs at hs with hlt
      obtain ⟨socket, hsocket, rfl⟩ := Option.map_eq_some_iff.mp hs
      exact h.echo rfl hphase hsocket
    | reading c =>
      simp only [Connecting.step, hphase] at hs
      split_ifs at hs with hlt
      obtain ⟨sender, hsender, rfl⟩ := Option.map_eq_some_iff.mp hs
      obtain ⟨x, hx, hecho⟩ := Option.bind_eq_some_iff.mp hsender
      rcases (h.link c x hx).echo with hconnector | ⟨hnone, -⟩
      · obtain rfl := Option.some.inj (hecho.symm.trans hconnector)
        exact h.file hphase hx
      · rw [hnone] at hecho
        cases hecho
  | acceptNewSocket i place =>
    simp only [Connecting.step] at hs
    split_ifs at hs with hlt hpassive
    obtain ⟨hlooping, hne, hnot⟩ := hpassive
    obtain ⟨c, hc, rfl⟩ := Option.map_eq_some_iff.mp hs
    have hki := (smaller_or ha hne).resolve_right hnot
    exact h.accept rfl hlooping hki hc

theorem socket_of_smaller (h : s.Kept address) {j i : Fin n} (hji : Smaller address j i)
    {socket : Socket} (hs : s.clientSockfd j i = some socket) :
    ∃ x, s.connections[socket.connection]? = some x ∧ x.connector = j ∧ x.acceptor = i := by
  obtain ⟨x, hx, hside⟩ := h.owns j i socket hs
  obtain ⟨c, side⟩ := socket
  cases side with
  | active => exact ⟨x, hx, hside⟩
  | passive =>
    obtain ⟨rfl, rfl⟩ := hside
    exact absurd (h.link c x hx).smaller hji.asymm

/-- A connection from every smaller client that has finished is in the backlog, being read, or
filed. -/
theorem placed_of_finished (h : s.Kept address) {j i : Fin n} (hji : Smaller address j i)
    (hj : s.Finished j) :
    ∃ c x, s.connections[c]? = some x ∧ x.connector = j ∧ x.acceptor = i ∧ s.Placed c x := by
  have hreached : s.Reached j i := .inl (i.isLt.trans_le hj)
  obtain ⟨socket, hs⟩ := Option.ne_none_iff_exists'.mp ((h.reached j i hji).mpr hreached)
  obtain ⟨x, hx, hconnector, hacceptor⟩ := h.socket_of_smaller hji hs
  exact ⟨_, x, hx, hconnector, hacceptor, (h.link _ x hx).placed⟩

/-- A client in the middle of a connection can go on, or the other client can. -/
theorem exists_step_of_busy (h : s.Kept address) {i : Fin n} (hi : s.phase i ≠ .looping) :
    ∃ a t, Connecting.step address s a = some t := by
  have hechoes {j : Fin n} (hj : s.phase j = .echoing) :
      ∃ t, Connecting.step address s (.proceed j) = some t := by
    obtain ⟨k, hk, hjk⟩ := h.echoing j hj
    have hlt : s.index j < n := hk ▸ k.isLt
    obtain rfl : k = ⟨s.index j, hlt⟩ := Fin.ext hk
    obtain ⟨socket, hs⟩ :=
      Option.ne_none_iff_exists'.mp ((h.reached j _ hjk).mpr (.inr ⟨rfl, hj⟩))
    refine ⟨(s.echo j socket.connection).goOn j, ?_⟩
    simp only [Connecting.step, dif_pos hlt, hj, hs, Option.map_some]
  cases hphase : s.phase i with
  | looping => exact absurd hphase hi
  | echoing => exact ⟨_, hechoes hphase⟩
  | reading c =>
    obtain ⟨⟨x, hx, -⟩, k, hk, -⟩ := h.reading i c hphase
    have hlt : s.index i < n := hk ▸ k.isLt
    rcases (h.link c x hx).echo with hecho | ⟨-, hconnector, -⟩
    · refine ⟨.proceed i, (s.assign i x.connector ⟨c, .passive⟩).goOn i, ?_⟩
      simp only [Connecting.step, dif_pos hlt, hphase, hx, Option.bind_some, hecho,
        Option.map_some]
    · exact ⟨_, hechoes hconnector⟩

/-- The unfinished client of the least address can go on, if all are at the start of their
loops. -/
theorem exists_step (ha : Function.Injective address) (h : s.Kept address) {i : Fin n}
    (hi : ¬ s.Finished i) : ∃ a t, Connecting.step address s a = some t := by
  by_cases hbusy : ∃ j, s.phase j ≠ .looping
  · obtain ⟨j, hj⟩ := hbusy
    exact h.exists_step_of_busy hj
  have hlooping (j : Fin n) : s.phase j = .looping := not_not.mp (not_exists.mp hbusy j)
  obtain ⟨m, hm, hleast⟩ := Finset.exists_min_image
    (Finset.univ.filter fun j => ¬ s.Finished j) (fun j => (address j).key)
    ⟨i, Finset.mem_filter.mpr ⟨Finset.mem_univ i, hi⟩⟩
  have hlt : s.index m < n := not_le.mp (Finset.mem_filter.mp hm).2
  let k : Fin n := ⟨s.index m, hlt⟩
  have hsmaller {j : Fin n} (hj : Smaller address j m) : s.Finished j := by
    by_contra hnot
    have hle := hleast j (Finset.mem_filter.mpr ⟨Finset.mem_univ j, hnot⟩)
    exact absurd ((compare_neg _ _).mp hj) (not_lt.mpr hle)
  by_cases hself : k = m
  · refine ⟨.proceed m, s.goOn m, ?_⟩
    simp only [Connecting.step, dif_pos hlt, hlooping]
    exact if_pos hself
  rcases smaller_or ha hself with hkm | hmk
  · -- k has not been filed at its index, so that its connection or another one waits
    have hwaits : ∃ j c x, Smaller address j m ∧ s.connections[c]? = some x ∧ x.connector = j ∧
        x.acceptor = m ∧ s.Placed c x ∧ s.clientSockfd m j = none := by
      by_contra hall
      have hfiled : insert k (s.passed address m) ⊆ s.filed address m := by
        intro j hj
        have hjm : Smaller address j m := by
          rcases Finset.mem_insert.mp hj with rfl | hj
          · exact hkm
          · exact (Finset.mem_filter.mp hj).2.1
        refine Finset.mem_filter.mpr ⟨Finset.mem_univ j, hjm, fun hnone => hall ?_⟩
        obtain ⟨c, x, hx, hconnector, hacceptor, hplaced⟩ :=
          h.placed_of_finished hjm (hsmaller hjm)
        exact ⟨j, c, x, hjm, hx, hconnector, hacceptor, hplaced, hnone⟩
      have hcard := Finset.card_le_card hfiled
      have hnew : k ∉ s.passed address m := fun hk =>
        absurd (Finset.mem_filter.mp hk).2.2 (lt_irrefl _)
      rw [Finset.card_insert_of_notMem hnew, h.counted] at hcard
      exact absurd hcard (Nat.not_succ_le_self _)
    obtain ⟨j, c, x, -, hx, rfl, rfl, hplaced, hnone⟩ := hwaits
    have hmem : c ∈ s.backlog x.acceptor := by
      cases hplaced with
      | waits hmem _ _ => exact hmem
      | read _ hread _ =>
        rw [hlooping] at hread
        cases hread
      | filed _ _ hsome =>
        rw [hnone] at hsome
        cases hsome
    obtain ⟨place, hplace⟩ := List.getElem?_of_mem hmem
    refine ⟨.acceptNewSocket x.acceptor place, s.accept x.acceptor c place, ?_⟩
    simp only [Connecting.step, dif_pos hlt, hplace, Option.map_some]
    exact if_pos ⟨hlooping _, hself, hkm.asymm⟩
  · refine ⟨.proceed m, s.connect m k, ?_⟩
    simp only [Connecting.step, dif_pos hlt, hlooping]
    exact (if_neg hself).trans (if_pos hmk)

theorem joined_of_finished (h : s.Kept address) (hall : ∀ i, s.Finished i) {j i : Fin n}
    (hji : Smaller address j i) : ∃ c, s.Joined j i c := by
  have hpassed : s.filed address i = Finset.univ.filter fun k => Smaller address k i := by
    refine Finset.eq_of_subset_of_card_le ?_ ?_
    · exact Finset.monotone_filter_right _ fun k _ hk => hk.1
    · rw [h.counted, passed]
      refine (congrArg Finset.card (Finset.filter_congr fun k _ => ?_)).le
      exact (and_iff_left (k.isLt.trans_le (hall i))).symm
  have hmem : j ∈ s.filed address i := by
    rw [hpassed]
    exact Finset.mem_filter.mpr ⟨Finset.mem_univ j, hji⟩
  obtain ⟨⟨c, side⟩, hs⟩ := Option.ne_none_iff_exists'.mp (Finset.mem_filter.mp hmem).2.2
  obtain ⟨x, hx, hside⟩ := h.owns i j _ hs
  have hlink := h.link c x hx
  cases side with
  | active =>
    obtain ⟨rfl, rfl⟩ := hside
    exact absurd hlink.smaller hji.asymm
  | passive =>
    obtain ⟨rfl, rfl⟩ := hside
    exact ⟨c, ⟨x, hx, rfl, rfl⟩, hlink.held, hs⟩

theorem paired (ha : Function.Injective address) (h : s.Kept address)
    (hall : ∀ i, s.Finished i) : s.Paired := by
  have hconnections (c : ℕ) (x : Connection n) (hx : s.connections[c]? = some x) :
      s.Joined x.connector x.acceptor c := by
    have hlink := h.link c x hx
    obtain ⟨c', hjoined⟩ := h.joined_of_finished hall hlink.smaller
    have hsocket := Option.some.inj (hlink.held.symm.trans hjoined.active)
    obtain rfl : c = c' := congrArg Socket.connection hsocket
    exact hjoined
  refine ⟨fun i j hij => ?_, fun i => ?_, hconnections, fun i j hij => ?_⟩
  · rcases smaller_or ha hij with hlt | hlt
    · obtain ⟨c, hc⟩ := h.joined_of_finished hall hlt
      exact ⟨c, .inl hc⟩
    · obtain ⟨c, hc⟩ := h.joined_of_finished hall hlt
      exact ⟨c, .inr hc⟩
  · refine List.eq_nil_iff_forall_not_mem.mpr fun c hc => ?_
    obtain ⟨x, hx, rfl⟩ := h.queued i c hc
    have hpassive := (hconnections c x hx).passive
    cases (h.link c x hx).placed with
    | waits _ _ hnone =>
      rw [hnone] at hpassive
      cases hpassive
    | read hnot _ _ | filed hnot _ _ => exact hnot hc
  · rw [h.assigned]
    rcases smaller_or ha hij with hlt | hlt
    · obtain ⟨c, hc⟩ := h.joined_of_finished hall hlt
      rw [hc.active]
      rfl
    · obtain ⟨c, hc⟩ := h.joined_of_finished hall hlt
      rw [hc.passive]
      rfl

end Kept
end State

/-- The run lemma. -/
theorem kept_of_reachable (ha : Function.Injective address) {s : State n}
    (h : (machine address).Reachable s) : s.Kept address := by
  refine h.invariant (I := State.Kept address) ?_ fun s a t hI _ hs => hI.step ha hs
  rintro _ rfl
  exact .initial address

/-- Clients of different addresses never get stuck before all have finished, and then every two
of them share one connection. -/
theorem every_two_connected (address : Fin n → Address) (ha : Function.Injective address)
    (acts : List (Action n)) (s : State n)
    (hr : (machine address).run (initial n) acts = some s) :
    ((∃ i, ¬ s.Finished i) → ∃ a t, step address s a = some t) ∧
      ((∀ i, s.Finished i) → s.Paired) := by
  have h := kept_of_reachable ha (.run (.init rfl) hr)
  constructor
  · rintro ⟨i, hi⟩
    exact h.exists_step ha hi
  · exact h.paired ha

/-- Three clients on one machine, the last one of the least port. -/
def descending (i : Fin 3) : Address := ⟨[49, 50, 55], 3 - i.val, by decide⟩

theorem descending_injective : Function.Injective descending := by
  intro i j h
  have hport : (3 : ℤ) - i.val = 3 - j.val := congrArg Address.port h
  exact Fin.ext (by omega)

/-- Client 0 accepts client 2 at the index of client 1. -/
def crossedRun : List (Action 3) :=
  [.proceed 2, .proceed 2, .proceed 1, .proceed 1, .proceed 0, .acceptNewSocket 0 0, .proceed 0,
    .proceed 2, .proceed 2, .proceed 2, .proceed 1, .acceptNewSocket 1 0, .proceed 1,
    .acceptNewSocket 0 0, .proceed 0]

theorem every_two_connected_after_crossedRun :
    ∃ s : State 3, (∀ i, s.Finished i) ∧ s.Paired := by
  obtain ⟨s, hr, hp⟩ := (machine descending).exists_run (s := initial 3) crossedRun
    (fun s => decide (∀ i, s.Finished i)) (by decide)
  have hall := of_decide_eq_true hp
  exact ⟨s, hall, (every_two_connected descending descending_injective crossedRun s hr).2 hall⟩

end DistributedME.Connecting
