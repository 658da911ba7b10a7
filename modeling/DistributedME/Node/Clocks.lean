import DistributedME.Library.Causality
import DistributedME.Library.Machine
import DistributedME.Library.Network
import Mathlib.Data.Fintype.Basic
import Mathlib.Algebra.Order.Ring.Int

/-! The clocks of all nodes, servers and clients alike, and the packets between them. The
sending of a packet is the locked section of its clock in createMessage; the packet is on its
way from then on, and connections may delay and reorder it. -/
namespace DistributedME.Clocks
open Library

structure LamportClock where
  timestamp : ℕ
  d : ℕ
  deriving DecidableEq, Repr

namespace LamportClock

/-- The default arguments of the constructor. -/
def construct : LamportClock := ⟨0, 1⟩

/-- The clock has no defined value after an overflow. -/
def increaseTimestamp (c : LamportClock) : Option (LamportClock × ℕ) :=
  if c.timestamp + c.d < 2 ^ 31 then
    let c := { c with timestamp := c.timestamp + c.d }
    some (c, c.timestamp)
  else none

def updateTimestamp (c : LamportClock) (newTimestamp : ℕ) : Option (LamportClock × ℕ) :=
  if c.timestamp + c.d < 2 ^ 31 then
    let c := { c with timestamp := max (c.timestamp + c.d) newTimestamp }
    some (c, c.timestamp)
  else none

end LamportClock

/-- A packet under way, with the place in the trace where it was sent. -/
structure Stamped where
  timestamp : ℕ
  origin : ℕ
  deriving DecidableEq, Repr

/-- What happens at node i. The timestamp of a message of the Maekawa algorithm is replaced
after createMessage, which leaves a step of the clock. -/
inductive Event (n : ℕ) where
  | sent (i : Fin n) (timestamp : ℕ)
  | ticked (i : Fin n)
  | wrote (i : Fin n) (timestamp : ℕ)
  | handled (i : Fin n) (packet : Stamped)
  deriving DecidableEq, Repr

structure State (n : ℕ) where
  clock : Fin n → LamportClock
  inFlight : Network (Fin n) Stamped
  events : List (Event n)

/-- The steps of node i: a packet to node k, a message of the Maekawa algorithm, the stamp of
the line of a WRITE, the treatment of a packet that is under way from node k. -/
inductive Action (n : ℕ) where
  | sendMessageTo (i k : Fin n)
  | sendCriticalSectionMessage (i : Fin n)
  | requestWrite (i : Fin n)
  | handlePacket (i k : Fin n) (place : ℕ)
  deriving DecidableEq, Repr

/-- What a receive path does with the clock and the timestamp of its packet. -/
abbrev Handler := LamportClock → ℕ → Option LamportClock

/-- The loops of clients and servers and handleSelfMessages never look at the clock. -/
def handle : Handler := fun c _ => some c

/-- What updateTimestamp is there for. -/
def fold : Handler := fun c timestamp => (c.updateTimestamp timestamp).map Prod.fst

variable {n : ℕ}

def initial (n : ℕ) : State n := ⟨fun _ => .construct, .empty, []⟩

/-- Node i goes on with a clock, sends and leaves an event. -/
def State.record (s : State n) (i : Fin n) (c : LamportClock) (out : Fin n → List Stamped)
    (e : Event n) : State n :=
  ⟨Function.update s.clock i c, s.inFlight.post i out, s.events ++ [e]⟩

def step (handler : Handler) (s : State n) : Action n → Option (State n)
  | .sendMessageTo i k => (s.clock i).increaseTimestamp.map fun (c, timestamp) =>
    s.record i c (Network.only k [⟨timestamp, s.events.length⟩]) (.sent i timestamp)
  | .sendCriticalSectionMessage i => (s.clock i).increaseTimestamp.map fun (c, _) =>
    s.record i c (fun _ => []) (.ticked i)
  | .requestWrite i => (s.clock i).increaseTimestamp.map fun (c, timestamp) =>
    s.record i c (fun _ => []) (.wrote i timestamp)
  | .handlePacket i k place =>
    (s.inFlight k i)[place]?.bind fun packet =>
      (handler (s.clock i) packet.timestamp).map fun c =>
        { s with inFlight := s.inFlight.put k i ((s.inFlight k i).eraseIdx place) }.record i c
          (fun _ => []) (.handled i packet)

def machine (handler : Handler) (n : ℕ) : Machine (State n) (Action n) where
  init s := s = initial n
  step := step handler

namespace Event

def node : Event n → Fin n
  | .sent i _ | .ticked i | .wrote i _ | .handled i _ => i

def stamp : Event n → Option ℕ
  | .sent _ timestamp | .wrote _ timestamp => some timestamp
  | .ticked _ | .handled _ _ => none

end Event

/-- Packets and the lines of WRITEs are stamped, and packets are received. -/
def stamping (n : ℕ) : Stamping (Event n) (Fin n) where
  node := Event.node
  stamp := Event.stamp
  cause
    | .handled _ packet => some packet.origin
    | .sent _ _ | .ticked _ | .wrote _ _ => none
  known
    | .handled _ packet => some packet.timestamp
    | .sent _ timestamp | .wrote _ timestamp => some timestamp
    | .ticked _ => none

/-- Timestamps grow along happens-before: of packets from one sending to another one, and from
a packet that was handled to the line of a WRITE. -/
structure LamportCondition (events : List (Event n)) : Prop where
  packets : ∀ (a b : ℕ) i j t u, events[a]? = some (.sent i t) → events[b]? = some (.sent j u) →
    (stamping n).HappensBefore events a b → t < u
  writes : ∀ (a b : ℕ) i packet u, events[a]? = some (.handled i packet) →
    events[b]? = some (.wrote i u) → a < b → packet.timestamp < u

/-- The clock of a node that gives a stamp is not behind the packets that it has handled. -/
def aware (s : State n) : Action n → Bool
  | .sendMessageTo i _ | .requestWrite i => s.events.all fun e =>
    match e with
    | .handled k packet => k != i || decide (packet.timestamp ≤ (s.clock i).timestamp)
    | .sent _ _ | .ticked _ | .wrote _ _ => true
  | .sendCriticalSectionMessage _ | .handlePacket _ _ _ => true

/-- What the trace tells about the clocks and the packets. -/
structure State.Recorded (s : State n) : Prop where
  d : ∀ i, (s.clock i).d = 1
  stamps : ∀ e ∈ s.events, ∀ t, e.stamp = some t → t ≤ (s.clock e.node).timestamp
  inFlight : ∀ k i, ∀ packet ∈ s.inFlight k i,
    s.events[packet.origin]? = some (.sent k packet.timestamp)
  handled : ∀ i packet, .handled i packet ∈ s.events →
    ∃ k, s.events[packet.origin]? = some (.sent k packet.timestamp)

/-- A handler never turns a clock back. -/
structure Handler.Forward (handler : Handler) : Prop where
  le : ∀ c timestamp c', handler c timestamp = some c' → c.timestamp ≤ c'.timestamp
  d : ∀ c timestamp c', handler c timestamp = some c' → c'.d = c.d

theorem handle_forward : Handler.Forward handle where
  le c t c' h := by
    cases h
    rfl
  d c t c' h := by
    cases h
    rfl

theorem fold_eq_some {c c' : LamportClock} {timestamp : ℕ} (h : fold c timestamp = some c') :
    c' = { c with timestamp := max (c.timestamp + c.d) timestamp } := by
  obtain ⟨⟨_, t⟩, hc, rfl⟩ := Option.map_eq_some_iff.mp h
  unfold LamportClock.updateTimestamp at hc
  split_ifs at hc
  cases hc
  rfl

theorem fold_forward : Handler.Forward fold where
  le c t c' h := by
    rw [fold_eq_some h]
    exact (Nat.le_add_right _ _).trans (Nat.le_max_left _ _)
  d c t c' h := by
    rw [fold_eq_some h]

theorem increaseTimestamp_eq_some {c c' : LamportClock} {t : ℕ}
    (h : c.increaseTimestamp = some (c', t)) :
    t = c.timestamp + c.d ∧ c' = { c with timestamp := c.timestamp + c.d } := by
  unfold LamportClock.increaseTimestamp at h
  split_ifs at h
  cases h
  exact ⟨rfl, rfl⟩

namespace State.Recorded
variable {s : State n}

theorem initial (n : ℕ) : (Clocks.initial n).Recorded where
  d _ := rfl
  stamps _ he := absurd he List.not_mem_nil
  inFlight _ _ _ hp := absurd hp List.not_mem_nil
  handled _ _ he := absurd he List.not_mem_nil

theorem sent_append {packet : Stamped} {k : Fin n}
    (h : s.events[packet.origin]? = some (.sent k packet.timestamp)) (e : Event n) :
    (s.events ++ [e])[packet.origin]? = some (.sent k packet.timestamp) := by
  obtain ⟨hlt, -⟩ := List.getElem?_eq_some_iff.mp h
  rw [List.getElem?_append_left hlt, h]

theorem record (h : s.Recorded) {i : Fin n} {c : LamportClock} {out : Fin n → List Stamped}
    {e : Event n} (hc : (s.clock i).timestamp ≤ c.timestamp) (hd : c.d = 1) (he : e.node = i)
    (hstamp : ∀ t, e.stamp = some t → t ≤ c.timestamp)
    (hout : ∀ k, ∀ packet ∈ out k,
      (s.events ++ [e])[packet.origin]? = some (.sent i packet.timestamp))
    (hhandled : ∀ j packet, e = .handled j packet →
      ∃ k, s.events[packet.origin]? = some (.sent k packet.timestamp)) :
    (s.record i c out e).Recorded where
  d j := by
    simp only [State.record, Function.update_apply]
    split_ifs
    · exact hd
    · exact h.d j
  stamps e' he' t ht := by
    simp only [State.record, Function.update_apply]
    rcases List.mem_append.mp he' with he' | he'
    · have hle := h.stamps e' he' t ht
      split_ifs with hi
      · rw [hi] at hle
        exact hle.trans hc
      · exact hle
    · obtain rfl := List.mem_singleton.mp he'
      rw [if_pos he]
      exact hstamp t ht
  inFlight k j packet hp := by
    rcases Network.mem_post.mp hp with hp | ⟨hk, hp⟩
    · exact sent_append (h.inFlight k j packet hp) e
    · rw [hk]
      exact hout j packet hp
  handled j packet he' := by
    rcases List.mem_append.mp he' with he' | he'
    · obtain ⟨k, hk⟩ := h.handled j packet he'
      exact ⟨k, sent_append hk e⟩
    · obtain ⟨k, hk⟩ := hhandled j packet (List.mem_singleton.mp he').symm
      exact ⟨k, sent_append hk e⟩

/-- The step lemma. -/
theorem step {handler : Handler} (hh : handler.Forward) (h : s.Recorded) {a : Action n}
    {t : State n} (hs : step handler s a = some t) : t.Recorded := by
  have hclock {i : Fin n} {c : LamportClock} {u : ℕ}
      (hc : (s.clock i).increaseTimestamp = some (c, u)) :
      (s.clock i).timestamp ≤ c.timestamp ∧ c.d = 1 ∧ u ≤ c.timestamp := by
    obtain ⟨rfl, rfl⟩ := increaseTimestamp_eq_some hc
    exact ⟨Nat.le_add_right _ _, h.d i, le_rfl⟩
  cases a with
  | sendMessageTo i k =>
    obtain ⟨⟨c, u⟩, hc, rfl⟩ := Option.map_eq_some_iff.mp hs
    obtain ⟨hle, hd, hu⟩ := hclock hc
    refine h.record hle hd rfl (fun t ht => ?_) (fun j packet hp => ?_) nofun
    · cases ht
      exact hu
    · obtain ⟨-, hp⟩ := Network.mem_only.mp hp
      obtain rfl := List.mem_singleton.mp hp
      exact List.getElem?_concat_length
  | sendCriticalSectionMessage i =>
    obtain ⟨⟨c, u⟩, hc, rfl⟩ := Option.map_eq_some_iff.mp hs
    obtain ⟨hle, hd, -⟩ := hclock hc
    exact h.record hle hd rfl nofun (fun _ _ hp => absurd hp List.not_mem_nil) nofun
  | requestWrite i =>
    obtain ⟨⟨c, u⟩, hc, rfl⟩ := Option.map_eq_some_iff.mp hs
    obtain ⟨hle, hd, hu⟩ := hclock hc
    refine h.record hle hd rfl (fun t ht => ?_) (fun _ _ hp => absurd hp List.not_mem_nil) nofun
    cases ht
    exact hu
  | handlePacket i k place =>
    obtain ⟨packet, hp, hs⟩ := Option.bind_eq_some_iff.mp hs
    obtain ⟨c, hc, rfl⟩ := Option.map_eq_some_iff.mp hs
    have hput : State.Recorded
        { s with inFlight := s.inFlight.put k i ((s.inFlight k i).eraseIdx place) } :=
      ⟨h.d, h.stamps, fun k' i' packet' hp' => h.inFlight k' i' packet'
        (Network.mem_of_mem_put (List.eraseIdx_sublist _ _).subset hp'), h.handled⟩
    refine hput.record (hh.le _ _ _ hc) ((hh.d _ _ _ hc).trans (h.d i)) rfl nofun
      (fun _ _ hp => absurd hp List.not_mem_nil) (fun j packet' he => ?_)
    cases he
    exact ⟨k, h.inFlight k i packet (List.mem_of_getElem? hp)⟩

theorem wellFormed (h : s.Recorded) : (stamping n).WellFormed s.events where
  cause e he c hc := by
    cases e with
    | handled i packet =>
      obtain ⟨k, hk⟩ := h.handled i packet he
      cases hc
      exact ⟨_, _, hk, rfl, rfl⟩
    | sent | ticked | wrote => cases hc
  stamp e _ t ht := by
    cases e with
    | sent | wrote => exact ⟨ht, rfl⟩
    | ticked | handled => cases ht

/-- A new stamp exceeds what its node knows, if the node is aware. -/
theorem exceeds (h : s.Recorded) {i : Fin n} {e e' : Event n} (he : e ∈ s.events)
    (he' : e'.node = i) {u : ℕ} (hu : e'.stamp = some u) (hlt : (s.clock i).timestamp < u)
    (haware : ∀ packet, .handled i packet ∈ s.events →
      packet.timestamp ≤ (s.clock i).timestamp) : (stamping n).Exceeds e e' := by
  intro hnode t u' ht hu'
  obtain rfl : u = u' := Option.some.inj (hu.symm.trans hu')
  have hi : e.node = i := Eq.trans hnode he'
  refine lt_of_le_of_lt ?_ hlt
  cases e with
  | handled k packet =>
    obtain rfl : k = i := hi
    cases ht
    exact haware packet he
  | sent | wrote => exact hi ▸ h.stamps _ he t ht
  | ticked => cases ht

end State.Recorded

theorem aware_iff {s : State n} {i : Fin n} : (s.events.all fun e =>
      match e with
      | .handled k packet => k != i || decide (packet.timestamp ≤ (s.clock i).timestamp)
      | .sent _ _ | .ticked _ | .wrote _ _ => true) = true ↔
    ∀ packet, .handled i packet ∈ s.events → packet.timestamp ≤ (s.clock i).timestamp := by
  rw [List.all_eq_true]
  constructor
  · intro h packet hp
    simpa using h _ hp
  · intro h e he
    cases e with
    | handled k packet =>
      by_cases hk : k = i
      · subst hk
        simpa using h packet he
      · simp [hk]
    | sent | ticked | wrote => rfl

theorem events_of_step {handler : Handler} {s t : State n} {a : Action n}
    (hs : step handler s a = some t) : ∃ e, t.events = s.events ++ [e] := by
  cases a with
  | sendMessageTo | sendCriticalSectionMessage | requestWrite =>
    obtain ⟨_, -, rfl⟩ := Option.map_eq_some_iff.mp hs
    exact ⟨_, rfl⟩
  | handlePacket =>
    obtain ⟨packet, -, hs⟩ := Option.bind_eq_some_iff.mp hs
    obtain ⟨_, -, rfl⟩ := Option.map_eq_some_iff.mp hs
    exact ⟨_, rfl⟩

theorem events_of_run {handler : Handler} {s t : State n} {acts : List (Action n)}
    (hr : (machine handler n).run s acts = some t) : ∃ l, t.events = s.events ++ l := by
  induction acts generalizing s with
  | nil =>
    cases hr
    exact ⟨[], (List.append_nil _).symm⟩
  | cons a acts ih =>
    obtain ⟨u, hu, hr⟩ := Machine.run_cons.mp hr
    obtain ⟨e, he⟩ := events_of_step hu
    obtain ⟨l, hl⟩ := ih hr
    exact ⟨e :: l, by rw [hl, he, List.append_assoc, List.singleton_append]⟩

/-- Stamps of aware nodes exceed what the nodes know. The step lemma. -/
theorem pairwise_step {handler : Handler} {s t : State n} {a : Action n} (h : s.Recorded)
    (hp : s.events.Pairwise (stamping n).Exceeds) (ha : aware s a = true)
    (hs : step handler s a = some t) : t.events.Pairwise (stamping n).Exceeds := by
  have hlast (e' : Event n) (he' : ∀ e ∈ s.events, (stamping n).Exceeds e e') :
      (s.events ++ [e']).Pairwise (stamping n).Exceeds :=
    List.pairwise_append.mpr ⟨hp, List.pairwise_singleton _ _, fun e he e'' he'' =>
      List.mem_singleton.mp he'' ▸ he' e he⟩
  have hlt {i : Fin n} {c : LamportClock} {u : ℕ}
      (hc : (s.clock i).increaseTimestamp = some (c, u)) : (s.clock i).timestamp < u := by
    obtain ⟨rfl, -⟩ := increaseTimestamp_eq_some hc
    rw [h.d i]
    exact Nat.lt_succ_self _
  cases a with
  | sendMessageTo i k =>
    obtain ⟨⟨c, u⟩, hc, rfl⟩ := Option.map_eq_some_iff.mp hs
    exact hlast _ fun e he => h.exceeds he rfl rfl (hlt hc) (aware_iff.mp ha)
  | sendCriticalSectionMessage i =>
    obtain ⟨⟨c, u⟩, -, rfl⟩ := Option.map_eq_some_iff.mp hs
    exact hlast _ fun _ _ _ _ _ _ hu => nomatch hu
  | requestWrite i =>
    obtain ⟨⟨c, u⟩, hc, rfl⟩ := Option.map_eq_some_iff.mp hs
    exact hlast _ fun e he => h.exceeds he rfl rfl (hlt hc) (aware_iff.mp ha)
  | handlePacket i k place =>
    obtain ⟨packet, -, hs⟩ := Option.bind_eq_some_iff.mp hs
    obtain ⟨c, -, rfl⟩ := Option.map_eq_some_iff.mp hs
    exact hlast _ fun _ _ _ _ _ _ hu => nomatch hu

theorem condition_of_pairwise {s : State n} (h : s.Recorded)
    (hp : s.events.Pairwise (stamping n).Exceeds) : LamportCondition s.events where
  packets _ _ _ _ _ u ha hb hab :=
    (Stamping.lt_of_happensBefore h.wellFormed hp hab ha rfl).1 _ u hb rfl
  writes _ _ _ packet u ha hb hab :=
    Stamping.exceeds_of_lt hp hab ha hb rfl packet.timestamp u rfl rfl

/-- The run lemma. -/
theorem condition_of_aware {handler : Handler} (hh : handler.Forward) {s : State n}
    (h : (machine handler n).Guarded (fun s a => aware s a = true) s) :
    LamportCondition s.events := by
  have hrecorded {guard : State n → Action n → Prop} {s : State n}
      (hs : (machine handler n).Guarded guard s) : s.Recorded :=
    hs.invariant (I := State.Recorded) (by rintro _ rfl; exact .initial n)
      (fun _ _ _ hI _ hs => hI.step hh hs)
  refine condition_of_pairwise (hrecorded h) ?_
  refine h.invariant_of (J := State.Recorded)
    (I := fun s => s.events.Pairwise (stamping n).Exceeds) (fun s hs => hrecorded hs) ?_ ?_
  · rintro _ rfl
    exact List.Pairwise.nil
  · intro s a t hJ _ hI ha hs
    exact pairwise_step hJ hI ha hs

namespace LamportCondition

theorem of_append {l l' : List (Event n)} (h : LamportCondition (l ++ l')) :
    LamportCondition l := by
  have hold {k : ℕ} {e : Event n} (he : l[k]? = some e) : (l ++ l')[k]? = some e := by
    obtain ⟨hk, -⟩ := List.getElem?_eq_some_iff.mp he
    rw [List.getElem?_append_left hk, he]
  exact ⟨fun a b i j t u ha hb hab => h.packets a b i j t u (hold ha) (hold hb) (hab.append l'),
    fun a b i packet u ha hb hab => h.writes a b i packet u (hold ha) (hold hb) hab⟩

/-- A packet that a node handled before it gives a stamp was sent before. -/
theorem aware {handler : Handler} {s t : State n} {a : Action n} (hrecorded : s.Recorded)
    (hs : step handler s a = some t) (h : LamportCondition t.events) : aware s a = true := by
  have hlt {i : Fin n} {c : LamportClock} {u : ℕ}
      (hc : (s.clock i).increaseTimestamp = some (c, u)) : u = (s.clock i).timestamp.succ := by
    obtain ⟨rfl, -⟩ := increaseTimestamp_eq_some hc
    rw [hrecorded.d i]
  cases a with
  | sendMessageTo i k =>
    obtain ⟨⟨c, u⟩, hc, rfl⟩ := Option.map_eq_some_iff.mp hs
    refine aware_iff.mpr fun packet hpacket => Nat.le_of_lt_succ ?_
    obtain ⟨j, hj⟩ := hrecorded.handled i packet hpacket
    obtain ⟨place, hplace⟩ := List.getElem?_of_mem hpacket
    have hlen := (List.getElem?_eq_some_iff.mp hplace).1
    have hnew : (s.events ++ [Event.sent i u])[s.events.length]? = some (.sent i u) :=
      List.getElem?_concat_length
    have hold : (s.events ++ [Event.sent i u])[place]? = some (.handled i packet) :=
      (List.getElem?_append_left hlen).trans hplace
    have horigin := State.Recorded.sent_append hj (.sent i u)
    rw [← hlt hc]
    have hreceived : (stamping n).Precedes (s.events ++ [.sent i u]) packet.origin place :=
      ⟨_, _, horigin, hold, .inr rfl⟩
    have hsends : (stamping n).Precedes (s.events ++ [.sent i u]) place s.events.length :=
      ⟨_, _, hold, hnew, .inl ⟨hlen, rfl⟩⟩
    exact h.packets packet.origin s.events.length j i _ u horigin hnew
      (.tail (.single hreceived) hsends)
  | requestWrite i =>
    obtain ⟨⟨c, u⟩, hc, rfl⟩ := Option.map_eq_some_iff.mp hs
    refine aware_iff.mpr fun packet hpacket => Nat.le_of_lt_succ ?_
    obtain ⟨place, hplace⟩ := List.getElem?_of_mem hpacket
    have hlen := (List.getElem?_eq_some_iff.mp hplace).1
    have hold : (s.events ++ [Event.wrote i u])[place]? = some (.handled i packet) :=
      (List.getElem?_append_left hlen).trans hplace
    rw [← hlt hc]
    exact h.writes place s.events.length i packet u hold List.getElem?_concat_length hlen
  | sendCriticalSectionMessage | handlePacket => rfl

theorem along {handler : Handler} (hh : handler.Forward) {s t : State n} (hs : s.Recorded)
    {acts : List (Action n)} (hr : (machine handler n).run s acts = some t)
    (h : LamportCondition t.events) :
    (machine handler n).Along (fun s a => Clocks.aware s a = true) s acts := by
  induction acts generalizing s with
  | nil => trivial
  | cons a acts ih =>
    obtain ⟨u, hu, hr⟩ := Machine.run_cons.mp hr
    refine ⟨?_, fun u' hu' => ?_⟩
    · obtain ⟨l, hl⟩ := events_of_run hr
      rw [hl] at h
      exact h.of_append.aware hs hu
    · obtain rfl : u = u' := Option.some.inj (hu.symm.trans hu')
      exact ih (hs.step hh hu) hr

end LamportCondition

/-- The timestamps of a run grow along happens-before just when every node that gives a stamp
is aware of what it has handled. -/
theorem lamport_condition_iff (acts : List (Action n)) (s : State n)
    (hr : (machine handle n).run (initial n) acts = some s) : LamportCondition s.events ↔
      (machine handle n).Along (fun s a => aware s a = true) (initial n) acts := by
  constructor
  · intro h
    exact h.along handle_forward (.initial n) hr
  · intro hg
    exact condition_of_aware handle_forward (hg.guarded (.init rfl) hr)

/-- Node 1 has sent a packet itself when it answers one of node 0. -/
def evenRun : List (Action 2) :=
  [.sendMessageTo 0 1, .sendMessageTo 1 0, .handlePacket 1 0 0, .sendMessageTo 1 0,
    .requestWrite 1]

theorem lamport_condition_evenRun : ∃ s : State 2, s.events.length = 5 ∧
    LamportCondition s.events := by
  obtain ⟨s, hr, hp⟩ := (machine handle 2).exists_run (s := initial 2) evenRun
    (fun s => s.events.length = 5) (by decide)
  exact ⟨s, of_decide_eq_true hp, (lamport_condition_iff evenRun s hr).mpr (by decide)⟩

/-- Node 1 answers with the timestamp of the packet that it has handled. -/
theorem lamport_condition_fails : ¬ ∀ (n : ℕ) (acts : List (Action n)) (s : State n),
    (machine handle n).run (initial n) acts = some s → LamportCondition s.events := by
  intro h
  let answerRun : List (Action 2) :=
    [.sendMessageTo 0 1, .handlePacket 1 0 0, .sendMessageTo 1 0]
  obtain ⟨s, hr, -⟩ := (machine handle 2).exists_run (s := initial 2) answerRun
    (fun s => s.events.length = 3) (by decide)
  have hg := (h 2 answerRun s hr).along handle_forward (.initial 2) hr
  exact absurd hg (by decide)

/-- No clock is behind what its node has handled. -/
def State.CaughtUp (s : State n) : Prop :=
  ∀ i packet, .handled i packet ∈ s.events → packet.timestamp ≤ (s.clock i).timestamp

theorem State.CaughtUp.record {s : State n} (h : s.CaughtUp) {i : Fin n} {c : LamportClock}
    {out : Fin n → List Stamped} {e : Event n} (hc : (s.clock i).timestamp ≤ c.timestamp)
    (he : ∀ j packet, e = .handled j packet → j = i ∧ packet.timestamp ≤ c.timestamp) :
    (s.record i c out e).CaughtUp := by
  intro j packet hp
  simp only [State.record, Function.update_apply]
  rcases List.mem_append.mp hp with hold | hnew
  · split_ifs with hj
    · subst hj
      exact (h j packet hold).trans hc
    · exact h j packet hold
  · obtain ⟨hj, hle⟩ := he j packet (List.mem_singleton.mp hnew).symm
    rw [if_pos hj]
    exact hle

theorem caughtUp_step {s t : State n} {a : Action n} (h : s.CaughtUp)
    (hs : step fold s a = some t) : t.CaughtUp := by
  have hle {i : Fin n} {c : LamportClock} {u : ℕ}
      (hc : (s.clock i).increaseTimestamp = some (c, u)) :
      (s.clock i).timestamp ≤ c.timestamp := by
    obtain ⟨-, rfl⟩ := increaseTimestamp_eq_some hc
    exact Nat.le_add_right _ _
  cases a with
  | sendMessageTo | sendCriticalSectionMessage | requestWrite =>
    obtain ⟨⟨c, u⟩, hc, rfl⟩ := Option.map_eq_some_iff.mp hs
    exact h.record (hle hc) nofun
  | handlePacket i k place =>
    obtain ⟨packet, -, hs⟩ := Option.bind_eq_some_iff.mp hs
    obtain ⟨c, hc, rfl⟩ := Option.map_eq_some_iff.mp hs
    have hput : State.CaughtUp
        { s with inFlight := s.inFlight.put k i ((s.inFlight k i).eraseIdx place) } := h
    refine hput.record (fold_forward.le _ _ _ hc) fun j packet' he => ?_
    cases he
    rw [fold_eq_some hc]
    exact ⟨rfl, Nat.le_max_right _ _⟩

/-- With updateTimestamp in every receive path the timestamps of every run grow along
happens-before. -/
theorem lamport_condition_of_fold {s : State n} (h : (machine fold n).Reachable s) :
    LamportCondition s.events := by
  have haware : (machine fold n).Guarded (fun s a => aware s a = true) s ∧ s.CaughtUp := by
    induction h with
    | init h =>
      refine ⟨.init h, ?_⟩
      obtain rfl := h
      exact fun _ _ hp => absurd hp List.not_mem_nil
    | @step s t a _ _ hs ih =>
      refine ⟨.step ih.1 ?_ hs, caughtUp_step ih.2 hs⟩
      cases a with
      | sendMessageTo i | requestWrite i => exact aware_iff.mpr fun packet hp => ih.2 i packet hp
      | sendCriticalSectionMessage | handlePacket => rfl
  exact condition_of_aware fold_forward haware.1

end DistributedME.Clocks
