import DistributedME.Library.Machine
import DistributedME.MessageQueue

/-! The messages a client sends to itself: pushes by any thread into message_queue, and the
loop of handleSelfMessages, whose calls of empty, top and pop each lock the queue anew. -/
namespace DistributedME.Node
open Library

inductive SelfLoop where
  | testing
  | reading
  | removing (packet : Packet)
  | handling (packet : Packet)
  | checking
  | ended
  deriving DecidableEq, Repr

/-- The lists pushed and handled record the arguments of push and of handleClientPacket. -/
structure SelfState (maxSize : ℕ) where
  messageQueue : MessageQueue Packet.key maxSize
  allClientsDoneAllRequest : Bool
  loop : SelfLoop
  pushed : List Packet
  handled : List Packet

inductive SelfAction where
  | sendMessageToSelf (packet : Packet)
  | announceEnd
  | empty
  | top
  | pop
  | handleClientPacket
  | checkEnd
  deriving DecidableEq, Repr

variable {maxSize : ℕ}

def SelfState.construct (maxSize : ℕ) : SelfState maxSize where
  messageQueue := .construct
  allClientsDoneAllRequest := false
  loop := .testing
  pushed := []
  handled := []

/-- top and pop of an empty priority queue have no defined behaviour and no step. -/
def selfStep (s : SelfState maxSize) : SelfAction → Option (SelfState maxSize)
  | .sendMessageToSelf packet =>
    some { s with
      messageQueue := (s.messageQueue.push packet).1
      pushed := s.pushed ++ [packet] }
  | .announceEnd => some { s with allClientsDoneAllRequest := true }
  | .empty =>
    if s.loop = .testing then
      some { s with loop := if s.messageQueue.empty then .checking else .reading }
    else none
  | .top =>
    if s.loop = .reading then
      s.messageQueue.top?.map fun packet => { s with loop := .removing packet }
    else none
  | .pop =>
    match s.loop with
    | .removing packet =>
      s.messageQueue.top?.map fun _ =>
        { s with messageQueue := s.messageQueue.pop, loop := .handling packet }
    | _ => none
  | .handleClientPacket =>
    match s.loop with
    | .handling packet =>
      some { s with
        allClientsDoneAllRequest :=
          s.allClientsDoneAllRequest || packet.messageType = .clientDoneAllRequest
        loop := .checking
        handled := s.handled ++ [packet] }
    | _ => none
  | .checkEnd =>
    if s.loop = .checking then
      some { s with loop := if s.allClientsDoneAllRequest then .ended else .testing }
    else none

def selfMachine (maxSize : ℕ) : Machine (SelfState maxSize) SelfAction where
  init s := s = .construct maxSize
  step := selfStep

def FindsRoom (s : SelfState maxSize) : SelfAction → Prop
  | .sendMessageToSelf _ => s.messageQueue.size < maxSize
  | _ => True

instance (s : SelfState maxSize) : ∀ a, Decidable (FindsRoom s a)
  | .sendMessageToSelf _ => inferInstanceAs (Decidable (s.messageQueue.size < maxSize))
  | .announceEnd | .empty | .top | .pop | .handleClientPacket | .checkEnd => isTrue trivial

/-- No packet is pushed in front of the one that top has read and pop is to remove. -/
def KeepsTop (s : SelfState maxSize) : SelfAction → Prop
  | .sendMessageToSelf packet => ∀ read, s.loop = .removing read → ¬ packet.key < read.key
  | _ => True

instance (s : SelfState maxSize) : ∀ a, Decidable (KeepsTop s a)
  | .sendMessageToSelf packet =>
    match h : s.loop with
    | .removing read => decidable_of_iff (¬ packet.key < read.key) (by simp [KeepsTop, h])
    | .testing | .reading | .handling _ | .checking | .ended => isTrue (by simp [KeepsTop, h])
  | .announceEnd | .empty | .top | .pop | .handleClientPacket | .checkEnd => isTrue trivial

def SelfLoop.held : SelfLoop → List Packet
  | .handling packet => [packet]
  | _ => []

/-- The queue is empty again and nothing is on its way to handleClientPacket. -/
def SelfState.Settled (s : SelfState maxSize) : Prop :=
  s.messageQueue.items = [] ∧ s.loop.held = []

instance (s : SelfState maxSize) : Decidable s.Settled :=
  inferInstanceAs (Decidable (s.messageQueue.items = [] ∧ s.loop.held = []))

/-- The next pop removes another packet than the one that top has read. -/
def SelfState.Overtaken (s : SelfState maxSize) : Prop :=
  ∃ read top rest, s.loop = .removing read ∧ s.messageQueue.items = top :: rest ∧
    top.key < read.key

/-- The account of all packets. Each pair of swaps is a packet that is handled once more
than it was pushed, and the packet before it in the queue that was removed in its place. -/
structure SelfState.Balance (s : SelfState maxSize) (swaps : List (Packet × Packet)) : Prop where
  account : ∀ packet, s.pushed.count packet + (swaps.map Prod.fst).count packet =
    s.handled.count packet + s.loop.held.count packet +
      s.messageQueue.items.count packet + (swaps.map Prod.snd).count packet
  before : ∀ w ∈ swaps, w.2.key < w.1.key
  removing : ∀ read, s.loop = .removing read →
    (∃ rest, s.messageQueue.items = read :: rest) ∨ s.Overtaken

private theorem construct_balance : (SelfState.construct maxSize).Balance [] where
  account := by simp [SelfState.construct, SelfLoop.held]
  before := by simp
  removing := by simp [SelfState.construct]

/-- A push keeps the packet that was read on top, unless it is the one to overtake it. -/
private theorem balance_push {s : SelfState maxSize} {swaps : List (Packet × Packet)}
    (hb : s.Balance swaps) (packet : Packet) (hroom : s.messageQueue.size < maxSize) :
    let t := { s with
      messageQueue := (s.messageQueue.push packet).1
      pushed := s.pushed ++ [packet] }
    t.Balance swaps ∧ (t.Overtaken ↔ s.Overtaken ∨ ¬ KeepsTop s (.sendMessageToSelf packet)) := by
  intro t
  have hitems : t.messageQueue.items = (s.messageQueue.pq.push packet).items :=
    MessageQueue.push_of_room hroom packet
  have htop {top : Packet} {rest : List Packet} (h : s.messageQueue.items = top :: rest) :
      t.messageQueue.items = if packet.key < top.key then packet :: top :: rest
        else top :: PriorityQueue.insertItem Packet.key packet rest :=
    hitems.trans (PriorityQueue.push_of_cons h packet)
  have hover : t.Overtaken ↔ s.Overtaken ∨ ¬ KeepsTop s (.sendMessageToSelf packet) := by
    constructor
    · rintro ⟨read, top, rest, hr, ht, hlt⟩
      rcases hb.removing read hr with ⟨rest', h⟩ | h
      · rw [htop h] at ht
        split_ifs at ht with hp
        · exact .inr fun hk => hk read hr hp
        · obtain ⟨rfl, -⟩ := List.cons.inj ht
          exact (lt_irrefl _ hlt).elim
      · exact .inl h
    · rintro (⟨read, top, rest, hr, hs, hlt⟩ | hk)
      · by_cases hp : packet.key < top.key
        · exact ⟨read, packet, _, hr, by rw [htop hs, if_pos hp], hp.trans hlt⟩
        · exact ⟨read, top, _, hr, by rw [htop hs, if_neg hp], hlt⟩
      · simp only [KeepsTop, not_forall, not_not] at hk
        obtain ⟨read, hr, hp⟩ := hk
        rcases hb.removing read hr with ⟨rest, h⟩ | ⟨read', top, rest, hr', hs, hlt⟩
        · exact ⟨read, packet, _, hr, by rw [htop h, if_pos hp], hp⟩
        · by_cases hpt : packet.key < top.key
          · exact ⟨read, packet, _, hr, by rw [htop hs, if_pos hpt], hp⟩
          · obtain rfl : read' = read := SelfLoop.removing.inj (hr'.symm.trans hr)
            exact ⟨read', top, _, hr, by rw [htop hs, if_neg hpt], hlt⟩
  refine ⟨⟨fun p => ?_, hb.before, fun read hr => ?_⟩, hover⟩
  · have h := hb.account p
    have hc := (s.messageQueue.pq.push_perm packet).count_eq p
    rw [← hitems] at hc
    simp only [t, List.count_append, List.count_cons, List.count_nil] at hc ⊢
    simp only [MessageQueue.items] at h hc ⊢
    omega
  · rcases hb.removing read hr with ⟨rest, h⟩ | h
    · by_cases hp : packet.key < read.key
      · exact .inr (hover.mpr (.inr fun hk => hk read hr hp))
      · exact .inl ⟨_, by rw [htop h, if_neg hp]⟩
    · exact .inr (hover.mpr (.inl h))

private theorem not_overtaken {s : SelfState maxSize} (h : ∀ read, s.loop ≠ .removing read) :
    ¬ s.Overtaken :=
  fun ⟨read, _, _, hr, _⟩ => h read hr

private theorem not_overtaken_of_top {s : SelfState maxSize} {read : Packet} {rest : List Packet}
    (hs : s.loop = .removing read) (hq : s.messageQueue.items = read :: rest) :
    ¬ s.Overtaken := by
  rintro ⟨read', top, rest', hr, hq', hlt⟩
  obtain rfl : read = read' := SelfLoop.removing.inj (hs.symm.trans hr)
  obtain ⟨rfl, -⟩ := List.cons.inj (hq.symm.trans hq')
  exact lt_irrefl _ hlt

private theorem balance_move {s : SelfState maxSize} {swaps : List (Packet × Packet)}
    (hb : s.Balance swaps) {loop : SelfLoop} (hs : ∀ read, s.loop ≠ .removing read)
    (hl : ∀ read, loop ≠ .removing read) (hheld : loop.held = s.loop.held) :
    let t := { s with loop := loop }
    t.Balance swaps ∧ ((swaps ≠ [] ∨ t.Overtaken) ↔ (swaps ≠ [] ∨ s.Overtaken) ∨ False) := by
  intro t
  refine ⟨⟨fun p => ?_, hb.before, fun read hr => (hl read hr).elim⟩, ?_⟩
  · simp only [t, hheld]
    exact hb.account p
  · simp [not_overtaken hs, not_overtaken (s := t) hl]

/-- The loop removes what is first now: the packet that was read, or the one that overtook it. -/
private theorem balance_pop {s : SelfState maxSize} {swaps : List (Packet × Packet)}
    (hb : s.Balance swaps) {read top : Packet} {rest : List Packet} (hs : s.loop = .removing read)
    (hq : s.messageQueue.items = top :: rest) :
    let t := { s with messageQueue := s.messageQueue.pop, loop := .handling read }
    ∃ swaps', t.Balance swaps' ∧
      ((swaps' ≠ [] ∨ t.Overtaken) ↔ (swaps ≠ [] ∨ s.Overtaken) ∨ False) := by
  intro t
  have ht : ¬ t.Overtaken := not_overtaken (by simp [t])
  have hpop : t.messageQueue.items = rest := congrArg List.tail hq
  have hacc := hb.account
  simp only [hs, hq, SelfLoop.held, List.count_nil, List.count_cons] at hacc
  rcases hb.removing read hs with ⟨rest', hq'⟩ | ho
  · obtain ⟨rfl, rfl⟩ := List.cons.inj (hq.symm.trans hq')
    refine ⟨swaps, ⟨fun p => ?_, hb.before, by simp [t]⟩, ?_⟩
    · have := hacc p
      simp only [hpop, t, SelfLoop.held, List.count_cons, List.count_nil]
      omega
    · simp [not_overtaken_of_top hs hq, ht]
  · refine ⟨(read, top) :: swaps, ⟨fun p => ?_, ?_, by simp [t]⟩, by simp [ho]⟩
    · have := hacc p
      simp only [hpop, t, SelfLoop.held, List.count_cons, List.count_nil, List.map_cons]
      omega
    · obtain ⟨read', top', rest', hr, hq', hlt⟩ := ho
      obtain rfl : read = read' := SelfLoop.removing.inj (hs.symm.trans hr)
      obtain ⟨rfl, -⟩ := List.cons.inj (hq.symm.trans hq')
      rintro w hw
      rcases List.mem_cons.mp hw with rfl | hw
      · exact hlt
      · exact hb.before w hw

/-- The step lemma: a swap appears, or is about to appear, exactly when a push overtakes
the packet that was read. -/
private theorem balance_step {s t : SelfState maxSize} {swaps : List (Packet × Packet)}
    (hb : s.Balance swaps) {a : SelfAction} (hroom : FindsRoom s a) (h : selfStep s a = some t) :
    ∃ swaps', t.Balance swaps' ∧
      ((swaps' ≠ [] ∨ t.Overtaken) ↔ (swaps ≠ [] ∨ s.Overtaken) ∨ ¬ KeepsTop s a) := by
  cases a with
  | sendMessageToSelf packet =>
    cases h
    obtain ⟨hbt, hover⟩ := balance_push hb packet hroom
    exact ⟨swaps, hbt, by rw [hover, or_assoc]⟩
  | announceEnd =>
    cases h
    exact ⟨swaps, ⟨hb.account, hb.before, hb.removing⟩, by simp [KeepsTop, SelfState.Overtaken]⟩
  | empty =>
    simp only [selfStep, Option.ite_none_right_eq_some, Option.some.injEq] at h
    obtain ⟨hs, rfl⟩ := h
    refine ⟨swaps, ?_⟩
    simp only [KeepsTop, not_true]
    apply balance_move hb (by simp [hs])
    · split_ifs <;> simp
    · rw [hs]
      split_ifs <;> rfl
  | top =>
    simp only [selfStep, Option.ite_none_right_eq_some, Option.map_eq_some_iff] at h
    obtain ⟨hs, top, htop, rfl⟩ := h
    obtain ⟨rest, hq⟩ := MessageQueue.top?_eq_some.mp htop
    refine ⟨swaps, ⟨fun p => ?_, hb.before, fun read hr => ?_⟩, ?_⟩
    · simpa [hs, SelfLoop.held] using hb.account p
    · obtain rfl : top = read := SelfLoop.removing.inj hr
      exact .inl ⟨rest, hq⟩
    · have hs' : ¬ s.Overtaken := not_overtaken (by simp [hs])
      have ht := not_overtaken_of_top (s := { s with loop := .removing top }) rfl hq
      simp [hs', ht, KeepsTop]
  | pop =>
    simp only [selfStep] at h
    split at h
    · next read hs =>
      obtain ⟨top, htop, rfl⟩ := Option.map_eq_some_iff.mp h
      obtain ⟨rest, hq⟩ := MessageQueue.top?_eq_some.mp htop
      simp only [KeepsTop, not_true]
      exact balance_pop hb hs hq
    · simp at h
  | handleClientPacket =>
    simp only [selfStep] at h
    split at h
    · next packet hs =>
      cases h
      refine ⟨swaps, ⟨fun p => ?_, hb.before, by simp⟩, ?_⟩
      · have hacc := hb.account p
        simp only [hs, SelfLoop.held, List.count_append, List.count_nil] at hacc ⊢
        omega
      · have hs' : ¬ s.Overtaken := not_overtaken (by simp [hs])
        have ht := not_overtaken (s := { s with
          allClientsDoneAllRequest :=
            s.allClientsDoneAllRequest || packet.messageType = .clientDoneAllRequest
          loop := .checking
          handled := s.handled ++ [packet] }) (by simp)
        simp [hs', ht, KeepsTop]
    · simp at h
  | checkEnd =>
    simp only [selfStep, Option.ite_none_right_eq_some, Option.some.injEq] at h
    obtain ⟨hs, rfl⟩ := h
    refine ⟨swaps, ?_⟩
    simp only [KeepsTop, not_true]
    apply balance_move hb (by simp [hs])
    · split_ifs <;> simp
    · rw [hs]
      split_ifs <;> rfl

private theorem balance_run {s t : SelfState maxSize} {swaps : List (Packet × Packet)}
    (hb : s.Balance swaps) (acts : List SelfAction)
    (hroom : (selfMachine maxSize).Along FindsRoom s acts)
    (hr : (selfMachine maxSize).run s acts = some t) :
    ∃ swaps', t.Balance swaps' ∧ ((swaps' ≠ [] ∨ t.Overtaken) ↔
      (swaps ≠ [] ∨ s.Overtaken) ∨ ¬ (selfMachine maxSize).Along KeepsTop s acts) := by
  induction acts generalizing s swaps with
  | nil =>
    cases hr
    exact ⟨swaps, hb, by simp [Machine.Along]⟩
  | cons a acts ih =>
    obtain ⟨u, hu, hr⟩ := Machine.run_cons.mp hr
    obtain ⟨mid, hbu, hmid⟩ := balance_step hb hroom.1 hu
    obtain ⟨swaps', hbt, hlast⟩ := ih hbu (hroom.2 u hu) hr
    refine ⟨swaps', hbt, hlast.trans ?_⟩
    rw [hmid, or_assoc, ← not_and_or]
    simp [Machine.Along, hu]

/-- Once the queue is empty again, what was handled is what was pushed, provided and only
provided no push overtook the packet between a top and its pop. -/
theorem self_messages_handled_once (maxSize : ℕ) (acts : List SelfAction)
    (s : SelfState maxSize) (hroom : (selfMachine maxSize).Along FindsRoom (.construct maxSize) acts)
    (hr : (selfMachine maxSize).run (.construct maxSize) acts = some s) (hs : s.Settled) :
    s.handled.Perm s.pushed ↔ (selfMachine maxSize).Along KeepsTop (.construct maxSize) acts := by
  obtain ⟨swaps, hb, hiff⟩ := balance_run construct_balance acts hroom hr
  have hover : ¬ s.Overtaken := fun ⟨_, _, _, _, hq, _⟩ => by simp [hs.1] at hq
  have hfirst : ¬ (SelfState.construct maxSize).Overtaken :=
    not_overtaken (by simp [SelfState.construct])
  have hacc := hb.account
  simp only [hs.1, hs.2, List.count_nil, Nat.add_zero] at hacc
  have hswaps : swaps ≠ [] ↔ ¬ (selfMachine maxSize).Along KeepsTop (.construct maxSize) acts := by
    simpa [hover, hfirst] using hiff
  rw [← not_iff_not, ← hswaps, not_iff_not]
  constructor
  · intro hp
    apply PriorityQueue.eq_nil_of_swaps hb.before
    refine List.perm_iff_count.mpr fun p => ?_
    have := hacc p
    have := hp.count_eq p
    omega
  · rintro rfl
    exact List.perm_iff_count.mpr fun p => by simpa using (hacc p).symm

/-- A message of client 0 to itself about some file, with the file's sequence number. -/
private def ownMessage (ourSequenceNumber : Int32) : Packet :=
  ⟨.clientMkwRequestClient, 0, 0, ourSequenceNumber, []⟩

private def passWith (pushed : List Packet) : List SelfAction :=
  [.empty, .top] ++ pushed.map .sendMessageToSelf ++ [.pop, .handleClientPacket, .checkEnd]

/-- A later sequence number that arrives between top and pop does no harm. -/
theorem self_messages_handled_once_later : ∃ s : SelfState MESSAGE_QUEUE_MAX_SIZE,
    s.pushed = [ownMessage 1, ownMessage 2] ∧ s.handled.Perm s.pushed := by
  obtain ⟨s, hr, hp⟩ := (selfMachine MESSAGE_QUEUE_MAX_SIZE).exists_run
    (s := .construct MESSAGE_QUEUE_MAX_SIZE)
    (.sendMessageToSelf (ownMessage 1) :: passWith [ownMessage 2] ++ passWith [])
    (fun s => s.Settled && s.pushed = [ownMessage 1, ownMessage 2]) (by decide)
  simp only [Bool.and_eq_true, decide_eq_true_eq] at hp
  exact ⟨s, hp.2, (self_messages_handled_once _ _ s (by decide) hr hp.1).mpr (by decide)⟩

/-- An earlier sequence number that arrives between top and pop is removed unread, and the
packet that was read is handled again. -/
theorem self_message_lost : ¬ ∀ (maxSize : ℕ) (acts : List SelfAction) (s : SelfState maxSize),
    (selfMachine maxSize).Along FindsRoom (.construct maxSize) acts →
    (selfMachine maxSize).run (.construct maxSize) acts = some s → s.Settled →
    s.handled.Perm s.pushed := by
  intro h
  obtain ⟨s, hr, hp⟩ := (selfMachine MESSAGE_QUEUE_MAX_SIZE).exists_run
    (s := .construct MESSAGE_QUEUE_MAX_SIZE)
    (.sendMessageToSelf (ownMessage 2) :: passWith [ownMessage 1] ++ passWith [])
    (fun s => s.Settled && s.pushed = [ownMessage 2, ownMessage 1] &&
      s.handled = [ownMessage 2, ownMessage 2]) (by decide)
  simp only [Bool.and_eq_true, decide_eq_true_eq] at hp
  have hperm := h _ _ s (by decide) hr hp.1.1
  rw [hp.1.2, hp.2] at hperm
  exact absurd hperm (by decide)

end DistributedME.Node
