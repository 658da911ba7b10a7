import DistributedME.Maekawa.System

/-! The system as one arbiter sees it: what it keeps itself, and for every client the state
towards it and the mail in both directions. Every step is one move of this view. -/
namespace DistributedME.Maekawa
open Library
variable {n : ℕ}

/-- What a client tells an arbiter. -/
inductive Up where
  | request (t : ℕ)
  | relinquish (grant : ℕ)
  | release
  deriving DecidableEq, Repr

/-- What an arbiter tells a client. -/
inductive Down where
  | locked (grant : ℕ)
  | inquire (grant : ℕ)
  | failed
  deriving DecidableEq, Repr

def Message.up? (m : Message) : Option Up :=
  match m.body with
  | .request => some (.request m.timestamp)
  | .relinquish grant => some (.relinquish grant)
  | .release => some .release
  | .locked _ | .inquire _ | .failed => none

def Message.down? (m : Message) : Option Down :=
  match m.body with
  | .locked grant => some (.locked grant)
  | .inquire grant => some (.inquire grant)
  | .failed => some .failed
  | .request | .relinquish _ | .release => none

/-- The members of a client's object that it uses as an arbiter. -/
structure Arbiter (n : ℕ) where
  isLocked : Bool
  locking : Request n
  queue : MessageQueue (Request.key (n := n)) MESSAGE_QUEUE_MAX_SIZE
  replied : Fin n → Bool
  grants : ℕ

def Strategy.arbiter (c : Strategy n) : Arbiter n :=
  ⟨c.isLocked, c.lockingRequest, c.waitingQueue, c.isInquireReplied, c.grants⟩

/-- One client towards one arbiter. The arbiter is a member of the client's quorum or not. -/
structure Side where
  member : Bool
  main : MainThread
  ours : ℕ
  reply : RequestReplyType
  handler : Handler
  allLocked : Bool
  down : List Down
  up : List Up

structure View (n : ℕ) where
  arbiter : Arbiter n
  side : Fin n → Side

def State.side (Q : Quorums n) (s : State n) (k j : Fin n) : Side where
  member := decide (k ∈ Q.quorum j)
  main := s.main j
  ours := (s.strategy j).ourSequenceNumber
  reply := (s.strategy j).requestReply k
  handler := s.handler j k
  allLocked := (s.strategy j).receivedAllLocked (Q.quorum j)
  down := (s.inFlight k j).filterMap Message.down?
  up := (s.inFlight j k).filterMap Message.up?

def State.view (Q : Quorums n) (s : State n) (k : Fin n) : View n :=
  ⟨(s.strategy k).arbiter, s.side Q k⟩

/-- The promises about a step that invariants may ask for. -/
structure Promise where
  inTime : Prop
  inOrder : Prop
  heard : Prop
  noticed : Prop
  answers : Prop

def promise (Q : Quorums n) (s : State n) (a : Action n) : Promise where
  inTime := inTime s a = true
  inOrder := inOrder a = true
  heard := heard s a = true
  noticed := noticed s a = true
  answers := answers Q s a = true

/-- Everything a step can do to one client towards the arbiter. The answers that the client
has from other arbiters show only in allLocked. -/
inductive SideMove (p : Promise) : Side → Side → Prop
  | elsewhere {a : Side} (x : Bool) : SideMove p a { a with allLocked := x }
  | request {a : Side} (t : ℕ) (x : Bool) : a.main = .idle → a.member = true →
      SideMove p a { a with
        main := .polling, ours := t, reply := .waiting, allLocked := x
        up := a.up ++ [.request t] }
  | requestElsewhere {a : Side} (t : ℕ) (x : Bool) : a.main = .idle → a.member = false →
      SideMove p a { a with main := .polling, ours := t, allLocked := x }
  | enter {a : Side} : a.main = .polling → (a.member = true → a.reply = .locked) →
      SideMove p a { a with main := .inside }
  | release {a : Side} (x : Bool) : a.main = .inside → a.member = true →
      SideMove p a { a with
        main := .idle, reply := .none, allLocked := x, up := a.up ++ [.release] }
  | releaseElsewhere {a : Side} (x : Bool) : a.main = .inside → a.member = false →
      SideMove p a { a with main := .idle, allLocked := x }
  | locked {a : Side} {before behind : List Down} (grant : ℕ) (x : Bool) : a.handler = .ready →
      a.down = before ++ .locked grant :: behind → (p.inOrder → before = []) →
      SideMove p a { a with reply := .locked, allLocked := x, down := before ++ behind }
  | failed {a : Side} {before behind : List Down} (x : Bool) : a.handler = .ready →
      a.down = before ++ .failed :: behind → (p.inOrder → before = []) →
      SideMove p a { a with reply := .failed, allLocked := x, down := before ++ behind }
  | inquire {a : Side} {before behind : List Down} (grant : ℕ) : a.handler = .ready →
      a.down = before ++ .inquire grant :: behind → (p.inOrder → before = []) →
      (p.noticed → a.reply = .locked) →
      SideMove p a { a with
        handler := .inquiring .loopFailed grant, down := before ++ behind }
  | consider {a : Side} {point : InquirePoint} (grant : ℕ) (point' : InquirePoint) :
      a.handler = .inquiring point grant →
      SideMove p a { a with handler := .inquiring point' grant }
  | leave {a : Side} (grant : ℕ) : a.handler = .inquiring .ifLocked grant →
      (p.answers → a.main = .polling → a.reply = .locked → a.allLocked = true) →
      SideMove p a { a with handler := .ready }
  | relinquish {a : Side} (grant : ℕ) (x : Bool) : a.handler = .inquiring .relinquish grant →
      (p.inTime → a.main = .polling ∧ a.reply = .locked) →
      SideMove p a { a with
        handler := .ready, reply := .failed, allLocked := x, up := a.up ++ [.relinquish grant] }

/-- The request is put into the queue. -/
def Arbiter.enqueue (a : Arbiter n) (r : Request n) : Arbiter n :=
  { a with queue := (a.queue.push r).1 }

/-- The request gets the next grant. -/
def Arbiter.grant (a : Arbiter n) (r : Request n) : Arbiter n :=
  { a with locking := r, grants := a.grants + 1 }

/-- Everything the arbiter can do with a message from client j, and what it sends. -/
inductive Arbitration (p : Promise) (a : Arbiter n) (j : Fin n) :
    Up → Arbiter n → (Fin n → List Down) → Prop
  | accept (t : ℕ) : a.isLocked = false →
      Arbitration p a j (.request t) ({ a with isLocked := true }.grant ⟨t, some j⟩)
        (Network.only j [.locked (a.grants + 1)])
  | refuse (t : ℕ) : a.isLocked = true →
      (p.heard → a.queue.size < MESSAGE_QUEUE_MAX_SIZE) →
      (a.locking.key < (⟨t, some j⟩ : Request n).key ∨
        ∃ top ∈ (a.enqueue ⟨t, some j⟩).queue.items.head?, top.key < (⟨t, some j⟩ : Request n).key) →
      Arbitration p a j (.request t) (a.enqueue ⟨t, some j⟩) (Network.only j [.failed])
  | inquire (t : ℕ) (h : Fin n) : a.isLocked = true →
      (p.heard → a.queue.size < MESSAGE_QUEUE_MAX_SIZE) →
      a.locking.sender = some h → a.replied h = true →
      (⟨t, some j⟩ : Request n).key ≤ a.locking.key →
      (∀ top ∈ (a.enqueue ⟨t, some j⟩).queue.items.head?, (⟨t, some j⟩ : Request n).key ≤ top.key) →
      Arbitration p a j (.request t)
        { a.enqueue ⟨t, some j⟩ with replied := Function.update a.replied h false }
        (Network.only h [.inquire a.grants])
  | await (t : ℕ) : a.isLocked = true → ¬ p.heard →
      Arbitration p a j (.request t) (a.enqueue ⟨t, some j⟩) (fun _ => [])
  | hand {top : Request n} {rest : List (Request n)} (y : Fin n) : a.queue.items = top :: rest →
      top.sender = some y →
      Arbitration p a j .release
        ({ a with queue := a.queue.pop, replied := Function.update a.replied j true }.grant top)
        (Network.only y [.locked (a.grants + 1)])
  | free : a.queue.items = [] →
      Arbitration p a j .release
        { a with
          isLocked := false, locking := { a.locking with sender := none }
          replied := Function.update a.replied j true }
        (fun _ => [])
  | replace {top : Request n} {rest : List (Request n)} (grant : ℕ) (y : Fin n) :
      a.queue.items = top :: rest → top.sender = some y →
      Arbitration p a j (.relinquish grant)
        ({ a with
          queue := (a.queue.pop.push a.locking).1
          replied := Function.update a.replied j true }.grant top)
        (Network.only y [.locked (a.grants + 1)])

/-- One client changes. -/
def View.change (v : View n) (j : Fin n) (a : Side) : View n :=
  ⟨v.arbiter, Function.update v.side j a⟩

/-- The arbiter takes a message from client j, and its answers leave. -/
def View.arbitrate (v : View n) (j : Fin n) (up : List Up) (a : Arbiter n)
    (out : Fin n → List Down) : View n where
  arbiter := a
  side y := { v.side y with
    up := if y = j then up else (v.side y).up
    down := (v.side y).down ++ out y }

inductive Move (p : Promise) (v : View n) : View n → Prop
  | stay : Move p v v
  | client (j : Fin n) {a : Side} : SideMove p (v.side j) a → Move p v (v.change j a)
  | arbiter (j : Fin n) {m : Up} {before behind : List Up} {a : Arbiter n}
      {out : Fin n → List Down} : (v.side j).up = before ++ m :: behind →
      (p.inOrder → before = []) → Arbitration p v.arbiter j m a out →
      Move p v (v.arbitrate j (before ++ behind) a out)

theorem SideMove.cast {p : Promise} {a b b' : Side} (h : SideMove p a b) (hb : b' = b) :
    SideMove p a b' := by
  subst hb
  exact h

theorem Move.cast {p : Promise} {v w w' : View n} (h : Move p v w)
    (ha : w'.arbiter = w.arbiter) (hs : ∀ y, w'.side y = w.side y) : Move p v w' := by
  obtain ⟨a, side⟩ := w'
  obtain rfl : a = w.arbiter := ha
  obtain rfl : side = w.side := funext hs
  exact h

@[simp] theorem change_self (v : View n) (j : Fin n) (a : Side) : (v.change j a).side j = a :=
  Function.update_self ..

@[simp] theorem change_of_ne (v : View n) {j y : Fin n} (a : Side) (h : y ≠ j) :
    (v.change j a).side y = v.side y := Function.update_of_ne h ..

section arbitrate
variable (v : View n) (j : Fin n) (up : List Up) (a : Arbiter n) (out : Fin n → List Down)
  (y : Fin n)

@[simp] theorem arbitrate_arbiter : (v.arbitrate j up a out).arbiter = a := rfl

@[simp] theorem arbitrate_up : ((v.arbitrate j up a out).side y).up =
    if y = j then up else (v.side y).up := rfl

@[simp] theorem arbitrate_down : ((v.arbitrate j up a out).side y).down =
    (v.side y).down ++ out y := rfl

@[simp] theorem arbitrate_main : ((v.arbitrate j up a out).side y).main = (v.side y).main := rfl

@[simp] theorem arbitrate_ours : ((v.arbitrate j up a out).side y).ours = (v.side y).ours := rfl

@[simp] theorem arbitrate_reply :
    ((v.arbitrate j up a out).side y).reply = (v.side y).reply := rfl

@[simp] theorem arbitrate_handler :
    ((v.arbitrate j up a out).side y).handler = (v.side y).handler := rfl

end arbitrate

variable {Q : Quorums n} {s : State n}

theorem write_arbiter (i : Fin n) (c : Strategy n) (m : MainThread)
    (out : Fin n → List Message) (k : Fin n) : ((s.write i c m out).view Q k).arbiter =
      if k = i then c.arbiter else (s.strategy k).arbiter := by
  by_cases hk : k = i
  · subst k
    simp [State.view, State.write]
  · simp [State.view, State.write, hk]

theorem write_side_self (i : Fin n) (c : Strategy n) (m : MainThread)
    (out : Fin n → List Message) (k : Fin n) : (s.write i c m out).side Q k i =
      { s.side Q k i with
        main := m
        ours := c.ourSequenceNumber
        reply := c.requestReply k
        allLocked := c.receivedAllLocked (Q.quorum i)
        down := (s.side Q k i).down ++ if k = i then (out i).filterMap Message.down? else []
        up := (s.side Q k i).up ++ (out k).filterMap Message.up? } := by
  simp [State.side, State.write, Network.filterMap_post]

theorem write_side_of_ne {i y : Fin n} (h : y ≠ i) (c : Strategy n) (m : MainThread)
    (out : Fin n → List Message) (k : Fin n) : (s.write i c m out).side Q k y =
      { s.side Q k y with
        down := (s.side Q k y).down ++ if k = i then (out y).filterMap Message.down? else [] } := by
  simp [State.side, State.write, Network.filterMap_post, h]

@[simp] theorem setHandler_arbiter (i j : Fin n) (h : Handler) (k : Fin n) :
    ((s.setHandler i j h).view Q k).arbiter = (s.view Q k).arbiter := rfl

theorem setHandler_side_self (i j : Fin n) (h : Handler) :
    (s.setHandler i j h).side Q j i = { s.side Q j i with handler := h } := by
  simp [State.side, State.setHandler]

theorem setHandler_side_of_ne {i j k y : Fin n} (h : Handler) (hne : ¬ (y = i ∧ k = j)) :
    (s.setHandler i j h).side Q k y = s.side Q k y := by
  by_cases hy : y = i
  · subst y
    have hk : k ≠ j := fun hk => hne ⟨rfl, hk⟩
    simp [State.side, State.setHandler, hk]
  · simp [State.side, State.setHandler, hy]

/-- Putting a handler where it is changes nothing. -/
theorem setHandler_of_eq {i j : Fin n} {h : Handler} (hs : s.handler i j = h) :
    s.setHandler i j h = s := by
  subst hs
  simp [State.setHandler, Function.update_eq_self]

/-- A section of the client alone, which sends only to arbiters. -/
theorem write_client {i : Fin n} {c : Strategy n} {m : MainThread} {out : Fin n → List Message}
    (hc : c.arbiter = (s.strategy i).arbiter) (hout : ∀ y, (out y).filterMap Message.down? = [])
    (k : Fin n) : (s.write i c m out).view Q k = (s.view Q k).change i
      { s.side Q k i with
        main := m
        ours := c.ourSequenceNumber
        reply := c.requestReply k
        allLocked := c.receivedAllLocked (Q.quorum i)
        up := (s.side Q k i).up ++ (out k).filterMap Message.up? } := by
  have ha : ((s.write i c m out).view Q k).arbiter = (s.view Q k).arbiter := by
    rw [write_arbiter, hc]
    split_ifs with hk
    · rw [hk]
      rfl
    · rfl
  have hside : ((s.write i c m out).view Q k).side = Function.update (s.view Q k).side i
      { s.side Q k i with
        main := m
        ours := c.ourSequenceNumber
        reply := c.requestReply k
        allLocked := c.receivedAllLocked (Q.quorum i)
        up := (s.side Q k i).up ++ (out k).filterMap Message.up? } := by
    funext y
    by_cases hy : y = i
    · subst y
      simp [State.view, write_side_self, hout]
    · simp [State.view, write_side_of_ne hy, hout, hy]
  rw [View.change, ← hside, ← ha]

/-- What a client lets its arbiters see is not touched. -/
def Strategy.SameClient (c c' : Strategy n) : Prop :=
  c'.ourSequenceNumber = c.ourSequenceNumber ∧ c'.requestReply = c.requestReply

theorem lock_eq_some {c c' : Strategy n} {r : Request n} {out : Fin n → List Message}
    (h : c.lock r = some (c', out)) : ∃ y, r.sender = some y ∧
      c' = { c with lockingRequest := r, grants := c.grants + 1 } ∧
      out = Network.only y (c.say (.locked (c.grants + 1))) := by
  obtain ⟨y, hy, he⟩ := Option.map_eq_some_iff.mp h
  obtain ⟨rfl, rfl⟩ := Prod.mk.inj he
  exact ⟨y, hy, rfl, rfl⟩

/-- The mail an arbiter sends out, all of it to clients. -/
def Answers (out : Fin n → List Message) (down : Fin n → List Down) : Prop :=
  ∀ y, (out y).filterMap Message.down? = down y ∧ (out y).filterMap Message.up? = []

theorem answers_only (c : Strategy n) (j : Fin n) {body : Body} {d : Down}
    (hd : (⟨c.ourSequenceNumber, body⟩ : Message).down? = some d)
    (hu : (⟨c.ourSequenceNumber, body⟩ : Message).up? = none) :
    Answers (Network.only j (c.say body)) (Network.only j [d]) := by
  intro y
  simp [Strategy.say, hd, hu]

theorem answers_none : Answers (n := n) (fun _ => []) (fun _ => []) := fun _ => ⟨rfl, rfl⟩

theorem treatRequest_arbitration {p : Promise} {c c' : Strategy n} {j : Fin n} {t : ℕ}
    {out : Fin n → List Message} (h : c.treatRequestMessage j t = some (c', out))
    (hp : p.heard → c.isLocked = true → c.waitingQueue.size < MESSAGE_QUEUE_MAX_SIZE ∧
      (Strategy.refuses { c with waitingQueue := (c.waitingQueue.push ⟨t, some j⟩).1 }
          ⟨t, some j⟩ = true ∨
        ∀ y, c.lockingRequest.sender = some y → c.isInquireReplied y = true)) :
    c.SameClient c' ∧ ∃ down, Answers out down ∧
      Arbitration p c.arbiter j (.request t) c'.arbiter down := by
  simp only [Strategy.treatRequestMessage] at h
  by_cases hl : c.isLocked = true
  · rw [if_neg (by simp [hl])] at h
    have hroom : p.heard → c.arbiter.queue.size < MESSAGE_QUEUE_MAX_SIZE := fun hh => (hp hh hl).1
    split_ifs at h with hr
    · cases h
      exact ⟨⟨rfl, rfl⟩, _, answers_only _ j rfl rfl,
        .refuse (a := c.arbiter) t hl hroom ((Strategy.refuses_iff _ _).mp hr)⟩
    · obtain ⟨y, hy, h⟩ := Option.map_eq_some_iff.mp h
      have hr' : ¬ Strategy.refuses { c with waitingQueue := (c.waitingQueue.push ⟨t, some j⟩).1 }
          ⟨t, some j⟩ = true := hr
      have hkeys := mt (Strategy.refuses_iff _ _).mpr hr'
      simp only [not_or, not_lt, not_exists, not_and] at hkeys
      split_ifs at h with hi <;> cases h
      · exact ⟨⟨rfl, rfl⟩, _, answers_only _ y rfl rfl,
          .inquire (a := c.arbiter) t y hl hroom hy hi hkeys.1 hkeys.2⟩
      · exact ⟨⟨rfl, rfl⟩, _, answers_none,
          .await (a := c.arbiter) t hl fun hh => ((hp hh hl).2.resolve_left hr') y hy |> hi⟩
  · rw [Bool.not_eq_true] at hl
    rw [if_pos (by simp [hl])] at h
    obtain ⟨y, hy, rfl, rfl⟩ := lock_eq_some h
    obtain rfl : j = y := Option.some.inj hy
    exact ⟨⟨rfl, rfl⟩, _, answers_only _ j rfl rfl, .accept (a := c.arbiter) t hl⟩

theorem treatRelease_arbitration {p : Promise} {c c' : Strategy n} {j : Fin n}
    {out : Fin n → List Message} (h : c.treatReleaseMessage j = some (c', out)) :
    c.SameClient c' ∧ ∃ down, Answers out down ∧
      Arbitration p c.arbiter j .release c'.arbiter down := by
  simp only [Strategy.treatReleaseMessage] at h
  split at h
  · next top htop =>
    obtain ⟨rest, hq⟩ := MessageQueue.top?_eq_some.mp htop
    obtain ⟨y, hy, rfl, rfl⟩ := lock_eq_some h
    exact ⟨⟨rfl, rfl⟩, _, answers_only _ y rfl rfl, .hand (a := c.arbiter) y hq hy⟩
  · next htop =>
    cases h
    exact ⟨⟨rfl, rfl⟩, _, answers_none, .free (a := c.arbiter) (List.head?_eq_none_iff.mp htop)⟩

theorem treatRelinquish_arbitration {p : Promise} {c c' : Strategy n} {j : Fin n} {grant : ℕ}
    {out : Fin n → List Message} (h : c.treatRelinquishMessage j = some (c', out)) :
    c.SameClient c' ∧ ∃ down, Answers out down ∧
      Arbitration p c.arbiter j (.relinquish grant) c'.arbiter down := by
  obtain ⟨top, htop, h⟩ := Option.bind_eq_some_iff.mp h
  obtain ⟨rest, hq⟩ := MessageQueue.top?_eq_some.mp htop
  obtain ⟨y, hy, rfl, rfl⟩ := lock_eq_some h
  exact ⟨⟨rfl, rfl⟩, _, answers_only _ y rfl rfl, .replace (a := c.arbiter) grant y hq hy⟩

/-- Only a LOCKED and a FAILED change what a client knows. -/
theorem requestReply_treatMessage {c c' : Strategy n} {j : Fin n} {m : Message}
    {out : Fin n → List Message} (h : c.treatMessage j m = some (c', out)) :
    c'.requestReply =
      match m.body with
      | .locked _ => Function.update c.requestReply j .locked
      | .failed => Function.update c.requestReply j .failed
      | .request | .inquire _ | .relinquish _ | .release => c.requestReply := by
  obtain ⟨t, body⟩ := m
  let p : Promise := ⟨False, False, False, False, False⟩
  cases body with
  | request => exact (treatRequest_arbitration (p := p) h False.elim).1.2
  | relinquish grant => exact (@treatRelinquish_arbitration n p c c' j grant out h).1.2
  | release => exact (treatRelease_arbitration (p := p) h).1.2
  | locked | inquire | failed =>
    cases h
    rfl

/-- What treat_message sends goes to clients. -/
theorem answers_treatMessage {c c' : Strategy n} {j : Fin n} {m : Message}
    {out : Fin n → List Message} (h : c.treatMessage j m = some (c', out)) (y : Fin n) :
    (out y).filterMap Message.up? = [] := by
  obtain ⟨t, body⟩ := m
  let p : Promise := ⟨False, False, False, False, False⟩
  cases body with
  | request =>
    obtain ⟨-, down, hout, -⟩ := treatRequest_arbitration (p := p) h False.elim
    exact (hout y).2
  | relinquish grant =>
    obtain ⟨-, down, hout, -⟩ := @treatRelinquish_arbitration n p c c' j grant out h
    exact (hout y).2
  | release =>
    obtain ⟨-, down, hout, -⟩ := treatRelease_arbitration (p := p) h
    exact (hout y).2
  | locked | inquire | failed =>
    cases h
    rfl

theorem up?_eq_none {m : Message} {d : Down} (h : m.down? = some d) : m.up? = none := by
  obtain ⟨t, body⟩ := m
  cases body <;> first | rfl | cases h

theorem down?_eq_none {m : Message} {u : Up} (h : m.up? = some u) : m.down? = none := by
  obtain ⟨t, body⟩ := m
  cases body <;> first | rfl | cases h

/-- Taking a message to the arbiter i out of the connection from j. -/
theorem receive_side_of_up {i j : Fin n} {m : Message} {u : Up} {before behind : List Message}
    (hl : s.inFlight j i = before ++ m :: behind) (hm : m.up? = some u) (k y : Fin n) :
    (s.receive i j (before ++ behind)).side Q k y = { s.side Q k y with
      up := if y = j ∧ k = i then before.filterMap Message.up? ++ behind.filterMap Message.up?
        else (s.side Q k y).up } := by
  have hup : (s.inFlight.put j i (before ++ behind) y k).filterMap Message.up? =
      if y = j ∧ k = i then before.filterMap Message.up? ++ behind.filterMap Message.up?
        else (s.inFlight y k).filterMap Message.up? := by
    unfold Network.put
    split_ifs <;> simp
  have hdown : (s.inFlight.put j i (before ++ behind) k y).filterMap Message.down? =
      (s.inFlight k y).filterMap Message.down? := by
    unfold Network.put
    split_ifs with hk
    · rw [hk.1, hk.2, hl]
      simp [down?_eq_none hm]
    · rfl
  simp only [State.side, State.receive, hup, hdown]

/-- Taking a message to the client i out of the connection from its arbiter j. -/
theorem receive_side_of_down {i j : Fin n} {m : Message} {d : Down} {before behind : List Message}
    (hl : s.inFlight j i = before ++ m :: behind) (hm : m.down? = some d) (k y : Fin n) :
    (s.receive i j (before ++ behind)).side Q k y = { s.side Q k y with
      down := if k = j ∧ y = i then
          before.filterMap Message.down? ++ behind.filterMap Message.down?
        else (s.side Q k y).down } := by
  have hdown : (s.inFlight.put j i (before ++ behind) k y).filterMap Message.down? =
      if k = j ∧ y = i then before.filterMap Message.down? ++ behind.filterMap Message.down?
        else (s.inFlight k y).filterMap Message.down? := by
    unfold Network.put
    split_ifs <;> simp
  have hup : (s.inFlight.put j i (before ++ behind) y k).filterMap Message.up? =
      (s.inFlight y k).filterMap Message.up? := by
    unfold Network.put
    split_ifs with hk
    · rw [hk.1, hk.2, hl]
      simp [up?_eq_none hm]
    · rfl
  simp only [State.side, State.receive, hup, hdown]

/-- A section of an arbiter, which leaves its own client alone. -/
theorem write_side_arbiter {i : Fin n} {c : Strategy n} {out : Fin n → List Message}
    {down : Fin n → List Down} (hc : (s.strategy i).SameClient c) (ho : Answers out down)
    (k y : Fin n) : (s.write i c (s.main i) out).side Q k y =
      { s.side Q k y with
        down := (s.side Q k y).down ++ if k = i then down y else [] } := by
  by_cases hy : y = i
  · subst y
    rw [write_side_self]
    simp [State.side, Strategy.receivedAllLocked, hc.1, hc.2, (ho k).2, (ho i).1]
  · simp [write_side_of_ne hy, (ho y).1]

theorem promise_heard {i j : Fin n} {place : ℕ} {t : ℕ}
    (hm : (s.inFlight j i)[place]? = some ⟨t, .request⟩)
    (hh : (promise Q s (.treatMessage i j place)).heard)
    (hl : (s.strategy i).isLocked = true) :
    (s.strategy i).waitingQueue.size < MESSAGE_QUEUE_MAX_SIZE ∧
      (Strategy.refuses { s.strategy i with
          waitingQueue := ((s.strategy i).waitingQueue.push ⟨t, some j⟩).1 } ⟨t, some j⟩ = true ∨
        ∀ y, (s.strategy i).lockingRequest.sender = some y →
          (s.strategy i).isInquireReplied y = true) := by
  simp only [promise, heard, hm, hl, Bool.not_true, Bool.false_or, Bool.and_eq_true,
    decide_eq_true_eq, Bool.or_eq_true, Option.all_eq_true] at hh
  exact ⟨hh.1, hh.2⟩

/-- A message to an arbiter moves its view and no other one. -/
private theorem treat_up_move {i j : Fin n} {place : ℕ} {message : Message} {u : Up}
    {before behind : List Message} {c : Strategy n} {out : Fin n → List Message}
    (hu : message.up? = some u) (hl : s.inFlight j i = before ++ message :: behind)
    (hplace : before.length = place) (hr : s.handler i j = .ready)
    (hc : (s.strategy i).treatMessage j message = some (c, out)) (k : Fin n) :
    Move (promise Q s (.treatMessage i j place)) (s.view Q k)
      ((((s.receive i j (before ++ behind)).write i c (s.main i) out).setHandler
        i j message.body.handler).view Q k) := by
  have hat : (s.inFlight j i)[place]? = some message := by
    rw [hl, ← hplace, List.getElem?_append_right (le_refl _)]
    simp
  have harb : (s.strategy i).SameClient c ∧ ∃ down, Answers out down ∧
      Arbitration (promise Q s (.treatMessage i j place)) (s.strategy i).arbiter j u
        c.arbiter down := by
    obtain ⟨t, body⟩ := message
    cases body with
    | request =>
      cases hu
      exact treatRequest_arbitration hc fun hh hlk => promise_heard hat hh hlk
    | relinquish grant =>
      cases hu
      exact treatRelinquish_arbitration hc
    | release =>
      cases hu
      exact treatRelease_arbitration hc
    | _ => cases hu
  obtain ⟨hsame, down, hout, harb⟩ := harb
  have hready : message.body.handler = .ready := by
    obtain ⟨t, body⟩ := message
    cases body <;> first | rfl | cases hu
  rw [hready, setHandler_of_eq (s := (s.receive i j (before ++ behind)).write i c (s.main i) out)
    (show (s.handler i j) = .ready from hr)]
  have hside (k y : Fin n) :
      ((s.receive i j (before ++ behind)).write i c (s.main i) out).side Q k y =
        { s.side Q k y with
          up := if y = j ∧ k = i then
              before.filterMap Message.up? ++ behind.filterMap Message.up?
            else (s.side Q k y).up
          down := (s.side Q k y).down ++ if k = i then down y else [] } := by
    have := write_side_arbiter (Q := Q) (s := s.receive i j (before ++ behind)) hsame hout k y
    rw [receive_side_of_up hl hu] at this
    exact this
  by_cases hk : k = i
  · subst k
    have hup : ((s.view Q i).side j).up =
        before.filterMap Message.up? ++ u :: behind.filterMap Message.up? := by
      simp [State.view, State.side, hl, hu]
    have hfirst : (promise Q s (.treatMessage i j place)).inOrder →
        before.filterMap Message.up? = [] := by
      intro ho
      rw [promise, inOrder, beq_iff_eq, ← hplace, List.length_eq_zero_iff] at ho
      rw [ho, List.filterMap_nil]
    refine (Move.arbiter j hup hfirst harb).cast ?_ fun y => (hside i y).trans ?_
    · simp [write_arbiter, View.arbitrate]
    · simp [View.arbitrate, State.view]
  · refine Move.stay.cast ?_ fun y => (hside k y).trans ?_
    · simp [write_arbiter, hk]
      rfl
    · simp [hk]
      rfl

/-- A message to a client moves it towards the arbiter that sent it. -/
private theorem treat_down_move {i j : Fin n} {place : ℕ} {message : Message} {d : Down}
    {before behind : List Message} {c : Strategy n} {out : Fin n → List Message}
    (hd : message.down? = some d) (hl : s.inFlight j i = before ++ message :: behind)
    (hplace : before.length = place) (hr : s.handler i j = .ready)
    (hc : (s.strategy i).treatMessage j message = some (c, out)) (k : Fin n) :
    Move (promise Q s (.treatMessage i j place)) (s.view Q k)
      ((((s.receive i j (before ++ behind)).write i c (s.main i) out).setHandler
        i j message.body.handler).view Q k) := by
  have hclient : c.arbiter = (s.strategy i).arbiter ∧ out = (fun _ => []) ∧
      c.ourSequenceNumber = (s.strategy i).ourSequenceNumber ∧
      ∀ k, k ≠ j → c.requestReply k = (s.strategy i).requestReply k := by
    obtain ⟨t, body⟩ := message
    cases body <;> cases hd <;> cases hc <;>
      simp +contextual [Strategy.treatLockedMessage, Strategy.treatFailedMessage, Strategy.arbiter]
  obtain ⟨harb, rfl, hours, hreply⟩ := hclient
  let u := (s.receive i j (before ++ behind)).write i c (s.main i) fun _ => []
  have harbu (k : Fin n) : (u.view Q k).arbiter = (s.view Q k).arbiter := by
    simp only [u, write_arbiter, harb]
    split_ifs with hk
    · rw [hk]
      rfl
    · rfl
  have hother {y : Fin n} (hy : y ≠ i) (k : Fin n) : u.side Q k y = s.side Q k y := by
    rw [write_side_of_ne hy, receive_side_of_down hl hd]
    simp [hy]
  have hself (k : Fin n) : u.side Q k i = { s.side Q k i with
      reply := c.requestReply k
      allLocked := c.receivedAllLocked (Q.quorum i)
      down := if k = j then before.filterMap Message.down? ++ behind.filterMap Message.down?
        else (s.side Q k i).down } := by
    rw [write_side_self, receive_side_of_down hl hd]
    simp [State.side, hours]
  by_cases hk : k = j
  · subst k
    have hdown : ((s.view Q j).side i).down =
        before.filterMap Message.down? ++ d :: behind.filterMap Message.down? := by
      simp [State.view, State.side, hl, hd]
    have hfirst : (promise Q s (.treatMessage i j place)).inOrder →
        before.filterMap Message.down? = [] := by
      intro ho
      rw [promise, inOrder, beq_iff_eq, ← hplace, List.length_eq_zero_iff] at ho
      rw [ho, List.filterMap_nil]
    have hat : (s.inFlight j i)[place]? = some message := by
      rw [hl, ← hplace, List.getElem?_append_right (le_refl _)]
      simp
    have hmove : SideMove (promise Q s (.treatMessage i j place)) ((s.view Q j).side i)
        ((u.setHandler i j message.body.handler).side Q j i) := by
      rw [setHandler_side_self, hself]
      obtain ⟨t, body⟩ := message
      cases body with
      | locked grant =>
        cases hd
        cases hc
        refine (SideMove.locked grant (((s.strategy i).treatLockedMessage j).receivedAllLocked
          (Q.quorum i)) hr hdown hfirst).cast ?_
        simp [State.view, State.side, Strategy.treatLockedMessage, Body.handler, hr]
      | inquire grant =>
        cases hd
        cases hc
        have hn : (promise Q s (.treatMessage i j place)).noticed →
            (s.side Q j i).reply = .locked := by
          intro hn
          simp only [promise, noticed, hat, decide_eq_true_eq] at hn
          exact hn
        refine (SideMove.inquire grant hr hdown hfirst hn).cast ?_
        simp [State.view, State.side, Body.handler]
      | failed =>
        cases hd
        cases hc
        refine (SideMove.failed (((s.strategy i).treatFailedMessage j).receivedAllLocked
          (Q.quorum i)) hr hdown hfirst).cast ?_
        simp [State.view, State.side, Strategy.treatFailedMessage, Body.handler, hr]
      | _ => cases hd
    refine (Move.client i hmove).cast (harbu j) fun y => ?_
    by_cases hy : y = i
    · subst y
      rw [change_self]
      rfl
    · rw [change_of_ne _ _ hy]
      exact (setHandler_side_of_ne _ fun h => hy h.1).trans (hother hy j)
  · refine (Move.client i (.elsewhere (c.receivedAllLocked (Q.quorum i)))).cast (harbu k)
      fun y => ?_
    by_cases hy : y = i
    · subst y
      rw [change_self]
      refine (setHandler_side_of_ne _ fun h => hk h.2).trans ((hself k).trans ?_)
      rw [if_neg hk, hreply k hk]
      rfl
    · rw [change_of_ne _ _ hy]
      exact (setHandler_side_of_ne _ fun h => hy h.1).trans (hother hy k)

/-- A step of treat_inquire_message. -/
private theorem handler_move {t : State n} {i j : Fin n}
    (he : Effect Q s (.treatInquireMessage i j) t) (k : Fin n) :
    Move (promise Q s (.treatInquireMessage i j)) (s.view Q k) (t.view Q k) := by
  have hset {u : State n} {h : Handler} {a : Side}
      (hm : SideMove (promise Q s (.treatInquireMessage i j)) (s.side Q j i) a)
      (harb : ∀ k, (u.view Q k).arbiter = (s.view Q k).arbiter)
      (hside : ∀ y, y ≠ i → u.side Q j y = s.side Q j y)
      (hself : { u.side Q j i with handler := h } = a) :
      Move (promise Q s (.treatInquireMessage i j)) (s.view Q j)
        ((u.setHandler i j h).view Q j) := by
    refine (Move.client i hm).cast (harb j) fun y => ?_
    by_cases hy : y = i
    · subst y
      rw [change_self]
      exact (setHandler_side_self i j h).trans hself
    · rw [change_of_ne _ _ hy]
      exact (setHandler_side_of_ne h fun h => hy h.1).trans (hside y hy)
  obtain ⟨grant, ⟨point, point', hi, rfl⟩ | ⟨hi, rfl⟩ | ⟨hi, rfl⟩⟩ := he
  · by_cases hk : k = j
    · subst k
      exact hset (.consider grant point' hi) (fun _ => rfl) (fun _ _ => rfl) rfl
    · exact Move.stay.cast rfl fun y => setHandler_side_of_ne _ fun h => hk h.2
  · by_cases hk : k = j
    · subst k
      refine hset (.leave grant hi fun ha hm hr => ?_) (fun _ => rfl) (fun _ _ => rfl) rfl
      have hm : s.main i = .polling := hm
      have hr : (s.strategy i).requestReply j = .locked := hr
      simp only [promise, answers, hi, hm, hr, decide_true, Bool.and_self, Bool.not_true,
        Bool.false_or] at ha
      exact ha
    · exact Move.stay.cast rfl fun y => setHandler_side_of_ne _ fun h => hk h.2
  · have hout (y : Fin n) :
        (((s.strategy i).relinquish j grant).2 y).filterMap Message.down? = [] :=
      (Network.filterMap_only _ _ _ _).trans (Network.only_nil j y)
    have hwrite := write_client (Q := Q) (m := s.main i)
      (show ((s.strategy i).relinquish j grant).1.arbiter = (s.strategy i).arbiter from rfl) hout
    have hother {y : Fin n} (hy : y ≠ i) (k : Fin n) : (s.write i
        ((s.strategy i).relinquish j grant).1 (s.main i)
        ((s.strategy i).relinquish j grant).2).side Q k y = s.side Q k y :=
      (congrArg (fun v => v.side y) (hwrite k)).trans (change_of_ne _ _ hy)
    let x := ((s.strategy i).relinquish j grant).1.receivedAllLocked (Q.quorum i)
    by_cases hk : k = j
    · subst k
      have hin : (promise Q s (.treatInquireMessage i j)).inTime →
          (s.side Q j i).main = .polling ∧ (s.side Q j i).reply = .locked := by
        intro h
        simp only [promise, inTime, hi, Bool.and_eq_true, decide_eq_true_eq] at h
        exact h
      refine hset (.relinquish grant x hi hin) (fun k => ?_) (fun y hy => hother hy j) ?_
      · rw [hwrite]
        rfl
      · rw [write_side_self, hout]
        simp [x, State.side, Strategy.relinquish, Strategy.say, Message.up?]
    · refine (Move.client i (.elsewhere x)).cast ?_ fun y => ?_
      · rw [setHandler_arbiter, hwrite]
        rfl
      · refine (setHandler_side_of_ne _ fun h => hk h.2).trans ?_
        by_cases hy : y = i
        · subst y
          rw [change_self, write_side_self, hout]
          simp [x, State.view, State.side, Strategy.relinquish, hk]
        · rw [change_of_ne _ _ hy]
          exact hother hy k

/-- Every step is one move of every arbiter's view. -/
theorem step_move {t : State n} {a : Action n} (h : step Q s a = some t) (k : Fin n) :
    Move (promise Q s a) (s.view Q k) (t.view Q k) := by
  have he := effect_of_step h
  cases a with
  | requestResource i =>
    obtain ⟨hm, rfl⟩ := he
    have harb : ((s.strategy i).requestResource (Q.quorum i)).1.arbiter =
        (s.strategy i).arbiter := rfl
    have hout (y : Fin n) : (((s.strategy i).requestResource (Q.quorum i)).2 y).filterMap
        Message.down? = [] := by
      simp only [Strategy.requestResource]
      split_ifs <;> rfl
    rw [write_client harb hout]
    apply Move.client
    let c := ((s.strategy i).requestResource (Q.quorum i)).1
    by_cases hk : k ∈ Q.quorum i
    · refine (SideMove.request c.ourSequenceNumber (c.receivedAllLocked (Q.quorum i)) hm
        (decide_eq_true hk)).cast ?_
      simp [c, State.view, State.side, Strategy.requestResource, Strategy.say, Message.up?, hk]
    · refine (SideMove.requestElsewhere c.ourSequenceNumber (c.receivedAllLocked (Q.quorum i)) hm
        (decide_eq_false hk)).cast ?_
      simp [c, State.view, State.side, Strategy.requestResource, hk]
  | canEnterCriticalSection i =>
    obtain ⟨hm, rfl⟩ := he
    rw [write_client rfl fun _ => rfl]
    apply Move.client
    by_cases hc : (s.strategy i).canEnterCriticalSection (Q.quorum i) = true
    · have hreply : (s.side Q k i).member = true → (s.side Q k i).reply = .locked :=
        fun hk => of_decide_eq_true hc k (of_decide_eq_true hk)
      refine (SideMove.enter hm hreply).cast ?_
      simp [State.side, hc]
    · refine (SideMove.elsewhere (s.side Q k i).allLocked).cast ?_
      simp [State.view, State.side, hc, hm]
  | releaseResource i =>
    obtain ⟨hm, rfl⟩ := he
    have harb : ((s.strategy i).releaseResource (Q.quorum i)).1.arbiter =
        (s.strategy i).arbiter := rfl
    have hout (y : Fin n) : (((s.strategy i).releaseResource (Q.quorum i)).2 y).filterMap
        Message.down? = [] := by
      simp only [Strategy.releaseResource]
      split_ifs <;> rfl
    rw [write_client harb hout]
    apply Move.client
    let c := ((s.strategy i).releaseResource (Q.quorum i)).1
    by_cases hk : k ∈ Q.quorum i
    · refine (SideMove.release (c.receivedAllLocked (Q.quorum i)) hm (decide_eq_true hk)).cast ?_
      simp [c, State.view, State.side, Strategy.releaseResource, Strategy.resetRequestReply,
        Strategy.say, Message.up?, hk]
    · refine (SideMove.releaseElsewhere (c.receivedAllLocked (Q.quorum i)) hm
        (decide_eq_false hk)).cast ?_
      simp [c, State.view, State.side, Strategy.releaseResource, Strategy.resetRequestReply, hk]
  | treatMessage i j place =>
    obtain ⟨before, message, behind, c, out, hl, hplace, hr, hc, rfl⟩ := he
    cases hu : message.up? with
    | some u => exact treat_up_move hu hl hplace hr hc k
    | none =>
      have hd : ∃ d, message.down? = some d := by
        obtain ⟨t, body⟩ := message
        cases body <;> first | exact ⟨_, rfl⟩ | cases hu
      obtain ⟨d, hd⟩ := hd
      exact treat_down_move hd hl hplace hr hc k
  | treatInquireMessage i j => exact handler_move he k

end DistributedME.Maekawa
