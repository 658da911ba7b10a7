import DistributedME.Library.Machine
import DistributedME.RicartAgrawala.Strategy

/-! All clients of one file: the strategy objects, the main threads that use them, and the
messages on the connections between the clients. -/
namespace DistributedME.RicartAgrawala
open Library

/-- Where the main thread of a client is. Between entering and inside lies the gap in
which can_enter_critical_section has answered but is_using is not yet set. -/
inductive MainThread where
  | idle
  | polling
  | entering
  | inside
  deriving DecidableEq, Repr

structure State (n : ℕ) where
  strategy : Fin n → Strategy n
  main : Fin n → MainThread
  inFlight : Network (Fin n) Message

/-- The locked sections: four of the main thread, and the treatment by i of the oldest
message on its connection from j. -/
inductive Action (n : ℕ) where
  | requestResource (i : Fin n)
  | canEnterCriticalSection (i : Fin n)
  | enterCriticalSection (i : Fin n)
  | releaseResource (i : Fin n)
  | treatMessage (i j : Fin n)
  deriving DecidableEq, Repr

variable {n : ℕ}

/-- One section of client i: its object and main thread change and messages leave. -/
def State.write (s : State n) (i : Fin n) (c : Strategy n) (m : MainThread)
    (out : Fin n → List Message) : State n where
  strategy := Function.update s.strategy i c
  main := Function.update s.main i m
  inFlight := s.inFlight.post i out

def initial (n : ℕ) : State n where
  strategy := fun _ => .construct n
  main := fun _ => .idle
  inFlight := .empty

def step (s : State n) : Action n → Option (State n)
  | .requestResource i =>
    if s.main i = .idle then
      let (c, out) := (s.strategy i).requestResource i
      some (s.write i c .polling out)
    else none
  | .canEnterCriticalSection i =>
    if s.main i = .polling then
      let m := if (s.strategy i).canEnterCriticalSection i then .entering else .polling
      some (s.write i (s.strategy i) m fun _ => [])
    else none
  | .enterCriticalSection i =>
    if s.main i = .entering then
      some (s.write i (s.strategy i).enterCriticalSection .inside fun _ => [])
    else none
  | .releaseResource i =>
    if s.main i = .inside then
      let (c, out) := (s.strategy i).releaseResource i
      some (s.write i c .idle out)
    else none
  | .treatMessage i j =>
    match s.inFlight j i with
    | [] => none
    | msg :: rest =>
      let (c, out) := (s.strategy i).treatMessage i j msg
      some (State.write { s with inFlight := s.inFlight.put j i rest } i c (s.main i)
        (Network.only j out))

/-- The clients of one file under the Ricart-Agrawala strategy. -/
def machine (n : ℕ) : Machine (State n) (Action n) where
  init s := s = initial n
  step := step

/-- The treatment of a REQUEST takes the third branch, which gives A[j] away and asks for
it again, while its client has been told that it may enter but is not yet using. -/
def YieldsInGap (s : State n) : Action n → Prop
  | .treatMessage i j => ∃ t rest, s.inFlight j i = .request t :: rest ∧
      s.main i = .entering ∧ (s.strategy i).isWaiting = true ∧ (s.strategy i).A j = true ∧
      ourPriority (s.strategy i).ourSequenceNumber i t j = false
  | _ => False

instance YieldsInGap.decidable (s : State n) : ∀ act, Decidable (YieldsInGap s act)
  | .treatMessage i j =>
    match h : s.inFlight j i with
    | .request t :: rest =>
      decidable_of_iff (s.main i = .entering ∧ (s.strategy i).isWaiting = true ∧
        (s.strategy i).A j = true ∧ ourPriority (s.strategy i).ourSequenceNumber i t j = false)
        ⟨fun hy => ⟨t, rest, h, hy⟩, fun ⟨t', rest', h', hy⟩ => by
          obtain ⟨rfl, rfl⟩ : t = t' ∧ rest = rest' := by simpa using h.symm.trans h'
          exact hy⟩
    | [] => isFalse fun ⟨_, _, h', _⟩ => by simp [h] at h'
    | .reply _ :: _ => isFalse fun ⟨_, _, h', _⟩ => by simp [h] at h'
  | .requestResource _ | .canEnterCriticalSection _ | .enterCriticalSection _
  | .releaseResource _ => isFalse id

/-- What client i keeps that matters to its relation with one other client. -/
structure Side where
  main : MainThread
  ours : ℕ
  hgst : ℕ
  holds : Bool
  isUsing : Bool
  isWaiting : Bool
  deferred : Bool

def State.side (s : State n) (i j : Fin n) : Side where
  main := s.main i
  ours := (s.strategy i).ourSequenceNumber
  hgst := (s.strategy i).hgstSequenceNumber
  holds := (s.strategy i).A j
  isUsing := (s.strategy i).isUsing
  isWaiting := (s.strategy i).isWaiting
  deferred := (s.strategy i).replyDeferred j

/-- Everything a section of client i can do to its side towards j and to the two channels
between them, ij from i to j and ji back. A yield in the gap needs gap. -/
inductive Local (gap : Prop) (i j : Fin n) :
    Side → List Message → List Message → Side → List Message → List Message → Prop
  | stay {a : Side} {ij ji : List Message} : Local gap i j a ij ji a ij ji
  | heard {a : Side} {ij ji : List Message} (t : ℕ) :
      Local gap i j a ij ji { a with hgst := max a.hgst t } ij ji
  | request {a : Side} {ij ji : List Message} : a.main = .idle →
      Local gap i j a ij ji
        { a with main := .polling, ours := a.hgst + 1, isWaiting := true }
        (ij ++ if a.holds then [] else [.request (a.hgst + 1)]) ji
  | polled {a : Side} {ij ji : List Message} : a.main = .polling → a.holds = true →
      Local gap i j a ij ji { a with main := .entering } ij ji
  | entered {a : Side} {ij ji : List Message} : a.main = .entering →
      Local gap i j a ij ji
        { a with main := .inside, isWaiting := false, isUsing := true } ij ji
  | kept {a : Side} {ij ji : List Message} : a.main = .inside → a.deferred = false →
      Local gap i j a ij ji { a with main := .idle, isUsing := false } ij ji
  | released {a : Side} {ij ji : List Message} : a.main = .inside → a.deferred = true →
      Local gap i j a ij ji
        { a with main := .idle, isUsing := false, holds := false, deferred := false }
        (ij ++ [.reply a.ours]) ji
  | replied {a : Side} {ij ji : List Message} (t : ℕ) :
      Local gap i j a ij (.reply t :: ji) { a with holds := true } ij ji
  | deferred {a : Side} {ij ji : List Message} (t : ℕ) :
      (a.isUsing = true ∨ a.isWaiting = true ∧ Precedes a.ours i t j) →
      Local gap i j a ij (.request t :: ji)
        { a with hgst := max a.hgst t, deferred := true } ij ji
  | granted {a : Side} {ij ji : List Message} (t : ℕ) : a.isUsing = false →
      (a.isWaiting = true → a.holds = false ∧ Precedes t j a.ours i) →
      Local gap i j a ij (.request t :: ji)
        { a with hgst := max a.hgst t, holds := false } (ij ++ [.reply a.ours]) ji
  | yielded {a : Side} {ij ji : List Message} (t : ℕ) : a.isUsing = false →
      a.isWaiting = true → a.holds = true → Precedes t j a.ours i →
      (a.main = .entering → gap) →
      Local gap i j a ij (.request t :: ji)
        { a with hgst := max a.hgst t, holds := false }
        (ij ++ [.reply a.ours, .request a.ours]) ji

theorem Local.cast {gap : Prop} {i j : Fin n} {a b b' : Side} {ij ji x y x' y' : List Message}
    (h : Local gap i j a ij ji b x y) (hb : b' = b) (hx : x' = x) (hy : y' = y) :
    Local gap i j a ij ji b' x' y' := by
  subst hb hx hy
  exact h

/-- The flags of each object agree with the place of its main thread. -/
def State.Modes (s : State n) : Prop := ∀ i,
  ((s.strategy i).isWaiting = true ↔ s.main i = .polling ∨ s.main i = .entering) ∧
    ((s.strategy i).isUsing = true ↔ s.main i = .inside)

theorem initial_modes : (initial n).Modes := by
  intro i
  simp [initial, Strategy.construct]

theorem treatMessage_modes (c : Strategy n) (i j : Fin n) (msg : Message) :
    (c.treatMessage i j msg).1.isWaiting = c.isWaiting ∧
      (c.treatMessage i j msg).1.isUsing = c.isUsing := by
  cases msg with
  | reply t => exact ⟨rfl, rfl⟩
  | request t =>
    simp only [Strategy.treatMessage, Strategy.treatRequestMessage]
    constructor <;> split_ifs <;> rfl

theorem treatRequestMessage_ours (c : Strategy n) (i : Fin n) (r : ℕ) (j : Fin n) :
    (c.treatRequestMessage i r j).1.ourSequenceNumber = c.ourSequenceNumber := by
  simp only [Strategy.treatRequestMessage]
  split_ifs <;> rfl

theorem write_modes {s : State n} (h : s.Modes) (i : Fin n) (c : Strategy n) (m : MainThread)
    (out : Fin n → List Message)
    (hc : (c.isWaiting = true ↔ m = .polling ∨ m = .entering) ∧ (c.isUsing = true ↔ m = .inside)) :
    (s.write i c m out).Modes := by
  intro k
  by_cases hk : k = i
  · subst k
    simpa [State.write] using hc
  · simpa [State.write, hk] using h k

/-- What a step found and what it wrote, one line for each kind of section. -/
def Effect (s : State n) (a : Action n) (t : State n) : Prop :=
  match a with
  | .requestResource i => s.main i = .idle ∧ t = s.write i
      ((s.strategy i).requestResource i).1 .polling ((s.strategy i).requestResource i).2
  | .canEnterCriticalSection i => s.main i = .polling ∧ t = s.write i (s.strategy i)
      (if (s.strategy i).canEnterCriticalSection i then .entering else .polling) fun _ => []
  | .enterCriticalSection i => s.main i = .entering ∧
      t = s.write i (s.strategy i).enterCriticalSection .inside fun _ => []
  | .releaseResource i => s.main i = .inside ∧ t = s.write i
      ((s.strategy i).releaseResource i).1 .idle ((s.strategy i).releaseResource i).2
  | .treatMessage i j => ∃ msg rest, s.inFlight j i = msg :: rest ∧
      t = State.write { s with inFlight := s.inFlight.put j i rest } i
        ((s.strategy i).treatMessage i j msg).1 (s.main i)
        (Network.only j ((s.strategy i).treatMessage i j msg).2)

theorem effect_of_step {s t : State n} {a : Action n} (h : step s a = some t) :
    Effect s a t := by
  cases a with
  | treatMessage i j =>
    simp only [step] at h
    split at h <;> cases h
    exact ⟨_, _, ‹_›, rfl⟩
  | _ =>
    simp only [step] at h
    split at h <;> cases h
    exact ⟨‹_›, rfl⟩

theorem modes_step {s t : State n} {a : Action n} (hs : s.Modes) (h : step s a = some t) :
    t.Modes := by
  have he := effect_of_step h
  cases a with
  | requestResource i =>
    obtain ⟨hm, rfl⟩ := he
    have hi := hs i
    exact write_modes hs _ _ _ _ (by simp_all [Strategy.requestResource])
  | canEnterCriticalSection i =>
    obtain ⟨hm, rfl⟩ := he
    have hi := hs i
    apply write_modes hs
    split <;> simp_all
  | enterCriticalSection i =>
    obtain ⟨hm, rfl⟩ := he
    exact write_modes hs _ _ _ _ (by simp [Strategy.enterCriticalSection])
  | releaseResource i =>
    obtain ⟨hm, rfl⟩ := he
    have hi := hs i
    exact write_modes hs _ _ _ _ (by simp_all [Strategy.releaseResource])
  | treatMessage i j =>
    obtain ⟨msg, rest, hm, rfl⟩ := he
    have hk := treatMessage_modes (s.strategy i) i j msg
    apply write_modes (s := { s with inFlight := s.inFlight.put j i rest }) hs
    rw [hk.1, hk.2]
    exact hs i

/-- The client whose section an action is. -/
def Action.actor : Action n → Fin n
  | .requestResource i | .canEnterCriticalSection i | .enterCriticalSection i
  | .releaseResource i | .treatMessage i _ => i

/-- A step changes no other client and no channel that its client is not an end of. -/
theorem step_frame {s t : State n} {a : Action n} (h : step s a = some t) {i j : Fin n}
    (hi : i ≠ a.actor) : t.side i j = s.side i j ∧
      (j ≠ a.actor → t.inFlight i j = s.inFlight i j) := by
  have he := effect_of_step h
  cases a with
  | treatMessage x y =>
    obtain ⟨msg, rest, hm, rfl⟩ := he
    change i ≠ x at hi
    refine ⟨by simp [State.side, State.write, hi], fun hj => ?_⟩
    change j ≠ x at hj
    simp [State.write, hi, Network.put_of_ne, hj]
  | _ x =>
    obtain ⟨hm, rfl⟩ := he
    change i ≠ x at hi
    exact ⟨by simp [State.side, State.write, hi], fun _ => by simp [State.write, hi]⟩

/-- The treatment of a message from k reaches the other clients only through
hgst_sequence_number. -/
private theorem treat_other_local {s : State n} {i j k : Fin n} {gap : Prop} (hj : j ≠ i)
    (hk : j ≠ k) (msg : Message) (rest : List Message) :
    let t := State.write { s with inFlight := s.inFlight.put k i rest } i
      ((s.strategy i).treatMessage i k msg).1 (s.main i)
      (Network.only k ((s.strategy i).treatMessage i k msg).2)
    Local gap i j (s.side i j) (s.inFlight i j) (s.inFlight j i)
      (t.side i j) (t.inFlight i j) (t.inFlight j i) := by
  intro t
  have hij : t.inFlight i j = s.inFlight i j := by
    simp [t, State.write, Network.put_of_ne, hj, hk]
  have hji : t.inFlight j i = s.inFlight j i := by
    simp [t, State.write, Network.put_of_ne, hj, hk]
  cases msg with
  | reply r =>
    refine (Local.stay (a := s.side i j)).cast ?_ hij hji
    simp [t, State.side, State.write, Strategy.treatMessage, Strategy.treatReplyMessage, hk]
  | request r =>
    refine (Local.heard (a := s.side i j) r).cast ?_ hij hji
    simp only [t, State.side, State.write, Function.update_self, Strategy.treatMessage,
      Strategy.treatRequestMessage]
    split_ifs <;> simp [hk]

/-- The five ways in which the three conditionals of treat_request_message can come out. -/
private theorem treat_request_local {s : State n} (hs : s.Modes) {i j : Fin n} (hj : j ≠ i)
    {r : ℕ} {rest : List Message} (hm : s.inFlight j i = .request r :: rest) :
    let c := (s.strategy i).treatRequestMessage i r j
    Local (YieldsInGap s (.treatMessage i j)) i j (s.side i j) (s.inFlight i j)
      (.request r :: rest)
      { s.side i j with
        hgst := c.1.hgstSequenceNumber, holds := c.1.A j, deferred := c.1.replyDeferred j }
      (s.inFlight i j ++ c.2) rest := by
  intro c
  by_cases hu : (s.strategy i).isUsing = true
  · have hw : (s.strategy i).isWaiting = false := by
      have := hs i
      simp_all
    have hc : c = _ := Strategy.treatRequestMessage_of_using _ i r j hu hw
    refine (Local.deferred (a := s.side i j) r (.inl hu)).cast ?_ ?_ rfl <;>
      simp [hc, State.side]
  rw [Bool.not_eq_true] at hu
  by_cases hw : (s.strategy i).isWaiting = true
  · by_cases ho : ourPriority (s.strategy i).ourSequenceNumber i r j = true
    · have hc : c = _ := Strategy.treatRequestMessage_of_priority _ i r j hw ho
      refine (Local.deferred (a := s.side i j) r
        (.inr ⟨hw, (ourPriority_iff _ _ _ _).mp ho⟩)).cast ?_ ?_ rfl <;> simp [hc, State.side]
    rw [Bool.not_eq_true] at ho
    have hp := (ourPriority_eq_false_iff _ _ _ _ hj).mp ho
    by_cases hA : (s.strategy i).A j = true
    · have hc : c = _ := Strategy.treatRequestMessage_of_yielding _ i r j hu hw ho hA
      refine (Local.yielded (a := s.side i j) r hu hw hA hp
        (fun hg => ⟨r, rest, hm, hg, hw, hA, ho⟩)).cast ?_ ?_ rfl <;> simp [hc, State.side]
    · rw [Bool.not_eq_true] at hA
      have hc : c = _ := Strategy.treatRequestMessage_of_lacking _ i r j hu hw ho hA
      refine (Local.granted (a := s.side i j) r hu (fun _ => ⟨hA, hp⟩)).cast ?_ ?_ rfl <;>
        simp [hc, State.side]
  · have hw' := hw
    rw [Bool.not_eq_true] at hw'
    have hc : c = _ := Strategy.treatRequestMessage_of_idle _ i r j hu hw'
    refine (Local.granted (a := s.side i j) r hu (fun h => (hw h).elim)).cast ?_ ?_ rfl <;>
      simp [hc, State.side]

private theorem treat_local {s : State n} (hs : s.Modes) {i j : Fin n} (hj : j ≠ i)
    {msg : Message} {rest : List Message} (hm : s.inFlight j i = msg :: rest) :
    let t := State.write { s with inFlight := s.inFlight.put j i rest } i
      ((s.strategy i).treatMessage i j msg).1 (s.main i)
      (Network.only j ((s.strategy i).treatMessage i j msg).2)
    Local (YieldsInGap s (.treatMessage i j)) i j (s.side i j) (s.inFlight i j) (s.inFlight j i)
      (t.side i j) (t.inFlight i j) (t.inFlight j i) := by
  intro t
  have hij : t.inFlight i j =
      s.inFlight i j ++ ((s.strategy i).treatMessage i j msg).2 := by
    simp [t, State.write, Network.put_of_ne, hj.symm]
  have hji : t.inFlight j i = rest := by simp [t, State.write, hj]
  rw [hm]
  cases msg with
  | reply r =>
    refine (Local.replied (a := s.side i j) r).cast ?_ (hij.trans ?_) hji
    · simp [t, State.side, State.write, Strategy.treatMessage, Strategy.treatReplyMessage]
    · simp [Strategy.treatMessage]
  | request r =>
    refine (treat_request_local hs hj hm).cast ?_ hij hji
    have hk := treatMessage_modes (s.strategy i) i j (.request r)
    have ho := treatRequestMessage_ours (s.strategy i) i r j
    simp only [Strategy.treatMessage] at hk
    simp [t, State.side, State.write, Strategy.treatMessage, hk, ho]

/-- Seen from one other client, a step is one of the local changes. -/
theorem step_local {s t : State n} {a : Action n} (hs : s.Modes) (h : step s a = some t)
    {j : Fin n} (hj : j ≠ a.actor) :
    Local (YieldsInGap s a) a.actor j
      (s.side a.actor j) (s.inFlight a.actor j) (s.inFlight j a.actor)
      (t.side a.actor j) (t.inFlight a.actor j) (t.inFlight j a.actor) := by
  have he := effect_of_step h
  cases a with
  | requestResource i =>
    obtain ⟨hm, rfl⟩ := he
    change j ≠ i at hj
    refine (Local.request (a := s.side i j) hm).cast ?_ ?_ ?_
    · simp [State.side, State.write, Strategy.requestResource, Action.actor]
    · cases hA : (s.strategy i).A j <;>
        simp [State.side, State.write, Strategy.requestResource, Action.actor, hj, hA]
    · simp [State.write, Action.actor, hj]
  | canEnterCriticalSection i =>
    obtain ⟨hm, rfl⟩ := he
    change j ≠ i at hj
    by_cases hc : (s.strategy i).canEnterCriticalSection i = true
    · have hA := (Strategy.canEnterCriticalSection_iff _ _).mp hc j hj
      refine (Local.polled (a := s.side i j) hm hA).cast ?_ ?_ ?_
      · simp [State.side, State.write, Action.actor, hc]
      · simp [State.write, Action.actor]
      · simp [State.write, Action.actor, hj]
    · refine (Local.stay (a := s.side i j)).cast ?_ ?_ ?_
      · simp [State.side, State.write, Action.actor, hc, hm]
      · simp [State.write, Action.actor]
      · simp [State.write, Action.actor, hj]
  | enterCriticalSection i =>
    obtain ⟨hm, rfl⟩ := he
    change j ≠ i at hj
    refine (Local.entered (a := s.side i j) hm).cast ?_ ?_ ?_
    · simp [State.side, State.write, Strategy.enterCriticalSection, Action.actor]
    · simp [State.write, Action.actor]
    · simp [State.write, Action.actor, hj]
  | releaseResource i =>
    obtain ⟨hm, rfl⟩ := he
    change j ≠ i at hj
    cases hd : (s.strategy i).replyDeferred j with
    | false =>
      refine (Local.kept (a := s.side i j) hm hd).cast ?_ ?_ ?_
      · simp [State.side, State.write, Strategy.releaseResource, Action.actor, hd]
      · simp [State.write, Strategy.releaseResource, Action.actor, hd]
      · simp [State.write, Action.actor, hj]
    | true =>
      refine (Local.released (a := s.side i j) hm hd).cast ?_ ?_ ?_
      · simp [State.side, State.write, Strategy.releaseResource, Action.actor, hd, hj]
      · simp [State.side, State.write, Strategy.releaseResource, Action.actor, hd, hj]
      · simp [State.write, Action.actor, hj]
  | treatMessage i k =>
    obtain ⟨msg, rest, hm, rfl⟩ := he
    change j ≠ i at hj
    by_cases hk : j = k
    · subst k
      exact treat_local hs hj hm
    · exact treat_other_local hj hk msg rest

end DistributedME.RicartAgrawala
