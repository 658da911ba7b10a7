import DistributedME.Library.Machine
import DistributedME.Maekawa.View

/-! One client alone: its main thread, the handlers of its connections, and a log of what it
asked for, got and gave up. -/
namespace DistributedME.Maekawa
open Library
variable {n : ℕ}

/-- What the log of a client tells: a request, a LOCKED of client j, a RELINQUISH to client j,
a poll of can_enter_critical_section that answered yes, a reset_request_reply. -/
inductive Event (n : ℕ) where
  | requested
  | locked (j : Fin n)
  | relinquished (j : Fin n)
  | passed
  | reset
  deriving DecidableEq, Repr

/-- The log has the newest event first. -/
structure Requester (n : ℕ) where
  strategy : Strategy n
  main : MainThread
  handler : Fin n → Handler
  log : List (Event n)

/-- The steps of the client: three sections of its main thread, the treatment of a message of
client j, and the next step of treat_inquire_message there. -/
inductive Section (n : ℕ) where
  | requestResource
  | canEnterCriticalSection
  | releaseResource
  | treatMessage (j : Fin n) (message : Message)
  | treatInquireMessage (j : Fin n)
  deriving DecidableEq, Repr

/-- What the log tells about a message of client j. -/
def Body.events (j : Fin n) : Body → List (Event n)
  | .locked _ => [.locked j]
  | .request | .inquire _ | .relinquish _ | .failed | .release => []

namespace Requester

def initial (n : ℕ) : Requester n := ⟨.construct n, .idle, fun _ => .ready, []⟩

def setHandler (c : Requester n) (j : Fin n) (h : Handler) : Requester n :=
  { c with handler := Function.update c.handler j h }

def step (quorum : Finset (Fin n)) (c : Requester n) : Section n → Option (Requester n)
  | .requestResource =>
    if c.main = .idle then
      some { c with
        strategy := (c.strategy.requestResource quorum).1, main := .polling
        log := .requested :: c.log }
    else none
  | .canEnterCriticalSection =>
    if c.main = .polling then
      some <| if c.strategy.canEnterCriticalSection quorum then
        { c with main := .inside, log := .passed :: c.log }
      else c
    else none
  | .releaseResource =>
    if c.main = .inside then
      some { c with
        strategy := (c.strategy.releaseResource quorum).1, main := .idle
        log := .reset :: c.log }
    else none
  | .treatMessage j message =>
    if c.handler j = .ready then
      (c.strategy.treatMessage j message).map fun (strategy, _) =>
        { c.setHandler j message.body.handler with
          strategy := strategy, log := message.body.events j ++ c.log }
    else none
  | .treatInquireMessage j =>
    match c.handler j with
    | .ready => none
    | .inquiring .loopFailed grant =>
      let point := if c.strategy.receivedFailed quorum then .ifFailed else .loopLocked
      some (c.setHandler j (.inquiring point grant))
    | .inquiring .loopLocked grant =>
      let point := if c.strategy.receivedAllLocked quorum then .ifFailed else .loopFailed
      some (c.setHandler j (.inquiring point grant))
    | .inquiring .ifFailed grant =>
      let point := if c.strategy.receivedFailed quorum then .relinquish else .ifLocked
      some (c.setHandler j (.inquiring point grant))
    | .inquiring .ifLocked _ => some (c.setHandler j .ready)
    | .inquiring .relinquish grant =>
      some { c.setHandler j .ready with
        strategy := (c.strategy.relinquish j grant).1, log := .relinquished j :: c.log }

def machine (quorum : Finset (Fin n)) : Machine (Requester n) (Section n) where
  init c := c = initial n
  step := step quorum

end Requester

/-- What the system holds of client i, whatever its log. -/
structure State.Shows (s : State n) (i : Fin n) (c : Requester n) : Prop where
  strategy : s.strategy i = c.strategy
  main : s.main i = c.main
  handler : s.handler i = c.handler

namespace State.Shows
variable {s : State n} {i : Fin n} {c : Requester n}

theorem write (h : s.Shows i c) {j : Fin n} (hj : i ≠ j) (strategy : Strategy n)
    (main : MainThread) (out : Fin n → List Message) : (s.write j strategy main out).Shows i c where
  strategy := (Function.update_of_ne hj _ _).trans h.strategy
  main := (Function.update_of_ne hj _ _).trans h.main
  handler := h.handler

theorem write_self (h : s.Shows i c) (strategy : Strategy n) (main : MainThread)
    (out : Fin n → List Message) (log : List (Event n)) :
    (s.write i strategy main out).Shows i ⟨strategy, main, c.handler, log⟩ where
  strategy := Function.update_self _ _ _
  main := Function.update_self _ _ _
  handler := h.handler

theorem setHandler (h : s.Shows i c) {j : Fin n} (hj : i ≠ j) (k : Fin n) (handler : Handler) :
    (s.setHandler j k handler).Shows i c where
  strategy := h.strategy
  main := h.main
  handler := (Function.update_of_ne hj _ _).trans h.handler

theorem setHandler_self (h : s.Shows i c) (k : Fin n) (handler : Handler) :
    (s.setHandler i k handler).Shows i (c.setHandler k handler) where
  strategy := h.strategy
  main := h.main
  handler := by
    rw [Requester.setHandler, ← h.handler]
    exact Function.update_self _ _ _

/-- A section of client i in the system is a section of the client alone. -/
theorem step {Q : Quorums n} (h : s.Shows i c) {a : Action n} {t : State n}
    (hs : step Q s a = some t) :
    t.Shows i c ∨ ∃ b c', c.step (Q.quorum i) b = some c' ∧ t.Shows i c' := by
  cases a with
  | requestResource j =>
    obtain ⟨hm, rfl⟩ := effect_of_step hs
    by_cases hj : i = j
    · subst hj
      refine .inr ⟨.requestResource, _, if_pos (h.main.symm.trans hm), ?_⟩
      rw [h.strategy]
      exact h.write_self _ _ _ _
    · exact .inl (h.write hj _ _ _)
  | canEnterCriticalSection j =>
    obtain ⟨hm, rfl⟩ := effect_of_step hs
    by_cases hj : i = j
    · subst hj
      refine .inr ⟨.canEnterCriticalSection, _, if_pos (h.main.symm.trans hm), ?_⟩
      rw [h.strategy]
      have hpolling : c.main = .polling := h.main.symm.trans hm
      split_ifs
      · exact h.write_self _ _ _ _
      · have hsame := h.write_self c.strategy c.main (fun _ => []) c.log
        rw [hpolling] at hsame
        exact hpolling ▸ hsame
    · exact .inl (h.write hj _ _ _)
  | releaseResource j =>
    obtain ⟨hm, rfl⟩ := effect_of_step hs
    by_cases hj : i = j
    · subst hj
      refine .inr ⟨.releaseResource, _, if_pos (h.main.symm.trans hm), ?_⟩
      rw [h.strategy]
      exact h.write_self _ _ _ _
    · exact .inl (h.write hj _ _ _)
  | treatMessage j k place =>
    obtain ⟨before, message, behind, strategy, out, -, -, hready, ht, rfl⟩ := effect_of_step hs
    have hreceive (rest : List Message) : (s.receive j k rest).Shows i c :=
      ⟨h.strategy, h.main, h.handler⟩
    by_cases hj : i = j
    · subst hj
      rw [h.strategy] at ht
      rw [h.handler] at hready
      refine .inr ⟨.treatMessage k message, { c.setHandler k message.body.handler with
        strategy := strategy, log := message.body.events k ++ c.log }, ?_, ?_⟩
      · simp only [Requester.step, hready, if_true, ht, Option.map_some]
      · rw [h.main]
        exact ((hreceive _).write_self _ _ _ _).setHandler_self _ _
    · exact .inl (((hreceive _).write hj _ _ _).setHandler hj _ _)
  | treatInquireMessage j k =>
    by_cases hj : i = j
    · subst hj
      refine .inr ⟨.treatInquireMessage k, ?_⟩
      simp only [Requester.step, ← h.handler, ← h.strategy]
      simp only [Maekawa.step] at hs
      cases hk : s.handler i k with
      | ready =>
        simp only [hk] at hs
        cases hs
      | inquiring point grant =>
        cases point with
        | loopFailed | loopLocked | ifFailed | ifLocked =>
          simp only [hk] at hs
          cases hs
          exact ⟨_, rfl, h.setHandler_self _ _⟩
        | relinquish =>
          simp only [hk] at hs
          cases hs
          refine ⟨{ c.setHandler k .ready with
            strategy := ((s.strategy i).relinquish k grant).1
            log := .relinquished k :: c.log }, rfl, ?_⟩
          rw [h.main]
          exact (h.write_self _ _ _ _).setHandler_self _ _
    · obtain ⟨grant, ⟨_, _, -, rfl⟩ | ⟨-, rfl⟩ | ⟨-, rfl⟩⟩ := effect_of_step hs
      · exact .inl (h.setHandler hj _ _)
      · exact .inl (h.setHandler hj _ _)
      · exact .inl ((h.write hj _ _ _).setHandler hj _ _)

end State.Shows

/-- Whatever happens to a client among others can happen to it alone. -/
theorem exists_requester {Q : Quorums n} {s : State n} (h : (machine Q).Reachable s) (i : Fin n) :
    ∃ c, (Requester.machine (Q.quorum i)).Reachable c ∧ s.Shows i c := by
  apply h.simulate fun s c => s.Shows i c
  · rintro _ rfl
    exact ⟨.initial n, rfl, rfl, rfl, rfl⟩
  · intro s c a t hc _ hs
    exact hc.step hs

/-- Every poll that answered yes was followed by its reset. -/
def outside : List (Event n) → Bool
  | [] => true
  | .reset :: _ => true
  | .passed :: _ => false
  | .requested :: log | .locked _ :: log | .relinquished _ :: log => outside log

/-- Since it last sent its requests, the client got a LOCKED of client j and has not
relinquished it. -/
def holds (j : Fin n) : List (Event n) → Bool
  | [] => false
  | .requested :: _ => false
  | .locked i :: log => i == j || holds j log
  | .relinquished i :: log => i != j && holds j log
  | .passed :: log | .reset :: log => holds j log

/-- The client relinquishes nothing inside the critical section, and goes there with the locks
of its whole quorum. -/
def KeepsLocks (quorum : Finset (Fin n)) : List (Event n) → Prop
  | [] => True
  | .relinquished _ :: log => outside log = true ∧ KeepsLocks quorum log
  | .passed :: log => (∀ j ∈ quorum, holds j log = true) ∧ KeepsLocks quorum log
  | .requested :: log | .locked _ :: log | .reset :: log => KeepsLocks quorum log

/-- A RELINQUISH is sent only while some member of the quorum has not locked the request, and
no member of the quorum refuses a client that is inside. -/
def decided (quorum : Finset (Fin n)) (c : Requester n) : Section n → Bool
  | .treatInquireMessage j =>
    match c.handler j with
    | .inquiring .relinquish _ => !c.strategy.receivedAllLocked quorum
    | _ => true
  | .treatMessage j message =>
    message.body != .failed || c.main != .inside || decide (j ∉ quorum)
  | _ => true

/-- What holds of a client all along. -/
structure Requester.Sound (quorum : Finset (Fin n)) (c : Requester n) : Prop where
  keeps : KeepsLocks quorum c.log
  inside : c.main = .inside → ∀ j ∈ quorum, c.strategy.requestReply j = .locked
  outside : c.main ≠ .inside → outside c.log = true
  holds : ∀ j ∈ quorum, c.strategy.requestReply j = .locked → holds j c.log = true

namespace Requester.Sound
variable {quorum : Finset (Fin n)} {c : Requester n}

theorem initial (quorum : Finset (Fin n)) : (Requester.initial n).Sound quorum where
  keeps := trivial
  inside h := nomatch h
  outside _ := rfl
  holds _ _ h := nomatch h

theorem setHandler (h : c.Sound quorum) (j : Fin n) (handler : Handler) :
    (c.setHandler j handler).Sound quorum := ⟨h.keeps, h.inside, h.outside, h.holds⟩

theorem request (h : c.Sound quorum) (hidle : c.main = .idle) :
    Requester.Sound quorum { c with
      strategy := (c.strategy.requestResource quorum).1, main := .polling
      log := .requested :: c.log } where
  keeps := h.keeps
  inside hm := nomatch hm
  outside _ := h.outside (by simp [hidle])
  holds j hj hr := by
    simp only [Strategy.requestResource, hj, if_true] at hr
    cases hr

theorem pass (h : c.Sound quorum)
    (hpoll : c.strategy.canEnterCriticalSection quorum = true) :
    Requester.Sound quorum { c with main := .inside, log := .passed :: c.log } where
  keeps := ⟨fun j hj => h.holds j hj (of_decide_eq_true hpoll j hj), h.keeps⟩
  inside _ := of_decide_eq_true hpoll
  outside hm := absurd rfl hm
  holds j hj hr := h.holds j hj hr

theorem release (h : c.Sound quorum) : Requester.Sound quorum { c with
    strategy := (c.strategy.releaseResource quorum).1, main := .idle
    log := .reset :: c.log } where
  keeps := h.keeps
  inside hm := nomatch hm
  outside _ := rfl
  holds j hj hr := by
    simp only [Strategy.releaseResource, Strategy.resetRequestReply, hj, if_true] at hr
    cases hr

theorem relinquish (h : c.Sound quorum) (hnot : c.strategy.receivedAllLocked quorum = false)
    (j : Fin n) (grant : ℕ) : Requester.Sound quorum { c with
      strategy := (c.strategy.relinquish j grant).1, log := .relinquished j :: c.log } := by
  have hm : c.main ≠ .inside := fun hm => of_decide_eq_false hnot (h.inside hm)
  refine ⟨⟨h.outside hm, h.keeps⟩, fun hi => absurd hi hm, fun _ => h.outside hm,
    fun i hi hr => ?_⟩
  simp only [Strategy.relinquish, Function.update_apply] at hr
  split_ifs at hr with hij
  rw [Maekawa.holds, h.holds i hi hr, Bool.and_true]
  exact bne_iff_ne.mpr (Ne.symm hij)

/-- LOCKED and FAILED go into the log and the replies, other messages into neither. -/
theorem treat (h : c.Sound quorum) {j : Fin n} {message : Message}
    (hd : decided quorum c (.treatMessage j message) = true) {strategy : Strategy n}
    {out : Fin n → List Message}
    (hs : c.strategy.treatMessage j message = some (strategy, out)) :
    Requester.Sound quorum { c with
      strategy := strategy, log := message.body.events j ++ c.log } := by
  have hreply := requestReply_treatMessage hs
  obtain ⟨t, body⟩ := message
  cases body with
  | locked grant =>
    simp only at hreply
    refine ⟨h.keeps, fun hm i hi => ?_, h.outside, fun i hi hr => ?_⟩
    · simp only [hreply, Function.update_apply]
      split_ifs
      · rfl
      · exact h.inside hm i hi
    · simp only [hreply, Function.update_apply] at hr
      change (j == i || Maekawa.holds i c.log) = true
      split_ifs at hr with hij
      · simp [hij]
      · rw [h.holds i hi hr, Bool.or_true]
  | failed =>
    simp only at hreply
    refine ⟨h.keeps, fun hm i hi => ?_, h.outside, fun i hi hr => ?_⟩
    · have hj : j ∉ quorum := by
        have hm' : c.main = .inside := hm
        simpa [decided, hm'] using hd
      have hij : i ≠ j := fun hij => hj (hij ▸ hi)
      simp only [hreply, Function.update_of_ne hij]
      exact h.inside hm i hi
    · simp only [hreply, Function.update_apply] at hr
      split_ifs at hr
      exact h.holds i hi hr
  | request | inquire | relinquish | release =>
    simp only at hreply
    refine ⟨h.keeps, fun hm i hi => ?_, h.outside, fun i hi hr => ?_⟩
    · simp only [hreply]
      exact h.inside hm i hi
    · simp only [hreply] at hr
      exact h.holds i hi hr

/-- The step lemma. -/
theorem step (h : c.Sound quorum) {a : Section n} (hd : decided quorum c a = true)
    {c' : Requester n} (hs : c.step quorum a = some c') : c'.Sound quorum := by
  cases a with
  | requestResource =>
    simp only [Requester.step] at hs
    split_ifs at hs with hm
    cases hs
    exact h.request hm
  | canEnterCriticalSection =>
    simp only [Requester.step] at hs
    split_ifs at hs with hm hpoll <;> cases hs
    · exact h.pass hpoll
    · exact h
  | releaseResource =>
    simp only [Requester.step] at hs
    split_ifs at hs with hm
    cases hs
    exact h.release
  | treatMessage j message =>
    simp only [Requester.step] at hs
    split_ifs at hs with hready
    obtain ⟨⟨strategy, out⟩, ht, rfl⟩ := Option.map_eq_some_iff.mp hs
    exact (h.treat hd ht).setHandler j message.body.handler
  | treatInquireMessage j =>
    simp only [Requester.step] at hs
    split at hs <;> cases hs
    · exact h.setHandler j _
    · exact h.setHandler j _
    · exact h.setHandler j _
    · exact h.setHandler j _
    · next grant hrelinquish =>
      have hnot : c.strategy.receivedAllLocked quorum = false := by
        simpa [decided, hrelinquish] using hd
      exact (h.relinquish hnot j grant).setHandler j .ready

end Requester.Sound

/-- A client whose RELINQUISH messages are all decided on what still holds keeps its locks in
the critical section. -/
theorem locks_kept_inside (quorum : Finset (Fin n)) (sections : List (Section n))
    (c : Requester n)
    (hg : (Requester.machine quorum).Along (fun c a => decided quorum c a = true)
      (.initial n) sections)
    (hr : (Requester.machine quorum).run (.initial n) sections = some c) :
    KeepsLocks quorum c.log := by
  have hsound := (hg.guarded (.init rfl) hr).invariant (I := Requester.Sound quorum)
    (by rintro _ rfl; exact .initial quorum) (fun _ _ _ hI hd hs => hI.step hd hs)
  exact hsound.keeps

/-- Client 0 is refused by client 1, gives its own lock back, gets both locks and enters. -/
def yieldSections : List (Section 2) :=
  [.requestResource, .treatMessage 0 ⟨1, .locked 1⟩, .treatMessage 1 ⟨1, .failed⟩,
    .treatMessage 0 ⟨1, .inquire 1⟩, .treatInquireMessage 0, .treatInquireMessage 0,
    .treatInquireMessage 0, .treatMessage 1 ⟨1, .locked 1⟩, .treatMessage 0 ⟨1, .locked 3⟩,
    .canEnterCriticalSection]

theorem locks_kept_inside_after_yield :
    ∃ c : Requester 2, c.main = .inside ∧ KeepsLocks Finset.univ c.log := by
  obtain ⟨c, hr, hp⟩ := (Requester.machine Finset.univ).exists_run (s := .initial 2)
    yieldSections (fun c => c.main = .inside) (by decide)
  exact ⟨c, of_decide_eq_true hp,
    locks_kept_inside Finset.univ yieldSections c (by decide) hr⟩

/-- The last lock comes, and the client enters, between the poll of received_failed and the
RELINQUISH. -/
def staleSections : List (Section 2) :=
  [.requestResource, .treatMessage 0 ⟨1, .locked 1⟩, .treatMessage 1 ⟨1, .failed⟩,
    .treatMessage 0 ⟨1, .inquire 1⟩, .treatInquireMessage 0, .treatInquireMessage 0,
    .treatMessage 1 ⟨1, .locked 1⟩, .canEnterCriticalSection, .treatInquireMessage 0]

theorem locks_kept_inside_fails : ¬ ∀ (n : ℕ) (quorum : Finset (Fin n)) (c : Requester n),
    (Requester.machine quorum).Reachable c → KeepsLocks quorum c.log := by
  intro h
  obtain ⟨c, hc, hp⟩ := (Requester.machine Finset.univ).exists_reachable_of_run
    (s := .initial 2) rfl staleSections
    (fun c => c.log.take 2 = [.relinquished 0, .passed]) (by decide)
  have hkeeps := h 2 Finset.univ c hc
  obtain ⟨log, hlog⟩ := List.take_prefix 2 c.log
  rw [of_decide_eq_true hp] at hlog
  rw [← hlog] at hkeeps
  exact Bool.false_ne_true hkeeps.1

end DistributedME.Maekawa
