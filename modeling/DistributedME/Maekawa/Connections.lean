import DistributedME.Library.Refinement
import DistributedME.Maekawa.Progress

/-! All files of the clients: one object for each client and each file, but one main thread for
each client, and one handler thread and one channel for each incoming connection. What happens
about one file is a run of the clients of that file. -/
namespace DistributedME.Maekawa
open Library
variable {F : Type*} [DecidableEq F] {n : ℕ}

/-- A main thread uses one file at a time. -/
inductive Main (F : Type*) where
  | idle
  | polling (filename : F)
  | inside (filename : F)
  deriving DecidableEq, Repr

/-- A handler thread treats its messages one after another, whatever file they are about. -/
inductive Thread (F : Type*) where
  | ready
  | inquiring (filename : F) (point : InquirePoint) (grant : ℕ)
  deriving DecidableEq, Repr

structure Clients (F : Type*) (n : ℕ) where
  strategy : F → Fin n → Strategy n
  main : Fin n → Main F
  thread : Fin n → Fin n → Thread F
  inFlight : Network (Fin n) (F × Message)

namespace Clients

inductive Action (F : Type*) (n : ℕ) where
  | requestResource (i : Fin n) (filename : F)
  | canEnterCriticalSection (i : Fin n)
  | releaseResource (i : Fin n)
  | treatMessage (i j : Fin n) (place : ℕ)
  | treatInquireMessage (i j : Fin n)
  deriving DecidableEq, Repr

/-- One section of client i's object for a file. -/
def write (s : Clients F n) (f : F) (i : Fin n) (c : Strategy n) (m : Main F)
    (out : Fin n → List Message) : Clients F n where
  strategy := Function.update s.strategy f (Function.update (s.strategy f) i c)
  main := Function.update s.main i m
  thread := s.thread
  inFlight := s.inFlight.post i fun j => (out j).map (f, ·)

def receive (s : Clients F n) (i j : Fin n) (rest : List (F × Message)) : Clients F n :=
  { s with inFlight := s.inFlight.put j i rest }

def setThread (s : Clients F n) (i j : Fin n) (h : Thread F) : Clients F n :=
  { s with thread := Function.update s.thread i (Function.update (s.thread i) j h) }

def initial (F : Type*) (n : ℕ) : Clients F n where
  strategy := fun _ _ => .construct n
  main := fun _ => .idle
  thread := fun _ _ => .ready
  inFlight := .empty

/-- The messages of a client to itself wait in the message_queue of all files. -/
def Deliverable (s : Clients F n) (i j : Fin n) (place : ℕ) (message : Message) : Prop :=
  if i = j then ∀ other ∈ s.inFlight i i, message.timestamp ≤ other.2.timestamp else place = 0

instance (s : Clients F n) (i j : Fin n) (place : ℕ) (message : Message) :
    Decidable (s.Deliverable i j place message) := by
  unfold Deliverable
  infer_instance

/-- The thread that a treated message leaves behind. -/
def treated (filename : F) : Body → Thread F
  | .inquire grant => .inquiring filename .loopFailed grant
  | _ => .ready

def step (Q : Quorums n) (s : Clients F n) : Action F n → Option (Clients F n)
  | .requestResource i f =>
    if s.main i = .idle then
      let (c, out) := (s.strategy f i).requestResource (Q.quorum i)
      some (s.write f i c (.polling f) out)
    else none
  | .canEnterCriticalSection i =>
    match s.main i with
    | .polling f =>
      let m := if (s.strategy f i).canEnterCriticalSection (Q.quorum i) then .inside f
        else .polling f
      some (s.write f i (s.strategy f i) m fun _ => [])
    | _ => none
  | .releaseResource i =>
    match s.main i with
    | .inside f =>
      let (c, out) := (s.strategy f i).releaseResource (Q.quorum i)
      some (s.write f i c .idle out)
    | _ => none
  | .treatMessage i j place =>
    match (s.inFlight j i)[place]? with
    | none => none
    | some (f, message) =>
      if s.thread i j = .ready ∧ s.Deliverable i j place message then
        ((s.strategy f i).treatMessage j message).map fun (c, out) =>
          ((s.receive i j ((s.inFlight j i).eraseIdx place)).write f i c (s.main i) out).setThread
            i j (treated f message.body)
      else none
  | .treatInquireMessage i j =>
    match s.thread i j with
    | .ready => none
    | .inquiring f .loopFailed grant =>
      let point := if (s.strategy f i).receivedFailed (Q.quorum i) then .ifFailed else .loopLocked
      some (s.setThread i j (.inquiring f point grant))
    | .inquiring f .loopLocked grant =>
      let point :=
        if (s.strategy f i).receivedAllLocked (Q.quorum i) then .ifFailed else .loopFailed
      some (s.setThread i j (.inquiring f point grant))
    | .inquiring f .ifFailed grant =>
      let point := if (s.strategy f i).receivedFailed (Q.quorum i) then .relinquish else .ifLocked
      some (s.setThread i j (.inquiring f point grant))
    | .inquiring _ .ifLocked _ => some (s.setThread i j .ready)
    | .inquiring f .relinquish grant =>
      let (c, out) := (s.strategy f i).relinquish j grant
      some ((s.write f i c (s.main i) out).setThread i j .ready)

end Clients

/-- The clients under the Maekawa strategy, with all their files. -/
def clients (F : Type*) [DecidableEq F] (Q : Quorums n) :
    Machine (Clients F n) (Clients.Action F n) where
  init s := s = .initial F n
  step := Clients.step Q

/-! What concerns one file. -/

def Main.part (f : F) : Main F → MainThread
  | .idle => .idle
  | .polling g => if g = f then .polling else .idle
  | .inside g => if g = f then .inside else .idle

def Thread.part (f : F) : Thread F → Handler
  | .ready => .ready
  | .inquiring g point grant => if g = f then .inquiring point grant else .ready

/-- What a message says about a file. -/
def carries (f : F) (x : F × Message) : Option Message := if x.1 = f then some x.2 else none

namespace Clients

def part (s : Clients F n) (f : F) : State n where
  strategy := s.strategy f
  main i := (s.main i).part f
  handler i j := (s.thread i j).part f
  inFlight j i := (s.inFlight j i).filterMap (carries f)

/-- The file that a step is about, and what the step is for the clients of that file. -/
def label (s : Clients F n) : Action F n → Option (F × Maekawa.Action n)
  | .requestResource i f => some (f, .requestResource i)
  | .canEnterCriticalSection i =>
    match s.main i with
    | .polling f => some (f, .canEnterCriticalSection i)
    | _ => none
  | .releaseResource i =>
    match s.main i with
    | .inside f => some (f, .releaseResource i)
    | _ => none
  | .treatMessage i j place => (s.inFlight j i)[place]?.map fun (f, _) =>
    (f, .treatMessage i j (((s.inFlight j i).take place).filterMap (carries f)).length)
  | .treatInquireMessage i j =>
    match s.thread i j with
    | .ready => none
    | .inquiring f _ _ => some (f, .treatInquireMessage i j)

def labelOf (f : F) (s : Clients F n) (a : Action F n) : Option (Maekawa.Action n) :=
  (s.label a).bind fun (g, b) => if g = f then some b else none

variable (s : Clients F n) (f g : F) (i j : Fin n)

@[simp] theorem part_strategy : (s.part f).strategy = s.strategy f := rfl
@[simp] theorem part_main : (s.part f).main i = (s.main i).part f := rfl
@[simp] theorem part_handler : (s.part f).handler i j = (s.thread i j).part f := rfl
@[simp] theorem part_inFlight : (s.part f).inFlight i j = (s.inFlight i j).filterMap (carries f) :=
  rfl

@[simp] theorem idle_part : (Main.idle : Main F).part f = .idle := rfl
@[simp] theorem polling_part : (Main.polling f).part f = .polling := if_pos rfl
@[simp] theorem inside_part : (Main.inside f).part f = .inside := if_pos rfl
@[simp] theorem ready_part : (Thread.ready : Thread F).part f = .ready := rfl
@[simp] theorem inquiring_part (point : InquirePoint) (grant : ℕ) :
    (Thread.inquiring f point grant).part f = .inquiring point grant := if_pos rfl

variable {f g} in
theorem part_polling_of_ne (h : g ≠ f) : (Main.polling f).part g = .idle := if_neg h.symm

variable {f g} in
theorem part_inside_of_ne (h : g ≠ f) : (Main.inside f).part g = .idle := if_neg h.symm

variable {f g} in
theorem part_inquiring_of_ne (h : g ≠ f) (point : InquirePoint) (grant : ℕ) :
    (Thread.inquiring f point grant).part g = .ready := if_neg h.symm

private theorem filterMap_carries (msgs : List Message) :
    (msgs.map (f, ·)).filterMap (carries f) = msgs := by
  rw [List.filterMap_map]
  exact (congrArg (List.filterMap · msgs) (funext fun m => if_pos rfl)).trans List.filterMap_some

private theorem filterMap_carries_of_ne {f g : F} (h : g ≠ f) (msgs : List Message) :
    (msgs.map (g, ·)).filterMap (carries f) = [] := by
  rw [List.filterMap_map]
  exact (congrArg (List.filterMap · msgs) (funext fun m => if_neg h)).trans
    (List.filterMap_eq_nil_iff.mpr fun _ _ => rfl)

theorem part_write (c : Strategy n) (m : Main F) (out : Fin n → List Message) :
    (s.write f i c m out).part f = (s.part f).write i c (m.part f) out := by
  simp only [part, write, State.write, Function.update_self, State.mk.injEq, true_and]
  refine ⟨?_, ?_⟩
  · funext x
    simp only [Function.update_apply]
    split_ifs <;> rfl
  · funext a b
    rw [Network.filterMap_post, Network.post_apply, filterMap_carries]

theorem part_write_of_ne {f g : F} (h : g ≠ f) (c : Strategy n) {m : Main F}
    (hm : m.part g = (s.main i).part g) (out : Fin n → List Message) :
    (s.write f i c m out).part g = s.part g := by
  simp only [part, write, Function.update_of_ne h, State.mk.injEq, true_and]
  refine ⟨?_, ?_⟩
  · funext x
    rw [Function.update_apply]
    split_ifs with hx
    · rw [hx, hm]
    · rfl
  · funext a b
    rw [Network.filterMap_post, filterMap_carries_of_ne h.symm]
    split_ifs <;> exact List.append_nil _

theorem part_setThread (h : Thread F) :
    (s.setThread i j h).part f = (s.part f).setHandler i j (h.part f) := by
  simp only [part, setThread, State.setHandler, State.mk.injEq, true_and, and_true]
  funext x y
  simp only [update_update_apply]
  split_ifs <;> rfl

theorem part_receive (rest : List (F × Message)) :
    (s.receive i j rest).part f = (s.part f).receive i j (rest.filterMap (carries f)) := by
  simp only [part, receive, State.receive, State.mk.injEq, true_and]
  funext a b
  unfold Network.put
  split_ifs <;> rfl

private theorem part_unchanged : (s.part f).receive i j ((s.inFlight j i).filterMap (carries f)) =
    s.part f := by
  simp only [State.receive, part, State.mk.injEq, true_and]
  funext a b
  unfold Network.put
  split_ifs with hab
  · rw [hab.1, hab.2]
  · rfl

/-- A step seen by the file that it is about. -/
private theorem follow_of_label {Q : Quorums n} {s : Clients F n} {a : Action F n} {f : F}
    {b : Maekawa.Action n} (h : s.label a = some (f, b)) {t : State n} (g : F)
    (hstep : g = f → Maekawa.step Q (s.part f) b = some t) (hother : g ≠ f → t = s.part g) :
    (Maekawa.machine Q).follow (s.part g) (labelOf g s a) = some t := by
  by_cases hg : g = f
  · subst g
    simp only [labelOf, h, Option.bind_some, if_pos, Machine.follow]
    exact hstep rfl
  · simp only [labelOf, h, Option.bind_some, if_neg (Ne.symm hg), Machine.follow, hother hg]

theorem part_step {Q : Quorums n} {s t : Clients F n} {a : Action F n}
    (h : step Q s a = some t) (g : F) :
    (Maekawa.machine Q).follow (s.part g) (labelOf g s a) = some (t.part g) := by
  cases a with
  | requestResource i f =>
    simp only [step] at h
    split_ifs at h with hm
    obtain rfl := Option.some.inj h
    refine follow_of_label (f := f) rfl g ?_ fun hg => ?_
    · rintro rfl
      simp [Maekawa.step, part_write, hm]
    · exact part_write_of_ne s i hg _ (by simp [hm, part_polling_of_ne hg]) _
  | canEnterCriticalSection i =>
    simp only [step] at h
    split at h
    · next f hm =>
      obtain rfl := Option.some.inj h
      have hlabel : s.label (.canEnterCriticalSection i) =
          some (f, .canEnterCriticalSection i) := by
        simp only [label, hm]
      refine follow_of_label hlabel g ?_ fun hg => ?_
      · rintro rfl
        rw [part_write]
        simp only [Maekawa.step, part_main, hm, polling_part, if_true]
        have hif := apply_ite (Main.part g)
          ((s.strategy g i).canEnterCriticalSection (Q.quorum i) = true) (.inside g) (.polling g)
        rw [inside_part, polling_part] at hif
        rw [hif]
        rfl
      · refine part_write_of_ne s i hg _ ?_ _
        split_ifs <;> simp [hm, part_polling_of_ne hg, part_inside_of_ne hg]
    · cases h
  | releaseResource i =>
    simp only [step] at h
    split at h
    · next f hm =>
      obtain rfl := Option.some.inj h
      have hlabel : s.label (.releaseResource i) = some (f, .releaseResource i) := by
        simp only [label, hm]
      refine follow_of_label hlabel g ?_ fun hg => ?_
      · rintro rfl
        simp [Maekawa.step, part_write, hm]
      · exact part_write_of_ne s i hg _ (by simp [hm, part_inside_of_ne hg]) _
    · cases h
  | treatMessage i j place =>
    simp only [step] at h
    split at h
    · cases h
    · next f message hm =>
      split_ifs at h with hr
      obtain ⟨⟨c, out⟩, hc, rfl⟩ := Option.map_eq_some_iff.mp h
      obtain ⟨before, behind, hl, he, rfl⟩ := Network.split_at hm
      have hlabel : s.label (.treatMessage i j before.length) =
          some (f, .treatMessage i j (before.filterMap (carries f)).length) := by
        rw [label, hm, hl, List.take_left]
        rfl
      refine follow_of_label hlabel g ?_ fun hg => ?_
      · rintro rfl
        have hpart : (s.part g).inFlight j i =
            before.filterMap (carries g) ++ message :: behind.filterMap (carries g) := by
          simp [hl, carries]
        have hat : ((s.part g).inFlight j i)[(before.filterMap (carries g)).length]? =
            some message := by
          rw [hpart, List.getElem?_append_right (le_refl _)]
          simp
        have hdeliverable : (s.part g).Deliverable i j (before.filterMap (carries g)).length
            message := by
          have hd := hr.2
          unfold Deliverable at hd
          unfold State.Deliverable
          split_ifs at hd ⊢
          · intro other hother
            obtain ⟨x, hx, hcarries⟩ := List.mem_filterMap.mp hother
            unfold carries at hcarries
            split_ifs at hcarries
            obtain rfl := Option.some.inj hcarries
            exact hd x hx
          · rw [List.length_eq_zero_iff.mp hd]
            rfl
        have herase : ((s.part g).inFlight j i).eraseIdx (before.filterMap (carries g)).length =
            (before ++ behind).filterMap (carries g) := by
          rw [hpart, List.eraseIdx_append_of_length_le (le_refl _), Nat.sub_self,
            List.eraseIdx_cons_zero, List.filterMap_append]
        have htreated : (treated g message.body).part g = message.body.handler := by
          cases message.body <;> simp [treated, Body.handler]
        rw [he, part_setThread, part_write, part_receive, htreated]
        simp only [Maekawa.step, hat, herase]
        rw [if_pos ⟨by simp [hr.1], hdeliverable⟩]
        simp [hc]
      · have hkeep : (before ++ behind).filterMap (carries g) =
            (s.inFlight j i).filterMap (carries g) := by
          simp [hl, carries, Ne.symm hg]
        have htreated : (treated f message.body).part g = .ready := by
          cases message.body <;> simp [treated, part_inquiring_of_ne hg]
        have hwrite : ((s.receive i j (before ++ behind)).write f i c (s.main i) out).part g =
            s.part g := by
          rw [part_write_of_ne (s.receive i j (before ++ behind)) i hg c
            (show (s.main i).part g = _ from rfl) out, part_receive, hkeep, part_unchanged]
        rw [he, part_setThread, hwrite, htreated]
        exact setHandler_of_eq (by simp [hr.1])
  | treatInquireMessage i j =>
    have hset {f : F} {point : InquirePoint} {grant : ℕ}
        (hs : s.thread i j = .inquiring f point grant)
        (u : Clients F n) (h' : Thread F) (ht : t = u.setThread i j h')
        (hself : Maekawa.step Q (s.part f) (.treatInquireMessage i j) =
          some ((u.part f).setHandler i j (h'.part f)))
        (hother : ∀ g, g ≠ f → u.part g = s.part g ∧ h'.part g = .ready) :
        (Maekawa.machine Q).follow (s.part g) (labelOf g s (.treatInquireMessage i j)) =
          some (t.part g) := by
      have hlabel : s.label (.treatInquireMessage i j) = some (f, .treatInquireMessage i j) := by
        simp only [label, hs]
      subst ht
      refine follow_of_label hlabel g ?_ fun hg => ?_
      · rintro rfl
        rw [part_setThread, hself]
      · rw [part_setThread, (hother g hg).1, (hother g hg).2]
        exact setHandler_of_eq (by simp [hs, part_inquiring_of_ne hg])
    have hpoint {f : F} {point point' : InquirePoint} {grant : ℕ}
        (hs : s.thread i j = .inquiring f point grant)
        (ht : t = s.setThread i j (.inquiring f point' grant))
        (hself : Maekawa.step Q (s.part f) (.treatInquireMessage i j) =
          some ((s.part f).setHandler i j (.inquiring point' grant))) :=
      hset hs s _ ht (by rw [inquiring_part, hself])
        fun g hg => ⟨rfl, part_inquiring_of_ne hg point' grant⟩
    simp only [step] at h
    split at h
    · cases h
    all_goals
      next hs =>
        have ht := (Option.some.inj h).symm
        first
          | exact hpoint hs ht (by simp only [Maekawa.step, part_handler, hs, inquiring_part]; rfl)
          | exact hset hs s _ ht (by simp [Maekawa.step, hs]) fun g hg => ⟨rfl, rfl⟩
          | exact hset hs _ _ ht (by simp [Maekawa.step, hs, part_write])
              fun g hg => ⟨part_write_of_ne s i hg _ rfl _, rfl⟩

end Clients
end DistributedME.Maekawa
