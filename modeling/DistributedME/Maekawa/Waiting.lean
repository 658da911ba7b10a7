import DistributedME.Maekawa.Connections

/-! Clients that wait always leave something to do, whatever their files, as long as no message
that is needed waits behind a thread that spins. -/
namespace DistributedME.Maekawa
open Library
variable {F : Type*} [DecidableEq F] {n : ℕ}

/-- What is about one file is a run of the clients of that file. -/
def partRefinement (Q : Quorums n) (f : F) : (clients F Q).Refinement (machine Q) where
  project s := s.part f
  label := Clients.labelOf f
  Invariant _ := True
  init h := ⟨trivial, congrArg (Clients.part · f) h⟩
  step _ hs := ⟨trivial, Clients.part_step hs f⟩

/-- A message to an arbiter. -/
def Body.upward : Body → Bool
  | .request | .relinquish _ | .release => true
  | .locked _ | .inquire _ | .failed => false

/-- The INQUIRE that a thread in its loop has taken from its connection. -/
def Thread.bodies : Thread F → List (F × Body)
  | .inquiring f .loopFailed grant | .inquiring f .loopLocked grant => [(f, .inquire grant)]
  | _ => []

namespace Clients

/-- What client i has still to deal with of the messages from j, oldest first. -/
def unanswered (s : Clients F n) (i j : Fin n) : List (F × Body) :=
  (s.thread i j).bodies ++ (s.inFlight j i).map fun x => (x.1, x.2.body)

/-- Client i has no INQUIRE from j about another file to deal with. -/
def clear (s : Clients F n) (i j : Fin n) (f : F) : Bool :=
  (s.unanswered i j).all fun x => x.1 = f || !x.2.isInquire

/-- No message to an arbiter comes to wait behind an INQUIRE about another file. -/
def apart (Q : Quorums n) (s : Clients F n) : Action F n → Bool
  | .requestResource i f => decide (∀ j ∈ Q.quorum i, s.clear j i f = true)
  | .releaseResource i =>
    match s.main i with
    | .inside f => decide (∀ j ∈ Q.quorum i, s.clear j i f = true)
    | _ => true
  | .treatInquireMessage i j =>
    match s.thread i j with
    | .inquiring f .relinquish _ => s.clear j i f
    | _ => true
  | _ => true

/-- A connection, also that of a client to itself, is treated in the order of sending. -/
def inOrder : Action F n → Bool
  | .treatMessage _ _ place => place == 0
  | _ => true

end Clients

/-- What steps have to keep for no circle of waiting clients to close. -/
inductive Rule where
  | heard
  | noticed
  | answers
  | unhindered
  | apart
  deriving DecidableEq

def Rule.all : Finset Rule := {.heard, .noticed, .answers, .unhindered, .apart}

theorem Rule.mem_all (rule : Rule) : rule ∈ Rule.all := by
  cases rule <;> decide

instance : Fintype Rule := ⟨Rule.all, Rule.mem_all⟩

namespace Clients

def obeys (Q : Quorums n) (s : Clients F n) (a : Action F n) : Rule → Bool
  | .heard => (s.label a).all fun x => Maekawa.heard (s.part x.1) x.2
  | .noticed => (s.label a).all fun x => Maekawa.noticed (s.part x.1) x.2
  | .answers => (s.label a).all fun x => Maekawa.answers Q (s.part x.1) x.2
  | .unhindered => (s.label a).all fun x => Maekawa.unhindered (s.part x.1) x.2
  | .apart => apart Q s a

/-- The step obeys all rules, or all but those that are waived. -/
def Keeps (Q : Quorums n) (waived : Finset Rule) (s : Clients F n) (a : Action F n) : Prop :=
  inOrder a = true ∧ ∀ rule ∉ waived, obeys Q s a rule = true

instance (Q : Quorums n) (waived : Finset Rule) (s : Clients F n) (a : Action F n) :
    Decidable (Keeps Q waived s a) :=
  inferInstanceAs (Decidable (_ ∧ _))

def Apart (s : Clients F n) : Prop := ∀ i j, (s.unanswered i j).Pairwise fun x y =>
  x.2.isInquire = true → y.2.upward = true → y.1 = x.1

section apart
variable {Q : Quorums n} {s t : Clients F n} {a : Action F n}

theorem unanswered_write (s : Clients F n) (f : F) (k : Fin n) (c : Strategy n) (m : Main F)
    (out : Fin n → List Message) (i j : Fin n) : (s.write f k c m out).unanswered i j =
      s.unanswered i j ++ if j = k then (out i).map fun m => (f, m.body) else [] := by
  simp only [unanswered, write, Network.post_apply, List.map_append]
  rw [List.append_assoc]
  split_ifs <;> simp

private theorem apart_write {f : F} {k : Fin n} {c : Strategy n} {m : Main F}
    {out : Fin n → List Message} (h : s.Apart)
    (hout : ∀ i, ∀ m ∈ out i, m.body.upward = true → s.clear i k f = true) :
    (s.write f k c m out).Apart := by
  intro i j
  rw [unanswered_write]
  split_ifs with hj
  · subst j
    refine List.pairwise_append.mpr ⟨h i k, ?_, fun x hx y hy hinquire hup => ?_⟩
    · refine List.pairwise_of_forall_mem_list fun x hx y hy _ _ => ?_
      obtain ⟨_, -, rfl⟩ := List.mem_map.mp hx
      obtain ⟨_, -, rfl⟩ := List.mem_map.mp hy
      rfl
    · obtain ⟨m, hm, rfl⟩ := List.mem_map.mp hy
      have hclear := List.all_eq_true.mp (hout i m hm hup) x hx
      simp only [hinquire, Bool.not_true, Bool.or_false, decide_eq_true_eq] at hclear
      exact hclear.symm
  · rw [List.append_nil]
    exact h i j

private theorem upward_iff {m : Message} : m.body.upward = true ↔ m.up? ≠ none := by
  obtain ⟨t, body⟩ := m
  cases body <;> simp [Body.upward, Message.up?]

/-- The step lemma. -/
theorem apart_step (h : s.Apart) (ho : inOrder a = true) (ha : apart Q s a = true)
    (hs : step Q s a = some t) : t.Apart := by
  have hsub {u : Clients F n} (hu : ∀ i j, (u.unanswered i j).Sublist (s.unanswered i j)) :
      u.Apart := fun i j => (h i j).sublist (hu i j)
  have hthread (k j : Fin n) (h' : Thread F) (hb : h'.bodies.Sublist (s.thread k j).bodies)
      (x y : Fin n) : ((s.setThread k j h').unanswered x y).Sublist (s.unanswered x y) := by
    simp only [unanswered, setThread, update_update_apply]
    split_ifs with hxy
    · obtain ⟨rfl, rfl⟩ := hxy
      exact hb.append (.refl _)
    · exact .refl _
  cases a with
  | requestResource k f =>
    simp only [step] at hs
    split_ifs at hs
    obtain rfl := Option.some.inj hs
    refine apart_write h fun i m hm _ => ?_
    simp only [Strategy.requestResource] at hm
    split_ifs at hm with hi
    · exact of_decide_eq_true ha i hi
    · cases hm
  | canEnterCriticalSection k =>
    simp only [step] at hs
    split at hs <;> cases hs
    exact apart_write h fun i m hm => (List.not_mem_nil hm).elim
  | releaseResource k =>
    simp only [step] at hs
    split at hs <;> cases hs
    next f hmain =>
    refine apart_write h fun i m hm _ => ?_
    simp only [Strategy.releaseResource] at hm
    simp only [apart, hmain] at ha
    split_ifs at hm with hi
    · exact of_decide_eq_true ha i hi
    · cases hm
  | treatMessage k j place =>
    obtain rfl := beq_iff_eq.mp ho
    simp only [step] at hs
    split at hs
    · cases hs
    · next f message hm =>
      split_ifs at hs with hr
      obtain ⟨⟨c, out⟩, hc, rfl⟩ := Option.map_eq_some_iff.mp hs
      obtain ⟨before, behind, hl, he, hlen⟩ := Network.split_at hm
      obtain rfl := List.length_eq_zero_iff.mp hlen
      rw [List.nil_append] at hl he
      let u := (s.receive k j behind).setThread k j (treated f message.body)
      have hu : u.Apart := by
        refine hsub fun x y => ?_
        simp only [u, unanswered, setThread, receive, update_update_apply, Network.put]
        by_cases hxy : x = k ∧ y = j
        · obtain ⟨rfl, rfl⟩ := hxy
          simp only [and_self, if_true, hl, hr.1, List.map_cons]
          cases message.body <;> simp [treated, Thread.bodies]
        · rw [if_neg hxy, if_neg fun h => hxy ⟨h.2, h.1⟩]
      rw [he]
      refine apart_write (s := u) hu fun i m hm hup => ?_
      have hnone := List.filterMap_eq_nil_iff.mp (answers_treatMessage hc i) m hm
      exact absurd hnone (upward_iff.mp hup)
  | treatInquireMessage k j =>
    simp only [step] at hs
    split at hs <;> cases hs
    · next f grant hk =>
      refine hsub (hthread k j _ ?_)
      rw [hk]
      split_ifs <;> simp [Thread.bodies]
    · next f grant hk =>
      refine hsub (hthread k j _ ?_)
      rw [hk]
      split_ifs <;> simp [Thread.bodies]
    · next f grant hk =>
      refine hsub (hthread k j _ ?_)
      rw [hk]
      split_ifs <;> simp [Thread.bodies]
    · exact hsub (hthread k j _ (List.nil_sublist _))
    · next f grant hk =>
      have hu : (s.setThread k j .ready).Apart := hsub (hthread k j _ (List.nil_sublist _))
      refine apart_write (s := s.setThread k j .ready) hu fun i m hm _ => ?_
      simp only [Strategy.relinquish, Network.mem_only] at hm
      obtain ⟨rfl, -⟩ := hm
      simp only [apart, hk] at ha
      refine List.all_eq_true.mpr fun x hx => List.all_eq_true.mp ha x ?_
      exact (hthread k i .ready (List.nil_sublist _) i k).subset hx

/-- The next section of the thread ends its loop, or the thread has left it. -/
def LeavesLoop (Q : Quorums n) (s : Clients F n) (i : Fin n) : Thread F → Prop
  | .ready => False
  | .inquiring f .loopFailed _ | .inquiring f .loopLocked _ =>
    (s.strategy f i).receivedFailed (Q.quorum i) = true ∨
      (s.strategy f i).receivedAllLocked (Q.quorum i) = true
  | .inquiring _ _ _ => True

/-- Somebody is inside, or has all locks, or some thread is about to do something. -/
def Progress (Q : Quorums n) (s : Clients F n) : Prop :=
  (∃ i f, s.main i = .inside f) ∨
  (∃ i f, (s.strategy f i).receivedAllLocked (Q.quorum i) = true) ∨
  (∃ i j, s.thread i j = .ready ∧ s.inFlight j i ≠ []) ∨
  ∃ i j, s.LeavesLoop Q i (s.thread i j)

instance (Q : Quorums n) (s : Clients F n) (i : Fin n) :
    ∀ h : Thread F, Decidable (s.LeavesLoop Q i h)
  | .ready => inferInstanceAs (Decidable False)
  | .inquiring f .loopFailed _ | .inquiring f .loopLocked _ =>
    inferInstanceAs (Decidable ((s.strategy f i).receivedFailed (Q.quorum i) = true ∨
      (s.strategy f i).receivedAllLocked (Q.quorum i) = true))
  | .inquiring _ .ifFailed _ | .inquiring _ .ifLocked _ | .inquiring _ .relinquish _ =>
    inferInstanceAs (Decidable True)

instance [Fintype F] (Q : Quorums n) (s : Clients F n) : Decidable (s.Progress Q) :=
  inferInstanceAs (Decidable (_ ∨ _ ∨ _ ∨ _))

private theorem inOrder_label {f : F} {b : Maekawa.Action n} (ho : inOrder a = true)
    (hlabel : s.label a = some (f, b)) : Maekawa.inOrder b = true := by
  cases a with
  | treatMessage i j place =>
    obtain rfl := beq_iff_eq.mp ho
    obtain ⟨x, -, hx⟩ := Option.map_eq_some_iff.mp hlabel
    obtain ⟨-, rfl⟩ := Prod.mk.inj hx
    rfl
  | requestResource i g =>
    obtain ⟨-, rfl⟩ := Prod.mk.inj (Option.some.inj hlabel)
    rfl
  | _ =>
    simp only [label] at hlabel
    split at hlabel <;> cases hlabel
    rfl

/-- The invariants of every file, and of the connections that files share. -/
theorem sound_part (h : (clients F Q).Guarded (Keeps Q ∅) s) (f : F) : (s.part f).Sound Q := by
  refine sound_kept ((partRefinement Q f).guarded (fun s a t b _ hg _ hb => ?_) h)
  obtain ⟨⟨g, b'⟩, hlabel, hif⟩ := Option.bind_eq_some_iff.mp hb
  dsimp only at hif
  split_ifs at hif with hf
  obtain rfl := Option.some.inj hif
  subst hf
  obtain ⟨ho, hrules⟩ := hg
  have hrule (rule : Rule) : obeys Q s a rule = true := hrules rule (Finset.notMem_empty rule)
  have hheard := hrule .heard
  have hnoticed := hrule .noticed
  have hanswers := hrule .answers
  have hunhindered := hrule .unhindered
  simp only [obeys, hlabel, Option.all_some] at hheard hnoticed hanswers hunhindered
  simp only [Maekawa.keeps, Bool.and_eq_true]
  exact ⟨⟨⟨⟨inOrder_label ho hlabel, hheard⟩, hnoticed⟩, hanswers⟩, hunhindered⟩

theorem apart_kept (h : (clients F Q).Guarded (Keeps Q ∅) s) : s.Apart := by
  refine h.invariant ?_ fun s a t hI hg hs => ?_
  · rintro _ rfl
    exact fun i j => .nil
  · exact apart_step hI hg.1 (hg.2 .apart (Finset.notMem_empty _)) hs

/-- Where there is no progress, the clients of each file are stuck. -/
theorem stuck_of_not_progress (hs : (clients F Q).Guarded (Keeps Q ∅) s) (h : ¬ s.Progress Q)
    (f : F) : (s.part f).Stuck Q := by
  simp only [Progress, not_or, not_exists, not_and, not_not] at h
  obtain ⟨hinside, hall, htreat, hloop⟩ := h
  have hsound := sound_part hs
  have hpolling {i : Fin n} {g : F} (hm : (s.part g).main i ≠ .idle) : s.main i = .polling g := by
    rw [part_main] at hm
    cases hi : s.main i with
    | idle => simp [hi] at hm
    | inside g' => exact absurd hi (hinside i g')
    | polling g' =>
      by_cases hg : g' = g
      · rw [hg]
      · rw [hi, part_polling_of_ne (Ne.symm hg)] at hm
        exact absurd rfl hm
  -- a thread that is busy with a file spins about it, while its client waits for that file
  have hbusy {i j : Fin n} {g : F} {point : InquirePoint} {grant : ℕ}
      (hi : s.thread i j = .inquiring g point grant) :
      (Handler.inquiring point grant).spins = true ∧ s.main i = .polling g ∧
        (s.strategy g i).receivedFailed (Q.quorum i) = false := by
    have hno := hloop i j
    rw [hi] at hno
    have hspins : (Handler.inquiring point grant).spins = true := by
      cases point with
      | loopFailed | loopLocked => rfl
      | _ => exact (hno trivial).elim
    have hpart : ((s.part g).handler i j).spins = true := by simpa [hi] using hspins
    refine ⟨hspins, hpolling ((hsound g).spinning i j hpart).2, Bool.eq_false_iff.mpr fun hf => ?_⟩
    cases point with
    | loopFailed | loopLocked => exact hno (.inl hf)
    | _ => exact hno trivial
  refine ⟨hsound f, fun i hi => ?_, fun i _ => Bool.eq_false_iff.mpr (hall i f), fun i j hi => ?_,
    fun i j hi hr => ?_, fun i j m hm hup hr => ?_⟩
  · have hne : (s.part f).main i ≠ .idle := by
      rw [hi]
      exact MainThread.noConfusion
    rw [part_main, hpolling hne, polling_part] at hi
    cases hi
  · rw [part_handler] at hi ⊢
    cases ht : s.thread i j with
    | ready => simp [ht] at hi
    | inquiring g point grant =>
      by_cases hg : g = f
      · subst g
        rw [inquiring_part]
        exact ⟨(hbusy ht).1, (hbusy ht).2.2⟩
      · rw [ht, part_inquiring_of_ne (Ne.symm hg)] at hi
        exact absurd rfl hi
  · have hne : (s.part f).main i ≠ .idle := by
      rw [hi]
      exact MainThread.noConfusion
    have hmain := hpolling hne
    cases ht : s.thread i j with
    | ready => simp [htreat i j ht]
    | inquiring g point grant =>
      obtain rfl : g = f := Main.polling.inj ((hbusy ht).2.1.symm.trans hmain)
      simp [ht] at hr
  · obtain ⟨x, hx, hcarries⟩ := List.mem_filterMap.mp hm
    unfold carries at hcarries
    split_ifs at hcarries with hf
    obtain rfl := Option.some.inj hcarries
    cases ht : s.thread i j with
    | ready => simp [htreat i j ht] at hx
    | inquiring g point grant =>
      -- behind an INQUIRE only messages about the same file are left
      have hspins := (hbusy ht).1
      have hpair := apart_kept hs i j
      have hbodies : (Thread.inquiring g point grant).bodies = [(g, .inquire grant)] := by
        cases point <;> first | rfl | cases hspins
      rw [unanswered, ht, hbodies, List.singleton_append, List.pairwise_cons] at hpair
      have hsame := hpair.1 _ (List.mem_map_of_mem hx) rfl (upward_iff.mpr hup)
      obtain rfl : g = f := hsame.symm.trans hf
      simp [ht] at hr

end apart
end Clients

/-- Client 1 waits with its own lock, and a thread of it has the INQUIRE for the sake of client
0, whose request comes before its own. -/
def inquiredRun : List (Clients.Action Bool 2) :=
  [.requestResource 1 true, .requestResource 0 true, .treatMessage 1 1 0, .treatMessage 0 0 0,
    .treatMessage 0 1 0, .treatMessage 1 0 0, .treatMessage 1 1 0, .treatMessage 1 0 0,
    .treatMessage 1 1 0]

/-- Client 2 gets an INQUIRE from itself while it waits for its last lock, and has it before
the thread looks again. It enters and releases, and the RELEASE to itself comes to wait behind
the INQUIRE, whose thread finds no failed and no complete request any more. Client 1 is still
in the queue of client 2. -/
def blockedRun : List (Clients.Action Bool 3) :=
  [.requestResource 2 true, .requestResource 1 true, .treatMessage 2 2 0, .treatMessage 2 2 0,
    .treatMessage 2 1 0, .treatMessage 0 2 0, .treatMessage 1 1 0, .treatMessage 2 2 0,
    .treatMessage 2 0 0, .treatMessage 1 1 0, .canEnterCriticalSection 2, .releaseResource 2,
    .treatMessage 0 2 0]

/-- The run obeys all rules but one, and ends where somebody waits without progress. -/
def Strands {n : ℕ} (rule : Rule) (Q : Quorums n) (acts : List (Clients.Action Bool n)) : Prop :=
  (clients Bool Q).Along (Clients.Keeps Q {rule}) (.initial Bool n) acts ∧
    ∃ s, (clients Bool Q).run (.initial Bool n) acts = some s ∧
      (∃ i f, s.main i = .polling f) ∧ ¬ s.Progress Q

private theorem strands_of_run {n : ℕ} {rule : Rule} {Q : Quorums n}
    {acts : List (Clients.Action Bool n)}
    (hg : (clients Bool Q).Along (Clients.Keeps Q {rule}) (.initial Bool n) acts)
    (hp : ((clients Bool Q).run (.initial Bool n) acts).any
      (fun s => decide ((∃ i f, s.main i = .polling f) ∧ ¬ s.Progress Q)) = true) :
    Strands rule Q acts := by
  obtain ⟨s, hr, hs⟩ := (clients Bool Q).exists_run acts _ hp
  exact ⟨hg, s, hr, of_decide_eq_true hs⟩

def Quorums.descending : Quorums 3 where
  quorum i := ![{0, 1, 2}, {1, 2}, {2}] i
  self_mem := by decide
  inter := by decide

/-- Client 1 waits at client 2, with an INQUIRE for its sake, when the REQUEST of client 0 comes
before its own. It is not refused and keeps its own lock, which client 0 waits for. -/
def overtakenRun : List (Clients.Action Bool 3) :=
  [.requestResource 2 true, .requestResource 1 true, .requestResource 0 true,
    .treatMessage 2 2 0, .treatMessage 2 1 0, .treatMessage 2 0 0, .treatMessage 1 1 0,
    .treatMessage 1 0 0, .treatMessage 2 2 0, .treatMessage 2 2 0, .treatInquireMessage 2 2,
    .treatInquireMessage 2 2, .treatInquireMessage 2 2, .treatInquireMessage 2 2,
    .canEnterCriticalSection 2, .releaseResource 2, .treatMessage 2 2 0, .treatMessage 0 0 0,
    .treatMessage 0 0 0, .treatMessage 0 2 0, .treatMessage 1 1 0, .treatMessage 1 1 0]

def Quorums.ascending : Quorums 3 where
  quorum i := ![{0, 2}, {0, 1}, {0, 1, 2}] i
  self_mem := by decide
  inter := by decide

/-- Client 2 leaves its loop because client 1 has refused it, and sends no RELINQUISH because
it has LOCKED from client 1 when it looks again. It has its own lock, which client 0 waits for,
and waits for the lock of client 0. -/
def droppedRun : List (Clients.Action Bool 3) :=
  [.requestResource 0 true, .requestResource 1 true, .requestResource 2 true,
    .treatMessage 1 1 0, .treatMessage 0 1 0, .treatMessage 1 1 0, .treatMessage 1 0 0,
    .canEnterCriticalSection 1, .treatMessage 2 2 0, .treatMessage 1 2 0, .treatMessage 2 2 0,
    .treatMessage 2 1 0, .treatMessage 2 0 0, .treatMessage 2 2 0, .treatInquireMessage 2 2,
    .releaseResource 1, .treatMessage 1 1 0, .treatMessage 2 1 0, .treatInquireMessage 2 2,
    .treatInquireMessage 2 2, .treatMessage 0 1 0, .treatMessage 0 0 0, .treatMessage 0 0 0,
    .treatMessage 0 2 0, .treatMessage 2 0 0]

def Quorums.crossing : Quorums 3 where
  quorum i := ![{0, 2}, {1, 2}, {1, 2}] i
  self_mem := by decide
  inter := by decide

/-- Clients 1 and 2 have each other's lock. Client 1 spins for the sake of client 0, and the
RELINQUISH that client 2 sends it comes to wait behind. -/
def hinderedRun : List (Clients.Action Bool 3) :=
  [.requestResource 0 true, .requestResource 1 true, .requestResource 2 true,
    .treatMessage 1 2 0, .treatMessage 2 1 0, .treatMessage 1 1 0, .treatMessage 2 2 0,
    .treatMessage 2 0 0, .treatMessage 0 0 0, .treatMessage 0 0 0, .treatMessage 1 2 0,
    .treatMessage 1 2 0, .treatMessage 2 1 0, .treatMessage 2 1 0, .treatMessage 2 2 0,
    .treatInquireMessage 2 1, .treatInquireMessage 2 1, .treatInquireMessage 2 1]

def Quorums.sharing : Quorums 6 where
  quorum i := ![{0, 4, 5}, {1, 4, 5}, {2, 3, 5}, {2, 3, 4}, {3, 4, 5}, {2, 5}] i
  self_mem := by decide
  inter := by decide

/-- Client 2 waits for the lock of client 3 with one file, and client 3 for that of client 2
with the other one. Both spin. The RELEASE that would help client 2 waits at client 3 behind
the INQUIRE about the other file, and the RELEASE that would help client 3 at client 2. -/
def sharedRun : List (Clients.Action Bool 6) :=
  [.requestResource 4 false, .treatMessage 4 4 0, .treatMessage 3 4 0, .treatMessage 5 4 0,
    .treatMessage 4 4 0, .treatMessage 4 3 0, .treatMessage 4 5 0, .canEnterCriticalSection 4,
    .requestResource 5 true, .treatMessage 5 5 0, .treatMessage 2 5 0, .treatMessage 5 5 0,
    .treatMessage 5 2 0, .canEnterCriticalSection 5, .requestResource 3 true,
    .treatMessage 3 3 0, .treatMessage 4 3 0, .treatMessage 2 3 0, .treatMessage 3 3 0,
    .treatMessage 3 4 0, .treatMessage 5 2 0, .treatInquireMessage 5 2,
    .treatInquireMessage 5 2, .treatInquireMessage 5 2, .treatInquireMessage 5 2,
    .requestResource 2 false, .treatMessage 2 2 0, .treatMessage 3 2 0, .treatMessage 5 2 0,
    .treatMessage 2 2 0, .treatMessage 4 3 0, .treatInquireMessage 4 3,
    .treatInquireMessage 4 3, .treatInquireMessage 4 3, .treatInquireMessage 4 3,
    .treatMessage 4 5 0, .treatInquireMessage 4 5, .treatInquireMessage 4 5,
    .treatInquireMessage 4 5, .treatInquireMessage 4 5, .requestResource 1 true,
    .treatMessage 1 1 0, .treatMessage 1 1 0, .treatMessage 4 1 0, .treatMessage 5 1 0,
    .treatMessage 3 4 0, .treatMessage 5 5 0, .treatInquireMessage 5 5,
    .treatInquireMessage 5 5, .treatInquireMessage 5 5, .treatInquireMessage 5 5,
    .releaseResource 4, .treatMessage 4 4 0, .treatMessage 5 4 0, .treatMessage 2 5 0,
    .requestResource 0 false, .treatMessage 0 0 0, .treatMessage 0 0 0, .treatMessage 4 0 0,
    .treatMessage 0 4 0, .treatMessage 5 0 0, .treatMessage 2 5 0, .releaseResource 5,
    .treatMessage 5 5 0, .treatMessage 1 5 0]

/-- No rule can be left out. -/
theorem rule_needed (rule : Rule) : ∃ (n : ℕ) (Q : Quorums n) (acts : List (Clients.Action Bool n)),
    Strands rule Q acts := by
  cases rule with
  | heard => exact ⟨3, .descending, overtakenRun, strands_of_run (by decide) (by decide)⟩
  | noticed => exact ⟨3, .ring, blockedRun, strands_of_run (by decide) (by decide)⟩
  | answers => exact ⟨3, .ascending, droppedRun, strands_of_run (by decide) (by decide)⟩
  | unhindered => exact ⟨3, .crossing, hinderedRun, strands_of_run (by decide) (by decide)⟩
  | apart =>
    exact ⟨6, .sharing, sharedRun, strands_of_run (by decide +kernel) (by decide +kernel)⟩

end DistributedME.Maekawa
