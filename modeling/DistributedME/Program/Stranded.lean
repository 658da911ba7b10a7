import DistributedME.Program.Ending

/-! The program can hang at its end when a thread leaves early. -/
namespace DistributedME.Program
open Library
variable {n m : ℕ}

/-- All inputs are done, and nothing is left of the exclusion algorithm. -/
structure AtRest (s : State n m) : Prop where
  ready : ∀ i, (s.cluster.client i).main = .ready
  input : ∀ i, (s.cluster.client i).input = []
  exclusion : ∀ i j, exclusion s.cluster i j = []
  unsent : ∀ i filename, s.unsent i filename = []

/-- What is left of a step of the program is a step of the cluster. -/
structure Follows (config : Config n m) (s t : State n m) (a : Cluster.Action n m) : Prop where
  step : Cluster.step config.toConfig s.cluster a = some t.cluster
  send : ∀ i j message, a ≠ .sendCriticalSectionMessage i j message
  rest : AtRest t

section rest
variable {config : Config n m} {s t : State n m} {a : Cluster.Action n m}

theorem follows_of_cluster (hs : AtRest s)
    (h : Cluster.step config.toConfig s.cluster a = some t.cluster) (hmain : ∀ i, a ≠ .mainStep i)
    (hsend : ∀ i j message, a ≠ .sendCriticalSectionMessage i j message)
    (hexclusion : exclusion t.cluster = exclusion s.cluster) (hunsent : t.unsent = s.unsent) :
    Follows config s t a := by
  refine ⟨h, hsend, fun i => ?_, fun i => ?_, fun i j => ?_, fun i filename => ?_⟩
  · rw [main_of_step hmain h, hs.ready]
  · rw [input_of_step hmain h, hs.input]
  · rw [hexclusion, hs.exclusion]
  · rw [hunsent, hs.unsent]

theorem follows_of_move (hs : AtRest s) (hsilent : silent a = true) (hmain : ∀ i, a ≠ .mainStep i)
    (h : s.move config a = some t) : Follows config s t a := by
  obtain ⟨cluster, hcluster, rfl⟩ := move_eq_some.mp h
  apply follows_of_cluster hs hcluster hmain
  · rintro i j message rfl
    cases hsilent
  · exact exclusion_of_silent hsilent hcluster
  · rfl

theorem follows_of_step (hs : AtRest s) {act : Action n m} (h : step config s act = some t) :
    ∃ a, Follows config s t a := by
  cases act with
  | mainStep i =>
    obtain ⟨-, h⟩ := Option.ite_none_left_eq_some.mp h
    simp only [hs.ready i, hs.input i] at h
    cases h
  | sendMessageToClient i worker =>
    obtain ⟨filename, -, h⟩ := Option.bind_eq_some_iff.mp h
    simp only [hs.unsent i filename] at h
    cases h
  | treatServerPacket i k =>
    obtain ⟨u, hu, rfl⟩ := Option.map_eq_some_iff.mp h
    obtain ⟨cluster, hcluster, rfl⟩ := move_eq_some.mp hu
    refine ⟨.treatServerPacket i k, ?_⟩
    have hsame := exclusion_of_silent rfl hcluster
    unfold State.initCriticalSectionAlg
    split_ifs <;> exact follows_of_cluster hs hcluster (by simp) (by simp) hsame rfl
  | passServer i k => exact ⟨_, follows_of_move hs rfl (by simp) h⟩
  | treatRequest k i => exact ⟨_, follows_of_move hs rfl (by simp) h⟩
  | passRequests k i => exact ⟨_, follows_of_move hs rfl (by simp) h⟩
  | passClient i j =>
    obtain ⟨-, h⟩ := Option.ite_none_right_eq_some.mp h
    exact ⟨_, follows_of_move hs rfl (by simp) h⟩
  | handleClientPacket i j place =>
    obtain ⟨-, h⟩ := Option.ite_none_right_eq_some.mp h
    obtain ⟨p, hp, h⟩ := Option.bind_eq_some_iff.mp h
    obtain ⟨u, hu, h⟩ := Option.bind_eq_some_iff.mp h
    obtain ⟨cluster, hcluster, rfl⟩ := move_eq_some.mp hu
    rcases exclusion_handle hp hcluster with ⟨he, hsame⟩ | ⟨-, hmem, -⟩
    · have he' : Cluster.isCriticalSectionAlgMessage p.messageType .ra = false := he
      rw [he'] at h
      cases h
      exact ⟨_, follows_of_cluster hs hcluster (by simp) (by simp) hsame rfl⟩
    · rw [hs.exclusion] at hmem
      cases hmem

end rest

/-- Two clients whose threads for each other are in read at the end, when neither has a thread
left that would tell the other one, stay there for ever, whatever the other threads do. -/
theorem never_left (config : Config n m) (s : State n m) (hs : AtRest s) (i j : Fin n)
    (hij : i ≠ j) (hi : s.cluster.Stranded i j) (hj : s.cluster.Stranded j i)
    (acts : List (Action n m)) (t : State n m) (hr : (machine config).run s acts = some t) :
    (t.cluster.client i).clientThread j = .reading ∧
      (t.cluster.client j).clientThread i = .reading := by
  induction acts generalizing s with
  | nil =>
    cases hr
    exact ⟨hi.client, hj.client⟩
  | cons act acts ih =>
    obtain ⟨u, hu, hr⟩ := Machine.run_cons.mp hr
    obtain ⟨a, hfollows⟩ := follows_of_step hs hu
    apply ih u hfollows.rest
    · exact Cluster.stranded_of_step hij hfollows.step (hfollows.send i j) hi hj
    · exact Cluster.stranded_of_step hij.symm hfollows.step (hfollows.send j i) hj hi
    · exact hr

theorem three_ids : 3 < 2 ^ 31 := by decide

/-- Three clients that read a file. -/
def threeReads : Config 3 1 where
  ids := three_ids
  criticalSectionAlgType := .ra
  nRequests := 1
  enquiry _ := 0
  input _ := [.read [102] 0]
  files f := if f = [102] then some [97, newline] else none
  ra := rfl
  hosted _ := [[102]]

def enquiring (i : Fin 3) : List (Action 3 1) :=
  [.mainStep i, .treatRequest 0 i, .treatServerPacket i 0, .mainStep i]

/-- Client i gets its permissions, does its request and tells the server that it is done. -/
def reading (i j k : Fin 3) : List (Action 3 1) :=
  [.mainStep i, .sendMessageToClient i .main, .sendMessageToClient i .main,
    .handleClientPacket j i 0, .sendMessageToClient j (.handler i),
    .handleClientPacket k i 0, .sendMessageToClient k (.handler i),
    .handleClientPacket i j 0, .handleClientPacket i k 0,
    .mainStep i, .mainStep i, .mainStep i, .mainStep i, .treatRequest 0 i, .treatServerPacket i 0,
    .mainStep i, .mainStep i, .mainStep i, .treatRequest 0 i]

/-- Client 2 is told the end and tells the others, whose threads for the server have not yet
gone back to reading. -/
def hangingRun : List (Action 3 1) :=
  enquiring 0 ++ enquiring 1 ++ enquiring 2 ++ reading 0 1 2 ++ reading 1 2 0 ++ reading 2 0 1 ++
    [.passClient 0 1, .passClient 1 0, .passRequests 0 2, .passRequests 0 2, .passRequests 0 2,
      .passRequests 0 2, .treatServerPacket 2 0, .passServer 2 0, .passServer 2 0, .passServer 2 0,
      .handleClientPacket 0 2 0, .passServer 0 0, .handleClientPacket 1 2 0, .passServer 1 0]

/-- What is to be seen of client i in a state in which it waits for client j. -/
def strands (s : State 3 1) (i j : Fin 3) : Bool :=
  decide (∀ k, (s.cluster.client i).serverThread k = .left) &&
    decide ((s.cluster.client i).clientThread j = .reading) &&
    decide (s.cluster.inFlight (.client i) (.client j) = [])

theorem stranded_of_strands {s : State 3 1} {i j : Fin 3} (h : strands s i j = true) :
    s.cluster.Stranded i j := by
  simp only [strands, Bool.and_eq_true, decide_eq_true_eq] at h
  exact ⟨h.1.1, h.1.2, h.2⟩

/-- Of no client a thread has locked an object, and all are at the end of their input. -/
def rests (s : State 3 1) : Bool :=
  decide (∀ i, (s.cluster.client i).main = .ready ∧ (s.cluster.client i).input = []) &&
    decide (∀ i j, exclusion s.cluster i j = []) &&
    decide (∀ i, s.locked i .main = none ∧ ∀ j, s.locked i (.handler j) = none)

theorem atRest_of_rests {s : State 3 1} (hheld : Held s) (h : rests s = true) : AtRest s := by
  simp only [rests, Bool.and_eq_true, decide_eq_true_eq] at h
  obtain ⟨⟨hmain, hexclusion⟩, hlocked⟩ := h
  refine ⟨fun i => (hmain i).1, fun i => (hmain i).2, hexclusion, fun i filename => ?_⟩
  by_contra hne
  obtain ⟨worker, hl⟩ := hheld.locked i filename hne
  cases worker with
  | main => cases (hlocked i).1.symm.trans hl
  | handler j => cases ((hlocked i).2 j).symm.trans hl

theorem never_left_threeReads : ∃ s : State 3 1, (machine threeReads).Reachable s ∧
    ∀ acts t, (machine threeReads).run s acts = some t →
      (t.cluster.client 0).clientThread 1 = .reading ∧
        (t.cluster.client 1).clientThread 0 = .reading := by
  obtain ⟨s, hs, hp⟩ := (machine threeReads).exists_reachable_of_run (s := initial threeReads) rfl
    hangingRun (fun s => rests s && strands s 0 1 && strands s 1 0) (by decide +kernel)
  simp only [Bool.and_eq_true] at hp
  obtain ⟨⟨hrests, h01⟩, h10⟩ := hp
  exact ⟨s, hs, never_left threeReads s (atRest_of_rests (held_of_reachable hs) hrests) 0 1
    (by decide) (stranded_of_strands h01) (stranded_of_strands h10)⟩

end DistributedME.Program
