import DistributedME.Cluster.Replicas
import DistributedME.Program.Projection
import DistributedME.RicartAgrawala.Tokens

/-! The program refines the cluster and the Ricart-Agrawala machine of every file, and with them
the copies of a file follow one log. -/
namespace DistributedME.Program
open Library
variable {n m : ℕ}

theorem carried_initial (config : Config n m) : Carried config (initial config) where
  inFlight _ _ _ hp := absurd hp List.not_mem_nil
  unsent _ _ _ hx := absurd hx List.not_mem_nil
  strategy _ _ _ hc := nomatch hc
  fresh _ _ _ := rfl

theorem placed_initial (config : Config n m) : Placed (initial config) where
  file _ _ := iff_of_false (not_not.mpr rfl) nofun
  inside _ _ hin := nomatch hin

theorem project_initial (config : Config n m) (filename : Bytes) :
    (initial config).project filename = RicartAgrawala.initial n := rfl

/-- What the program does about one file. -/
def fileRefinement {config : Config n m} (hnames : config.Named) (filename : Bytes) :
    (machine config).Refinement (RicartAgrawala.machine n) where
  project s := s.project filename
  label s act := sectionOf filename (label s act)
  Invariant s := Carried config s ∧ Placed s
  init := by
    rintro s rfl
    exact ⟨⟨carried_initial config, placed_initial config⟩, project_initial config filename⟩
  step := by
    intro s t act hs hstep
    have heffect := effect_of_step hstep
    exact ⟨⟨carried_of_effect hnames hs.1 heffect, placed_of_effect hs.2 heffect⟩,
      follow_of_effect hnames hs.1 hs.2 heffect filename⟩

/-- The step of the cluster that a step of the program is. -/
def clusterLabel (s : State n m) : Action n m → Option (Cluster.Action n m)
  | .mainStep i =>
    match (s.cluster.client i).main with
    | .requesting request =>
      if s.main i request.filename = .inside then some (.mainStep i) else none
    | _ => some (.mainStep i)
  | .sendMessageToClient i worker =>
    (s.locked i worker).bind fun filename => (s.unsent i filename).head?.map fun x =>
      .sendCriticalSectionMessage i x.1 (packet filename i x.2)
  | .treatServerPacket i k => some (.treatServerPacket i k)
  | .passServer i k => some (.passServer i k)
  | .handleClientPacket i j place => some (.handleClientPacket i j place)
  | .passClient i j => some (.passClient i j)
  | .treatRequest k i => some (.treatRequest k i)
  | .passRequests k i => some (.passRequests k i)

theorem cluster_of_move {config : Config n m} {s t : State n m} {a : Cluster.Action n m}
    (h : s.move config a = some t) :
    (Cluster.machine config.toConfig).follow s.cluster (some a) = some t.cluster := by
  obtain ⟨cluster, hcluster, rfl⟩ := move_eq_some.mp h
  exact hcluster

theorem cluster_of_mainStep {config : Config n m} {s t : State n m} {i : Fin n}
    (h : s.mainStep config i = some t) :
    (Cluster.machine config.toConfig).follow s.cluster (clusterLabel s (.mainStep i)) =
      some t.cluster := by
  obtain ⟨-, h⟩ := Option.ite_none_left_eq_some.mp h
  split at h
  · next hm =>
    obtain ⟨-, h⟩ := Option.ite_none_left_eq_some.mp h
    simp only [clusterLabel, hm]
    exact cluster_of_move h
  · next hm =>
    simp only [clusterLabel, hm]
    split at h
    · cases h
    · obtain ⟨c, -, h⟩ := Option.bind_eq_some_iff.mp h
      obtain ⟨-, h⟩ := Option.ite_none_right_eq_some.mp h
      obtain ⟨u, hu, rfl⟩ := Option.map_eq_some_iff.mp h
      have hcluster := cluster_of_move hu
      exact hcluster
  · next request hm =>
    simp only [clusterLabel, hm]
    obtain ⟨c, -, h⟩ := Option.bind_eq_some_iff.mp h
    split at h
    · cases h
    · next hpolling =>
      obtain ⟨-, h⟩ := Option.ite_none_right_eq_some.mp h
      obtain rfl := Option.some.inj h
      rw [hpolling]
      rfl
    · next hentering =>
      obtain ⟨-, h⟩ := Option.ite_none_right_eq_some.mp h
      obtain rfl := Option.some.inj h
      rw [hentering]
      rfl
    · next hinside =>
      rw [if_pos hinside]
      exact cluster_of_move h
  · next filename next hm =>
    simp only [clusterLabel, hm]
    split_ifs at h with hnext
    · exact cluster_of_move h
    · obtain ⟨c, -, h⟩ := Option.bind_eq_some_iff.mp h
      obtain ⟨-, h⟩ := Option.ite_none_right_eq_some.mp h
      obtain ⟨u, hu, rfl⟩ := Option.map_eq_some_iff.mp h
      have hcluster := cluster_of_move hu
      exact hcluster
  · next hrequesting _ =>
    simp only [clusterLabel]
    exact cluster_of_move h

theorem cluster_of_treat {s t : State n m} {i j : Fin n} {p : Cluster.Message}
    (h : s.treat i j p = some t) : t.cluster = s.cluster := by
  simp only [State.treat, Option.bind_eq_bind] at h
  obtain ⟨⟨filename, msg⟩, -, h⟩ := Option.bind_eq_some_iff.mp h
  obtain ⟨c, -, h⟩ := Option.bind_eq_some_iff.mp h
  obtain ⟨-, h⟩ := Option.ite_none_right_eq_some.mp h
  obtain ⟨⟨c', out⟩, -, h⟩ := Option.bind_eq_some_iff.mp h
  cases h
  rfl

theorem cluster_of_step {config : Config n m} {s t : State n m} {act : Action n m}
    (h : step config s act = some t) :
    (Cluster.machine config.toConfig).follow s.cluster (clusterLabel s act) = some t.cluster := by
  cases act with
  | mainStep i => exact cluster_of_mainStep h
  | sendMessageToClient i worker =>
    obtain ⟨filename, hlocked, h⟩ := Option.bind_eq_some_iff.mp h
    split at h
    · cases h
    · next j message rest hunsent =>
      obtain ⟨u, hu, rfl⟩ := Option.map_eq_some_iff.mp h
      simp only [clusterLabel, hlocked, hunsent, Option.bind_some, List.head?_cons,
        Option.map_some]
      exact cluster_of_move hu
  | treatServerPacket i k =>
    obtain ⟨u, hu, rfl⟩ := Option.map_eq_some_iff.mp h
    have hcluster := cluster_of_move hu
    split_ifs
    · rw [cluster_initCriticalSectionAlg]
      exact hcluster
    · exact hcluster
  | passServer i k => exact cluster_of_move h
  | treatRequest k i => exact cluster_of_move h
  | passRequests k i => exact cluster_of_move h
  | passClient i j =>
    obtain ⟨-, h⟩ := Option.ite_none_right_eq_some.mp h
    exact cluster_of_move h
  | handleClientPacket i j place =>
    obtain ⟨-, h⟩ := Option.ite_none_right_eq_some.mp h
    obtain ⟨p, hp, h⟩ := Option.bind_eq_some_iff.mp h
    obtain ⟨u, hu, h⟩ := Option.bind_eq_some_iff.mp h
    have hcluster := cluster_of_move hu
    split_ifs at h
    · rw [cluster_of_treat h]
      exact hcluster
    · obtain rfl := Option.some.inj h
      exact hcluster

/-- What the program does about requests, files and the end. -/
def clusterRefinement (config : Config n m) :
    (machine config).Refinement (Cluster.machine config.toConfig) where
  project := State.cluster
  label := clusterLabel
  Invariant _ := True
  init := by
    rintro s rfl
    exact ⟨trivial, rfl⟩
  step _ hstep := ⟨trivial, cluster_of_step hstep⟩

/-- Every run of the program is a run of the cluster, and at the same time, for every file, a run
of the Ricart-Agrawala machine. -/
theorem run_refines (config : Config n m) (hnames : config.Named) (acts : List (Action n m))
    (s : State n m) (hr : (machine config).run (initial config) acts = some s) :
    (Cluster.machine config.toConfig).run (Cluster.initial config.toConfig)
        ((clusterRefinement config).labels (initial config) acts) = some s.cluster ∧
      ∀ filename, (RicartAgrawala.machine n).run (RicartAgrawala.initial n)
        ((fileRefinement hnames filename).labels (initial config) acts) =
          some (s.project filename) :=
  ⟨((clusterRefinement config).run_of_init rfl hr).2,
    fun filename => ((fileRefinement hnames filename).run_of_init rfl hr).2⟩

/-- Two clients that write to different files. -/
def twoFiles : Config 2 1 where
  ids := Cluster.two_ids
  criticalSectionAlgType := .ra
  nRequests := 1
  enquiry _ := 0
  input := ![[.write [102]], [.write [103]]]
  files f := if f = [102] ∨ f = [103] then some [97, newline] else none
  ra := rfl
  hosted _ := [[102], [103]]

theorem twoFiles_named : twoFiles.Named := by
  intro k name hname
  rcases List.mem_pair.mp hname with rfl | rfl
  · decide
  · decide

/-- Client i from its start to the request that it sends to the other client. -/
def asking (i : Fin 2) : List (Action 2 1) :=
  [.mainStep i, .treatRequest 0 i, .treatServerPacket i 0, .mainStep i, .mainStep i,
    .sendMessageToClient i .main]

/-- Client i from its last poll to its request to the server. -/
def entering (i : Fin 2) : List (Action 2 1) :=
  [.mainStep i, .mainStep i, .mainStep i, .mainStep i]

/-- Both are in critical sections, each in that of its file, before client 0 has its answer. The
connection from client 1 carries a request about one file and then a reply about the other. -/
def twoFilesRun : List (Action 2 1) :=
  asking 0 ++ asking 1 ++ [.handleClientPacket 1 0 0, .sendMessageToClient 1 (.handler 0),
    .handleClientPacket 0 1 0, .sendMessageToClient 0 (.handler 1), .handleClientPacket 0 1 0,
    .handleClientPacket 1 0 0] ++ entering 0 ++ entering 1 ++
    [.treatRequest 0 0, .treatServerPacket 0 0, .mainStep 0]

theorem run_refines_twoFiles : ∃ s, (machine twoFiles).run (initial twoFiles) twoFilesRun = some s ∧
    (s.cluster.client 0).inCriticalSection = some [102] ∧
    (s.cluster.client 1).inCriticalSection = some [103] ∧
    ∀ filename, (RicartAgrawala.machine 2).run (RicartAgrawala.initial 2)
      ((fileRefinement twoFiles_named filename).labels (initial twoFiles) twoFilesRun) =
        some (s.project filename) := by
  obtain ⟨s, hr, hp⟩ := (machine twoFiles).exists_run (s := initial twoFiles) twoFilesRun
    (fun s => (s.cluster.client 0).inCriticalSection = some [102] &&
      (s.cluster.client 1).inCriticalSection = some [103]) (by decide +kernel)
  simp only [Bool.and_eq_true, decide_eq_true_eq] at hp
  exact ⟨s, hr, hp.1, hp.2, (run_refines twoFiles twoFiles_named twoFilesRun s hr).2⟩

/-- A permission for the file is given away between the poll and the entry. -/
def YieldsInGap (filename : Bytes) (s : State n m) (act : Action n m) : Prop :=
  ∃ b ∈ sectionOf filename (label s act), RicartAgrawala.YieldsInGap (s.project filename) b

instance (filename : Bytes) (s : State n m) (act : Action n m) :
    Decidable (YieldsInGap filename s act) :=
  inferInstanceAs (Decidable (∃ b ∈ sectionOf filename (label s act), _))

/-- No step of the run so far was a yield in the gap of the file. -/
abbrev GapFree (config : Config n m) (filename : Bytes) (s : State n m) : Prop :=
  (machine config).Guarded (fun s act => ¬ YieldsInGap filename s act) s

theorem gapFree_project {config : Config n m} (hnames : config.Named) {filename : Bytes}
    {s : State n m} (h : GapFree config filename s) :
    RicartAgrawala.GapFree (s.project filename) := by
  apply (fileRefinement hnames filename).guarded _ h
  intro u act t b _ hg _ hb hgap
  exact hg ⟨b, hb, hgap⟩

theorem exclusive_of_gapFree {config : Config n m} (hnames : config.Named) {filename : Bytes}
    {s : State n m} (h : GapFree config filename s) :
    Cluster.Exclusive s.cluster.client filename := by
  obtain ⟨-, hplaced⟩ := (fileRefinement hnames filename).invariant_of_guarded h
  have hproject := gapFree_project hnames h
  have hmodes := RicartAgrawala.modes_guarded hproject
  intro i j hi hj
  apply RicartAgrawala.exclusive_of_gapFree hproject
  · exact (hmodes i).2.mpr (hplaced.inside i filename hi)
  · exact (hmodes j).2.mpr (hplaced.inside j filename hj)

/-- The exclusion algorithm does for the cluster what it is for. -/
theorem guarded_excludes {config : Config n m} (hnames : config.Named) {filename : Bytes}
    {s : State n m} (h : GapFree config filename s) :
    (Cluster.machine config.toConfig).Guarded (Cluster.excludes config.toConfig filename)
      s.cluster := by
  apply (clusterRefinement config).guarded _ h
  intro u act t b hu hg hstep hb v hv
  have hcluster := ((clusterRefinement config).step trivial hstep).2
  rw [hb] at hcluster
  obtain rfl := Option.some.inj (hcluster.symm.trans hv)
  exact exclusive_of_gapFree hnames (.step hu hg hstep)

/-- From the strategy objects to the files: without a yield in the gap of a file, no two clients
are in its critical section, and its copies follow one log of all finished WRITEs. -/
theorem copies_follow_log (config : Config n m) (hnames : config.Named) (filename : Bytes)
    (lines : List Bytes) (hhosts : config.toConfig.Hosts filename lines)
    (hinput : ∀ i, ∀ request ∈ config.input i, hash ∉ request.filename) (s : State n m)
    (h : GapFree config filename s) :
    Cluster.Exclusive s.cluster.client filename ∧
    (Log.machine (Lines.last lines)).run []
        (s.cluster.history.filterMap (Cluster.Event.action filename)) =
      some (Cluster.written filename s.cluster.history) ∧
    ((∀ i, (s.cluster.client i).inCriticalSection ≠ some filename) → ∀ k,
      (s.cluster.server k).files filename = some
        (Lines.text newline (lines ++ Cluster.written filename s.cluster.history))) := by
  obtain ⟨hexcl, log, hlog⟩ :=
    Cluster.follows_of_guarded hhosts hinput (guarded_excludes hnames h)
  obtain rfl : log = Cluster.written filename s.cluster.history := Log.run_entries hlog.run
  refine ⟨hexcl, hlog.run, fun hnone => hlog.idle fun i t next hm => ?_⟩
  exact hnone i (Cluster.Client.inside_of_requestWrite hm)

theorem copies_follow_log_twoFiles : ∃ s : State 2 1, s.cluster.history = [.write 0 [102] 4] ∧
    Cluster.Exclusive s.cluster.client [102] ∧
    (Log.machine (Lines.last [[97]])).run []
        (s.cluster.history.filterMap (Cluster.Event.action [102])) =
      some (Cluster.written [102] s.cluster.history) := by
  obtain ⟨s, hr, hp⟩ := (machine twoFiles).exists_run (s := initial twoFiles) twoFilesRun
    (fun s => s.cluster.history = [.write 0 [102] 4]) (by decide +kernel)
  have hg : (machine twoFiles).Along (fun s act => ¬ YieldsInGap [102] s act) (initial twoFiles)
      twoFilesRun := by decide +kernel
  have hhosts : twoFiles.toConfig.Hosts [102] [[97]] := by
    refine ⟨rfl, fun line hline => ?_, [97], List.mem_singleton_self _, by decide⟩
    obtain rfl := List.mem_singleton.mp hline
    exact ⟨by decide, by decide, by decide⟩
  obtain ⟨hexcl, hrun, -⟩ := copies_follow_log twoFiles twoFiles_named [102] [[97]] hhosts
    (by decide) s (hg.guarded (.init rfl) hr)
  exact ⟨s, of_decide_eq_true hp, hexcl, hrun⟩

end DistributedME.Program
