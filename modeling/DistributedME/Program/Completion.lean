import DistributedME.Cluster.Order
import DistributedME.Program.Work

/-! All clients finish all their bodies, after a number of steps that is known in advance, and
then every copy of a file has a line for every WRITE. -/
namespace DistributedME.Program
open Library
variable {n m : ℕ}

/-- A step towards the end: no poll is in vain, and no permission is yielded in a gap. -/
def Forward (s : State n m) (act : Action n m) : Prop :=
  ¬ FailsPoll s act ∧ ¬ Idles s act ∧ ∀ filename, ¬ YieldsInGap filename s act

theorem not_idles {s : State n m} {act : Action n m} (h : act.isPass = false) : ¬ Idles s act := by
  cases act with
  | passServer | passClient | passRequests => cases h
  | _ => exact id

theorem work_pays {config : Config n m} (hnames : config.Named) :
    (machine config).Pays ((machine config).Guarded Forward) Forward (fun _ => 1) (fun _ => 0)
      (State.work config) where
  keeps s act t h hg hstep := .step h hg hstep
  pays s act t h hg hstep := by
    have hfree (filename : Bytes) : GapFree config filename s :=
      h.mono fun _ _ hforward => hforward.2.2 filename
    exact work_of_step hnames hfree hg.1 hg.2.1 hg.2.2 hstep

/-- A clock is paid for by the steps. -/
theorem timestamp_pays (config : Config n m) (i : Fin n) :
    (machine config).Pays (fun _ => True) (fun _ _ => True) (fun _ => 0) (fun _ => 1)
      fun s => (s.cluster.client i).timestamp where
  keeps _ _ _ _ _ _ := trivial
  pays s act t _ _ hstep := by
    have hfollow := cluster_of_step hstep
    rw [Nat.zero_add]
    cases hl : clusterLabel s act with
    | none =>
      rw [hl] at hfollow
      rw [← Option.some.inj hfollow]
      exact Nat.le_succ _
    | some a =>
      rw [hl] at hfollow
      exact timestamp_of_step hfollow i

section run
variable {config : Config n m} {s : State n m} {acts : List (Action n m)}

theorem length_le_workload (hnames : config.Named)
    (hlines : ∀ i, (config.input i).length = config.nRequests)
    (hr : (machine config).run (initial config) acts = some s)
    (hg : (machine config).Along Forward (initial config) acts) :
    acts.length ≤ config.workload := by
  have hbill := (work_pays hnames).length_le (.init rfl) hg hr
  rw [work_initial hlines] at hbill
  omega

/-- A bounded number of steps leaves room for one more. -/
theorem room_of_run (hnames : config.Named)
    (hr : (machine config).run (initial config) acts = some s)
    (hroom : acts.length + 1 < 2 ^ 31) : Room s := by
  constructor
  · intro i
    have hbill := (timestamp_pays config i).run trivial (Machine.along_trivial _ _ _) hr
    have hfree : Machine.total (fun _ : Action n m => 0) acts = 0 := by simp [Machine.total]
    have hone : Machine.total (fun _ : Action n m => 1) acts = acts.length := by
      simp [Machine.total]
    have hzero : ((initial config).cluster.client i).timestamp = 0 := rfl
    rw [hfree, hone, hzero] at hbill
    omega
  · intro i filename c hc
    have hzero : Numbered 0 ((initial config).project filename) := by
      rw [project_initial]
      exact ⟨fun _ => Nat.le_refl 0, fun _ => Nat.le_refl 0,
        fun _ _ _ hm => absurd hm List.not_mem_nil⟩
    have hnumber := (numbered_run hnames filename
      ⟨carried_initial config, placed_initial config⟩ hzero hr).hgst i
    rw [strategy_project hc] at hnumber
    omega

/-- Where no step towards the end is left, all bodies are finished. -/
theorem finished_of_stopped (hserved : config.Served)
    (hfiles : ∀ filename, Cluster.Legible (config.files filename))
    (hlines : ∀ i, (config.input i).length = config.nRequests)
    (hroom : Room s) (h : (machine config).Reachable s)
    (hstop : ∀ act t, Forward s act → (machine config).step s act ≠ some t) (i : Fin n) :
    s.cluster.bodies i = config.nRequests := by
  by_contra hi
  obtain ⟨act, t, hpass, hpoll, hgap, hstep⟩ :=
    moves_of_unfinished hserved hfiles hlines h hroom hi
  exact hstop act t ⟨hpoll, not_idles hpass, hgap⟩ hstep

end run

/-- When all clients are at their end, each of them has done its input in its order, and all
copies of a file consist of the same lines: those from before and one for each WRITE of the file
in an input. -/
theorem all_written (config : Config n m) (hserved : config.Served)
    (hlines : ∀ i, (config.input i).length = config.nRequests) (filename : Bytes)
    (lines : List Bytes) (hhosts : config.toConfig.Hosts filename lines) (s : State n m)
    (h : GapFree config filename s) (hend : ∀ i, s.cluster.bodies i = config.nRequests) :
    (∀ i, Cluster.finishedRequests i s.cluster.history = config.input i) ∧
    (Cluster.written filename s.cluster.history).length =
      ∑ i, (config.input i).countP (fun request => request = .write filename) ∧
    ∀ k, (s.cluster.server k).files filename = some
      (Lines.text newline (lines ++ Cluster.written filename s.cluster.history)) := by
  have hcluster : (Cluster.machine config.toConfig).Reachable s.cluster :=
    (clusterRefinement config).guarded (fun _ _ _ _ _ _ _ _ => trivial) h
  have hfinished (i : Fin n) :=
    Cluster.finishedRequests_of_end hcluster ((hend i).trans (hlines i).symm)
  refine ⟨fun i => (hfinished i).1, ?_, ?_⟩
  · rw [Cluster.length_written, Cluster.countP_eq_sum]
    refine Finset.sum_congr rfl fun i _ => ?_
    rw [(hfinished i).1, List.count]
    refine List.countP_congr fun request _ => ?_
    simp
  · obtain ⟨-, log, hlog⟩ :=
      Cluster.follows_of_guarded hhosts hserved.hash (guarded_excludes hserved.named h)
    obtain rfl : log = Cluster.written filename s.cluster.history := Log.run_entries hlog.run
    refine hlog.idle fun i t next hm => ?_
    have hcurrent := (hfinished i).2
    have hm' : (s.cluster.client i).main = .requestWrite filename t next := hm
    rw [Cluster.Client.current, hm'] at hcurrent
    cases hcurrent

/-- Client i, which alone wants its file, from its last poll to the end of its body. -/
def aloneRun (i : Fin 2) : List (Action 2 1) :=
  entering i ++ [.treatRequest 0 i, .treatServerPacket i 0, .mainStep i, .mainStep i, .mainStep i]

def wholeRun : List (Action 2 1) :=
  asking 0 ++ asking 1 ++ [.handleClientPacket 1 0 0, .sendMessageToClient 1 (.handler 0),
    .handleClientPacket 0 1 0, .sendMessageToClient 0 (.handler 1), .handleClientPacket 0 1 0,
    .handleClientPacket 1 0 0] ++ aloneRun 0 ++ aloneRun 1

theorem all_written_twoFiles : ∃ s : State 2 1, (∀ i, s.cluster.bodies i = 1) ∧
    (Cluster.written [103] s.cluster.history).length = 1 ∧
    (s.cluster.server 0).files [103] = some
      (Lines.text newline ([[97]] ++ Cluster.written [103] s.cluster.history)) := by
  obtain ⟨s, hr, hp⟩ := (machine twoFiles).exists_run (s := initial twoFiles) wholeRun
    (fun s => decide (∀ i, s.cluster.bodies i = 1)) (by decide +kernel)
  have hg : (machine twoFiles).Along (fun s act => ¬ YieldsInGap [103] s act) (initial twoFiles)
      wholeRun := by decide +kernel
  have hhosts : twoFiles.toConfig.Hosts [103] [[97]] := by
    refine ⟨rfl, fun line hline => ?_, [97], List.mem_singleton_self _, by decide⟩
    obtain rfl := List.mem_singleton.mp hline
    exact ⟨by decide, by decide, by decide⟩
  have hend : ∀ i, s.cluster.bodies i = 1 := of_decide_eq_true hp
  obtain ⟨-, hlength, hfiles⟩ := all_written twoFiles twoFiles_served (by decide) [103] [[97]]
    hhosts s (hg.guarded (.init rfl) hr) hend
  exact ⟨s, hend, hlength, hfiles 0⟩

end DistributedME.Program
