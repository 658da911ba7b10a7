import DistributedME.Program.Messages

/-! What each step of the program does to the main threads, the strategy objects and the messages
of the exclusion algorithm. -/
namespace DistributedME.Program
open Library
variable {n m : ℕ}

/-- The file that a main thread has requested. -/
def requested : Cluster.Main m → Option Bytes
  | .requesting request => some request.filename
  | .requestRead filename _ | .reading filename _ | .requestWrite filename _ _
  | .finished filename _ => some filename
  | .start | .enquiring | .ready => none

theorem requested_of_inside {c : Cluster.Client n m} {filename : Bytes}
    (h : c.inCriticalSection = some filename) : requested c.main = some filename := by
  unfold Cluster.Client.inCriticalSection at h
  unfold requested
  split at h <;> simp_all

/-- The file and the section of its exclusion algorithm that a step executes. -/
def label (s : State n m) : Action n m → Option (Bytes × RicartAgrawala.Action n)
  | .mainStep i =>
    match (s.cluster.client i).main with
    | .ready => (s.cluster.client i).input.head?.map fun request =>
      (request.filename, .requestResource i)
    | .requesting request =>
      match s.main i request.filename with
      | .polling => some (request.filename, .canEnterCriticalSection i)
      | .entering => some (request.filename, .enterCriticalSection i)
      | .idle | .inside => none
    | .finished filename next => if next < m then none else some (filename, .releaseResource i)
    | _ => none
  | .handleClientPacket i j place =>
    (s.cluster.inFlight (.client j) (.client i))[place]?.bind fun p =>
      if isExclusion p then
        (Node.Client.handleClientPacket p.msg).map fun (filename, _) =>
          (filename, .treatMessage i j)
      else none
  | _ => none

/-- The clients are where they were, and in no new critical section without leave. -/
structure Stays (s : State n m) (client : Fin n → Cluster.Client n m) : Prop where
  file : ∀ j, requested (client j).main = requested (s.cluster.client j).main
  leave : ∀ j filename, (client j).inCriticalSection = some filename →
    (s.cluster.client j).inCriticalSection = some filename ∨ s.main j filename = .inside

/-- Everything that a step can do to the strategy objects and their messages. -/
inductive Effect (config : Config n m) (s : State n m) :
    State n m → Option (Bytes × RicartAgrawala.Action n) → Prop
  | quiet {cluster : Cluster.State n m} : exclusion cluster = exclusion s.cluster →
      Stays s cluster.client → Effect config s { s with cluster := cluster } none
  | init {cluster : Cluster.State n m} (i : Fin n) (k : Fin m) :
      exclusion cluster = exclusion s.cluster → Stays s cluster.client →
      Effect config s
        ({ s with cluster := cluster }.initCriticalSectionAlg i (config.listFiles k)) none
  | request {cluster : Cluster.State n m} {i : Fin n} {filename : Bytes}
      {c : RicartAgrawala.Strategy n} : exclusion cluster = exclusion s.cluster →
      requested (s.cluster.client i).main = none →
      requested (cluster.client i).main = some filename →
      (cluster.client i).inCriticalSection = none →
      (∀ j, j ≠ i → cluster.client j = s.cluster.client j) →
      s.criticalSectionAlgStrategy i filename = some c → s.unsent i filename = [] →
      c.hgstSequenceNumber + 1 < 2 ^ 31 → s.locked i .main = none →
      Effect config s ({ s with cluster := cluster }.write i .main filename
        (c.requestResource i).1 .polling (needToSends (c.requestResource i).2))
        (some (filename, .requestResource i))
  | poll {i : Fin n} {filename : Bytes} {c : RicartAgrawala.Strategy n} :
      requested (s.cluster.client i).main = some filename →
      (s.cluster.client i).inCriticalSection = none →
      s.criticalSectionAlgStrategy i filename = some c → s.unsent i filename = [] →
      s.main i filename = .polling → s.locked i .main = none →
      Effect config s (s.write i .main filename c
        (if c.canEnterCriticalSection i then .entering else .polling) [])
        (some (filename, .canEnterCriticalSection i))
  | enter {i : Fin n} {filename : Bytes} {c : RicartAgrawala.Strategy n} :
      requested (s.cluster.client i).main = some filename →
      s.criticalSectionAlgStrategy i filename = some c → s.unsent i filename = [] →
      s.main i filename = .entering → s.locked i .main = none →
      Effect config s (s.write i .main filename c.enterCriticalSection .inside [])
        (some (filename, .enterCriticalSection i))
  | release {cluster : Cluster.State n m} {i : Fin n} {filename : Bytes}
      {c : RicartAgrawala.Strategy n} : exclusion cluster = exclusion s.cluster →
      (s.cluster.client i).inCriticalSection = some filename →
      requested (cluster.client i).main = none →
      (∀ j, j ≠ i → cluster.client j = s.cluster.client j) →
      s.criticalSectionAlgStrategy i filename = some c → s.unsent i filename = [] →
      s.locked i .main = none →
      Effect config s ({ s with cluster := cluster }.write i .main filename
        (c.releaseResource i).1 .idle (needToSends (c.releaseResource i).2))
        (some (filename, .releaseResource i))
  | send {cluster : Cluster.State n m} {i j : Fin n} {filename : Bytes}
      {message : RicartAgrawala.Message} {rest : List (Fin n × RicartAgrawala.Message)}
      {worker : Worker n} : s.locked i worker = some filename →
      s.unsent i filename = (j, message) :: rest →
      (∀ x y, exclusion cluster x y = exclusion s.cluster x y ++
        if x = i ∧ y = j then [packet filename i message] else []) →
      Stays s cluster.client →
      Effect config s { s with
        cluster := cluster
        unsent := Function.update s.unsent i (Function.update (s.unsent i) filename rest)
        locked := Function.update s.locked i
          (Function.update (s.locked i) worker (if rest = [] then none else some filename)) } none
  | treat {cluster : Cluster.State n m} {i j : Fin n} {p : Cluster.Message}
      {filename msg : Bytes} {c c' : RicartAgrawala.Strategy n}
      {out : List (Fin n × RicartAgrawala.Message)} : p ∈ exclusion s.cluster j i →
      (i ≠ j → ∃ rest, exclusion s.cluster j i = p :: rest ∧ ∀ x y,
        exclusion cluster x y = if x = j ∧ y = i then rest else exclusion s.cluster x y) →
      Stays s cluster.client → Node.Client.handleClientPacket p.msg = some (filename, msg) →
      s.criticalSectionAlgStrategy i filename = some c → s.unsent i filename = [] →
      treatMessage c i p.messageType msg = some (c', out) → s.locked i (.handler j) = none →
      Effect config s ({ s with cluster := cluster }.write i (.handler j) filename c'
        (s.main i filename) out) (some (filename, .treatMessage i j))

/-- Only a main thread's own steps move it. -/
theorem main_of_step {config : Cluster.Config n m} {s t : Cluster.State n m}
    {a : Cluster.Action n m} (ha : ∀ i, a ≠ .mainStep i) (h : Cluster.step config s a = some t)
    (j : Fin n) : (t.client j).main = (s.client j).main := by
  cases a with
  | mainStep i => exact absurd rfl (ha i)
  | sendCriticalSectionMessage | passServer | handleClientPacket | passClient | passRequests =>
    exact ((Cluster.quiet_step rfl h).client j).main
  | treatServerPacket i k =>
    simp only [Cluster.step] at h
    split at h
    · cases h
    · split_ifs at h
      cases h
      rw [Cluster.client_setClient, Function.update_apply]
      split_ifs with hj
      · rw [Cluster.Client.main_treatServerPacket, hj]
      · rfl
  | treatRequest k i =>
    simp only [Cluster.step] at h
    split at h
    · cases h
    · split_ifs at h
      obtain ⟨v, -, rfl⟩ := Option.map_eq_some_iff.mp h
      rfl

theorem Stays.of_main {s : State n m} {client : Fin n → Cluster.Client n m}
    (h : ∀ j, (client j).main = (s.cluster.client j).main) : Stays s client where
  file j := congrArg requested (h j)
  leave j filename hj := by
    rw [Cluster.Client.inCriticalSection, h j] at hj
    exact .inl hj

theorem Stays.of_step {config : Cluster.Config n m} {s : State n m} {t : Cluster.State n m}
    {a : Cluster.Action n m} (ha : ∀ i, a ≠ .mainStep i)
    (h : Cluster.step config s.cluster a = some t) : Stays s t.client :=
  .of_main (main_of_step ha h)

/-- A step of a main thread, in the terms of the cluster. -/
theorem mainMove_of_step {config : Cluster.Config n m} {s t : Cluster.State n m} {i : Fin n}
    (h : Cluster.step config s (.mainStep i) = some t) : ∃ c out events,
    (s.client i).MainMove config i c out events ∧ t.client = Function.update s.client i c := by
  obtain ⟨⟨c, out, events⟩, hc, rfl⟩ := Option.map_eq_some_iff.mp h
  exact ⟨c, out, events, Cluster.Client.mainMove_of_mainStep hc, rfl⟩

theorem Stays.of_update {s : State n m} {i : Fin n} {c : Cluster.Client n m}
    (hrequested : requested c.main = requested (s.cluster.client i).main)
    (hinside : ∀ filename, c.inCriticalSection = some filename →
      (s.cluster.client i).inCriticalSection = some filename ∨ s.main i filename = .inside) :
    Stays s (Function.update s.cluster.client i c) where
  file := (Function.forall_update_iff s.cluster.client fun j c =>
    requested c.main = requested (s.cluster.client j).main).mpr ⟨hrequested, fun _ _ => rfl⟩
  leave := (Function.forall_update_iff s.cluster.client fun j c => ∀ filename,
    c.inCriticalSection = some filename →
      (s.cluster.client j).inCriticalSection = some filename ∨ s.main j filename = .inside).mpr
      ⟨hinside, fun _ _ _ hj => .inl hj⟩

/-- The main thread stays outside of request_resource and release_resource. -/
theorem Stays.of_mainStep {config : Cluster.Config n m} {s : State n m} {t : Cluster.State n m}
    {i : Fin n} (h : Cluster.step config s.cluster (.mainStep i) = some t)
    (hready : (s.cluster.client i).main ≠ .ready)
    (hentered : ∀ request, (s.cluster.client i).main = .requesting request →
      s.main i request.filename = .inside)
    (hlast : ∀ filename next, (s.cluster.client i).main = .finished filename next → next < m) :
    Stays s t.client := by
  obtain ⟨c, out, events, hc, ht⟩ := mainMove_of_step h
  rw [ht]
  cases hc with
  | enquire hm | enquired hm | sendRead hm | read hm | sendWrite _ hm | write _ hm | tell _ hm =>
    apply Stays.of_update
    · rw [hm]
      rfl
    · intro filename hinside
      simp_all [Cluster.Client.inCriticalSection, Cluster.Client.finish]
  | request hm => exact absurd hm hready
  | enterRead hm | enterWrite hm =>
    apply Stays.of_update
    · rw [hm]
      rfl
    · intro filename hinside
      obtain rfl := Option.some.inj hinside
      exact .inr (hentered _ hm)
  | release hnext hm => exact absurd (hlast _ _ hm) (Nat.not_lt.mpr hnext)

theorem move_eq_some {config : Config n m} {s t : State n m} {a : Cluster.Action n m} :
    s.move config a = some t ↔
      ∃ cluster, Cluster.step config.toConfig s.cluster a = some cluster ∧
        t = { s with cluster := cluster } := by
  rw [State.move, Option.map_eq_some_iff]
  simp only [eq_comm]

theorem quiet_of_move {config : Config n m} {s t : State n m} {a : Cluster.Action n m}
    (hsilent : silent a = true) (ha : ∀ i, a ≠ .mainStep i) (h : s.move config a = some t) :
    Effect config s t none := by
  obtain ⟨cluster, hcluster, rfl⟩ := move_eq_some.mp h
  exact .quiet (exclusion_of_silent hsilent hcluster) (.of_step ha hcluster)

theorem quiet_of_mainStep {config : Config n m} {s t : State n m} {i : Fin n}
    (h : s.move config (.mainStep i) = some t)
    (hready : (s.cluster.client i).main ≠ .ready)
    (hentered : ∀ request, (s.cluster.client i).main = .requesting request →
      s.main i request.filename = .inside)
    (hlast : ∀ filename next, (s.cluster.client i).main = .finished filename next → next < m) :
    Effect config s t none := by
  obtain ⟨cluster, hcluster, rfl⟩ := move_eq_some.mp h
  exact .quiet (exclusion_of_silent rfl hcluster) (.of_mainStep hcluster hready hentered hlast)

theorem effect_of_requestCriticalSection {config : Config n m} {s t : State n m} {i : Fin n}
    {request : Cluster.Request m} {input : List (Cluster.Request m)}
    (hlocked : s.locked i .main = none) (hready : (s.cluster.client i).main = .ready)
    (hinput : (s.cluster.client i).input = request :: input)
    (h : s.requestCriticalSection config i request.filename = some t) :
    Effect config s t (some (request.filename, .requestResource i)) := by
  obtain ⟨c, hc, h⟩ := Option.bind_eq_some_iff.mp h
  split_ifs at h with hfree
  obtain ⟨u, hu, rfl⟩ := Option.map_eq_some_iff.mp h
  obtain ⟨cluster, hcluster, rfl⟩ := move_eq_some.mp hu
  obtain ⟨c', out, events, hc', hclient⟩ := mainMove_of_step hcluster
  have hmain : c'.main = .requesting request := by
    cases hc' with
    | request hm hinput' =>
      obtain ⟨rfl, -⟩ := List.cons.inj (hinput.symm.trans hinput')
      rfl
    | _ => simp_all
  refine .request (exclusion_of_silent rfl hcluster) ?_ ?_ ?_ (fun j hj => ?_) hc hfree.1 hfree.2
    hlocked
  · rw [hready]
    rfl
  · rw [hclient, Function.update_self, hmain]
    rfl
  · rw [hclient, Function.update_self, Cluster.Client.inCriticalSection, hmain]
  · rw [hclient, Function.update_of_ne hj]

theorem effect_of_releaseResource {config : Config n m} {s t : State n m} {i : Fin n}
    {filename : Bytes} {next : ℕ} (hlocked : s.locked i .main = none)
    (hm : (s.cluster.client i).main = .finished filename next) (hnext : m ≤ next)
    (h : s.releaseResource config i filename = some t) :
    Effect config s t (some (filename, .releaseResource i)) := by
  obtain ⟨c, hc, h⟩ := Option.bind_eq_some_iff.mp h
  split_ifs at h with hfree
  obtain ⟨u, hu, rfl⟩ := Option.map_eq_some_iff.mp h
  obtain ⟨cluster, hcluster, rfl⟩ := move_eq_some.mp hu
  obtain ⟨c', out, events, hc', hclient⟩ := mainMove_of_step hcluster
  have hmain : c'.main = .ready := by
    cases hc' with
    | release => rfl
    | tell hnext' hm' =>
      obtain ⟨-, rfl⟩ := Cluster.Main.finished.inj (hm.symm.trans hm')
      exact absurd hnext' (Nat.not_lt.mpr hnext)
    | _ => simp_all
  refine .release (exclusion_of_silent rfl hcluster) ?_ ?_ (fun j hj => ?_) hc hfree hlocked
  · rw [Cluster.Client.inCriticalSection, hm]
  · rw [hclient, Function.update_self, hmain]
    rfl
  · rw [hclient, Function.update_of_ne hj]

theorem effect_of_enterCriticalSection {config : Config n m} {s t : State n m} {i : Fin n}
    {request : Cluster.Request m} (hlocked : s.locked i .main = none)
    (hm : (s.cluster.client i).main = .requesting request)
    (h : s.enterCriticalSection config i request.filename = some t) :
    Effect config s t (label s (.mainStep i)) := by
  obtain ⟨c, hc, h⟩ := Option.bind_eq_some_iff.mp h
  have hrequested : requested (s.cluster.client i).main = some request.filename := by
    rw [hm]
    rfl
  split at h
  · cases h
  · next hpolling =>
    obtain ⟨hfree, h⟩ := Option.ite_none_right_eq_some.mp h
    obtain rfl := Option.some.inj h
    simp only [label, hm, hpolling]
    refine .poll hrequested ?_ hc hfree hpolling hlocked
    rw [Cluster.Client.inCriticalSection, hm]
  · next hentering =>
    obtain ⟨hfree, h⟩ := Option.ite_none_right_eq_some.mp h
    obtain rfl := Option.some.inj h
    simp only [label, hm, hentering]
    exact .enter hrequested hc hfree hentering hlocked
  · next hinside =>
    simp only [label, hm, hinside]
    refine quiet_of_mainStep h (by simp [hm]) (fun request' hm' => ?_) (by simp [hm])
    obtain rfl := Cluster.Main.requesting.inj (hm.symm.trans hm')
    exact hinside

theorem effect_of_mainStep {config : Config n m} {s t : State n m} {i : Fin n}
    (h : s.mainStep config i = some t) : Effect config s t (label s (.mainStep i)) := by
  obtain ⟨hlocked, h⟩ := Option.ite_none_left_eq_some.mp h
  rw [ne_eq, not_not] at hlocked
  split at h
  · next hm =>
    obtain ⟨-, h⟩ := Option.ite_none_left_eq_some.mp h
    simp only [label, hm]
    exact quiet_of_mainStep h (by simp [hm]) (by simp [hm]) (by simp [hm])
  · next hm =>
    split at h
    · cases h
    · next request input hinput =>
      simp only [label, hm, hinput]
      exact effect_of_requestCriticalSection hlocked hm hinput h
  · next request hm => exact effect_of_enterCriticalSection hlocked hm h
  · next filename next hm =>
    simp only [label, hm]
    split_ifs at h ⊢ with hnext
    · refine quiet_of_mainStep h (by simp [hm]) (by simp [hm]) fun filename' next' hm' => ?_
      obtain ⟨-, rfl⟩ := Cluster.Main.finished.inj (hm.symm.trans hm')
      exact hnext
    · exact effect_of_releaseResource hlocked hm (Nat.le_of_not_lt hnext) h
  · next henquiring hready hrequesting hfinished =>
    have hnone : label s (.mainStep i) = none := by
      simp only [label]
    rw [hnone]
    exact quiet_of_mainStep h hready (fun request hm => absurd hm (hrequesting request))
      fun filename next hm => absurd hm (hfinished filename next)

/-- What each step does. -/
theorem effect_of_step {config : Config n m} {s t : State n m} {act : Action n m}
    (h : step config s act = some t) : Effect config s t (label s act) := by
  cases act with
  | mainStep i => exact effect_of_mainStep h
  | sendMessageToClient i worker =>
    obtain ⟨filename, hlocked, h⟩ := Option.bind_eq_some_iff.mp h
    split at h
    · cases h
    · next j message rest hunsent =>
      obtain ⟨u, hu, rfl⟩ := Option.map_eq_some_iff.mp h
      obtain ⟨cluster, hcluster, rfl⟩ := move_eq_some.mp hu
      exact .send hlocked hunsent (exclusion_send (isExclusion_packet filename i message) hcluster)
        (.of_step (by simp) hcluster)
  | treatServerPacket i k =>
    obtain ⟨u, hu, rfl⟩ := Option.map_eq_some_iff.mp h
    obtain ⟨cluster, hcluster, rfl⟩ := move_eq_some.mp hu
    have hsame := exclusion_of_silent rfl hcluster
    have hstays := Stays.of_step (s := s) (by simp) hcluster
    split_ifs
    · exact .init i k hsame hstays
    · exact .quiet hsame hstays
  | passServer i k => exact quiet_of_move rfl (by simp) h
  | treatRequest k i => exact quiet_of_move rfl (by simp) h
  | passRequests k i => exact quiet_of_move rfl (by simp) h
  | passClient i j =>
    obtain ⟨-, h⟩ := Option.ite_none_right_eq_some.mp h
    exact quiet_of_move rfl (by simp) h
  | handleClientPacket i j place =>
    obtain ⟨⟨-, hlocked⟩, h⟩ := Option.ite_none_right_eq_some.mp h
    obtain ⟨p, hp, h⟩ := Option.bind_eq_some_iff.mp h
    obtain ⟨u, hu, h⟩ := Option.bind_eq_some_iff.mp h
    obtain ⟨cluster, hcluster, rfl⟩ := move_eq_some.mp hu
    have hstays := Stays.of_step (s := s) (by simp) hcluster
    simp only [label, hp, Option.bind_some]
    rcases exclusion_handle hp hcluster with ⟨he, hsame⟩ | ⟨he, hmem, hrest⟩
    · have he' : Cluster.isCriticalSectionAlgMessage p.messageType .ra = false := he
      rw [he'] at h
      rw [he]
      cases h
      exact .quiet hsame hstays
    · have he' : Cluster.isCriticalSectionAlgMessage p.messageType .ra = true := he
      rw [he', if_pos rfl] at h
      rw [he, if_pos rfl]
      simp only [State.treat, Option.bind_eq_bind] at h
      obtain ⟨⟨filename, msg⟩, htext, h⟩ := Option.bind_eq_some_iff.mp h
      obtain ⟨c, hc, h⟩ := Option.bind_eq_some_iff.mp h
      split_ifs at h with hfree
      obtain ⟨⟨c', out⟩, htreat, h⟩ := Option.bind_eq_some_iff.mp h
      cases h
      rw [htext]
      exact .treat hmem hrest hstays htext hc hfree htreat hlocked

end DistributedME.Program
