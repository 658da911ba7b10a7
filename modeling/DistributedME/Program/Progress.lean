import DistributedME.Program.Equipment
import DistributedME.RicartAgrawala.Progress

/-! The program does not get stuck before all clients have finished all their bodies. -/
namespace DistributedME.Program
open Library
variable {n m : ℕ}

/-- The threads that handle packets go on with what else there is to do. -/
def Action.isPass : Action n m → Bool
  | .passServer _ _ | .passClient _ _ | .passRequests _ _ => true
  | .mainStep _ | .sendMessageToClient _ _ | .treatServerPacket _ _ | .handleClientPacket _ _ _
  | .treatRequest _ _ => false

/-- A poll whose answer is no. -/
def FailsPoll (s : State n m) (act : Action n m) : Prop :=
  ∃ i filename c, label s act = some (filename, .canEnterCriticalSection i) ∧
    s.criticalSectionAlgStrategy i filename = some c ∧ c.canEnterCriticalSection i = false

/-- Clocks and numbers are not at their end. -/
structure Room (s : State n m) : Prop where
  timestamp : ∀ i, (s.cluster.client i).timestamp + 1 < 2 ^ 31
  number : ∀ i filename c, s.criticalSectionAlgStrategy i filename = some c →
    c.hgstSequenceNumber + 1 < 2 ^ 31

/-- Some step brings the program on. -/
def Moves (config : Config n m) (s : State n m) : Prop :=
  ∃ act t, act.isPass = false ∧ ¬ FailsPoll s act ∧
    (∀ filename, ¬ YieldsInGap filename s act) ∧ step config s act = some t

section enabled
variable {config : Config n m} {s : State n m}

/-- Only handlers of packets yield. -/
theorem not_yieldsInGap {act : Action n m} (hact : ∀ i j place, act ≠ .handleClientPacket i j place)
    (filename : Bytes) : ¬ YieldsInGap filename s act := by
  rintro ⟨b, hb, hgap⟩
  obtain ⟨⟨f, b'⟩, hlabel, hb⟩ := Option.bind_eq_some_iff.mp hb
  obtain ⟨-, hb⟩ := Option.ite_none_right_eq_some.mp hb
  obtain rfl := Option.some.inj hb
  cases b' with
  | treatMessage i j =>
    unfold label at hlabel
    split at hlabel
    · split at hlabel
      · simp at hlabel
      · split at hlabel <;> simp at hlabel
      · split_ifs at hlabel
        simp at hlabel
      · cases hlabel
    · exact hact _ _ _ rfl
    · cases hlabel
  | _ => exact hgap

theorem Moves.of_enabled (act : Action n m) (hpass : act.isPass = false)
    (hact : ∀ i j place, act ≠ .handleClientPacket i j place)
    (hlabel : ∀ i filename, label s act ≠ some (filename, .canEnterCriticalSection i))
    (h : (step config s act).isSome = true) : Moves config s := by
  obtain ⟨t, ht⟩ := Option.isSome_iff_exists.mp h
  refine ⟨act, t, hpass, ?_, not_yieldsInGap hact, ht⟩
  rintro ⟨i, filename, c, hpoll, -⟩
  exact hlabel i filename hpoll

theorem move_isSome (config : Config n m) (s : State n m) (a : Cluster.Action n m) :
    (s.move config a).isSome = (Cluster.step config.toConfig s.cluster a).isSome := by
  rw [State.move, Option.isSome_map]

/-- Who has locked an object can send. -/
theorem moves_of_locked (hheld : Held s) (hroom : Room s) {i : Fin n} {worker : Worker n}
    {filename : Bytes} (hlocked : s.locked i worker = some filename) : Moves config s := by
  obtain ⟨⟨j, message⟩, rest, hunsent⟩ :=
    List.exists_cons_of_ne_nil (hheld.unsent i worker filename hlocked)
  have hp : Cluster.isCriticalSectionAlgMessage (packet filename i message).messageType
      config.criticalSectionAlgType = true := by
    rw [config.ra]
    exact isExclusion_packet filename i message
  apply Moves.of_enabled (.sendMessageToClient i worker) rfl
  · simp
  · exact nofun
  · simp only [step, State.sendMessageToClient, hlocked, Option.bind_some, hunsent,
      Option.isSome_map, move_isSome, Cluster.step, if_pos hp, Cluster.Client.increaseTimestamp,
      if_pos (hroom.timestamp i)]
    rfl

/-- A packet for a server whose thread runs. -/
theorem moves_of_request (hserved : config.Served)
    (hfiles : ∀ filename, Cluster.Legible (config.files filename))
    (h : (machine config).Reachable s) {k : Fin m} {i : Fin n}
    (hbusy : ((s.cluster.server k).thread i).busy = true)
    (hmail : s.cluster.inFlight (.client i) (.server k) ≠ []) : Moves config s := by
  have hcluster : (Cluster.machine config.toConfig).Reachable s.cluster :=
    (clusterRefinement config).guarded (fun _ _ _ _ _ _ _ _ => trivial) h
  have henabled := Cluster.treatRequest_enabled hfiles hserved.hash hcluster hmail hbusy
  apply Moves.of_enabled (.treatRequest k i) rfl
  · simp
  · exact nofun
  · rw [step, move_isSome]
    exact Option.isSome_iff_exists.mpr henabled

/-- A packet of a server for a client whose thread runs. -/
theorem moves_of_answer {i : Fin n} {k : Fin m}
    (hbusy : ((s.cluster.client i).serverThread k).busy = true)
    (hmail : s.cluster.inFlight (.server k) (.client i) ≠ []) : Moves config s := by
  have henabled := Cluster.treatServerPacket_enabled config.toConfig hmail hbusy
  apply Moves.of_enabled (.treatServerPacket i k) rfl
  · simp
  · exact nofun
  · rw [step, Option.isSome_map, move_isSome]
    exact Option.isSome_iff_exists.mpr henabled

/-- A main thread that is told that it may enter goes on. -/
theorem moves_of_entering (hserved : config.Served) (h : (machine config).Reachable s)
    (hlocked : ∀ i worker, s.locked i worker = none)
    (hunsent : ∀ i filename, s.unsent i filename = []) {i : Fin n} {filename : Bytes}
    (hentering : s.main i filename = .entering) : Moves config s := by
  obtain ⟨-, hplaced⟩ := (fileRefinement hserved.named []).invariant_of_guarded h
  have hrequested := (hplaced.file i filename).mp (by simp [hentering])
  obtain ⟨c, hc⟩ := (found_of_reachable hserved h i).requested filename hrequested
  have houtside (hinside : (s.cluster.client i).inCriticalSection = some filename) : False := by
    cases hentering.symm.trans (hplaced.inside i filename hinside)
  cases hm : (s.cluster.client i).main with
  | requesting request =>
    rw [hm] at hrequested
    obtain rfl : request.filename = filename := Option.some.inj hrequested
    apply Moves.of_enabled (.mainStep i) rfl (by simp)
    · simp [label, hm, hentering]
    · simp [step, State.mainStep, hlocked, hm, State.enterCriticalSection, hc, hentering, hunsent]
  | start | enquiring | ready =>
    rw [hm] at hrequested
    cases hrequested
  | requestRead | reading | requestWrite | finished =>
    rw [hm] at hrequested
    rw [Cluster.Client.inCriticalSection, hm] at houtside
    exact (houtside hrequested).elim

/-- A packet of a client for another one whose thread runs. -/
theorem moves_of_packet (hserved : config.Served) (h : (machine config).Reachable s)
    (hlocked : ∀ i worker, s.locked i worker = none)
    (hunsent : ∀ i filename, s.unsent i filename = []) {i j : Fin n}
    (hbusy : ((s.cluster.client i).clientThread j).busy = true)
    (hstarted : started (s.cluster.client i).main = true)
    (hmail : s.cluster.inFlight (.client j) (.client i) ≠ []) : Moves config s := by
  obtain ⟨p, rest, hmail⟩ := List.exists_cons_of_ne_nil hmail
  have hmove : (s.move config (.handleClientPacket i j 0)).isSome = true := by
    rw [move_isSome]
    simp [Cluster.step, hmail, hbusy]
  obtain ⟨t, ht⟩ := Option.isSome_iff_exists.mp hmove
  have htreat : (if Cluster.isCriticalSectionAlgMessage p.messageType .ra then t.treat i j p
      else some t).isSome = true := by
    split_ifs with hp
    · have hmem : p ∈ exclusion s.cluster j i :=
        List.mem_filter.mpr ⟨hmail ▸ List.mem_cons_self, hp⟩
      obtain ⟨filename, msg, c, htext, hc, hsome⟩ :=
        (found_of_reachable hserved h i).packet hstarted j p hmem
      obtain ⟨⟨c', out⟩, hsome⟩ := Option.isSome_iff_exists.mp hsome
      obtain ⟨cluster, -, rfl⟩ := move_eq_some.mp ht
      simp [State.treat, htext, hc, hunsent, hsome]
    · rfl
  by_cases hgap : ∃ filename, YieldsInGap filename s (.handleClientPacket i j 0)
  · obtain ⟨filename, b, hb, hgap⟩ := hgap
    have hentering : s.main b.actor filename = .entering := by
      cases b with
      | treatMessage k l =>
        obtain ⟨-, -, -, hentering, -⟩ := hgap
        exact hentering
      | _ => exact hgap.elim
    exact moves_of_entering hserved h hlocked hunsent hentering
  · have hsome : (step config s (.handleClientPacket i j 0)).isSome = true := by
      simp only [step, hstarted, hlocked, and_self, if_true, State.handleClientPacket, hmail,
        List.getElem?_cons_zero, Option.bind_some, ht]
      exact htreat
    obtain ⟨u, hu⟩ := Option.isSome_iff_exists.mp hsome
    refine ⟨.handleClientPacket i j 0, u, rfl, ?_, fun filename hf => hgap ⟨filename, hf⟩, hu⟩
    rintro ⟨k, filename, -, hlabel, -⟩
    obtain ⟨q, -, hlabel⟩ := Option.bind_eq_some_iff.mp hlabel
    split_ifs at hlabel
    obtain ⟨x, -, hlabel⟩ := Option.map_eq_some_iff.mp hlabel
    cases hlabel

/-- The client polls in vain. -/
def Waiting (s : State n m) (i : Fin n) : Prop :=
  ∃ request c, (s.cluster.client i).main = .requesting request ∧
    s.main i request.filename = .polling ∧
    s.criticalSectionAlgStrategy i request.filename = some c ∧ c.canEnterCriticalSection i = false

/-- A main thread at the end of a body. -/
theorem moves_of_finished (hserved : config.Served) (h : (machine config).Reachable s)
    (hroom : Room s) (hlocked : ∀ i worker, s.locked i worker = none)
    (hunsent : ∀ i filename, s.unsent i filename = []) {i : Fin n} {filename : Bytes} {next : ℕ}
    (hm : (s.cluster.client i).main = .finished filename next) : Moves config s := by
  have hmain : (s.move config (.mainStep i)).isSome = true := by
    rw [move_isSome, Cluster.step, Option.isSome_map]
    simp only [Cluster.Client.mainStep, hm]
    split_ifs
    · exact Cluster.sendMessageToServer_isSome (hroom.timestamp i) _ _ _ _
    · rfl
  obtain ⟨c, hc⟩ := (found_of_reachable hserved h i).requested filename (by rw [hm]; rfl)
  apply Moves.of_enabled (.mainStep i) rfl (by simp)
  · simp only [label, hm]
    split_ifs <;> simp
  · simp only [step, State.mainStep, hlocked, ne_eq, not_true_eq_false, if_false, hm]
    split_ifs
    · exact hmain
    · simp only [State.releaseResource, hc, Option.bind_some, hunsent, if_true,
        Option.isSome_map]
      exact hmain

/-- A main thread that nobody else holds up moves or polls in vain. -/
theorem moves_of_main (hserved : config.Served) (h : (machine config).Reachable s)
    (hroom : Room s) (hlisted : ∀ k, config.listFiles k ≠ [])
    (hlocked : ∀ i worker, s.locked i worker = none)
    (hunsent : ∀ i filename, s.unsent i filename = []) {i : Fin n}
    (hmail : ¬ s.cluster.Mail i)
    (hready : ¬ ((s.cluster.client i).main = .ready ∧ (s.cluster.client i).input = [])) :
    Moves config s ∨ Waiting s i := by
  have hcluster : (Cluster.machine config.toConfig).Reachable s.cluster :=
    (clusterRefinement config).guarded (fun _ _ _ _ _ _ _ _ => trivial) h
  obtain ⟨-, hplaced⟩ := (fileRefinement hserved.named []).invariant_of_guarded h
  have hmain : (s.move config (.mainStep i)).isSome = true := by
    rw [move_isSome, Cluster.step, Option.isSome_map]
    rcases Cluster.mainStep_or_mail hcluster (hroom.timestamp i) with hsome | hend | hmail'
    · exact hsome
    · exact absurd hend hready
    · exact absurd hmail' hmail
  obtain ⟨hrequested, hinput, -⟩ := found_of_reachable hserved h i
  cases hm : (s.cluster.client i).main with
  | start | requestRead | reading | requestWrite =>
    left
    apply Moves.of_enabled (.mainStep i) rfl (by simp)
    · simp [label, hm]
    · simp only [step, State.mainStep, hlocked, ne_eq, not_true_eq_false, if_false, hm]
      exact hmain
  | enquiring =>
    left
    apply Moves.of_enabled (.mainStep i) rfl (by simp)
    · simp [label, hm]
    · simp only [step, State.mainStep, hlocked, ne_eq, not_true_eq_false, if_false, hm,
        hlisted (config.enquiry i)]
      exact hmain
  | ready =>
    left
    cases hlines : (s.cluster.client i).input with
    | nil => exact absurd ⟨hm, hlines⟩ hready
    | cons request input =>
      obtain ⟨c, hc⟩ := hinput (by rw [hm]; rfl) request (hlines ▸ List.mem_cons_self)
      have hfree := And.intro (hunsent i request.filename) (hroom.number i request.filename c hc)
      apply Moves.of_enabled (.mainStep i) rfl (by simp)
      · simp [label, hm, hlines]
      · simp only [step, State.mainStep, hlocked, ne_eq, not_true_eq_false, if_false, hm, hlines,
          State.requestCriticalSection, hc, Option.bind_some, if_pos hfree, Option.isSome_map]
        exact hmain
  | requesting request =>
    obtain ⟨c, hc⟩ := hrequested request.filename (by rw [hm]; rfl)
    have henter : step config s (.mainStep i) =
        s.enterCriticalSection config i request.filename := by
      simp only [step, State.mainStep, hlocked, ne_eq, not_true_eq_false, if_false, hm]
    cases hplace : s.main i request.filename with
    | idle =>
      refine absurd hplace ((hplaced.file i request.filename).mpr ?_)
      rw [hm]
      rfl
    | polling =>
      cases hcan : c.canEnterCriticalSection i with
      | false => exact .inr ⟨request, c, hm, hplace, hc, hcan⟩
      | true =>
        left
        have hsome : (step config s (.mainStep i)).isSome = true := by
          simp [henter, State.enterCriticalSection, hc, hplace, hunsent]
        obtain ⟨t, ht⟩ := Option.isSome_iff_exists.mp hsome
        refine ⟨.mainStep i, t, rfl, ?_, not_yieldsInGap (by simp), ht⟩
        rintro ⟨k, filename, c', hlabel, hc', hfails⟩
        simp only [label, hm, hplace, Option.some.injEq, Prod.mk.injEq,
          RicartAgrawala.Action.canEnterCriticalSection.injEq] at hlabel
        obtain ⟨rfl, rfl⟩ := hlabel
        obtain rfl := Option.some.inj (hc.symm.trans hc')
        cases hcan.symm.trans hfails
    | entering =>
      left
      apply Moves.of_enabled (.mainStep i) rfl (by simp)
      · simp [label, hm, hplace]
      · simp [henter, State.enterCriticalSection, hc, hplace, hunsent]
    | inside =>
      left
      apply Moves.of_enabled (.mainStep i) rfl (by simp)
      · simp [label, hm, hplace]
      · simp only [henter, State.enterCriticalSection, hc, Option.bind_some, hplace]
        exact hmain
  | finished filename next => exact .inl (moves_of_finished hserved h hroom hlocked hunsent hm)

end enabled

/-- Where all unsent messages are sent and all packets are treated, clients cannot all poll in
vain. -/
theorem not_all_waiting {config : Config n m} (hserved : config.Served) {s : State n m}
    (h : (machine config).Reachable s) (hunsent : ∀ i filename, s.unsent i filename = [])
    (hempty : ∀ i j, s.cluster.inFlight (.client i) (.client j) = [])
    (hall : ∀ i, (s.cluster.client i).main = .ready ∨ Waiting s i) (i : Fin n) :
    ¬ Waiting s i := by
  rintro ⟨request, c, hm, hpolling, -, -⟩
  obtain ⟨-, hplaced⟩ := (fileRefinement hserved.named []).invariant_of_guarded h
  have hproject : (RicartAgrawala.machine n).Reachable (s.project request.filename) :=
    (fileRefinement hserved.named request.filename).guarded (fun _ _ _ _ _ _ _ _ => trivial) h
  have hmodes := RicartAgrawala.modes_guarded hproject
  -- a client in the middle of the same file's critical section waits for it
  have hsame (k : Fin n) (hk : s.main k request.filename ≠ .idle) :
      s.main k request.filename = .polling ∧ ∀ c,
        s.criticalSectionAlgStrategy k request.filename = some c →
        c.canEnterCriticalSection k = false := by
    have hrequested := (hplaced.file k request.filename).mp hk
    rcases hall k with hready | ⟨request', c', hm', hpolling', hc', hcan'⟩
    · rw [hready] at hrequested
      cases hrequested
    · rw [hm'] at hrequested
      have hfile : request'.filename = request.filename := Option.some.inj hrequested
      rw [hfile] at hpolling' hc'
      refine ⟨hpolling', fun c hc => ?_⟩
      obtain rfl := Option.some.inj (hc'.symm.trans hc)
      exact hcan'
  have hnone (j k : Fin n) : (s.project request.filename).inFlight j k = [] := by
    simp [State.project, exclusion, hempty, hunsent]
  have hfree (k : Fin n) : ((s.project request.filename).strategy k).isUsing = false := by
    rw [← Bool.not_eq_true, (hmodes k).2]
    intro hinside
    have hinside' : s.main k request.filename = .inside := hinside
    cases hinside'.symm.trans (hsame k (by simp [hinside'])).1
  obtain ⟨k, hk, hcan⟩ := RicartAgrawala.exists_can_enter
    (RicartAgrawala.alive_reachable hproject) ⟨i, (hmodes i).1.mpr (.inl hpolling)⟩ hnone hfree
  have hplace : s.main k request.filename = .polling ∨ s.main k request.filename = .entering :=
    (hmodes k).1.mp hk
  have hidle : s.main k request.filename ≠ .idle := by
    rcases hplace with hplace | hplace <;> simp [hplace]
  obtain ⟨c', hc'⟩ := (found_of_reachable hserved h k).requested request.filename
    ((hplaced.file k request.filename).mp hidle)
  rw [strategy_project hc', (hsame k hidle).2 c' hc'] at hcan
  cases hcan

/-- Who is not at its end has a request, and so there are files. -/
theorem listed_of_unfinished {config : Config n m} (hserved : config.Served) {s : State n m}
    (hlines : ∀ i, (config.input i).length = config.nRequests)
    (hended : Cluster.Ended config.toConfig s.cluster) {i : Fin n}
    (hi : s.cluster.bodies i ≠ config.nRequests) (k : Fin m) : config.listFiles k ≠ [] := by
  have hcount := (hended.counted i).lines
  have hbodies := (hended.counted i).bodies
  have hpos : 0 < (config.input i).length := by
    rw [hlines]
    omega
  obtain ⟨request, hrequest⟩ := List.exists_mem_of_length_pos hpos
  exact List.ne_nil_of_mem (hserved.listFiles (hserved.input i request hrequest) k)

/-- If nothing moved the program, all clients would poll in vain. -/
theorem moves_of_unfinished {config : Config n m} (hserved : config.Served)
    (hfiles : ∀ filename, Cluster.Legible (config.files filename))
    (hlines : ∀ i, (config.input i).length = config.nRequests) {s : State n m}
    (h : (machine config).Reachable s) (hroom : Room s) {i : Fin n}
    (hi : s.cluster.bodies i ≠ config.nRequests) : Moves config s := by
  have hcluster : (Cluster.machine config.toConfig).Reachable s.cluster :=
    (clusterRefinement config).guarded (fun _ _ _ _ _ _ _ _ => trivial) h
  have hended := Cluster.ended_kept hlines hcluster
  have hbusy := Cluster.busy_of_unfinished hended hi
  have hheld := held_of_reachable h
  by_contra hstuck
  have hlocked (k : Fin n) (worker : Worker n) : s.locked k worker = none := by
    cases hl : s.locked k worker with
    | none => rfl
    | some filename => exact absurd (moves_of_locked hheld hroom hl) hstuck
  have hunsent (k : Fin n) (filename : Bytes) : s.unsent k filename = [] := by
    by_contra hne
    obtain ⟨worker, hl⟩ := hheld.locked k filename hne
    cases (hlocked k worker).symm.trans hl
  have hmail (k : Fin n) : ¬ s.cluster.Mail k := by
    rintro ⟨l, hmail | hmail⟩
    · exact hstuck (moves_of_request hserved hfiles h (hbusy.requests l k) hmail)
    · exact hstuck (moves_of_answer (hbusy.server k l) hmail)
  have hlisted := listed_of_unfinished hserved hlines hended hi
  have hall (k : Fin n) : (s.cluster.client k).main = .ready ∨ Waiting s k := by
    by_cases hready : (s.cluster.client k).main = .ready ∧ (s.cluster.client k).input = []
    · exact .inl hready.1
    · right
      exact (moves_of_main hserved h hroom hlisted hlocked hunsent (hmail k) hready).resolve_left
        hstuck
  have hstarted (k : Fin n) : started (s.cluster.client k).main = true := by
    rcases hall k with hm | ⟨request, c, hm, -⟩
    · rw [hm]
      rfl
    · rw [hm]
      rfl
  have hempty (j k : Fin n) : s.cluster.inFlight (.client j) (.client k) = [] := by
    by_contra hne
    exact hstuck (moves_of_packet hserved h hlocked hunsent (hbusy.client k j) (hstarted k) hne)
  have hi' : Waiting s i := by
    refine (moves_of_main hserved h hroom hlisted hlocked hunsent (hmail i) ?_).resolve_left hstuck
    rintro ⟨hready, hinput⟩
    exact hi ((hended.counted i).of_ready hready hinput)
  exact not_all_waiting hserved h hunsent hempty hall i hi'

theorem legible_line {line : Bytes} (hline : ProperLine line) (hne : line ≠ []) :
    Cluster.Legible (some (Lines.text newline [line])) := by
  rintro _ ⟨⟩
  refine ⟨[line], rfl, fun line' hline' => ?_, line, List.mem_singleton_self _, hne⟩
  rw [List.mem_singleton.mp hline']
  exact hline

theorem twoFiles_legible (filename : Bytes) : Cluster.Legible (twoFiles.files filename) := by
  have hline : Cluster.Legible (some (Lines.text newline [[97]])) :=
    legible_line ⟨by decide, by decide, by decide⟩ (by decide)
  simp only [twoFiles]
  split_ifs
  · exact hline
  · exact nofun

end DistributedME.Program
