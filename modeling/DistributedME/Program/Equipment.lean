import DistributedME.Cluster.Answers
import DistributedME.Program.Files

/-! What the threads of a client need is there: strategy objects for all files it can meet, and
for every unsent message a thread that sends it. -/
namespace DistributedME.Program
open Library
variable {n m : ℕ}

/-- Who has locked a strategy object still has messages of it to send, and is the only one. -/
structure Held (s : State n m) : Prop where
  unsent : ∀ i worker filename, s.locked i worker = some filename → s.unsent i filename ≠ []
  locked : ∀ i filename, s.unsent i filename ≠ [] → ∃ worker, s.locked i worker = some filename
  single : ∀ i worker worker' filename, s.locked i worker = some filename →
    s.locked i worker' = some filename → worker = worker'

theorem held_initial (config : Config n m) : Held (initial config) where
  unsent _ _ _ h := nomatch h
  locked _ _ h := absurd rfl h
  single _ _ _ _ h := nomatch h

/-- A thread that is in a locked part of one object, or enters one, goes on to what is left to
send. -/
theorem Held.update {s t : State n m} (h : Held s) {i : Fin n} {worker : Worker n}
    {filename : Bytes} (out : List (Fin n × RicartAgrawala.Message))
    (hother : ∀ w, w ≠ worker → s.locked i w ≠ some filename)
    (hworker : ∀ f, s.locked i worker = some f → f = filename)
    (hunsent : t.unsent =
      Function.update s.unsent i (Function.update (s.unsent i) filename out))
    (hlocked : t.locked = Function.update s.locked i (Function.update (s.locked i) worker
      (if out = [] then none else some filename))) : Held t := by
  have hself : t.locked i worker = if out = [] then none else some filename := by
    rw [hlocked, Function.update_self, Function.update_self]
  have hsame {j : Fin n} {w : Worker n} (hw : ¬ (j = i ∧ w = worker)) :
      t.locked j w = s.locked j w := by
    rw [hlocked, update_update_apply, if_neg hw]
  have hfile {j : Fin n} {w : Worker n} {f : Bytes} (hw : ¬ (j = i ∧ w = worker))
      (hl : s.locked j w = some f) : t.unsent j f = s.unsent j f := by
    rw [hunsent, update_update_apply, if_neg]
    rintro ⟨rfl, rfl⟩
    exact hother w (fun hne => hw ⟨rfl, hne⟩) hl
  constructor
  · intro j w f hl
    by_cases hw : j = i ∧ w = worker
    · obtain ⟨rfl, rfl⟩ := hw
      rw [hself] at hl
      obtain ⟨hout, hl⟩ := Option.ite_none_left_eq_some.mp hl
      obtain rfl := Option.some.inj hl
      rw [hunsent, update_update_apply, if_pos ⟨rfl, rfl⟩]
      exact hout
    · rw [hsame hw] at hl
      rw [hfile hw hl]
      exact h.unsent j w f hl
  · intro j f hf
    rw [hunsent, update_update_apply] at hf
    split_ifs at hf with hjf
    · obtain ⟨rfl, rfl⟩ := hjf
      exact ⟨worker, hself.trans (if_neg hf)⟩
    · obtain ⟨w, hw⟩ := h.locked j f hf
      refine ⟨w, (hsame ?_).trans hw⟩
      rintro ⟨rfl, rfl⟩
      exact hjf ⟨rfl, hworker f hw⟩
  · have hnew {j : Fin n} {w w' : Worker n} {f : Bytes} (hw : j = i ∧ w = worker)
        (hl : t.locked j w = some f) (hl' : t.locked j w' = some f) : w = w' := by
      obtain ⟨rfl, rfl⟩ := hw
      by_contra hne
      rw [hself] at hl
      obtain ⟨-, hl⟩ := Option.ite_none_left_eq_some.mp hl
      obtain rfl := Option.some.inj hl
      rw [hsame fun hw => hne hw.2.symm] at hl'
      exact hother w' (Ne.symm hne) hl'
    intro j w w' f hl hl'
    by_cases hw : j = i ∧ w = worker
    · exact hnew hw hl hl'
    · by_cases hw' : j = i ∧ w' = worker
      · exact (hnew hw' hl' hl).symm
      · rw [hsame hw] at hl
        rw [hsame hw'] at hl'
        exact h.single j w w' f hl hl'

/-- A thread enters a locked part that is free. -/
theorem Held.write {s : State n m} (h : Held s) {i : Fin n} {worker : Worker n}
    {filename : Bytes} (hfree : s.unsent i filename = []) (hworker : s.locked i worker = none)
    (cluster : Cluster.State n m) (c : RicartAgrawala.Strategy n)
    (main : RicartAgrawala.MainThread) (out : List (Fin n × RicartAgrawala.Message)) :
    Held ({ s with cluster := cluster }.write i worker filename c main out) := by
  apply h.update out
  · exact fun w _ hw => h.unsent i w filename hw hfree
  · intro f hf
    cases hworker.symm.trans hf
  · rfl
  · rfl

theorem held_of_effect {config : Config n m} {s t : State n m}
    {l : Option (Bytes × RicartAgrawala.Action n)} (hs : Held s) (h : Effect config s t l) :
    Held t := by
  cases h with
  | quiet => exact ⟨hs.unsent, hs.locked, hs.single⟩
  | init i k =>
    unfold State.initCriticalSectionAlg
    split_ifs
    · exact ⟨hs.unsent, hs.locked, hs.single⟩
    · exact ⟨hs.unsent, hs.locked, hs.single⟩
  | request _ _ _ _ _ _ hfree _ hlocked => exact hs.write hfree hlocked _ _ _ _
  | poll _ _ _ hfree _ hlocked => exact hs.write hfree hlocked _ _ _ _
  | enter _ _ hfree _ hlocked => exact hs.write hfree hlocked _ _ _ _
  | release _ _ _ _ _ hfree hlocked => exact hs.write hfree hlocked _ _ _ _
  | @send cluster i j filename message rest worker hlocked =>
    apply hs.update rest
    · exact fun w hne hw => hne (hs.single i w worker filename hw hlocked)
    · intro f hf
      exact Option.some.inj (hf.symm.trans hlocked)
    · rfl
    · rfl
  | treat _ _ _ _ _ hfree _ hlocked => exact hs.write hfree hlocked _ _ _ _

theorem held_of_reachable {config : Config n m} {s : State n m}
    (h : (machine config).Reachable s) : Held s := by
  refine h.invariant (I := Held) ?_ ?_
  · rintro s rfl
    exact held_initial config
  · exact fun s act t hs _ hstep => held_of_effect hs (effect_of_step hstep)

/-- The servers host the same files, and the requests are about them. -/
structure Config.Served (config : Config n m) : Prop where
  named : config.Named
  same : ∀ k l, config.hosted k = config.hosted l
  input : ∀ i, ∀ request ∈ config.input i, config.Listed request.filename

theorem Config.Served.listFiles {config : Config n m} (h : config.Served) {filename : Bytes}
    (hlisted : config.Listed filename) (k : Fin m) : filename ∈ config.listFiles k := by
  obtain ⟨l, hl⟩ := hlisted
  rw [listFiles_eq h.named] at hl ⊢
  rwa [h.same k l]

theorem Config.Served.hash {config : Config n m} (h : config.Served) :
    ∀ i, ∀ request ∈ config.input i, hash ∉ request.filename := by
  intro i request hrequest
  obtain ⟨k, hk⟩ := h.input i request hrequest
  rw [listFiles_eq h.named] at hk
  exact (h.named k _ hk).2.1

/-- The client has an answer to its enquiry. -/
def answered (c : Cluster.Client n m) : Prop :=
  c.serverDoneEnquiryRequest = true ∨ started c.main = true

/-- The packet that answers the enquiry of client i is the next one from server k. -/
def answers (s : Cluster.State n m) (i : Fin n) (k : Fin m) : Bool :=
  (s.inFlight (.server k) (.client i)).head?.any (·.messageType = .serverReplyEnquiryClient)

theorem answered_of_step {config : Cluster.Config n m} {s t : Cluster.State n m}
    {a : Cluster.Action n m} (h : Cluster.step config s a = some t) {i : Fin n}
    (ht : answered (t.client i)) : answered (s.client i) ∨
      ∃ k, a = .treatServerPacket i k ∧ answers s i k = true := by
  have hquiet (ha : a.quiet = true) : answered (s.client i) := by
    rw [answered, Cluster.enquiry_of_quiet ha h, ((Cluster.quiet_step ha h).client i).main] at ht
    exact ht
  cases a with
  | sendCriticalSectionMessage | passServer | handleClientPacket | passClient | passRequests =>
    exact .inl (hquiet rfl)
  | treatRequest k j =>
    simp only [Cluster.step] at h
    split at h
    · cases h
    · split_ifs at h
      obtain ⟨v, -, rfl⟩ := Option.map_eq_some_iff.mp h
      exact .inl ht
  | treatServerPacket j k =>
    simp only [Cluster.step] at h
    split at h
    · cases h
    · next packet rest hmail =>
      split_ifs at h
      cases h
      by_cases hi : i = j
      · subst hi
        rw [Cluster.client_setClient, Function.update_self, answered,
          Cluster.Client.main_treatServerPacket] at ht
        rcases ht with hd | hstarted
        · by_cases htype : packet.messageType = .serverReplyEnquiryClient
          · exact .inr ⟨k, rfl, by simp [answers, hmail, htype]⟩
          · left
            left
            unfold Cluster.Client.treatServerPacket at hd
            split at hd <;> first | exact hd | exact absurd ‹_› htype
        · exact .inl (.inr hstarted)
      · rw [Cluster.client_setClient, Function.update_of_ne hi] at ht
        exact .inl ht
  | mainStep j =>
    obtain ⟨⟨c, out, events⟩, hc, rfl⟩ := Option.map_eq_some_iff.mp h
    left
    rw [Cluster.client_record, Cluster.client_post, Cluster.client_setClient,
      Function.update_apply] at ht
    split_ifs at ht with hi
    · subst hi
      cases hm : (s.client i).main with
      | start =>
        simp only [Cluster.Client.mainStep, hm] at hc
        obtain ⟨rfl, -, -⟩ := Cluster.Client.sendMessageToServer_eq_some hc
        rcases ht with hd | hstarted
        · cases hd
        · cases hstarted
      | enquiring =>
        simp only [Cluster.Client.mainStep, hm] at hc
        exact .inl (Option.ite_none_right_eq_some.mp hc).1
      | _ =>
        right
        rw [hm]
        rfl
    · exact ht

/-- What a client can need of its strategy objects is there. -/
structure Equipped (config : Config n m) (s : State n m) : Prop where
  init : ∀ i, answered (s.cluster.client i) → s.criticalSectionAlgInit i = true
  strategy : ∀ i, s.criticalSectionAlgInit i = true → ∀ filename, config.Listed filename →
    ∃ c, s.criticalSectionAlgStrategy i filename = some c
  requested : ∀ i filename, requested (s.cluster.client i).main = some filename →
    config.Listed filename
  input : ∀ i, ∀ request ∈ (s.cluster.client i).input, config.Listed request.filename

theorem equipped_initial {config : Config n m} (hserved : config.Served) :
    Equipped config (initial config) where
  init i h := by
    rcases h with hd | hstarted
    · cases hd
    · cases hstarted
  strategy _ h := nomatch h
  requested _ _ h := nomatch h
  input := hserved.input

/-- The strategy objects that there are stay. -/
theorem strategy_of_effect {config : Config n m} (hserved : config.Served) {s t : State n m}
    {l : Option (Bytes × RicartAgrawala.Action n)} (h : Effect config s t l)
    (hs : ∀ i, s.criticalSectionAlgInit i = true → ∀ filename, config.Listed filename →
      ∃ c, s.criticalSectionAlgStrategy i filename = some c) (i : Fin n)
    (hinit : t.criticalSectionAlgInit i = true) (filename : Bytes)
    (hlisted : config.Listed filename) :
    ∃ c, t.criticalSectionAlgStrategy i filename = some c := by
  have hwrite (j : Fin n) (f : Bytes) (c : RicartAgrawala.Strategy n)
      (hinit : s.criticalSectionAlgInit i = true) :
      ∃ c', Function.update s.criticalSectionAlgStrategy j
        (Function.update (s.criticalSectionAlgStrategy j) f (some c)) i filename = some c' := by
    rw [update_update_apply]
    split_ifs
    · exact ⟨c, rfl⟩
    · exact hs i hinit filename hlisted
  cases h with
  | quiet => exact hs i hinit filename hlisted
  | @init cluster j k =>
    unfold State.initCriticalSectionAlg at hinit ⊢
    split_ifs at hinit ⊢ with hj
    · exact hs i hinit filename hlisted
    · simp only [Function.update_apply] at hinit ⊢
      split_ifs at hinit ⊢
      · exact ⟨_, if_pos (List.contains_iff_mem.mpr (hserved.listFiles hlisted k))⟩
      · exact hs i hinit filename hlisted
  | request | poll | enter | release | treat => exact hwrite _ _ _ hinit
  | send => exact hs i hinit filename hlisted

/-- The object of the strategies is never given up, and an answer to the enquiry makes it. -/
theorem init_of_step {config : Config n m} {s t : State n m} {act : Action n m}
    (h : step config s act = some t) (i : Fin n) :
    (s.criticalSectionAlgInit i = true → t.criticalSectionAlgInit i = true) ∧
      ∀ k, clusterLabel s act = some (.treatServerPacket i k) → answers s.cluster i k = true →
        t.criticalSectionAlgInit i = true := by
  have hinit (u : State n m) (j : Fin n) (listFiles : List Bytes) :
      (u.initCriticalSectionAlg j listFiles).criticalSectionAlgInit =
        Function.update u.criticalSectionAlgInit j true := by
    unfold State.initCriticalSectionAlg
    split_ifs with hj
    · rw [← hj, Function.update_eq_self]
    · rfl
  have hkeep {l : Option (Bytes × RicartAgrawala.Action n)} (h : Effect config s t l)
      (hs : s.criticalSectionAlgInit i = true) : t.criticalSectionAlgInit i = true := by
    cases h with
    | init j k =>
      rw [hinit, Function.update_apply]
      split_ifs
      · rfl
      · exact hs
    | _ => exact hs
  refine ⟨hkeep (effect_of_step h), fun k hlabel hanswers => ?_⟩
  cases act with
  | treatServerPacket j l =>
    obtain ⟨rfl, rfl⟩ := Cluster.Action.treatServerPacket.inj (Option.some.inj hlabel)
    obtain ⟨u, -, rfl⟩ := Option.map_eq_some_iff.mp h
    unfold answers at hanswers
    rw [if_pos hanswers, hinit, Function.update_self]
  | mainStep j =>
    simp only [clusterLabel] at hlabel
    split at hlabel
    · split_ifs at hlabel
      cases hlabel
    · cases hlabel
  | sendMessageToClient j worker =>
    obtain ⟨f, -, hlabel⟩ := Option.bind_eq_some_iff.mp hlabel
    obtain ⟨x, -, hlabel⟩ := Option.map_eq_some_iff.mp hlabel
    cases hlabel
  | passServer | handleClientPacket | passClient | treatRequest | passRequests => cases hlabel

/-- Only a main thread's own steps take lines from its input. -/
theorem input_of_step {config : Cluster.Config n m} {s t : Cluster.State n m}
    {a : Cluster.Action n m} (ha : ∀ i, a ≠ .mainStep i) (h : Cluster.step config s a = some t)
    (j : Fin n) : (t.client j).input = (s.client j).input := by
  cases a with
  | mainStep i => exact absurd rfl (ha i)
  | sendCriticalSectionMessage | passServer | handleClientPacket | passClient | passRequests =>
    exact ((Cluster.quiet_step rfl h).client j).input
  | treatServerPacket i k =>
    simp only [Cluster.step] at h
    split at h
    · cases h
    · split_ifs at h
      cases h
      rw [Cluster.client_setClient, Function.update_apply]
      split_ifs with hj
      · rw [Cluster.Client.input_treatServerPacket, hj]
      · rfl
  | treatRequest k i =>
    simp only [Cluster.step] at h
    split at h
    · cases h
    · split_ifs at h
      obtain ⟨v, -, rfl⟩ := Option.map_eq_some_iff.mp h
      rfl

/-- What a client has requested it had in its input. -/
theorem requested_of_step {config : Cluster.Config n m} {s t : Cluster.State n m}
    {a : Cluster.Action n m} (h : Cluster.step config s a = some t) (i : Fin n) :
    (∀ filename, requested (t.client i).main = some filename →
      requested (s.client i).main = some filename ∨
        ∃ request ∈ (s.client i).input, request.filename = filename) ∧
    (t.client i).input ⊆ (s.client i).input := by
  by_cases ha : ∃ j, a = .mainStep j
  · obtain ⟨j, rfl⟩ := ha
    obtain ⟨c, out, events, hc, hclient⟩ := mainMove_of_step h
    rw [hclient, Function.update_apply]
    split_ifs with hi
    · subst hi
      cases hc with
      | request hm hinput =>
        rw [hinput]
        refine ⟨fun filename hf => .inr ?_, List.subset_cons_self _ _⟩
        exact ⟨_, List.mem_cons_self, Option.some.inj hf⟩
      | enquire hm | enquired hm | enterRead hm | enterWrite hm | sendRead hm | read hm
      | sendWrite _ hm | write _ hm | tell _ hm | release _ hm =>
        refine ⟨fun filename hf => ?_, List.Subset.refl _⟩
        rw [hm]
        first | exact .inl hf | cases hf
    · exact ⟨fun filename hf => .inl hf, List.Subset.refl _⟩
  · have hne (j : Fin n) : a ≠ .mainStep j := fun hj => ha ⟨j, hj⟩
    rw [main_of_step hne h, input_of_step hne h]
    exact ⟨fun filename hf => .inl hf, List.Subset.refl _⟩

theorem equipped_step {config : Config n m} (hserved : config.Served) {s t : State n m}
    {act : Action n m} (hs : Equipped config s) (h : step config s act = some t) :
    Equipped config t := by
  have hcluster := cluster_of_step h
  cases hlabel : clusterLabel s act with
  | none =>
    rw [hlabel] at hcluster
    have hsame : s.cluster = t.cluster := Option.some.inj hcluster
    refine ⟨fun i hi => ?_, strategy_of_effect hserved (effect_of_step h) hs.strategy, ?_, ?_⟩
    · exact (init_of_step h i).1 (hs.init i (hsame ▸ hi))
    · exact hsame ▸ hs.requested
    · exact hsame ▸ hs.input
  | some a =>
    rw [hlabel] at hcluster
    have hstep : Cluster.step config.toConfig s.cluster a = some t.cluster := hcluster
    refine ⟨fun i hi => ?_, strategy_of_effect hserved (effect_of_step h) hs.strategy,
      fun i filename hf => ?_, fun i request hrequest => ?_⟩
    · rcases answered_of_step hstep hi with hi | ⟨k, rfl, hanswers⟩
      · exact (init_of_step h i).1 (hs.init i hi)
      · exact (init_of_step h i).2 k hlabel hanswers
    · rcases (requested_of_step hstep i).1 filename hf with hf | ⟨request, hrequest, rfl⟩
      · exact hs.requested i filename hf
      · exact hs.input i request hrequest
    · exact hs.input i request ((requested_of_step hstep i).2 hrequest)

theorem equipped_of_reachable {config : Config n m} (hserved : config.Served) {s : State n m}
    (h : (machine config).Reachable s) : Equipped config s := by
  refine h.invariant (I := Equipped config) ?_ ?_
  · rintro s rfl
    exact equipped_initial hserved
  · exact fun s act t hs _ hstep => equipped_step hserved hs hstep

/-- What the threads of client i look up and read is there. -/
structure Found (s : State n m) (i : Fin n) : Prop where
  requested : ∀ filename, requested (s.cluster.client i).main = some filename →
    ∃ c, s.criticalSectionAlgStrategy i filename = some c
  input : started (s.cluster.client i).main = true → ∀ request ∈ (s.cluster.client i).input,
    ∃ c, s.criticalSectionAlgStrategy i request.filename = some c
  packet : started (s.cluster.client i).main = true → ∀ j, ∀ p ∈ exclusion s.cluster j i,
    ∃ filename msg c, Node.Client.handleClientPacket p.msg = some (filename, msg) ∧
      s.criticalSectionAlgStrategy i filename = some c ∧
      (treatMessage c i p.messageType msg).isSome = true

theorem found_of_reachable {config : Config n m} (hserved : config.Served) {s : State n m}
    (h : (machine config).Reachable s) (i : Fin n) : Found s i := by
  have hequipped := equipped_of_reachable hserved h
  have hfound (hstarted : started (s.cluster.client i).main = true) (filename : Bytes)
      (hlisted : config.Listed filename) : ∃ c, s.criticalSectionAlgStrategy i filename = some c :=
    hequipped.strategy i (hequipped.init i (.inr hstarted)) filename hlisted
  refine ⟨fun filename hf => ?_, fun hstarted request hrequest => ?_, fun hstarted j p hp => ?_⟩
  · apply hfound _ filename (hequipped.requested i filename hf)
    cases hm : (s.cluster.client i).main with
    | start | enquiring =>
      rw [hm] at hf
      cases hf
    | _ => rfl
  · exact hfound hstarted _ (hequipped.input i request hrequest)
  · obtain ⟨hcarried, -⟩ := (fileRefinement hserved.named []).invariant_of_guarded h
    obtain ⟨-, filename, message, hlisted, hnumber, rfl⟩ := hcarried.inFlight j i p hp
    obtain ⟨c, hc⟩ := hfound hstarted filename hlisted
    refine ⟨filename, _, c, handleClientPacket_getMsg (hlisted.semicolon hserved.named) _ _, hc, ?_⟩
    rw [packet, treatMessage_numbers config.ids c i j hnumber]
    rfl

theorem twoFiles_served : twoFiles.Served where
  named := twoFiles_named
  same _ _ := rfl
  input := by
    have hlisted : ∀ filename ∈ [[102], [103]], twoFiles.Listed filename := by
      intro filename hfilename
      refine ⟨0, ?_⟩
      rw [listFiles_eq twoFiles_named]
      exact hfilename
    intro i request hrequest
    apply hlisted
    revert i request
    decide

end DistributedME.Program
