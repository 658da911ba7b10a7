import DistributedME.Library.Refinement
import DistributedME.Program.Effects

/-! What the program does about one file is a run of the Ricart-Agrawala machine, however the
messages about different files share the connections. -/
namespace DistributedME.Program
open Library
variable {n m : ℕ}

/-- A file that a server has listed. -/
def Config.Listed (config : Config n m) (filename : Bytes) : Prop :=
  ∃ k, filename ∈ config.listFiles k

/-- Names that can be told apart in the texts of packets. -/
def Config.Named (config : Config n m) : Prop :=
  ∀ k, ∀ name ∈ config.hosted k, name ≠ [] ∧ hash ∉ name ∧ Node.semicolon ∉ name

theorem listFiles_eq {config : Config n m} (hnames : config.Named) (k : Fin m) :
    config.listFiles k = config.hosted k := by
  apply Node.splitString_handleEnquiryRequest
  intro name hname
  exact ⟨(hnames k name hname).1, (hnames k name hname).2.1⟩

theorem Config.Listed.semicolon {config : Config n m} (hnames : config.Named) {filename : Bytes}
    (h : config.Listed filename) : Node.semicolon ∉ filename := by
  obtain ⟨k, hk⟩ := h
  rw [listFiles_eq hnames] at hk
  exact (hnames k filename hk).2.2

/-- Messages are about listed files and have numbers that fit. -/
structure Carried (config : Config n m) (s : State n m) : Prop where
  inFlight : ∀ i j, ∀ p ∈ exclusion s.cluster i j, i ≠ j ∧ ∃ filename message,
    config.Listed filename ∧ ourSequenceNumber message < 2 ^ 31 ∧ p = packet filename i message
  unsent : ∀ i filename, ∀ x ∈ s.unsent i filename,
    i ≠ x.1 ∧ config.Listed filename ∧ ourSequenceNumber x.2 < 2 ^ 31
  strategy : ∀ i filename c, s.criticalSectionAlgStrategy i filename = some c →
    config.Listed filename ∧ c.ourSequenceNumber < 2 ^ 31 ∧ c.hgstSequenceNumber < 2 ^ 31
  fresh : ∀ i filename, s.criticalSectionAlgInit i = false →
    s.criticalSectionAlgStrategy i filename = none

/-- The main threads and their strategy objects agree on where they are. -/
structure Placed (s : State n m) : Prop where
  file : ∀ i filename, s.main i filename ≠ .idle ↔
    requested (s.cluster.client i).main = some filename
  inside : ∀ i filename, (s.cluster.client i).inCriticalSection = some filename →
    s.main i filename = .inside

namespace Carried
variable {config : Config n m} {s : State n m}

theorem of_cluster (h : Carried config s) {cluster : Cluster.State n m}
    (hsub : ∀ i j, exclusion cluster i j ⊆ exclusion s.cluster i j) :
    Carried config { s with cluster := cluster } where
  inFlight i j _ hp := h.inFlight i j _ (hsub i j hp)
  unsent := h.unsent
  strategy := h.strategy
  fresh := h.fresh

theorem of_same (h : Carried config s) {cluster : Cluster.State n m}
    (hsame : exclusion cluster = exclusion s.cluster) :
    Carried config { s with cluster := cluster } := by
  apply h.of_cluster
  intro i j
  rw [hsame]
  exact List.Subset.refl _

theorem write (h : Carried config s) {i : Fin n} {filename : Bytes}
    {c₀ c : RicartAgrawala.Strategy n} {out : List (Fin n × RicartAgrawala.Message)}
    (hc₀ : s.criticalSectionAlgStrategy i filename = some c₀) (hlisted : config.Listed filename)
    (hours : c.ourSequenceNumber < 2 ^ 31) (hhgst : c.hgstSequenceNumber < 2 ^ 31)
    (hout : ∀ x ∈ out, i ≠ x.1 ∧ ourSequenceNumber x.2 < 2 ^ 31) (worker : Worker n)
    (main : RicartAgrawala.MainThread) : Carried config (s.write i worker filename c main out) where
  inFlight := h.inFlight
  unsent j f x hx := by
    simp only [State.write, update_update_apply] at hx
    split_ifs at hx with hj
    · obtain ⟨rfl, rfl⟩ := hj
      exact ⟨(hout x hx).1, hlisted, (hout x hx).2⟩
    · exact h.unsent j f x hx
  strategy j f c' hc' := by
    simp only [State.write, update_update_apply] at hc'
    split_ifs at hc' with hj
    · obtain ⟨rfl, rfl⟩ := hj
      obtain rfl := Option.some.inj hc'
      exact ⟨hlisted, hours, hhgst⟩
    · exact h.strategy j f c' hc'
  fresh j f hj := by
    have hnone := h.fresh j f hj
    simp only [State.write, update_update_apply]
    split_ifs with hjf
    · obtain ⟨rfl, rfl⟩ := hjf
      cases hnone.symm.trans hc₀
    · exact hnone

theorem initCriticalSectionAlg (h : Carried config s) (i : Fin n) (k : Fin m) :
    Carried config (s.initCriticalSectionAlg i (config.listFiles k)) := by
  unfold State.initCriticalSectionAlg
  split_ifs
  · exact h
  · refine ⟨h.inFlight, h.unsent, fun j filename c hc => ?_, fun j filename hj => ?_⟩
    · simp only [Function.update_apply] at hc
      split_ifs at hc with hj
      · by_cases hlisted : filename ∈ config.listFiles k
        · have hcontains := List.contains_iff_mem.mpr hlisted
          obtain rfl := Option.some.inj ((if_pos hcontains).symm.trans hc)
          exact ⟨⟨k, hlisted⟩, Nat.two_pow_pos 31, Nat.two_pow_pos 31⟩
        · have hcontains := mt List.contains_iff_mem.mp hlisted
          exact h.strategy i filename c ((if_neg hcontains).symm.trans hc)
      · exact h.strategy j filename c hc
    · simp only [Function.update_apply] at hj ⊢
      split_ifs at hj ⊢
      exact h.fresh j filename hj

/-- The packet on a connection is treated as what its sender has put into it. -/
theorem treated (h : Carried config s) (hnames : config.Named) {i j : Fin n}
    {p : Cluster.Message} (hp : p ∈ exclusion s.cluster j i) {filename msg : Bytes}
    {c c' : RicartAgrawala.Strategy n} {out : List (Fin n × RicartAgrawala.Message)}
    (htext : Node.Client.handleClientPacket p.msg = some (filename, msg))
    (htreat : treatMessage c i p.messageType msg = some (c', out)) :
    j ≠ i ∧ ∃ message, ourSequenceNumber message < 2 ^ 31 ∧ p = packet filename j message ∧
      c' = (c.treatMessage i j message).1 ∧
      out = (c.treatMessage i j message).2.map (j, ·) := by
  obtain ⟨hij, f, message, hlisted, hnumber, rfl⟩ := h.inFlight j i p hp
  rw [packet, handleClientPacket_getMsg (hlisted.semicolon hnames)] at htext
  obtain ⟨rfl, rfl⟩ := Prod.mk.inj (Option.some.inj htext)
  simp only [packet, treatMessage_numbers config.ids c i j hnumber] at htreat
  obtain ⟨rfl, rfl⟩ := Prod.mk.inj (Option.some.inj htreat)
  exact ⟨hij, message, hnumber, rfl, rfl, rfl⟩

end Carried

theorem mem_needToSends {out : Fin n → List RicartAgrawala.Message}
    {x : Fin n × RicartAgrawala.Message} : x ∈ needToSends out ↔ x.2 ∈ out x.1 := by
  simp only [needToSends, List.mem_flatMap, List.mem_finRange, true_and, List.mem_map]
  constructor
  · rintro ⟨j, message, hmessage, rfl⟩
    exact hmessage
  · intro hx
    exact ⟨x.1, x.2, hx, rfl⟩

theorem mem_requestResource {c : RicartAgrawala.Strategy n} {i j : Fin n}
    {message : RicartAgrawala.Message} (h : message ∈ (c.requestResource i).2 j) :
    i ≠ j ∧ message = .request (c.hgstSequenceNumber + 1) := by
  simp only [RicartAgrawala.Strategy.requestResource] at h
  split_ifs at h with hj
  · exact ⟨hj.1.symm, List.mem_singleton.mp h⟩
  · cases h

theorem mem_releaseResource {c : RicartAgrawala.Strategy n} {i j : Fin n}
    {message : RicartAgrawala.Message} (h : message ∈ (c.releaseResource i).2 j) :
    i ≠ j ∧ message = .reply c.ourSequenceNumber := by
  simp only [RicartAgrawala.Strategy.releaseResource] at h
  split_ifs at h with hj
  · exact ⟨hj.1.symm, List.mem_singleton.mp h⟩
  · cases h

/-- What the treatment of a message does to the numbers, and which number its answers have. -/
theorem numbers_treatMessage (c : RicartAgrawala.Strategy n) (i j : Fin n)
    (message : RicartAgrawala.Message) :
    (c.treatMessage i j message).1.ourSequenceNumber = c.ourSequenceNumber ∧
    (c.treatMessage i j message).1.hgstSequenceNumber ≤
      max c.hgstSequenceNumber (ourSequenceNumber message) ∧
    ∀ answer ∈ (c.treatMessage i j message).2, ourSequenceNumber answer = c.ourSequenceNumber := by
  cases message with
  | reply r =>
    exact ⟨rfl, le_max_left _ _, fun answer hanswer => absurd hanswer List.not_mem_nil⟩
  | request r =>
    refine ⟨RicartAgrawala.treatRequestMessage_ours c i r j, ?_, ?_⟩
    · simp only [RicartAgrawala.Strategy.treatMessage, RicartAgrawala.Strategy.treatRequestMessage]
      split_ifs <;> exact le_refl _
    · simp only [RicartAgrawala.Strategy.treatMessage, RicartAgrawala.Strategy.treatRequestMessage]
      split_ifs <;> simp [ourSequenceNumber]

/-- Every step keeps the messages in order. -/
theorem carried_of_effect {config : Config n m} (hnames : config.Named) {s t : State n m}
    {l : Option (Bytes × RicartAgrawala.Action n)} (hs : Carried config s)
    (h : Effect config s t l) : Carried config t := by
  cases h with
  | quiet hsame => exact hs.of_same hsame
  | init i k hsame => exact (hs.of_same hsame).initCriticalSectionAlg i k
  | request hsame _ _ _ _ hc _ hnumber _ =>
    obtain ⟨hlisted, -, hhgst⟩ := hs.strategy _ _ _ hc
    apply Carried.write
    · exact hs.of_same hsame
    · exact hc
    · exact hlisted
    · exact hnumber
    · exact hhgst
    · intro x hx
      obtain ⟨hne, hmessage⟩ := mem_requestResource (mem_needToSends.mp hx)
      rw [hmessage]
      exact ⟨hne, hnumber⟩
  | poll _ _ hc =>
    obtain ⟨hlisted, hours, hhgst⟩ := hs.strategy _ _ _ hc
    apply Carried.write hs
    · exact hc
    · exact hlisted
    · exact hours
    · exact hhgst
    · exact fun x hx => absurd hx List.not_mem_nil
  | enter _ hc =>
    obtain ⟨hlisted, hours, hhgst⟩ := hs.strategy _ _ _ hc
    apply Carried.write hs
    · exact hc
    · exact hlisted
    · exact hours
    · exact hhgst
    · exact fun x hx => absurd hx List.not_mem_nil
  | release hsame _ _ _ hc =>
    obtain ⟨hlisted, hours, hhgst⟩ := hs.strategy _ _ _ hc
    apply Carried.write
    · exact hs.of_same hsame
    · exact hc
    · exact hlisted
    · exact hours
    · exact hhgst
    · intro x hx
      obtain ⟨hne, hmessage⟩ := mem_releaseResource (mem_needToSends.mp hx)
      rw [hmessage]
      exact ⟨hne, hours⟩
  | @send cluster i j filename message rest worker _ hunsent hsend =>
    refine ⟨fun x y p hp => ?_, fun x f out hout => ?_, hs.strategy, hs.fresh⟩
    · obtain ⟨hne, hlisted, hnumber⟩ := hs.unsent i filename (j, message) (by simp [hunsent])
      simp only [hsend, List.mem_append] at hp
      rcases hp with hp | hp
      · exact hs.inFlight x y p hp
      · split_ifs at hp with hxy
        · obtain ⟨rfl, rfl⟩ := hxy
          obtain rfl := List.mem_singleton.mp hp
          exact ⟨hne, filename, message, hlisted, hnumber, rfl⟩
        · cases hp
    · simp only [update_update_apply] at hout
      split_ifs at hout with hx
      · obtain ⟨rfl, rfl⟩ := hx
        exact hs.unsent x f out (hunsent ▸ List.mem_cons_of_mem _ hout)
      · exact hs.unsent x f out hout
  | treat hp hrest _ htext hc _ htreat =>
    obtain ⟨hlisted, hours, hhgst⟩ := hs.strategy _ _ _ hc
    obtain ⟨hij, message, hnumber, -, rfl, rfl⟩ := hs.treated hnames hp htext htreat
    obtain ⟨rest, hmail, hcluster⟩ := hrest hij.symm
    obtain ⟨hours', hhgst', hanswers⟩ := numbers_treatMessage _ _ _ message
    apply Carried.write
    · apply hs.of_cluster
      intro x y
      rw [hcluster]
      split_ifs with hxy
      · rw [hxy.1, hxy.2, hmail]
        exact List.subset_cons_self _ _
      · exact List.Subset.refl _
    · exact hc
    · exact hlisted
    · rw [hours']
      exact hours
    · exact hhgst'.trans_lt (max_lt hhgst hnumber)
    · intro x hx
      obtain ⟨answer, hanswer, rfl⟩ := List.mem_map.mp hx
      refine ⟨hij.symm, ?_⟩
      rw [hanswers answer hanswer]
      exact hours

section updates
variable (s : State n m) (i : Fin n) (listFiles : List Bytes)

@[simp] theorem cluster_initCriticalSectionAlg :
    (s.initCriticalSectionAlg i listFiles).cluster = s.cluster := by
  unfold State.initCriticalSectionAlg
  split_ifs <;> rfl

@[simp] theorem main_initCriticalSectionAlg :
    (s.initCriticalSectionAlg i listFiles).main = s.main := by
  unfold State.initCriticalSectionAlg
  split_ifs <;> rfl

@[simp] theorem unsent_initCriticalSectionAlg :
    (s.initCriticalSectionAlg i listFiles).unsent = s.unsent := by
  unfold State.initCriticalSectionAlg
  split_ifs <;> rfl

end updates

namespace Placed
variable {s : State n m}

theorem stays (h : Placed s) {t : State n m} (hmain : t.main = s.main)
    (hstays : Stays s t.cluster.client) : Placed t where
  file i filename := by
    rw [hmain, hstays.file]
    exact h.file i filename
  inside i filename hin := by
    rw [hmain]
    exact (hstays.leave i filename hin).elim (h.inside i filename) id

/-- One client's main thread moves, and so does its place in the strategy object of one file. -/
theorem write (h : Placed s) (cluster : Cluster.State n m) {i : Fin n} {filename : Bytes}
    {main : RicartAgrawala.MainThread}
    (hother : ∀ j, j ≠ i → cluster.client j = s.cluster.client j)
    (hfile : main ≠ .idle ↔ requested (cluster.client i).main = some filename)
    (hfiles : ∀ f, f ≠ filename →
      (s.main i f ≠ .idle ↔ requested (cluster.client i).main = some f))
    (hinside : (cluster.client i).inCriticalSection = some filename → main = .inside)
    (hinsides : ∀ f, f ≠ filename → (cluster.client i).inCriticalSection = some f →
      s.main i f = .inside) (worker : Worker n) (c : RicartAgrawala.Strategy n)
    (out : List (Fin n × RicartAgrawala.Message)) :
    Placed ({ s with cluster := cluster }.write i worker filename c main out) where
  file j f := by
    simp only [State.write, update_update_apply]
    by_cases hj : j = i
    · subst hj
      by_cases hf : f = filename
      · subst hf
        rw [if_pos ⟨rfl, rfl⟩]
        exact hfile
      · rw [if_neg fun hjf => hf hjf.2]
        exact hfiles f hf
    · rw [if_neg fun hjf => hj hjf.1, hother j hj]
      exact h.file j f
  inside j f hin := by
    simp only [State.write, update_update_apply] at hin ⊢
    by_cases hj : j = i
    · subst hj
      by_cases hf : f = filename
      · subst hf
        rw [if_pos ⟨rfl, rfl⟩]
        exact hinside hin
      · rw [if_neg fun hjf => hf hjf.2]
        exact hinsides f hf hin
    · rw [if_neg fun hjf => hj hjf.1]
      rw [hother j hj] at hin
      exact h.inside j f hin

end Placed

/-- Every step keeps the main threads and the strategy objects in agreement. -/
theorem placed_of_effect {config : Config n m} {s t : State n m}
    {l : Option (Bytes × RicartAgrawala.Action n)} (hs : Placed s)
    (h : Effect config s t l) : Placed t := by
  cases h with
  | quiet _ hstays => exact hs.stays rfl hstays
  | init i k _ hstays => exact hs.stays (by simp) (by simpa using hstays)
  | @request cluster i filename c _ hnone hsome hout hother =>
    apply hs.write cluster hother
    · exact iff_of_true (by simp) hsome
    · intro f hf
      rw [hs.file i f, hnone, hsome]
      simpa using hf.symm
    · intro hin
      cases hout.symm.trans hin
    · intro f _ hin
      cases hout.symm.trans hin
  | @poll i filename c hrequested hout =>
    apply hs.write s.cluster (fun _ _ => rfl)
    · refine iff_of_true ?_ hrequested
      split_ifs <;> simp
    · exact fun f _ => hs.file i f
    · intro hin
      cases hout.symm.trans hin
    · exact fun f _ hin => hs.inside i f hin
  | @enter i filename c hrequested =>
    apply hs.write s.cluster (fun _ _ => rfl)
    · exact iff_of_true (by simp) hrequested
    · exact fun f _ => hs.file i f
    · exact fun _ => rfl
    · exact fun f _ hin => hs.inside i f hin
  | @release cluster i filename c _ hinside hnone hother =>
    have hrequested := requested_of_inside hinside
    apply hs.write cluster hother
    · rw [hnone]
      simp
    · intro f hf
      rw [hs.file i f, hnone, hrequested]
      simpa using hf.symm
    · intro hin
      cases hnone.symm.trans (requested_of_inside hin)
    · intro f _ hin
      cases hnone.symm.trans (requested_of_inside hin)
  | send _ _ _ hstays => exact hs.stays rfl hstays
  | @treat cluster i j p filename msg c c' out _ _ hstays =>
    apply hs.stays _ hstays
    funext x
    simp only [State.write]
    rw [Function.update_eq_self, Function.update_eq_self]

/-- The messages to one client. -/
def sentTo (j : Fin n) (out : List (Fin n × RicartAgrawala.Message)) :
    List RicartAgrawala.Message :=
  out.filterMap fun x => if x.1 = j then some x.2 else none

/-- What is not yet sent counts as in flight. -/
def State.project (s : State n m) (filename : Bytes) : RicartAgrawala.State n where
  strategy i := (s.criticalSectionAlgStrategy i filename).getD (.construct n)
  main i := s.main i filename
  inFlight i j := (exclusion s.cluster i j).filterMap (read filename) ++
    sentTo j (s.unsent i filename)

section projection
variable {s : State n m} {filename : Bytes}

@[simp] theorem sentTo_nil (j : Fin n) : sentTo j [] = [] := rfl

theorem sentTo_cons (j k : Fin n) (message : RicartAgrawala.Message)
    (out : List (Fin n × RicartAgrawala.Message)) : sentTo j ((k, message) :: out) =
      (if j = k then [message] else []) ++ sentTo j out := by
  by_cases hj : j = k
  · simp [sentTo, hj]
  · simp [sentTo, hj, Ne.symm hj]

theorem sentTo_map (j k : Fin n) (out : List RicartAgrawala.Message) :
    sentTo j (out.map (k, ·)) = Network.only k out j := by
  induction out with
  | nil => simp
  | cons message out ih =>
    rw [List.map_cons, sentTo_cons, ih, Network.only, Network.only]
    split_ifs <;> rfl

theorem sentTo_needToSends (j : Fin n) (out : Fin n → List RicartAgrawala.Message) :
    sentTo j (needToSends out) = out j := by
  have hall (ks : List (Fin n)) (hks : ks.Nodup) :
      sentTo j (ks.flatMap fun k => (out k).map (k, ·)) = if j ∈ ks then out j else [] := by
    induction ks with
    | nil => rfl
    | cons k ks ih =>
      obtain ⟨hk, hks⟩ := List.nodup_cons.mp hks
      rw [List.flatMap_cons, sentTo, List.filterMap_append]
      change sentTo j _ ++ sentTo j _ = _
      rw [sentTo_map, ih hks, Network.only]
      by_cases hj : j = k
      · subst hj
        rw [if_pos rfl, if_neg hk, if_pos List.mem_cons_self, List.append_nil]
      · simp [hj]
  rw [needToSends, hall _ (List.nodup_finRange n), if_pos (List.mem_finRange j)]

theorem project_cluster {cluster : Cluster.State n m}
    (hsame : exclusion cluster = exclusion s.cluster) :
    { s with cluster := cluster }.project filename = s.project filename := by
  simp only [State.project, hsame]

/-- A strategy object that is not yet there is as good as a new one. -/
theorem project_initCriticalSectionAlg {i : Fin n} (listFiles : List Bytes)
    (hfresh : s.criticalSectionAlgInit i = false →
      s.criticalSectionAlgStrategy i filename = none) :
    (s.initCriticalSectionAlg i listFiles).project filename = s.project filename := by
  cases hinit : s.criticalSectionAlgInit i with
  | true => rw [State.initCriticalSectionAlg, if_pos hinit]
  | false =>
    have hstrategy : ((s.initCriticalSectionAlg i listFiles).project filename).strategy =
        (s.project filename).strategy := by
      funext j
      simp only [State.initCriticalSectionAlg, hinit, State.project, Bool.false_eq_true, if_false]
      by_cases hj : j = i
      · subst hj
        rw [Function.update_self, hfresh hinit]
        split_ifs <;> rfl
      · rw [Function.update_of_ne hj]
    have hrest : ((s.initCriticalSectionAlg i listFiles).project filename) =
        { s.project filename with
          strategy := ((s.initCriticalSectionAlg i listFiles).project filename).strategy } := by
      simp only [State.project, cluster_initCriticalSectionAlg, main_initCriticalSectionAlg,
        unsent_initCriticalSectionAlg]
    rw [hrest, hstrategy]

theorem project_write_of_ne {i : Fin n} {f : Bytes} (hf : filename ≠ f) (worker : Worker n)
    (c : RicartAgrawala.Strategy n) (main : RicartAgrawala.MainThread)
    (out : List (Fin n × RicartAgrawala.Message)) :
    (s.write i worker f c main out).project filename = s.project filename := by
  simp only [State.project, State.write, update_update_apply, hf, and_false, if_false]

/-- A locked part is one section of the file's machine. -/
theorem project_write {i : Fin n} (hfree : s.unsent i filename = []) (worker : Worker n)
    (c : RicartAgrawala.Strategy n) (main : RicartAgrawala.MainThread)
    (out : List (Fin n × RicartAgrawala.Message)) :
    (s.write i worker filename c main out).project filename =
      (s.project filename).write i c main fun j => sentTo j out := by
  have hstrategy : (fun j => (Function.update s.criticalSectionAlgStrategy i
      (Function.update (s.criticalSectionAlgStrategy i) filename (some c)) j filename).getD
        (.construct n)) = Function.update (s.project filename).strategy i c := by
    funext j
    rw [update_update_apply, Function.update_apply]
    by_cases hj : j = i
    · rw [if_pos ⟨hj, rfl⟩, if_pos hj, Option.getD_some]
    · rw [if_neg fun h => hj h.1, if_neg hj]
      rfl
  have hmain : (fun j => Function.update s.main i
      (Function.update (s.main i) filename main) j filename) =
        Function.update (s.project filename).main i main := by
    funext j
    rw [update_update_apply, Function.update_apply]
    by_cases hj : j = i
    · rw [if_pos ⟨hj, rfl⟩, if_pos hj]
    · rw [if_neg fun h => hj h.1, if_neg hj]
      rfl
  have hmail : (fun x y => (exclusion s.cluster x y).filterMap (read filename) ++
      sentTo y
        (Function.update s.unsent i (Function.update (s.unsent i) filename out) x filename)) =
        (s.project filename).inFlight.post i fun y => sentTo y out := by
    funext x y
    rw [update_update_apply, Network.post]
    by_cases hx : x = i
    · subst hx
      rw [if_pos ⟨rfl, rfl⟩, if_pos rfl]
      simp only [State.project, hfree, sentTo_nil, List.append_nil]
    · rw [if_neg fun h => hx h.1, if_neg hx]
      rfl
  simp only [State.project, State.write, RicartAgrawala.State.write] at hstrategy hmain hmail ⊢
  rw [hstrategy, hmain, hmail]

theorem strategy_project {i : Fin n} {c : RicartAgrawala.Strategy n}
    (hc : s.criticalSectionAlgStrategy i filename = some c) :
    (s.project filename).strategy i = c := by
  simp only [State.project, hc, Option.getD_some]

theorem project_send {cluster : Cluster.State n m} {i j : Fin n} {f : Bytes}
    {message : RicartAgrawala.Message} {rest : List (Fin n × RicartAgrawala.Message)}
    (locked : Fin n → Worker n → Option Bytes) (hunsent : s.unsent i f = (j, message) :: rest)
    (hread : ∀ g, read g (packet f i message) = if f = g then some message else none)
    (hsend : ∀ x y, exclusion cluster x y = exclusion s.cluster x y ++
      if x = i ∧ y = j then [packet f i message] else []) :
    { s with
      cluster := cluster
      unsent := Function.update s.unsent i (Function.update (s.unsent i) f rest)
      locked := locked }.project filename = s.project filename := by
  have hmail : (fun x y => (exclusion cluster x y).filterMap (read filename) ++ sentTo y
      (Function.update s.unsent i (Function.update (s.unsent i) f rest) x filename)) =
        (s.project filename).inFlight := by
    funext x y
    simp only [hsend, update_update_apply, List.filterMap_append, State.project]
    by_cases hx : x = i
    · subst hx
      simp only [true_and]
      by_cases hf : f = filename
      · subst hf
        rw [if_pos rfl, hunsent, sentTo_cons, List.append_assoc]
        apply congrArg
        by_cases hy : y = j
        · simp [hy, hread]
        · simp [hy]
      · rw [if_neg (Ne.symm hf)]
        by_cases hy : y = j
        · simp [hy, hread, hf]
        · simp [hy]
    · simp [hx]
  simp only [State.project] at hmail ⊢
  rw [hmail]

/-- The oldest message about a file is the oldest one that is in flight about it. -/
theorem project_treat {cluster : Cluster.State n m} {i j : Fin n}
    {message : RicartAgrawala.Message} {rest : List Cluster.Message}
    (hread : ∀ g, read g (packet filename j message) = if filename = g then some message else none)
    (hmail : exclusion s.cluster j i = packet filename j message :: rest)
    (hcluster : ∀ x y, exclusion cluster x y =
      if x = j ∧ y = i then rest else exclusion s.cluster x y) :
    (∃ behind, (s.project filename).inFlight j i = message :: behind ∧
      { s with cluster := cluster }.project filename =
        { s.project filename with inFlight := (s.project filename).inFlight.put j i behind }) ∧
    ∀ g, g ≠ filename → { s with cluster := cluster }.project g = s.project g := by
  have hother (g : Bytes) (hg : g ≠ filename) :
      (fun x y => (exclusion cluster x y).filterMap (read g) ++ sentTo y (s.unsent x g)) =
        (s.project g).inFlight := by
    funext x y
    simp only [hcluster, State.project]
    split_ifs with hxy
    · rw [hxy.1, hxy.2, hmail, List.filterMap_cons_none]
      rw [hread, if_neg hg.symm]
    · rfl
  have hsame : (fun x y => (exclusion cluster x y).filterMap (read filename) ++
      sentTo y (s.unsent x filename)) = (s.project filename).inFlight.put j i
        (rest.filterMap (read filename) ++ sentTo i (s.unsent j filename)) := by
    funext x y
    simp only [hcluster, State.project, Network.put]
    by_cases hxy : x = j ∧ y = i
    · rw [if_pos hxy, if_pos hxy, hxy.1, hxy.2]
    · rw [if_neg hxy, if_neg hxy]
  refine ⟨⟨rest.filterMap (read filename) ++ sentTo i (s.unsent j filename), ?_, ?_⟩, ?_⟩
  · simp only [State.project, hmail]
    rw [List.filterMap_cons_some (by rw [hread, if_pos rfl]), List.cons_append]
  · simp only [State.project] at hsame ⊢
    rw [hsame]
  · intro g hg
    have hsame' := hother g hg
    simp only [State.project] at hsame' ⊢
    rw [hsame']

end projection

/-- What a section means for one file. -/
def sectionOf (filename : Bytes) (l : Option (Bytes × RicartAgrawala.Action n)) :
    Option (RicartAgrawala.Action n) :=
  l.bind fun x => if x.1 = filename then some x.2 else none

theorem follow_section {s t : State n m} {f : Bytes} {b : RicartAgrawala.Action n}
    (hself : RicartAgrawala.step (s.project f) b = some (t.project f))
    (hother : ∀ g, g ≠ f → t.project g = s.project g) (filename : Bytes) :
    (RicartAgrawala.machine n).follow (s.project filename) (sectionOf filename (some (f, b))) =
      some (t.project filename) := by
  by_cases hf : f = filename
  · subst hf
    rw [sectionOf, Option.bind_some, if_pos rfl]
    exact hself
  · rw [sectionOf, Option.bind_some, if_neg hf, hother filename (Ne.symm hf)]
    rfl

/-- Each step is a section of one file's machine, and nothing for all other files. -/
theorem follow_of_effect {config : Config n m} (hnames : config.Named) {s t : State n m}
    {l : Option (Bytes × RicartAgrawala.Action n)} (hcarried : Carried config s)
    (hplaced : Placed s) (h : Effect config s t l) (filename : Bytes) :
    (RicartAgrawala.machine n).follow (s.project filename) (sectionOf filename l) =
      some (t.project filename) := by
  cases h with
  | quiet hsame =>
    rw [project_cluster hsame]
    rfl
  | @init cluster i k hsame =>
    rw [project_initCriticalSectionAlg (s := { s with cluster := cluster }) _
      (hcarried.fresh i filename), project_cluster hsame]
    rfl
  | @request cluster i f c hsame hnone hsome hout hother hc hfree hnumber =>
    have hmain : (s.project f).main i = .idle := by
      by_contra hm
      cases hnone.symm.trans ((hplaced.file i f).mp hm)
    apply follow_section
    · rw [project_write (s := { s with cluster := cluster }) hfree, project_cluster hsame,
        RicartAgrawala.step, if_pos hmain, strategy_project hc]
      simp only [sentTo_needToSends]
    · intro g hg
      rw [project_write_of_ne hg, project_cluster hsame]
  | @poll i f c hrequested hout hc hfree hpolling =>
    have hmain : (s.project f).main i = .polling := hpolling
    apply follow_section
    · rw [project_write hfree, RicartAgrawala.step, if_pos hmain, strategy_project hc]
      rfl
    · exact fun g hg => project_write_of_ne hg _ _ _ _
  | @enter i f c hrequested hc hfree hentering =>
    have hmain : (s.project f).main i = .entering := hentering
    apply follow_section
    · rw [project_write hfree, RicartAgrawala.step, if_pos hmain, strategy_project hc]
      rfl
    · exact fun g hg => project_write_of_ne hg _ _ _ _
  | @release cluster i f c hsame hinside hnone hother hc hfree =>
    have hmain : (s.project f).main i = .inside := hplaced.inside i f hinside
    apply follow_section
    · rw [project_write (s := { s with cluster := cluster }) hfree, project_cluster hsame,
        RicartAgrawala.step, if_pos hmain, strategy_project hc]
      simp only [sentTo_needToSends]
    · intro g hg
      rw [project_write_of_ne hg, project_cluster hsame]
  | @send cluster i j f message rest worker hlocked hunsent hsend =>
    obtain ⟨-, hlisted, hnumber⟩ := hcarried.unsent i f (j, message) (by simp [hunsent])
    rw [project_send _ hunsent (read_packet (hlisted.semicolon hnames) i hnumber) hsend]
    rfl
  | @treat cluster i j p f msg c c' out hp hrest hstays htext hc hfree htreat =>
    obtain ⟨hlisted, -⟩ := hcarried.strategy i f c hc
    obtain ⟨hij, message, hnumber, rfl, rfl, rfl⟩ := hcarried.treated hnames hp htext htreat
    obtain ⟨rest, hmail, hcluster⟩ := hrest hij.symm
    obtain ⟨⟨behind, hhead, hself⟩, hother⟩ :=
      project_treat (read_packet (hlisted.semicolon hnames) j hnumber) hmail hcluster
    apply follow_section
    · rw [project_write (s := { s with cluster := cluster }) hfree, hself]
      simp only [RicartAgrawala.step, hhead, strategy_project hc, sentTo_map]
      rfl
    · intro g hg
      rw [project_write_of_ne hg, hother g hg]

end DistributedME.Program
