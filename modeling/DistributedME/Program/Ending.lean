import DistributedME.Cluster.Ending
import DistributedME.Program.Completion

/-! All threads leave in the end, unless one of them has left too early. -/
namespace DistributedME.Program
open Library
variable {n m : ℕ}

def LeavesEarly (s : State n m) : Action n m → Prop
  | .passServer i k => s.cluster.LeavesEarly (.passServer i k)
  | _ => False

/-- A step towards the end by a thread that does not leave early. -/
def Timely (s : State n m) (act : Action n m) : Prop := Forward s act ∧ ¬ LeavesEarly s act

section steps
variable {config : Config n m} {s : State n m}

theorem not_leavesEarly {act : Action n m} (h : act.isPass = false) : ¬ LeavesEarly s act := by
  cases act with
  | passServer | passClient | passRequests => cases h
  | _ => exact id

theorem not_failsPoll {act : Action n m} (hact : ∀ i, act ≠ .mainStep i)
    (hhandle : ∀ i j place, act ≠ .handleClientPacket i j place) : ¬ FailsPoll s act := by
  rintro ⟨i, filename, c, hlabel, -⟩
  cases act with
  | mainStep i => exact hact i rfl
  | handleClientPacket i j place => exact hhandle i j place rfl
  | _ => cases hlabel

theorem timely_passServer {i : Fin n} {k : Fin m}
    (h : (s.cluster.client i).serverThread k ≠ .treating) : Timely s (.passServer i k) :=
  ⟨⟨not_failsPoll (by simp) (by simp), id, not_yieldsInGap (by simp)⟩, fun hearly => h hearly.1⟩

theorem timely_passRequests (k : Fin m) (i : Fin n) : Timely s (.passRequests k i) :=
  ⟨⟨not_failsPoll (by simp) (by simp), id, not_yieldsInGap (by simp)⟩, id⟩

theorem timely_passClient {i j : Fin n} (h : (s.cluster.client i).clientThread j ≠ .reading) :
    Timely s (.passClient i j) :=
  ⟨⟨not_failsPoll (by simp) (by simp), fun hidle => h hidle.2.1, not_yieldsInGap (by simp)⟩, id⟩

/-- Nothing towards the end is possible. -/
def Stopped (config : Config n m) (s : State n m) : Prop :=
  ∀ act t, Timely s act → step config s act ≠ some t

theorem Stopped.not_moves (hstop : Stopped config s) : ¬ Moves config s := by
  rintro ⟨act, t, hpass, hpoll, hgap, hstep⟩
  exact hstop act t ⟨⟨hpoll, not_idles hpass, hgap⟩, not_leavesEarly hpass⟩ hstep

theorem Stopped.not_enabled (hstop : Stopped config s) {act : Action n m} (h : Timely s act)
    (hsome : (step config s act).isSome = true) : False := by
  obtain ⟨t, ht⟩ := Option.isSome_iff_exists.mp hsome
  exact hstop act t h ht

end steps

/-- The cluster's side of a run without early leaving. -/
theorem ending_of_guarded {config : Config n m} (hn : 1 ≤ config.nRequests)
    (hlines : ∀ i, (config.input i).length = config.nRequests) {s : State n m}
    (h : (machine config).Guarded Timely s) : Cluster.Ending config.toConfig s.cluster := by
  apply Cluster.ending_kept hn hlines
  refine (clusterRefinement config).guarded (fun s act t b _ hg _ hb hearly => ?_) h
  cases b with
  | passServer i k =>
    cases act with
    | passServer i' k' =>
      cases hb
      exact hg.2 hearly
    | mainStep j =>
      simp only [clusterRefinement, clusterLabel] at hb
      split at hb
      · split_ifs at hb
        cases hb
      · cases hb
    | sendMessageToClient j worker =>
      obtain ⟨filename, -, hb⟩ := Option.bind_eq_some_iff.mp hb
      obtain ⟨x, -, hb⟩ := Option.map_eq_some_iff.mp hb
      cases hb
    | treatServerPacket | handleClientPacket | passClient | treatRequest | passRequests => cases hb
  | _ => exact hearly

/-- Where run and serveClients join their threads. -/
structure AllLeft (s : State n m) : Prop where
  main : ∀ i, (s.cluster.client i).main = .ready ∧ (s.cluster.client i).input = []
  server : ∀ i k, (s.cluster.client i).serverThread k = .left
  client : ∀ i j, (s.cluster.client i).clientThread j = .left
  requests : ∀ k i, (s.cluster.server k).thread i = .left

/-- A state in which nothing goes on. -/
structure Halted (config : Config n m) (s : State n m) : Prop where
  reachable : (machine config).Reachable s
  stopped : Stopped config s
  room : Room s
  ending : Cluster.Ending config.toConfig s.cluster
  bodies : ∀ i, s.cluster.bodies i = config.nRequests
  ready : ∀ i, (s.cluster.client i).main = .ready
  requested : ∀ i, (s.cluster.client i).nRequestedRequests = config.nRequests
  locked : ∀ i worker, s.locked i worker = none
  unsent : ∀ i filename, s.unsent i filename = []

theorem halted_of_stopped {config : Config n m} (hserved : config.Served)
    (hfiles : ∀ filename, Cluster.Legible (config.files filename)) (hn : 1 ≤ config.nRequests)
    (hlines : ∀ i, (config.input i).length = config.nRequests) {s : State n m}
    (h : (machine config).Guarded Timely s) (hroom : Room s) (hstop : Stopped config s) :
    Halted config s := by
  have hreach : (machine config).Reachable s := h.mono fun _ _ _ => trivial
  have hcluster : (Cluster.machine config.toConfig).Reachable s.cluster :=
    (clusterRefinement config).guarded (fun _ _ _ _ _ _ _ _ => trivial) hreach
  have hended := Cluster.ended_kept hlines hcluster
  have hheld := held_of_reachable hreach
  have hbodies (i : Fin n) : s.cluster.bodies i = config.nRequests := by
    by_contra hi
    exact hstop.not_moves (moves_of_unfinished hserved hfiles hlines hreach hroom hi)
  have hlocked (i : Fin n) (worker : Worker n) : s.locked i worker = none := by
    cases hl : s.locked i worker with
    | none => rfl
    | some filename => exact absurd (moves_of_locked hheld hroom hl) hstop.not_moves
  have hunsent (i : Fin n) (filename : Bytes) : s.unsent i filename = [] := by
    by_contra hne
    obtain ⟨worker, hl⟩ := hheld.locked i filename hne
    cases (hlocked i worker).symm.trans hl
  have hcount (i : Fin n) : (s.cluster.client i).pending = false ∧
      (s.cluster.client i).nRequestedRequests = config.nRequests := by
    have hi := (hended.counted i).bodies
    have hall := (hended.counted i).lines
    rw [hbodies i] at hi
    cases hp : (s.cluster.client i).pending with
    | false =>
      simp only [hp, Bool.toNat_false] at hi
      exact ⟨rfl, hi.symm⟩
    | true =>
      simp only [hp, Bool.toNat_true] at hi
      omega
  refine ⟨hreach, hstop, hroom, ending_of_guarded hn hlines h, hbodies, fun i => ?_,
    fun i => (hcount i).2, hlocked, hunsent⟩
  have hpending := (hcount i).1
  have hearly := (hended.counted i).early
  rw [hbodies i] at hearly
  cases hm : (s.cluster.client i).main with
  | ready => rfl
  | start => exact absurd (hearly (.inl hm)) (Nat.ne_of_gt hn)
  | enquiring => exact absurd (hearly (.inr hm)) (Nat.ne_of_gt hn)
  | finished =>
    exact absurd (moves_of_finished hserved hreach hroom hlocked hunsent hm) hstop.not_moves
  | requesting | requestRead | reading | requestWrite =>
    rw [Cluster.Client.pending, hm] at hpending
    cases hpending

namespace Halted
variable {config : Config n m} {s : State n m}

/-- Every server knows that every client is at its end. -/
theorem clientDone (hs : Halted config s) (hserved : config.Served)
    (hfiles : ∀ filename, Cluster.Legible (config.files filename)) (k : Fin m) (i : Fin n) :
    (s.cluster.server k).clientDoneAllRequest i = true := by
  have htold := hs.ending.told i k ⟨hs.requested i, .inl (hs.ready i)⟩
  rcases htold with hflag | ⟨packet, hp, -⟩
  · exact hflag
  · cases hbusy : ((s.cluster.server k).thread i).busy with
    | true =>
      exact absurd (moves_of_request hserved hfiles hs.reachable hbusy (List.ne_nil_of_mem hp))
        hs.stopped.not_moves
    | false => exact hs.ending.known k i (.inl hbusy) i

/-- No thread of a server is after a read or in its loop over the clients. -/
theorem thread_rests (hs : Halted config s) (k : Fin m) (i : Fin n) :
    (s.cluster.server k).thread i = .reading ∨ (s.cluster.server k).thread i = .left := by
  have hpass : ¬ (step config s (.passRequests k i)).isSome = true :=
    hs.stopped.not_enabled (timely_passRequests k i)
  rw [step, move_isSome] at hpass
  cases hthread : (s.cluster.server k).thread i with
  | reading => exact .inl rfl
  | left => exact .inr rfl
  | treating =>
    exfalso
    apply hpass
    simp [Cluster.step, Cluster.passRequests, hthread]
  | sending next =>
    exfalso
    apply hpass
    simp only [Cluster.step, Cluster.passRequests, hthread]
    split_ifs <;> rfl

theorem serverThread_left (hs : Halted config s) (hserved : config.Served)
    (hfiles : ∀ filename, Cluster.Legible (config.files filename)) (i : Fin n) (k : Fin m) :
    (s.cluster.client i).serverThread k = .left := by
  have hfree : ((s.cluster.client i).serverThread k).busy = false := by
    rcases hs.ending.announced k (hs.clientDone hserved hfiles k) with ⟨j, htreating⟩ | hsaid
    · rcases hs.thread_rests k j with hthread | hthread <;>
        cases hthread.symm.trans htreating
    · rcases hsaid i with hfree | ⟨packet, hp, -⟩ | ⟨j, next, hsending, -⟩
      · exact hfree
      · cases hbusy : ((s.cluster.client i).serverThread k).busy with
        | false => rfl
        | true =>
          exact absurd (moves_of_answer hbusy (List.ne_nil_of_mem hp)) hs.stopped.not_moves
      · rcases hs.thread_rests k j with hthread | hthread <;>
          cases hthread.symm.trans hsending
  cases hthread : (s.cluster.client i).serverThread k with
  | left => rfl
  | sending next =>
    exfalso
    apply hs.stopped.not_enabled (timely_passServer (i := i) (k := k) (by simp [hthread]))
    rw [step, move_isSome]
    simp only [Cluster.step, Cluster.passServer, hthread, Cluster.Client.increaseTimestamp,
      if_pos (hs.room.timestamp i)]
    split_ifs <;> rfl
  | reading | treating =>
    rw [hthread] at hfree
    cases hfree

theorem thread_left (hs : Halted config s) (hserved : config.Served)
    (hfiles : ∀ filename, Cluster.Legible (config.files filename)) (k : Fin m) (i : Fin n) :
    (s.cluster.server k).thread i = .left := by
  rcases hs.thread_rests k i with hreading | hleft
  · exfalso
    have hbusy : ((s.cluster.server k).thread i).busy = true := by
      rw [hreading]
      rfl
    have hmail : s.cluster.inFlight (.client i) (.server k) = [] := by
      by_contra hne
      exact hs.stopped.not_moves (moves_of_request hserved hfiles hs.reachable hbusy hne)
    apply hs.stopped.not_enabled (timely_passRequests k i)
    rw [step, move_isSome]
    simp [Cluster.step, Cluster.passRequests, hreading, hmail,
      hs.serverThread_left hserved hfiles i k]
  · exact hleft

theorem clientThread_left (hs : Halted config s) (hserved : config.Served)
    (hfiles : ∀ filename, Cluster.Legible (config.files filename)) (i j : Fin n) :
    (s.cluster.client i).clientThread j = .left := by
  have hstarted : started (s.cluster.client i).main = true := by
    rw [hs.ready i]
    rfl
  have hleft := hs.serverThread_left hserved hfiles j (config.enquiry j)
  rcases hs.ending.reached j (config.enquiry j) i (.inl hleft) with
    hthread | ⟨htreating, -⟩ | ⟨packet, hp, -⟩
  · exact hthread
  · exfalso
    apply hs.stopped.not_enabled (timely_passClient (i := i) (j := j) (by simp [htreating]))
    simp only [step, hstarted, hs.locked, and_self, if_true, move_isSome]
    simp [Cluster.step, Cluster.passClient, htreating]
  · cases hthread : (s.cluster.client i).clientThread j with
    | left => rfl
    | sending next => exact absurd hthread (hs.ending.listens i j next)
    | reading | treating =>
      have hbusy : ((s.cluster.client i).clientThread j).busy = true := by
        rw [hthread]
        rfl
      exact absurd (moves_of_packet hserved hs.reachable hs.locked hs.unsent hbusy hstarted
        (List.ne_nil_of_mem hp)) hs.stopped.not_moves

theorem allLeft (hs : Halted config s) (hserved : config.Served)
    (hfiles : ∀ filename, Cluster.Legible (config.files filename))
    (hlines : ∀ i, (config.input i).length = config.nRequests) : AllLeft s where
  main i := by
    have hcluster : (Cluster.machine config.toConfig).Reachable s.cluster :=
      (clusterRefinement config).guarded (fun _ _ _ _ _ _ _ _ => trivial) hs.reachable
    have hall := ((Cluster.ended_kept hlines hcluster).counted i).lines
    rw [hs.requested i] at hall
    exact ⟨hs.ready i, List.eq_nil_of_length_eq_zero (by omega)⟩
  server := hs.serverThread_left hserved hfiles
  client := hs.clientThread_left hserved hfiles
  requests := hs.thread_left hserved hfiles

end Halted

end DistributedME.Program
