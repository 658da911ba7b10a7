import DistributedME.Cluster.Exchanges
import DistributedME.Library.Log

/-! All copies of a file follow one log, when critical sections of the file never overlap. -/
namespace DistributedME.Cluster
open Library
variable {n m : ℕ}

/-- What a finished body means for the log of one file. -/
def Event.action (filename : Bytes) : Event n m → Option (Log.Action Bytes)
  | .read _ f _ result => if f = filename then some (.read result) else none
  | .write i f timestamp => if f = filename then some (.append (writeLine i timestamp)) else none

/-- One line for each finished WRITE of a file, in their order. -/
def written (filename : Bytes) (history : List (Event n m)) : List Bytes :=
  Log.entries (history.filterMap (Event.action filename))

/-- Two clients are never in critical sections of the file. -/
def Exclusive (client : Fin n → Client n m) (filename : Bytes) : Prop :=
  ∀ i j, (client i).inCriticalSection = some filename →
    (client j).inCriticalSection = some filename → i = j

instance (client : Fin n → Client n m) (filename : Bytes) :
    Decidable (Exclusive client filename) :=
  inferInstanceAs (Decidable (∀ i j, (client i).inCriticalSection = some filename →
    (client j).inCriticalSection = some filename → i = j))

theorem Client.inside_of_requestWrite {c : Client n m} {filename : Bytes} {timestamp next : ℕ}
    (h : c.main = .requestWrite filename timestamp next) :
    c.inCriticalSection = some filename := by
  rw [inCriticalSection, h]

theorem Client.inside_of_reading {c : Client n m} {filename : Bytes} {k : Fin m}
    (h : c.main = .reading filename k) : c.inCriticalSection = some filename := by
  rw [inCriticalSection, h]

/-- What the exclusion algorithm is for. -/
def excludes (config : Config n m) (filename : Bytes) (s : State n m) (a : Action n m) : Prop :=
  ∀ t ∈ step config s a, Exclusive t.client filename

instance (config : Config n m) (filename : Bytes) (s : State n m) (a : Action n m) :
    Decidable (excludes config filename s a) :=
  inferInstanceAs (Decidable (∀ t ∈ step config s a, Exclusive t.client filename))

/-- Client i has a new timestamp for every line, and its requests name files without a hash. -/
structure Client.Stamped (i : Fin n) (c : Client n m) (history : List (Event n m)) : Prop where
  past : ∀ f t, .write i f t ∈ history → t ≤ c.timestamp ∧ t < 2 ^ 31
  current : ∀ f t next, c.main = .requestWrite f t next →
    t ≤ c.timestamp ∧ t < 2 ^ 31 ∧ ∀ g u, .write i g u ∈ history → u < t
  named : ∀ f t next, c.main = .requestWrite f t next → hash ∉ f
  requested : ∀ request, c.main = .requesting request → hash ∉ request.filename
  input : ∀ request ∈ c.input, hash ∉ request.filename

namespace Client.Stamped
variable {i : Fin n} {c c' : Client n m} {history events : List (Event n m)}

theorem construct {input : List (Request m)}
    (hnames : ∀ request ∈ input, hash ∉ request.filename) :
    Stamped i (.construct input : Client n m) [] where
  past _ _ h := absurd h List.not_mem_nil
  current _ _ _ h := nomatch h
  named _ _ _ h := nomatch h
  requested _ h := nomatch h
  input := hnames

/-- A step that leaves the main thread where it is. -/
theorem same (h : c.Stamped i history) (hmain : c'.main = c.main) (hinput : c'.input = c.input)
    (ht : c.timestamp ≤ c'.timestamp) : c'.Stamped i history where
  past f t hf := (h.past f t hf).imp_left fun hle => hle.trans ht
  current f t next hm := (h.current f t next (hmain ▸ hm)).imp_left fun hle => hle.trans ht
  named f t next hm := h.named f t next (hmain ▸ hm)
  requested request hm := h.requested request (hmain ▸ hm)
  input := hinput ▸ h.input

/-- A step to a place where no line and no new request is at hand. -/
theorem other (h : c.Stamped i history) (hinput : c'.input = c.input)
    (ht : c.timestamp ≤ c'.timestamp)
    (hwrite : ∀ f t next, c'.main ≠ .requestWrite f t next)
    (hrequest : ∀ request, c'.main ≠ .requesting request)
    (hevents : ∀ f t, .write i f t ∈ events → t ≤ c.timestamp ∧ t < 2 ^ 31) :
    c'.Stamped i (history ++ events) where
  past f t hf := (List.mem_append.mp hf).elim
    (fun hf => (h.past f t hf).imp_left fun hle => hle.trans ht)
    fun hf => (hevents f t hf).imp_left fun hle => hle.trans ht
  current f t next hm := absurd hm (hwrite f t next)
  named f t next hm := absurd hm (hwrite f t next)
  requested request hm := absurd hm (hrequest request)
  input := hinput ▸ h.input

/-- Another client has finished a body. -/
theorem record (h : c.Stamped i history) (hevents : ∀ f t, .write i f t ∉ events) :
    c.Stamped i (history ++ events) where
  past f t hf := h.past f t ((List.mem_append.mp hf).resolve_right (hevents f t))
  current f t next hm :=
    have ⟨hle, hlt, hnew⟩ := h.current f t next hm
    ⟨hle, hlt, fun g u hg => hnew g u ((List.mem_append.mp hg).resolve_right (hevents g u))⟩
  named := h.named
  requested := h.requested
  input := h.input

theorem main {config : Config n m} {out : Fin m → List Message} (h : c.Stamped i history)
    (hc : c.MainMove config i c' out events) : c'.Stamped i (history ++ events) := by
  cases hc with
  | enquire hm | sendRead hm | tell _ hm =>
    exact h.other rfl (Nat.le_succ _) nofun nofun nofun
  | enquired hm | enterRead hm | release _ hm =>
    exact h.other rfl (Nat.le_refl _) nofun nofun nofun
  | request hm hinput =>
    have hnamed := hinput ▸ h.input
    obtain ⟨hfirst, hrest⟩ := List.forall_mem_cons.mp hnamed
    refine ⟨?_, nofun, nofun, ?_, hrest⟩
    · rw [List.append_nil]
      exact h.past
    · rintro _ ⟨⟩
      exact hfirst
  | enterWrite hm ht =>
    refine ⟨?_, ?_, ?_, nofun, h.input⟩
    · intro f t hf
      rw [List.append_nil] at hf
      exact (h.past f t hf).imp_left Nat.le_succ_of_le
    · rintro _ _ _ ⟨⟩
      refine ⟨Nat.le_refl _, ht, fun g u hg => ?_⟩
      rw [List.append_nil] at hg
      exact Nat.lt_succ_of_le (h.past g u hg).1
    · rintro _ _ _ ⟨⟩
      exact h.requested _ hm
  | read hm hdone => exact h.other rfl (Nat.le_refl _) nofun nofun (by simp)
  | sendWrite hnext hm =>
    obtain ⟨hle, hlt, hnew⟩ := h.current _ _ _ hm
    refine ⟨?_, ?_, ?_, nofun, h.input⟩
    · intro f t hf
      rw [List.append_nil] at hf
      exact (h.past f t hf).imp_left Nat.le_succ_of_le
    · rintro _ _ _ ⟨⟩
      rw [List.append_nil]
      exact ⟨Nat.le_succ_of_le hle, hlt, hnew⟩
    · rintro _ _ _ ⟨⟩
      exact h.named _ _ _ hm
  | write hnext hm hdone =>
    obtain ⟨hle, hlt, -⟩ := h.current _ _ _ hm
    refine h.other rfl (Nat.le_refl _) nofun nofun fun f t hf => ?_
    obtain ⟨-, -, rfl⟩ := Event.write.inj (List.mem_singleton.mp hf)
    exact ⟨hle, hlt⟩

end Client.Stamped

/-- The main thread of a client finishes bodies of its own only. -/
theorem Client.MainMove.client_eq {config : Config n m} {i : Fin n} {c c' : Client n m}
    {out : Fin m → List Message} {events : List (Event n m)}
    (h : c.MainMove config i c' out events) : ∀ e ∈ events, e.client = i := by
  cases h with
  | enquire | enquired | request | enterRead | enterWrite | sendRead | sendWrite | tell
  | release => exact nofun
  | read | write =>
    intro e he
    rw [List.mem_singleton.mp he, Event.client]

namespace Traffic
variable {config : Config n m} {v v' : Traffic n m}

def Stamped (v : Traffic n m) : Prop := ∀ i, (v.client i).Stamped i v.history

theorem Stamped.move (h : v.Stamped) (hmove : v.Move config v') : v'.Stamped := by
  cases hmove with
  | quiet hq => exact fun i => (h i).same (hq i).main (hq i).input (hq i).timestamp
  | main hc =>
    refine (Function.forall_update_iff v.client fun j c => c.Stamped j _).mpr
      ⟨(h _).main hc, fun j hj => ?_⟩
    exact (h j).record fun f t hf => hj (hc.client_eq _ hf)
  | answer hk =>
    refine (Function.forall_update_iff v.client fun j c => c.Stamped j _).mpr ⟨?_, fun j _ => h j⟩
    exact (h _).same (by simp) (by simp) (by simp)
  | write | read | other => exact h

end Traffic

theorem stamped_of_reachable {config : Config n m}
    (hnames : ∀ i, ∀ request ∈ config.input i, hash ∉ request.filename) {s : State n m}
    (h : (machine config).Reachable s) : s.traffic.Stamped := by
  refine Machine.Guarded.invariant (I := fun s => s.traffic.Stamped) ?_ ?_ h
  · rintro s rfl
    exact fun i => .construct (hnames i)
  · intro s a t hs _ hstep
    exact hs.move (move_of_step hstep)

/-- The requests, answers and files follow the log of one file. A server that has written the
line of an unfinished WRITE is one line ahead. -/
structure Traffic.Follows (v : Traffic n m) (filename : Bytes) (lines log : List Bytes) :
    Prop where
  run : (Log.machine (Lines.last lines)).run [] (v.history.filterMap (Event.action filename)) =
    some log
  idle : (∀ i t next, (v.client i).main ≠ .requestWrite filename t next) →
    ∀ k, v.files k filename = some (Lines.text newline (lines ++ log))
  writing : ∀ i t next, (v.client i).main = .requestWrite filename t next →
    ∀ k, v.files k filename = some (Lines.text newline (lines ++ log ++
      if k.val < next ∧ tally .clientRequestWrite (v.requests i k) = 0 then [writeLine i t] else []))
  answered : ∀ i k, (v.client i).main = .reading filename k → ∀ p ∈ v.answers k i,
    p.messageType = .serverReplyReadClient → log.getLast?.or (Lines.last lines) = some p.msg
  result : ∀ i k, (v.client i).main = .reading filename k →
    (v.client i).serverDoneReadRequest = true →
    log.getLast?.or (Lines.last lines) = some (v.client i).readResult

/-- A client that has just begun a READ has not heard of it. -/
def Traffic.Unheard (v : Traffic n m) (i : Fin n) (c : Client n m) (filename : Bytes) : Prop :=
  ∀ k, c.main = .reading filename k → c.serverDoneReadRequest = false ∧
    ∀ p ∈ v.answers k i, p.messageType ≠ .serverReplyReadClient

theorem Traffic.unheard_of_main {v : Traffic n m} {i : Fin n} {c : Client n m} {filename : Bytes}
    (h : ∀ k, c.main ≠ .reading filename k) : v.Unheard i c filename :=
  fun k hm => absurd hm (h k)

namespace Traffic.Follows
variable {config : Config n m} {v v' : Traffic n m} {filename : Bytes} {lines log : List Bytes}

/-- The lines of the log come from finished bodies. -/
theorem written (h : v.Follows filename lines log) {line : Bytes} (hline : line ∈ log) :
    ∃ i t, Event.write i filename t ∈ v.history ∧ line = writeLine i t := by
  rw [Log.run_entries h.run, List.nil_append] at hline
  obtain ⟨a, ha, hentry⟩ := List.mem_filterMap.mp hline
  obtain ⟨e, he, haction⟩ := List.mem_filterMap.mp ha
  cases e with
  | read i f result =>
    obtain ⟨-, haction⟩ := Option.ite_none_right_eq_some.mp haction
    obtain rfl := Option.some.inj haction
    cases hentry
  | write i f t =>
    obtain ⟨hf, haction⟩ := Option.ite_none_right_eq_some.mp haction
    obtain rfl := Option.some.inj haction
    exact ⟨i, t, hf ▸ he, (Option.some.inj hentry).symm⟩

theorem quiet (h : v.Follows filename lines log) {client : Fin n → Client n m}
    (hq : ∀ i, (v.client i).Quiet (client i)) :
    { v with client := client }.Follows filename lines log where
  run := h.run
  idle hnone := h.idle fun i t next hm => hnone i t next ((hq i).main.trans hm)
  writing i t next hm := h.writing i t next ((hq i).main.symm.trans hm)
  answered i k hm := h.answered i k ((hq i).main.symm.trans hm)
  result i k hm hdone :=
    (h.result i k ((hq i).main.symm.trans hm) ((hq i).serverDoneReadRequest.symm.trans hdone)).trans
      (congrArg some (hq i).readResult.symm)

/-- A main thread moves, and has not heard of a READ after that. -/
theorem answered_main (h : v.Follows filename lines log) {i : Fin n} {c : Client n m}
    (hread : v.Unheard i c filename) : ∀ j k,
    (Function.update v.client i c j).main = .reading filename k → ∀ p ∈ v.answers k j,
    p.messageType = .serverReplyReadClient → log.getLast?.or (Lines.last lines) = some p.msg := by
  refine (Function.forall_update_iff v.client fun j c => ∀ k, c.main = .reading filename k →
    ∀ p ∈ v.answers k j, p.messageType = .serverReplyReadClient →
      log.getLast?.or (Lines.last lines) = some p.msg).mpr ⟨?_, fun j _ => h.answered j⟩
  intro k hm p hp ht
  exact absurd ht ((hread k hm).2 p hp)

theorem result_main (h : v.Follows filename lines log) {i : Fin n} {c : Client n m}
    (hread : v.Unheard i c filename) : ∀ j k,
    (Function.update v.client i c j).main = .reading filename k →
    (Function.update v.client i c j).serverDoneReadRequest = true →
    log.getLast?.or (Lines.last lines) = some (Function.update v.client i c j).readResult := by
  refine (Function.forall_update_iff v.client fun j c => ∀ k, c.main = .reading filename k →
    c.serverDoneReadRequest = true → _ = some c.readResult).mpr ⟨?_, fun j _ => h.result j⟩
  intro k hm hdone
  exact absurd hdone (Bool.eq_false_iff.mp (hread k hm).1)

/-- A main thread moves and has no WRITE of the file under way. -/
theorem silent (h : v.Follows filename lines log) {i : Fin n} {c : Client n m}
    {out : Fin m → List Message} {events : List (Event n m)}
    (hrun : (Log.machine (Lines.last lines)).run []
      ((v.history ++ events).filterMap (Event.action filename)) = some log)
    (hbefore : ∀ t next, (v.client i).main ≠ .requestWrite filename t next)
    (hafter : ∀ t next, c.main ≠ .requestWrite filename t next)
    (hread : v.Unheard i c filename) :
    { v with
      client := Function.update v.client i c
      requests := Function.update v.requests i fun k => v.requests i k ++ out k
      history := v.history ++ events }.Follows filename lines log := by
  refine ⟨hrun, fun hnone => h.idle fun j t next hm => ?_, fun j t next hm k => ?_,
    h.answered_main hread, h.result_main hread⟩
  · by_cases hj : j = i
    · exact hbefore t next (hj ▸ hm)
    · refine hnone j t next ?_
      simp only [Function.update_of_ne hj]
      exact hm
  · by_cases hj : j = i
    · simp only [hj, Function.update_self] at hm
      exact absurd hm (hafter t next)
    · simp only [Function.update_of_ne hj] at hm
      simp only [Function.update_of_ne hj]
      exact h.writing j t next hm k

/-- A main thread enters the body of a WRITE, when no other client is in one of the file. -/
theorem enterWrite (h : v.Follows filename lines log) {i : Fin n} {c : Client n m}
    {out : Fin m → List Message} {timestamp : ℕ}
    (hbefore : ∀ t next, (v.client i).main ≠ .requestWrite filename t next)
    (hafter : c.main = .requestWrite filename timestamp 0)
    (hexcl : Exclusive (Function.update v.client i c) filename) :
    { v with
      client := Function.update v.client i c
      requests := Function.update v.requests i fun k => v.requests i k ++ out k
      history := v.history ++ [] }.Follows filename lines log := by
  have hinside : (Function.update v.client i c i).inCriticalSection = some filename := by
    rw [Function.update_self]
    exact Client.inside_of_requestWrite hafter
  have hnone (j : Fin n) (t next : ℕ) : (v.client j).main ≠ .requestWrite filename t next := by
    intro hm
    by_cases hj : j = i
    · exact hbefore t next (hj ▸ hm)
    · refine hj (hexcl j i ?_ hinside)
      rw [Function.update_of_ne hj]
      exact Client.inside_of_requestWrite hm
  have hread : v.Unheard i c filename := unheard_of_main fun k => by simp [hafter]
  refine ⟨?_, fun hidle => ?_, fun j t next hm k => ?_, h.answered_main hread,
    h.result_main hread⟩
  · rw [List.append_nil]
    exact h.run
  · refine absurd ?_ (hidle i timestamp 0)
    simp only [Function.update_self]
    exact hafter
  · by_cases hj : j = i
    · subst hj
      simp only [Function.update_self, hafter] at hm
      obtain ⟨-, rfl, rfl⟩ := Main.requestWrite.inj hm
      rw [if_neg fun hk => Nat.not_lt_zero _ hk.1, List.append_nil (lines ++ log)]
      exact h.idle hnone k
    · simp only [Function.update_of_ne hj] at hm
      exact absurd hm (hnone j t next)

/-- The request to write goes to one more server. -/
theorem sendWrite (h : v.Follows filename lines log) {i : Fin n} {c : Client n m}
    {timestamp next : ℕ} (hnext : next < m) {text : Bytes}
    (hbefore : (v.client i).main = .requestWrite filename timestamp next)
    (hafter : c.main = .requestWrite filename timestamp (next + 1)) :
    { v with
      client := Function.update v.client i c
      requests := Function.update v.requests i fun k => v.requests i k ++
        Network.only (⟨next, hnext⟩ : Fin m) [(⟨.clientRequestWrite, text⟩ : Message)] k
      history := v.history ++ [] }.Follows filename lines log := by
  have hread : v.Unheard i c filename := unheard_of_main fun k => by simp [hafter]
  refine ⟨?_, fun hidle => ?_, fun j t u hm k => ?_, h.answered_main hread, h.result_main hread⟩
  · rw [List.append_nil]
    exact h.run
  · refine absurd ?_ (hidle i timestamp (next + 1))
    simp only [Function.update_self]
    exact hafter
  · by_cases hj : j = i
    · subst hj
      simp only [Function.update_self, hafter] at hm
      obtain ⟨-, rfl, rfl⟩ := Main.requestWrite.inj hm
      have hsame : (k.val < next + 1 ∧ tally .clientRequestWrite (v.requests j k ++
          Network.only (⟨next, hnext⟩ : Fin m) [(⟨.clientRequestWrite, text⟩ : Message)] k) = 0) ↔
          k.val < next ∧ tally .clientRequestWrite (v.requests j k) = 0 := by
        rw [tally_append, tally_only]
        by_cases hk : k.val = next
        · have hk' : k = ⟨next, hnext⟩ := Fin.ext hk
          simp [hk']
        · have hk' : ¬ k = ⟨next, hnext⟩ := fun hk' => hk (congrArg Fin.val hk')
          simp only [hk', false_and, decide_false, Bool.toNat_false, Nat.add_zero]
          omega
      simp only [Function.update_self, hsame]
      exact h.writing j timestamp next hbefore k
    · simp only [Function.update_of_ne hj] at hm
      simp only [Function.update_of_ne hj]
      exact h.writing j t u hm k

/-- A main thread finishes a WRITE, which all servers have done. -/
theorem finishWrite (h : v.Follows filename lines log) (hx : v.Exchanged) (hs : v.Stamped)
    (hexcl : Exclusive v.client filename) {i : Fin n} {c : Client n m}
    {out : Fin m → List Message} {timestamp next : ℕ} (hnext : m ≤ next)
    (hbefore : (v.client i).main = .requestWrite filename timestamp next)
    (hdone : ∀ k, (v.client i).serverDoneWriteRequest k = true)
    (hafter : c.inCriticalSection = some filename ∧ (∀ t u, c.main ≠ .requestWrite filename t u) ∧
      ∀ k, c.main ≠ .reading filename k) :
    { v with
      client := Function.update v.client i c
      requests := Function.update v.requests i fun k => v.requests i k ++ out k
      history := v.history ++ [Event.write i filename timestamp] }.Follows filename lines
        (log ++ [writeLine i timestamp]) := by
  obtain ⟨-, hwrite, hread⟩ := hafter
  have hinside := Client.inside_of_requestWrite hbefore
  have halone {j : Fin n} (hj : ¬ j = i) :
      ((Function.update v.client i c) j).inCriticalSection ≠ some filename := by
    rw [Function.update_of_ne hj]
    exact fun hother => hj (hexcl j i hother hinside)
  have hnew : writeLine i timestamp ∉ log := by
    intro hmem
    obtain ⟨j, t, hpast, hline⟩ := h.written hmem
    obtain ⟨hj, rfl⟩ := writeLine_injective hline
    obtain rfl := Fin.ext hj
    obtain ⟨-, -, hlater⟩ := (hs i).current filename timestamp next hbefore
    exact Nat.lt_irrefl timestamp (hlater filename timestamp hpast)
  refine ⟨?_, fun _ k => ?_, fun j t u hm => ?_, fun j k hm => ?_, fun j k hm => ?_⟩
  · have haction : [Event.write (m := m) i filename timestamp].filterMap (Event.action filename) =
        [.append (writeLine i timestamp)] := by
      simp [Event.action]
    rw [List.filterMap_append, haction, Machine.run_append, h.run, Option.bind_some,
      Machine.run_singleton]
    exact if_neg hnew
  · have hfile := h.writing i timestamp next hbefore k
    have htally : tally .clientRequestWrite (v.requests i k) = 0 := by
      have hk := (hx i).write k
      simp only [Client.owesWrite, hbefore, hdone, Bool.not_true, Bool.and_false,
        Bool.toNat_false] at hk
      exact (Nat.add_eq_zero_iff.mp hk).1
    rw [if_pos ⟨k.isLt.trans_le hnext, htally⟩, List.append_assoc] at hfile
    exact hfile
  · by_cases hj : j = i
    · simp only [hj, Function.update_self] at hm
      exact absurd hm (hwrite t u)
    · exact absurd (Client.inside_of_requestWrite hm) (halone hj)
  · by_cases hj : j = i
    · simp only [hj, Function.update_self] at hm
      exact absurd hm (hread k)
    · exact absurd (Client.inside_of_reading hm) (halone hj)
  · by_cases hj : j = i
    · simp only [hj, Function.update_self] at hm
      exact absurd hm (hread k)
    · exact absurd (Client.inside_of_reading hm) (halone hj)

/-- A server takes a request that is not a WRITE of the file. -/
theorem serve (h : v.Follows filename lines log) {k : Fin m} {i : Fin n} {packet : Message}
    {rest out : List Message} {files : Fin m → Bytes → Option Bytes}
    (hk : v.requests i k = packet :: rest) (hfiles : ∀ l, files l filename = v.files l filename)
    (hother : ∀ t next, (v.client i).main = .requestWrite filename t next →
      packet.messageType ≠ .clientRequestWrite)
    (hout : (v.client i).main = .reading filename k → ∀ p ∈ out,
      p.messageType = .serverReplyReadClient →
      log.getLast?.or (Lines.last lines) = some p.msg) :
    { v.serve k i rest out with files := files }.Follows filename lines log := by
  refine ⟨h.run, fun hnone l => (hfiles l).trans (h.idle hnone l), fun j t next hm l => ?_,
    fun j l hm p hp ht => ?_, h.result⟩
  · have htally : tally .clientRequestWrite ((v.serve k i rest out).requests j l) =
        tally .clientRequestWrite (v.requests j l) := by
      rw [requests_serve]
      by_cases hjl : j = i ∧ l = k
      · obtain ⟨rfl, rfl⟩ := hjl
        rw [if_pos ⟨rfl, rfl⟩, hk, tally_cons, decide_eq_false (hother t next hm)]
        rfl
      · rw [if_neg hjl]
    simp only [hfiles, htally]
    exact h.writing j t next hm l
  · change p ∈ (v.serve k i rest out).answers l j at hp
    rw [answers_serve] at hp
    by_cases hlj : l = k ∧ j = i
    · obtain ⟨rfl, rfl⟩ := hlj
      rw [if_pos ⟨rfl, rfl⟩] at hp
      exact (List.mem_append.mp hp).elim (fun hp => h.answered j l hm p hp ht)
        fun hp => hout hm p hp ht
    · rw [if_neg hlj] at hp
      exact h.answered j l hm p hp ht

/-- A server writes the line of a request. -/
theorem serveWrite (h : v.Follows filename lines log) (hx : v.Exchanged) (hs : v.Stamped)
    (hexcl : Exclusive v.client filename) {k : Fin m} {i : Fin n} {packet : Message}
    {rest out : List Message} {f line : Bytes} {tokens : List Bytes}
    (hk : v.requests i k = packet :: rest) (ht : packet.messageType = .clientRequestWrite)
    (hsplit : splitString hash packet.msg = f :: line :: tokens) :
    { v.serve k i rest out with
      files := Function.update v.files k (Function.update (v.files k) f
        (some (writeToFile (v.files k f) line))) }.Follows filename lines log := by
  obtain ⟨g, t, next, hm, hmsg⟩ := (hx i).writeText k packet (hk ▸ List.mem_cons_self) ht
  obtain ⟨rfl, rfl⟩ : f = g ∧ line = writeLine i t := by
    rw [hmsg, splitString_request ((hs i).named g t next hm)] at hsplit
    simp only [List.cons.injEq] at hsplit
    exact ⟨hsplit.1.symm, hsplit.2.1.symm⟩
  by_cases hf : f = filename
  · subst hf
    obtain ⟨howes, hrest⟩ := owed_of_request (hk ▸ (hx i).write k) ht
    obtain ⟨_, _, u, hu, hlt, -⟩ := Client.main_of_owesWrite howes
    obtain ⟨rfl, rfl, rfl⟩ := Main.requestWrite.inj (hm.symm.trans hu)
    refine ⟨h.run, fun hnone => absurd hm (hnone i t next), fun j t' u hm' l => ?_,
      fun j l hm' p hp htype => ?_, h.result⟩
    · obtain rfl := hexcl i j (Client.inside_of_requestWrite hm)
        (Client.inside_of_requestWrite hm')
      obtain ⟨-, rfl, rfl⟩ := Main.requestWrite.inj (hm.symm.trans hm')
      have hfile := h.writing i t next hm l
      by_cases hl : l = k
      · subst hl
        have hpending : ¬ (l.val < next ∧ tally .clientRequestWrite (v.requests i l) = 0) := by
          rw [hk, tally_cons, ht]
          simp
        rw [if_neg hpending, List.append_nil] at hfile
        have hdone : tally .clientRequestWrite ((v.serve l i rest out).requests i l) = 0 := by
          rw [requests_serve, if_pos ⟨rfl, rfl⟩, hrest]
        simp only [Function.update_self, hfile, hlt, hdone, and_self, if_true]
        exact congrArg some (writeToFile_text (lines ++ log) (writeLine i t))
      · have hsame : (v.serve k i rest out).requests i l = v.requests i l := by
          rw [requests_serve, if_neg fun hil => hl hil.2]
        simp only [Function.update_of_ne hl, hsame]
        exact hfile
    · change p ∈ (v.serve k i rest out).answers l j at hp
      rw [answers_serve] at hp
      by_cases hlj : l = k ∧ j = i
      · obtain ⟨rfl, rfl⟩ := hlj
        cases hm.symm.trans hm'
      · rw [if_neg hlj] at hp
        exact h.answered j l hm' p hp htype
  · refine h.serve hk (fun l => ?_) (fun t' u hm' => ?_) fun hm' => ?_
    · by_cases hl : l = k
      · rw [hl, Function.update_self, Function.update_of_ne (Ne.symm hf)]
      · rw [Function.update_of_ne hl]
    · exact absurd (Main.requestWrite.inj (hm.symm.trans hm')).1 hf
    · cases hm.symm.trans hm'

/-- A server reads the last line of the file, which no client writes. -/
theorem last_file (h : v.Follows filename lines log) (hs : v.Stamped) (hn : n < 2 ^ 31)
    (hexcl : Exclusive v.client filename) (hlines : ∀ line ∈ lines, ProperLine line) {i : Fin n}
    {l : Fin m} (hm : (v.client i).main = .reading filename l) (k : Fin m) :
    readLastLineOfFile (v.files k filename) = log.getLast?.or (Lines.last lines) := by
  have hnone (j : Fin n) (t next : ℕ) : (v.client j).main ≠ .requestWrite filename t next := by
    intro hm'
    obtain rfl := hexcl i j (Client.inside_of_reading hm) (Client.inside_of_requestWrite hm')
    cases hm.symm.trans hm'
  have hproper : ∀ line ∈ lines ++ log, ProperLine line := by
    intro line hline
    rcases List.mem_append.mp hline with hline | hline
    · exact hlines line hline
    · obtain ⟨j, t, hpast, rfl⟩ := h.written hline
      exact properLine_writeLine (j.isLt.trans hn) ((hs j).past filename t hpast).2
  have hlog : ∀ line ∈ log, line ≠ [] := by
    intro line hline
    obtain ⟨j, t, -, rfl⟩ := h.written hline
    exact writeLine_ne_nil _ _
  rw [h.idle hnone k, readLastLineOfFile_text hproper, Lines.last_append,
    Lines.last_of_forall_ne_nil hlog]

/-- A client learns an answer. -/
theorem answer (h : v.Follows filename lines log) (hx : v.Exchanged) {k : Fin m} {i : Fin n}
    {packet : Message} {rest : List Message} (hk : v.answers k i = packet :: rest) :
    { v with
      client := Function.update v.client i ((v.client i).treatServerPacket k packet)
      answers := Function.update v.answers k
        (Function.update (v.answers k) i rest) }.Follows filename lines log := by
  have hmain (j : Fin n) :
      (Function.update v.client i ((v.client i).treatServerPacket k packet) j).main =
        (v.client j).main := by
    by_cases hj : j = i
    · rw [hj, Function.update_self, Client.main_treatServerPacket]
    · rw [Function.update_of_ne hj]
  refine ⟨h.run, fun hnone => h.idle fun j t next hm => hnone j t next ((hmain j).trans hm),
    fun j t next hm => h.writing j t next ((hmain j).symm.trans hm), fun j l hm p hp => ?_,
    fun j l hreading hdone => ?_⟩
  · refine h.answered j l ((hmain j).symm.trans hm) p ?_
    simp only [update_update_apply] at hp
    by_cases hlj : l = k ∧ j = i
    · obtain ⟨rfl, rfl⟩ := hlj
      rw [if_pos ⟨rfl, rfl⟩] at hp
      exact hk ▸ List.mem_cons_of_mem packet hp
    · rwa [if_neg hlj] at hp
  · have hm := (hmain j).symm.trans hreading
    by_cases hj : j = i
    · subst hj
      simp only [Function.update_self, Client.serverDoneReadRequest_treatServerPacket,
        Bool.or_eq_true, decide_eq_true_eq] at hdone
      simp only [Function.update_self, Client.readResult_treatServerPacket]
      by_cases ht : packet.messageType = .serverReplyReadClient
      · have hp : packet ∈ v.answers k j := hk ▸ List.mem_cons_self
        obtain ⟨_, hm', -⟩ := Client.main_of_owesRead (owed_of_answer ((hx j).read k) hp ht)
        obtain ⟨-, rfl⟩ := Main.reading.inj (hm.symm.trans hm')
        rw [if_pos ht]
        exact h.answered j l hm packet hp ht
      · rw [if_neg ht]
        exact h.result j l hm (hdone.resolve_right ht)
    · simp only [Function.update_of_ne hj] at hdone ⊢
      exact h.result j l hm hdone

/-- Whatever a main thread does, the log is one that the machine of the log can reach. -/
theorem main (h : v.Follows filename lines log) (hx : v.Exchanged) (hs : v.Stamped)
    (hexcl : Exclusive v.client filename) {i : Fin n} {c : Client n m}
    {out : Fin m → List Message} {events : List (Event n m)}
    (hc : (v.client i).MainMove config i c out events)
    (hexcl' : Exclusive (Function.update v.client i c) filename) : ∃ log',
    { v with
      client := Function.update v.client i c
      requests := Function.update v.requests i fun k => v.requests i k ++ out k
      history := v.history ++ events }.Follows filename lines log' := by
  have hrun : (Log.machine (Lines.last lines)).run []
      ((v.history ++ []).filterMap (Event.action filename)) = some log := by
    rw [List.append_nil]
    exact h.run
  cases hc with
  | enquire hm | enquired hm | request hm | enterRead hm | tell _ hm | release _ hm =>
    exact ⟨log, h.silent hrun (by simp [hm]) (by simp) (unheard_of_main (by simp))⟩
  | @sendRead f k hm =>
    refine ⟨log, h.silent hrun (by simp [hm]) (by simp) fun l hl => ?_⟩
    have howes := Exchanged.owesRead_of_main (c := v.client i) (by simp [hm]) l
    have hread := (hx i).read l
    rw [howes, Bool.toNat_false, Nat.add_eq_zero_iff] at hread
    exact ⟨(hx i).readUnsent f k hm, tally_eq_zero.mp hread.2⟩
  | @enterWrite f hm ht =>
    by_cases hf : f = filename
    · subst hf
      exact ⟨log, h.enterWrite (by simp [hm]) rfl hexcl'⟩
    · exact ⟨log, h.silent hrun (by simp [hm]) (by simp [hf]) (unheard_of_main (by simp))⟩
  | @sendWrite f timestamp next hnext hm =>
    by_cases hf : f = filename
    · subst hf
      exact ⟨log, h.sendWrite hnext hm rfl⟩
    · exact ⟨log, h.silent hrun (by simp [hm, hf]) (by simp [hf]) (unheard_of_main (by simp))⟩
  | @read f k hm hdone =>
    refine ⟨log, h.silent ?_ (by simp [hm]) (by simp [Client.finish])
      (unheard_of_main (by simp [Client.finish]))⟩
    rw [List.filterMap_append, Machine.run_append, h.run, Option.bind_some]
    by_cases hf : f = filename
    · subst hf
      simp only [List.filterMap_cons, Event.action, if_true, List.filterMap_nil,
        Machine.run_singleton]
      exact if_pos (h.result i k hm hdone)
    · simp only [List.filterMap_cons, Event.action, if_neg hf, List.filterMap_nil]
      rfl
  | @write f timestamp next hnext hm hdone =>
    by_cases hf : f = filename
    · subst hf
      refine ⟨log ++ [writeLine i timestamp], h.finishWrite hx hs hexcl hnext hm hdone ?_⟩
      simp [Client.finish, Client.inCriticalSection]
    · refine ⟨log, h.silent ?_ (by simp [hm, hf]) (by simp [Client.finish])
        (unheard_of_main (by simp [Client.finish]))⟩
      rw [List.filterMap_append, Machine.run_append, h.run, Option.bind_some]
      simp only [List.filterMap_cons, Event.action, if_neg hf, List.filterMap_nil]
      rfl

theorem move (h : v.Follows filename lines log) (hx : v.Exchanged) (hs : v.Stamped)
    (hn : n < 2 ^ 31) (hlines : ∀ line ∈ lines, ProperLine line)
    (hexcl : Exclusive v.client filename) (hexcl' : Exclusive v'.client filename)
    (hmove : v.Move config v') : ∃ log', v'.Follows filename lines log' := by
  cases hmove with
  | quiet hq => exact ⟨log, h.quiet hq⟩
  | main hc => exact h.main hx hs hexcl hc hexcl'
  | answer hk => exact ⟨log, h.answer hx hk⟩
  | write hk ht hsplit => exact ⟨log, h.serveWrite hx hs hexcl hk ht hsplit⟩
  | @read k i packet rest result hk ht hresult =>
    refine ⟨log, h.serve hk (fun _ => rfl) (fun _ _ _ => by simp [ht]) fun hm p hp _ => ?_⟩
    have htext := (hx i).readText k packet (hk ▸ List.mem_cons_self) ht
    obtain ⟨hfile, -⟩ := Main.reading.inj (htext.symm.trans hm)
    obtain rfl := List.mem_singleton.mp hp
    rw [hfile, h.last_file hs hn hexcl hlines hm k] at hresult
    exact hresult
  | other hk hw hr hout =>
    refine ⟨log, h.serve hk (fun _ => rfl) (fun _ _ _ => hw) fun _ p hp ht => ?_⟩
    exact absurd ((hout p hp).symm.trans ht) (by decide)

end Traffic.Follows

theorem treatPacket_read {v : Server n} {i : Fin n} {packet : Message} {result : Bytes}
    (ht : packet.messageType = .clientRequestRead)
    (hresult : readLastLineOfFile (v.files packet.msg) = some result) :
    v.treatPacket i packet = some (v, [⟨.serverReplyReadClient, result⟩]) := by
  simp only [Server.treatPacket, ht, Server.handleReadRequest, hresult, Option.map_some]

theorem treatPacket_write {v : Server n} {i : Fin n} {packet : Message} {f line : Bytes}
    {tokens : List Bytes} (ht : packet.messageType = .clientRequestWrite)
    (hsplit : splitString hash packet.msg = f :: line :: tokens) :
    ∃ v', v.treatPacket i packet = some (v', [⟨.serverReplyWriteClient, []⟩]) := by
  simp only [Server.treatPacket, ht, Server.handleWriteRequest, hsplit, Option.map_some]
  exact ⟨_, rfl⟩

/-- The initial lines of a file. -/
structure Config.Hosts (config : Config n m) (filename : Bytes) (lines : List Bytes) : Prop where
  files : config.files filename = some (Lines.text newline lines)
  proper : ∀ line ∈ lines, ProperLine line
  notBlank : ∃ line ∈ lines, line ≠ []

/-- The step lemma of the simulation gives its run lemma. -/
theorem follows_of_guarded {config : Config n m} {filename : Bytes} {lines : List Bytes}
    (hhosts : config.Hosts filename lines)
    (hnames : ∀ i, ∀ request ∈ config.input i, hash ∉ request.filename) {s : State n m}
    (h : (machine config).Guarded (excludes config filename) s) :
    Exclusive s.client filename ∧ ∃ log, s.traffic.Follows filename lines log := by
  refine Machine.Guarded.invariant_of
    (J := fun s => s.traffic.Exchanged ∧ s.traffic.Stamped)
    (I := fun s => Exclusive s.client filename ∧ ∃ log, s.traffic.Follows filename lines log)
    ?_ ?_ ?_ h
  · intro s hs
    have hreach : (machine config).Reachable s := hs.mono fun _ _ _ => trivial
    exact ⟨exchanged_of_reachable hreach, stamped_of_reachable hnames hreach⟩
  · rintro s rfl
    refine ⟨nofun, [], rfl, fun _ k => ?_, nofun, nofun, nofun⟩
    rw [List.append_nil]
    exact hhosts.files
  · rintro s a t ⟨hx, hs⟩ - ⟨hexcl, log, hlog⟩ hguard hstep
    have hexcl' := hguard t hstep
    exact ⟨hexcl', hlog.move hx hs config.ids hhosts.proper hexcl hexcl' (move_of_step hstep)⟩

/-- All servers together are as good as one log of the file. -/
structure State.Refines (s : State n m) (filename : Bytes) (lines : List Bytes) : Prop where
  run : (Log.machine (Lines.last lines)).run [] (s.history.filterMap (Event.action filename)) =
    some (written filename s.history)
  copies : (∀ i, (s.client i).inCriticalSection ≠ some filename) → ∀ k,
    (s.server k).files filename =
      some (Lines.text newline (lines ++ written filename s.history))
  distinct : (written filename s.history).Nodup
  reads : ∀ before i k result after, s.history = before ++ .read i filename k result :: after →
    (written filename before).getLast?.or (Lines.last lines) = some result
  /-- No request is refused. -/
  readDone : ∀ i k packet rest, s.inFlight (.client i) (.server k) = packet :: rest →
    packet.messageType = .clientRequestRead → packet.msg = filename → ∃ result,
      (written filename s.history).getLast?.or (Lines.last lines) = some result ∧
      (s.server k).treatPacket i packet = some (s.server k, [⟨.serverReplyReadClient, result⟩])
  writeDone : ∀ i k packet rest, s.inFlight (.client i) (.server k) = packet :: rest →
    packet.messageType = .clientRequestWrite → ∃ v,
      (s.server k).treatPacket i packet = some (v, [⟨.serverReplyWriteClient, []⟩])

/-- While critical sections of a file never overlap, its copies refine one log. -/
theorem replicas_refine_log (config : Config n m) (filename : Bytes) (lines : List Bytes)
    (hhosts : config.Hosts filename lines)
    (hnames : ∀ i, ∀ request ∈ config.input i, hash ∉ request.filename) (s : State n m)
    (h : (machine config).Guarded (excludes config filename) s) : s.Refines filename lines := by
  obtain ⟨hexcl, log, hlog⟩ := follows_of_guarded hhosts hnames h
  have hreach : (machine config).Reachable s := h.mono fun _ _ _ => trivial
  have hx := exchanged_of_reachable hreach
  have hs := stamped_of_reachable hnames hreach
  obtain rfl : log = written filename s.history := Log.run_entries hlog.run
  refine ⟨hlog.run, fun hnone k => ?_, Log.nodup_run hlog.run List.nodup_nil,
    fun before i k result after hhistory => ?_, fun i k packet rest hmail ht hmsg => ?_,
    fun i k packet rest hmail ht => ?_⟩
  · refine hlog.idle (fun i t next hm => ?_) k
    exact hnone i (Client.inside_of_requestWrite hm)
  · have hrun := hlog.run
    change (Log.machine _).run [] (s.history.filterMap _) = _ at hrun
    rw [hhistory, List.filterMap_append, List.filterMap_cons] at hrun
    simp only [Event.action, if_true] at hrun
    exact Log.read_run hrun
  · subst hmsg
    have hmail : s.traffic.requests i k = packet :: rest := hmail
    have hp : packet ∈ s.traffic.requests i k := hmail ▸ List.mem_cons_self
    have hm := (hx i).readText k packet hp ht
    have hfile := hlog.last_file hs config.ids hexcl hhosts.proper hm k
    cases hlast : (written packet.msg s.history).getLast?.or (Lines.last lines) with
    | none =>
      obtain ⟨line, hline, hne⟩ := hhosts.notBlank
      exact absurd (Lines.last_eq_none_iff.mp (Option.or_eq_none_iff.mp hlast).2 line hline) hne
    | some result => exact ⟨result, rfl, treatPacket_read ht (hfile.trans hlast)⟩
  · have hmail : s.traffic.requests i k = packet :: rest := hmail
    have hp : packet ∈ s.traffic.requests i k := hmail ▸ List.mem_cons_self
    obtain ⟨f, t, next, hm, hmsg⟩ := (hx i).writeText k packet hp ht
    exact treatPacket_write ht (hmsg ▸ splitString_request ((hs i).named f t next hm) i t)

def writeThenRead : Config 2 2 where
  ids := two_ids
  criticalSectionAlgType := .ra
  nRequests := 2
  enquiry _ := 0
  input := ![[.write [102]], [.read [102] 1]]
  files f := if f = [102] then some [97, newline] else none

/-- Client i from its start into the body of its first request. -/
def firstBody (i : Fin 2) : List (Action 2 2) :=
  [.mainStep i, .treatRequest 0 i, .treatServerPacket i 0, .mainStep i, .mainStep i, .mainStep i,
    .mainStep i]

/-- Client 0 writes to both servers and leaves, then client 1 reads from server 1. -/
def writeThenReadRun : List (Action 2 2) :=
  firstBody 0 ++ [.mainStep 0, .treatRequest 1 0, .treatRequest 0 0, .treatServerPacket 0 0,
    .treatServerPacket 0 1, .mainStep 0, .mainStep 0] ++
  firstBody 1 ++ [.treatRequest 1 1, .treatServerPacket 1 1, .mainStep 1, .mainStep 1]

theorem replicas_refine_log_in_writeThenReadRun : ∃ s,
    (machine writeThenRead).run (initial writeThenRead) writeThenReadRun = some s ∧
    s.history = [.write 0 [102] 2, .read 1 [102] 1 (writeLine 0 2)] ∧ s.Refines [102] [[97]] := by
  obtain ⟨s, hrun, hp⟩ := (machine writeThenRead).exists_run (s := initial writeThenRead)
    writeThenReadRun (fun s => s.history = [.write 0 [102] 2, .read 1 [102] 1 (writeLine 0 2)])
    (by decide +kernel)
  have hguard : (machine writeThenRead).Along (excludes writeThenRead [102])
      (initial writeThenRead) writeThenReadRun := by decide +kernel
  have hhosts : writeThenRead.Hosts [102] [[97]] := by
    refine ⟨rfl, fun line hline => ?_, [97], List.mem_singleton_self _, by decide⟩
    obtain rfl := List.mem_singleton.mp hline
    exact ⟨by decide, by decide, by decide⟩
  exact ⟨s, hrun, of_decide_eq_true hp, replicas_refine_log writeThenRead [102] [[97]] hhosts
    (by decide) s (hguard.guarded (.init rfl) hrun)⟩

end DistributedME.Cluster
