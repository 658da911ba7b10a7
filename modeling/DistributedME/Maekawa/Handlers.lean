import DistributedME.Maekawa.Requests

/-! What a handler in the loop of treat_inquire_message has before it and behind it: its client
has the lock that is asked for, and what waits on the connection can wait. -/
namespace DistributedME.Maekawa
open Library
variable {n : ℕ}

/-- The INQUIRE that a handler in its loop has taken from its connection. -/
def Handler.bodies : Handler → List Body
  | .inquiring .loopFailed grant | .inquiring .loopLocked grant => [.inquire grant]
  | _ => []

/-- What client i has still to deal with of the messages from j, oldest first. -/
def State.unanswered (s : State n) (i j : Fin n) : List Body :=
  (s.handler i j).bodies ++ (s.inFlight j i).map Message.body

/-- The request of a client, as arbiters keep it. -/
def State.request (s : State n) (i : Fin n) : Request n :=
  ⟨(s.strategy i).ourSequenceNumber, some i⟩

/-- No RELINQUISH comes to wait behind an INQUIRE for the lock of an earlier request. -/
def unhindered (s : State n) : Action n → Bool
  | .treatInquireMessage i j =>
    match s.handler i j with
    | .inquiring .relinquish _ => !(s.unanswered j i).any Body.isInquire ||
        decide ((s.request i).key ≤ (s.strategy i).lockingRequest.key)
    | _ => true
  | _ => true

/-- A message of client j to client i that may wait behind the INQUIRE of j's current grant. -/
def State.Harmless (s : State n) (i j : Fin n) : Body → Prop
  | .relinquish _ => (s.strategy j).isLocked = true →
      (s.request j).key ≤ (s.strategy j).lockingRequest.key
  | .release => i = j
  | _ => True

def State.Passes (s : State n) (i j : Fin n) (x y : Body) : Prop :=
  x = .inquire (s.strategy j).grants → s.Harmless i j y

def State.Unhindered (s : State n) : Prop :=
  ∀ i j, (s.unanswered i j).Pairwise (s.Passes i j)

/-- The client of a handler in its loop waits with the lock that is asked for, or is inside. -/
def State.Spinning (s : State n) : Prop :=
  ∀ i j, (s.handler i j).spins = true →
    (s.strategy i).requestReply j = .locked ∧ s.main i ≠ .idle

@[simp] theorem setHandler_handler (s : State n) (i j x y : Fin n) (h : Handler) :
    (s.setHandler i j h).handler x y = if x = i ∧ y = j then h else s.handler x y :=
  update_update_apply s.handler i j h x y

theorem unanswered_write (s : State n) (k : Fin n) (c : Strategy n) (m : MainThread)
    (out : Fin n → List Message) (i j : Fin n) : (s.write k c m out).unanswered i j =
      s.unanswered i j ++ if j = k then (out i).map Message.body else [] := by
  simp only [State.unanswered, State.write, Network.post_apply, List.map_append]
  rw [List.append_assoc]
  split_ifs <;> rfl

/-- A step of a handler does not take it into the loop, and only the last one sends. -/
theorem handler_step {Q : Quorums n} {s t : State n} {i j : Fin n}
    (h : step Q s (.treatInquireMessage i j) = some t) :
    (∃ h', h'.bodies.Sublist (s.handler i j).bodies ∧
      (h'.spins = true → (s.handler i j).spins = true) ∧ t = s.setHandler i j h') ∨
    ∃ grant, s.handler i j = .inquiring .relinquish grant ∧
      t = (s.setHandler i j .ready).write i ((s.strategy i).relinquish j grant).1 (s.main i)
        ((s.strategy i).relinquish j grant).2 := by
  simp only [step] at h
  split at h <;> cases h
  · next grant hs =>
    refine .inl ⟨_, ?_, ?_, rfl⟩
    · rw [hs]
      split_ifs <;> simp [Handler.bodies]
    · simp [hs, Handler.spins]
  · next grant hs =>
    refine .inl ⟨_, ?_, ?_, rfl⟩
    · rw [hs]
      split_ifs <;> simp [Handler.bodies]
    · simp [hs, Handler.spins]
  · next grant hs =>
    refine .inl ⟨_, ?_, ?_, rfl⟩
    · rw [hs]
      split_ifs <;> simp [Handler.bodies]
    · rw [hs]
      split_ifs <;> simp [Handler.spins]
  · exact .inl ⟨.ready, List.nil_sublist _, fun h => (Bool.false_ne_true h).elim, rfl⟩
  · next grant hs => exact .inr ⟨grant, hs, rfl⟩

section spinning
variable {Q : Quorums n} {s t : State n} {a : Action n}

/-- An idle client counts on no lock. -/
private theorem not_locked_of_idle {k i : Fin n} (h : (s.view Q k).Held) (hm : s.main i = .idle) :
    (s.strategy i).requestReply k ≠ .locked := by
  intro hlocked
  have hheld := h.client i
  have htoken := hheld.token
  have hholds : ((s.view Q k).side i).holds = true := by
    simp [State.view, State.side, Side.holds, hm, hlocked]
  have hone := Bool.toNat_le ((s.view Q k).arbiter.holder i)
  simp only [Side.tokens, hholds, Bool.toNat_true] at htoken
  have hpos := (hheld.nothing_asked hm).2.2 (by
    rw [← Bool.toNat_eq_one]
    omega)
  omega

/-- The step lemma. -/
theorem spinning_step (hheld : ∀ k, (s.view Q k).Held) (h : s.Spinning)
    (hn : noticed s a = true) (hs : step Q s a = some t) : t.Spinning := by
  have hother {u : State n} {k : Fin n} (hhandler : u.handler = s.handler)
      (hstrategy : ∀ i, i ≠ k → (u.strategy i).requestReply = (s.strategy i).requestReply)
      (hmain : ∀ i, i ≠ k → u.main i = s.main i)
      (hself : ∀ j, (s.handler k j).spins = true →
        (u.strategy k).requestReply j = .locked ∧ u.main k ≠ .idle) : u.Spinning := by
    intro i j hspins
    rw [hhandler] at hspins
    by_cases hi : i = k
    · subst i
      exact hself j hspins
    · rw [hstrategy i hi, hmain i hi]
      exact h i j hspins
  have he := effect_of_step hs
  cases a with
  | requestResource k =>
    obtain ⟨hm, rfl⟩ := he
    refine hother (k := k) rfl (fun i hi => by simp [State.write, hi])
      (fun i hi => by simp [State.write, hi]) fun j hspins => ?_
    exact absurd hm (h k j hspins).2
  | canEnterCriticalSection k =>
    obtain ⟨hm, rfl⟩ := he
    refine hother (k := k) rfl (fun i _ => by simp [State.write])
      (fun i hi => by simp [State.write, hi]) fun j hspins => ⟨?_, ?_⟩
    · simpa [State.write] using (h k j hspins).1
    · simp only [State.write, Function.update_self]
      split_ifs <;> exact MainThread.noConfusion
  | releaseResource k =>
    obtain ⟨hm, rfl⟩ := he
    refine hother (k := k) rfl (fun i hi => by simp [State.write, hi])
      (fun i hi => by simp [State.write, hi]) fun j hspins => ?_
    have hno := of_decide_eq_true hn j
    exact absurd hspins (Bool.eq_false_iff.mp hno)
  | treatMessage k j place =>
    obtain ⟨before, message, behind, c, out, hl, rfl, hready, hc, rfl⟩ := he
    have hat : (s.inFlight j k)[before.length]? = some message := by
      rw [hl, List.getElem?_append_right (le_refl _)]
      simp
    have hreply := requestReply_treatMessage hc
    intro x y hspins
    rw [setHandler_handler] at hspins
    by_cases hxy : x = k ∧ y = j
    · obtain ⟨rfl, rfl⟩ := hxy
      rw [if_pos ⟨rfl, rfl⟩] at hspins
      obtain ⟨ts, body⟩ := message
      cases body with
      | inquire grant =>
        simp only [noticed, hat, decide_eq_true_eq] at hn
        simp only [State.setHandler, State.write, State.receive, Function.update_self]
        exact ⟨(congrFun hreply y).trans hn, fun hm => not_locked_of_idle (hheld y) hm hn⟩
      | _ => cases hspins
    · rw [if_neg hxy] at hspins
      obtain ⟨hlocked, hm⟩ := h x y hspins
      by_cases hx : x = k
      · subst x
        have hy : y ≠ j := fun hy => hxy ⟨rfl, hy⟩
        simp only [State.setHandler, State.write, State.receive, Function.update_self]
        refine ⟨?_, hm⟩
        split at hreply <;> rw [hreply]
        · rwa [Function.update_of_ne hy]
        · rwa [Function.update_of_ne hy]
        all_goals exact hlocked
      · simpa [State.setHandler, State.write, State.receive, hx] using ⟨hlocked, hm⟩
  | treatInquireMessage k j =>
    rcases handler_step hs with ⟨h', -, hloop, rfl⟩ | ⟨grant, hrel, rfl⟩
    · intro x y hspins
      rw [setHandler_handler] at hspins
      split_ifs at hspins with hxy
      · obtain ⟨rfl, rfl⟩ := hxy
        exact h x y (hloop hspins)
      · exact h x y hspins
    · intro x y hspins
      simp only [State.write] at hspins
      rw [setHandler_handler] at hspins
      split_ifs at hspins with hxy
      · cases hspins
      · obtain ⟨hlocked, hm⟩ := h x y hspins
        by_cases hx : x = k
        · subst x
          have hy : y ≠ j := fun hy => hxy ⟨rfl, hy⟩
          simpa [State.setHandler, State.write, Strategy.relinquish, hy] using ⟨hlocked, hm⟩
        · simpa [State.setHandler, State.write, hx] using ⟨hlocked, hm⟩

end spinning

/-- What treat_message does to the lock: a new grant, no lock at all, or nothing. -/
private theorem lock_treatMessage {c c' : Strategy n} {j : Fin n} {m : Message}
    {out : Fin n → List Message} (h : c.treatMessage j m = some (c', out)) :
    c'.ourSequenceNumber = c.ourSequenceNumber ∧
      (c'.grants = c.grants + 1 ∨ c'.grants = c.grants ∧ (c'.isLocked = false ∨
        c'.isLocked = c.isLocked ∧ c'.lockingRequest = c.lockingRequest)) := by
  have harb {p : Promise} {u : Up} {down : Fin n → List Down}
      (ha : Arbitration p c.arbiter j u c'.arbiter down) :
      c'.arbiter.grants = c.arbiter.grants + 1 ∨ c'.arbiter.grants = c.arbiter.grants ∧
        (c'.arbiter.isLocked = false ∨ c'.arbiter.isLocked = c.arbiter.isLocked ∧
          c'.arbiter.locking = c.arbiter.locking) := by
    generalize c'.arbiter = b at ha
    cases ha with
    | accept | hand | replace => exact .inl rfl
    | free => exact .inr ⟨rfl, .inl rfl⟩
    | refuse | inquire | await => exact .inr ⟨rfl, .inr ⟨rfl, rfl⟩⟩
  obtain ⟨t, body⟩ := m
  let p : Promise := ⟨False, False, False, False, False⟩
  cases body with
  | request =>
    obtain ⟨hsame, down, -, ha⟩ := treatRequest_arbitration (p := p) h False.elim
    exact ⟨hsame.1, harb ha⟩
  | relinquish grant =>
    obtain ⟨hsame, down, -, ha⟩ := @treatRelinquish_arbitration n p c c' j grant out h
    exact ⟨hsame.1, harb ha⟩
  | release =>
    obtain ⟨hsame, down, -, ha⟩ := treatRelease_arbitration (p := p) h
    exact ⟨hsame.1, harb ha⟩
  | locked | inquire | failed =>
    cases h
    exact ⟨rfl, .inr ⟨rfl, .inr ⟨rfl, rfl⟩⟩⟩

section unhindered
variable {Q : Quorums n} {s t u : State n} {a : Action n}

/-- An INQUIRE that is not dealt with asks for this grant or an earlier one. If it is this one,
its client has the lock. -/
theorem grant_of_unanswered (hasked : ∀ k, (s.view Q k).Asked) {i j : Fin n} {g : ℕ}
    (hg : .inquire g ∈ s.unanswered i j) : g ≤ (s.strategy j).grants ∧
      (g = (s.strategy j).grants → (s.strategy j).isInquireReplied i = false) := by
  have h := hasked j i
  have honce := h.once
  rcases List.mem_append.mp hg with hg | hg
  · obtain ⟨point, hpoint⟩ : ∃ point, s.handler i j = .inquiring point g := by
      cases hh : s.handler i j with
      | ready => simp [hh, Handler.bodies] at hg
      | inquiring point grant =>
        rw [hh] at hg
        cases point <;> simp [Handler.bodies] at hg <;> exact ⟨_, by rw [hg]⟩
    refine ⟨h.handling point g hpoint, ?_⟩
    rintro rfl
    have habout : ((s.view Q j).side i).handler.about (s.view Q j).arbiter.grants = true := by
      simp [State.view, State.side, Strategy.arbiter, hpoint, Handler.about]
    simp only [habout, Bool.toNat_true] at honce
    by_contra hno
    have hyes : (s.view Q j).arbiter.replied i = true := Bool.not_eq_false _ ▸ hno
    simp only [hyes, Bool.not_true, Bool.toNat_false] at honce
    omega
  · obtain ⟨message, hm, hbody⟩ := List.mem_map.mp hg
    have hdown : .inquire g ∈ ((s.view Q j).side i).down :=
      List.mem_filterMap.mpr ⟨message, hm, by simp [Message.down?, hbody]⟩
    refine ⟨h.inquired g hdown, ?_⟩
    rintro rfl
    have hpos := List.count_pos_iff.mpr hdown
    by_contra hno
    have hyes : (s.view Q j).arbiter.replied i = true := Bool.not_eq_false _ ▸ hno
    have hpos : 0 < ((s.view Q j).side i).down.count (.inquire (s.view Q j).arbiter.grants) := hpos
    simp only [hyes, Bool.not_true, Bool.toNat_false] at honce
    omega

/-- Taking messages from the front keeps the rest in place. -/
private theorem unhindered_sublist (h : s.Unhindered) (hstrategy : u.strategy = s.strategy)
    (hsub : ∀ i j, (u.unanswered i j).Sublist (s.unanswered i j)) : u.Unhindered := by
  intro i j
  refine ((h i j).sublist (hsub i j)).imp fun {x y} hpass hx => ?_
  have := hpass (hstrategy ▸ hx)
  revert this
  unfold State.Harmless State.request
  rw [hstrategy]
  exact id

/-- A section of client k that may change its lock and sends what may wait. -/
private theorem unhindered_write {k : Fin n} {c : Strategy n} {m : MainThread}
    {out : Fin n → List Message} (h : s.Unhindered)
    (hlock : ∀ i x y, x ∈ s.unanswered i k → y ∈ s.unanswered i k → s.Passes i k x y →
      (s.write k c m out).Passes i k x y)
    (hout : ∀ i, ∀ y ∈ (out i).map Message.body, ∀ x ∈ s.unanswered i k ++ (out i).map Message.body,
      (s.write k c m out).Passes i k x y) : (s.write k c m out).Unhindered := by
  intro i j
  rw [unanswered_write]
  by_cases hj : j = k
  · subst j
    rw [if_pos rfl]
    refine List.pairwise_append.mpr ⟨(h i k).imp_of_mem fun {x y} => hlock i x y, ?_, ?_⟩
    · exact List.pairwise_of_forall_mem_list fun x hx y hy =>
        hout i y hy x (List.mem_append_right _ hx)
    · exact fun x hx y hy => hout i y hy x (List.mem_append_left _ hx)
  · rw [if_neg hj, List.append_nil]
    refine (h i j).imp fun {x y} hpass hx => ?_
    simp only [State.write, Function.update_of_ne hj] at hx
    have hharmless := hpass hx
    revert hharmless
    unfold State.Harmless State.request
    simp only [State.write, Function.update_of_ne hj]
    exact id

/-- A section that leaves the lock and the number of the client's request alone. -/
private theorem passes_write {k : Fin n} {c : Strategy n} {m : MainThread}
    {out : Fin n → List Message} (hc : c.arbiter = (s.strategy k).arbiter)
    (hours : c.ourSequenceNumber = (s.strategy k).ourSequenceNumber) {i : Fin n} {x y : Body}
    (h : s.Passes i k x y) : (s.write k c m out).Passes i k x y := by
  have hgrants : c.grants = (s.strategy k).grants := congrArg Arbiter.grants hc
  have hlocking : c.lockingRequest = (s.strategy k).lockingRequest := congrArg Arbiter.locking hc
  have hlocked : c.isLocked = (s.strategy k).isLocked := congrArg Arbiter.isLocked hc
  intro hx
  simp only [State.write, Function.update_self, hgrants] at hx
  have hharmless := h hx
  revert hharmless
  unfold State.Harmless State.request
  simp only [State.write, Function.update_self, hlocking, hlocked, hours]
  exact id

/-- An idle client has no RELINQUISH out. -/
private theorem relinquish_notMem {i k : Fin n} {g : ℕ} (h : (s.view Q i).Held)
    (hm : s.main k = .idle) : .relinquish g ∉ s.unanswered i k := by
  intro hg
  rcases List.mem_append.mp hg with hg | hg
  · unfold Handler.bodies at hg
    split at hg <;> simp at hg
  · obtain ⟨message, hmem, hbody⟩ := List.mem_map.mp hg
    have hup : .relinquish g ∈ ((s.view Q i).side k).up :=
      List.mem_filterMap.mpr ⟨message, hmem, by simp [Message.up?, hbody]⟩
    have hpos : 0 < relinquishes ((s.view Q i).side k).up := List.countP_pos_iff.mpr ⟨_, hup, rfl⟩
    have hpolling := ((h.client k).waiting (Nat.add_pos_right _ hpos)).1
    exact absurd (hm.symm.trans hpolling) MainThread.noConfusion

/-- A client that is inside has the locks of its quorum. -/
private theorem holder_of_inside {i k : Fin n} (h : (s.view Q k).Held) (hk : k ∈ Q.quorum i)
    (hm : s.main i = .inside) : (s.view Q k).arbiter.holder i = true := by
  have htoken := (h.client i).token
  have hone := Bool.toNat_le ((s.view Q k).arbiter.holder i)
  have hholds : ((s.view Q k).side i).holds = true := by
    simp [State.view, State.side, Side.holds, hm, hk]
  simp only [Side.tokens, hholds, Bool.toNat_true] at htoken
  rw [← Bool.toNat_eq_one]
  omega

/-- The step lemma. -/
theorem unhindered_step (hheld : ∀ k, (s.view Q k).Held) (hasked : ∀ k, (s.view Q k).Asked)
    (h : s.Unhindered) (ho : inOrder a = true) (hu : unhindered s a = true)
    (hs : step Q s a = some t) : t.Unhindered := by
  have he := effect_of_step hs
  cases a with
  | requestResource k =>
    obtain ⟨hm, rfl⟩ := he
    refine unhindered_write h (fun i x y hx hy hpass hcurrent => ?_) fun i y hy x hx hcurrent => ?_
    · simp only [State.write, Function.update_self] at hcurrent
      have hharmless := hpass hcurrent
      cases y with
      | relinquish grant =>
        exact absurd hy (relinquish_notMem (hheld i) hm)
      | _ => exact hharmless
    · simp only [Strategy.requestResource] at hy
      split_ifs at hy
      · obtain rfl := List.mem_singleton.mp hy
        trivial
      · cases hy
  | canEnterCriticalSection k =>
    obtain ⟨hm, rfl⟩ := he
    exact unhindered_write h (fun i x y _ _ => passes_write rfl rfl)
      fun i y hy => (List.not_mem_nil hy).elim
  | releaseResource k =>
    obtain ⟨hm, rfl⟩ := he
    let c := ((s.strategy k).releaseResource (Q.quorum k)).1
    refine unhindered_write h (fun i x y _ _ => passes_write (c := c) rfl rfl)
      fun i y hy x hx hcurrent => ?_
    simp only [Strategy.releaseResource] at hy hx
    split_ifs at hy hx with hi
    · obtain rfl := List.mem_singleton.mp hy
      rcases List.mem_append.mp hx with hx | hx
      · -- the client that is inside has its own lock, so no other one is asked for it
        simp only [State.write, Function.update_self] at hcurrent
        subst hcurrent
        have hno := (grant_of_unanswered hasked hx).2 rfl
        have hholder := (((hheld k).client i).replied hno).1
        exact holder_unique hholder (holder_of_inside (hheld k) (Q.self_mem k) hm)
      · rw [List.mem_singleton.mp hx] at hcurrent
        cases hcurrent
    · cases hy
  | treatMessage k j place =>
    obtain ⟨before, message, behind, c, out, hl, rfl, hready, hc, rfl⟩ := he
    obtain rfl := List.length_eq_zero_iff.mp (beq_iff_eq.mp ho)
    rw [List.nil_append] at hl ⊢
    let u := (s.receive k j behind).setHandler k j message.body.handler
    have hsub (x y : Fin n) : (u.unanswered x y).Sublist (s.unanswered x y) := by
      simp only [u, State.unanswered, setHandler_handler]
      simp only [State.setHandler, State.receive, Network.put]
      by_cases hxy : x = k ∧ y = j
      · obtain ⟨rfl, rfl⟩ := hxy
        simp only [and_self, if_true, hl, hready, List.map_cons]
        obtain ⟨ts, body⟩ := message
        cases body <;> simp [Body.handler, Handler.bodies]
      · rw [if_neg hxy, if_neg fun h => hxy ⟨h.2, h.1⟩]
    have hunhindered : u.Unhindered := unhindered_sublist h rfl hsub
    obtain ⟨hours, hlock⟩ := lock_treatMessage hc
    change (u.write k c (s.main k) out).Unhindered
    refine unhindered_write hunhindered (fun i x y hx _ hpass hcurrent => ?_)
      fun i y hy x hx hcurrent => ?_
    · simp only [State.write, Function.update_self] at hcurrent
      subst hcurrent
      have hle := (grant_of_unanswered hasked ((hsub i k).subset hx)).1
      rcases hlock with hgrants | ⟨hgrants, hlock⟩
      · omega
      · have hharmless := hpass (by rw [hgrants]; rfl)
        cases y with
        | relinquish grant =>
          intro hlk
          simp only [State.write, State.request, Function.update_self] at hlk ⊢
          rcases hlock with hfree | ⟨hlocked, hlocking⟩
          · exact absurd hlk (Bool.eq_false_iff.mp hfree)
          · rw [hlocking, hours]
            exact hharmless (hlocked ▸ hlk)
        | _ => exact hharmless
    · obtain ⟨m, hm, rfl⟩ := List.mem_map.mp hy
      have hnone := List.filterMap_eq_nil_iff.mp (answers_treatMessage hc i) m hm
      obtain ⟨ts, body⟩ := m
      cases body <;> trivial
  | treatInquireMessage k j =>
    rcases handler_step hs with ⟨h', hbodies, -, rfl⟩ | ⟨grant, hrel, rfl⟩
    · refine unhindered_sublist h rfl fun x y => ?_
      simp only [State.unanswered, setHandler_handler]
      split_ifs with hxy
      · obtain ⟨rfl, rfl⟩ := hxy
        exact hbodies.append (.refl _)
      · exact .refl _
    · let u := s.setHandler k j .ready
      have hsub (x y : Fin n) : (u.unanswered x y).Sublist (s.unanswered x y) := by
        simp only [u, State.unanswered, setHandler_handler]
        split_ifs with hxy
        · exact (List.nil_sublist _).append (.refl _)
        · exact .refl _
      have hunhindered : u.Unhindered := unhindered_sublist h rfl hsub
      let c := ((s.strategy k).relinquish j grant).1
      refine unhindered_write hunhindered (fun i x y _ _ => passes_write (s := u) (c := c) rfl rfl)
        fun i y hy x hx hcurrent => ?_
      obtain ⟨m, hm, rfl⟩ := List.mem_map.mp hy
      simp only [Strategy.relinquish, Strategy.say, Network.mem_only, List.mem_singleton] at hm
      obtain ⟨rfl, rfl⟩ := hm
      subst hcurrent
      rcases List.mem_append.mp hx with hx | hx
      · have hany : (s.unanswered i k).any Body.isInquire = true :=
          List.any_eq_true.mpr ⟨_, (hsub i k).subset hx, rfl⟩
        simp only [unhindered, hrel, hany, Bool.not_true, Bool.false_or, decide_eq_true_eq] at hu
        intro _
        simpa [State.write, State.request, Strategy.relinquish] using hu
      · simp [Strategy.relinquish, Strategy.say] at hx

end unhindered

end DistributedME.Maekawa
