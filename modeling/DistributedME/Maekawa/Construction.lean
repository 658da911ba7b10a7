import DistributedME.Maekawa.Strategy

/-! A new object of the strategy, and its first requests. The constructor leaves is_locked as it
finds it in memory. -/
namespace DistributedME.Maekawa
open Library
variable {n : ℕ}

namespace Strategy

/-- The object that the constructor makes of the memory that it is given. -/
def constructIn (memory : Strategy n) (quorum : Finset (Fin n)) : Strategy n :=
  { construct n with isLocked := memory.isLocked }.resetRequestReply quorum

/-- REQUEST messages are treated one after another. What was sent is collected. -/
def treatRequestMessages (c : Strategy n) :
    List (Fin n × ℕ) → Option (Strategy n × (Fin n → List Message))
  | [] => some (c, fun _ => [])
  | (j, theirSequenceNumber) :: requests =>
    (c.treatRequestMessage j theirSequenceNumber).bind fun (c, out) =>
      (c.treatRequestMessages requests).map fun (c, outs) => (c, fun i => out i ++ outs i)

end Strategy

def Message.isLocked (m : Message) : Bool :=
  match m.body with
  | .locked _ => true
  | .request | .inquire _ | .relinquish _ | .failed | .release => false

/-- The first request gets the lock, with one LOCKED in all, and the others wait. -/
def Strategy.GrantsFirst (c : Strategy n) (first : Fin n × ℕ) (others : List (Fin n × ℕ)) : Prop :=
  ∃ c' out, c.treatRequestMessages (first :: others) = some (c', out) ∧
    (∀ i, (out i).countP Message.isLocked = if i = first.1 then 1 else 0) ∧
    c'.isLocked = true ∧ c'.lockingRequest = ⟨first.2, some first.1⟩ ∧
    ∀ r ∈ others, ⟨r.2, some r.1⟩ ∈ c'.waitingQueue.items

/-- The object is locked for a client, or for nobody as the constructor leaves it. -/
structure Strategy.Taken (c : Strategy n) : Prop where
  isLocked : c.isLocked = true
  sender : (∃ y, c.lockingRequest.sender = some y) ∨ c.lockingRequest = ⟨0, none⟩

/-- Every request comes after the one that nobody has sent. -/
theorem refuses_of_nobody {c : Strategy n} (h : c.lockingRequest = ⟨0, none⟩) (j : Fin n) (t : ℕ) :
    c.refuses ⟨t, some j⟩ = true := by
  refine (Strategy.refuses_iff c _).mpr (.inl ?_)
  rw [h, Request.key, Request.key, Prod.Lex.toLex_lt_toLex]
  simp only [Request.senderId]
  omega

/-- A REQUEST that finds the object locked goes to the queue and is not answered by LOCKED. -/
theorem treatRequest_of_taken {c : Strategy n} (h : c.Taken) (j : Fin n) (t : ℕ) :
    ∃ c' out, c.treatRequestMessage j t = some (c', out) ∧ c'.Taken ∧
      c'.lockingRequest = c.lockingRequest ∧
      c'.waitingQueue = (c.waitingQueue.push ⟨t, some j⟩).1 ∧
      ∀ i, (out i).countP Message.isLocked = 0 := by
  have hnone (c' : Strategy n) (i k : Fin n) {body : Body}
      (hb : (⟨c'.ourSequenceNumber, body⟩ : Message).isLocked = false) :
      (Network.only k (c'.say body) i).countP Message.isLocked = 0 := by
    unfold Network.only Strategy.say
    split_ifs <;> simp [hb]
  rw [Strategy.treatRequestMessage]
  simp only [h.isLocked, Bool.not_true, Bool.false_eq_true, if_false]
  split_ifs with hr
  · exact ⟨_, _, rfl, ⟨rfl, h.sender⟩, rfl, rfl, fun i => hnone _ i _ rfl⟩
  · rcases h.sender with ⟨y, hy⟩ | hnobody
    · rw [hy, Option.map_some]
      split_ifs
      · exact ⟨_, _, rfl, ⟨rfl, .inl ⟨y, hy⟩⟩, rfl, rfl, fun i => hnone _ i _ rfl⟩
      · exact ⟨_, _, rfl, ⟨rfl, .inl ⟨y, hy⟩⟩, rfl, rfl, fun _ => rfl⟩
    · exact absurd (refuses_of_nobody (by exact hnobody) j t) hr

theorem treatRequestMessages_cons {c c₁ c' : Strategy n} {j : Fin n} {t : ℕ}
    {requests : List (Fin n × ℕ)} {out₁ out : Fin n → List Message}
    (h₁ : c.treatRequestMessage j t = some (c₁, out₁))
    (h : c₁.treatRequestMessages requests = some (c', out)) :
    c.treatRequestMessages ((j, t) :: requests) = some (c', fun i => out₁ i ++ out i) := by
  simp [Strategy.treatRequestMessages, h₁, h]

/-- So do all REQUESTs that follow, while the queue has room. -/
theorem treatRequests_of_taken {c : Strategy n} (h : c.Taken) (requests : List (Fin n × ℕ)) :
    ∃ c' out, c.treatRequestMessages requests = some (c', out) ∧ c'.isLocked = true ∧
      c'.lockingRequest = c.lockingRequest ∧ (∀ i, (out i).countP Message.isLocked = 0) ∧
      (c.waitingQueue.size + requests.length ≤ MESSAGE_QUEUE_MAX_SIZE →
        (∀ r ∈ c.waitingQueue.items, r ∈ c'.waitingQueue.items) ∧
        ∀ r ∈ requests, ⟨r.2, some r.1⟩ ∈ c'.waitingQueue.items) := by
  induction requests generalizing c with
  | nil => exact ⟨c, _, rfl, h.isLocked, rfl, fun _ => rfl, fun _ => ⟨fun _ hr => hr, by simp⟩⟩
  | cons request requests ih =>
    obtain ⟨j, t⟩ := request
    obtain ⟨c₁, out₁, h₁, htaken, hlocking, hqueue, hcount⟩ := treatRequest_of_taken h j t
    obtain ⟨c', out, hrun, hl, hlocking', hcount', hroom⟩ := ih htaken
    refine ⟨c', fun i => out₁ i ++ out i, treatRequestMessages_cons h₁ hrun, hl,
      hlocking'.trans hlocking, fun i => ?_, ?_⟩
    · rw [List.countP_append, hcount, hcount']
    · intro hle
      rw [List.length_cons] at hle
      have hlt : c.waitingQueue.size < MESSAGE_QUEUE_MAX_SIZE := by omega
      have hsize : c₁.waitingQueue.size = c.waitingQueue.size + 1 := by
        rw [hqueue, MessageQueue.size, MessageQueue.size]
        change (c.waitingQueue.push _).1.items.length = _
        rw [MessageQueue.push_of_room hlt]
        exact PriorityQueue.length_push _ _
      obtain ⟨hold, hnew⟩ := hroom (by omega)
      have hmem {r : Request n} (hr : r = ⟨t, some j⟩ ∨ r ∈ c.waitingQueue.items) :
          r ∈ c'.waitingQueue.items := hold r (hqueue ▸ (MessageQueue.mem_push_of_room hlt).mpr hr)
      exact ⟨fun r hr => hmem (.inr hr), List.forall_mem_cons.mpr ⟨hmem (.inl rfl), hnew⟩⟩

/-- A new object grants its lock to the first of requests from different clients just when
is_locked was false in memory and the queue has room for all other requests. -/
theorem new_grants_first_iff (memory : Strategy n) (quorum : Finset (Fin n)) (first : Fin n × ℕ)
    (others : List (Fin n × ℕ)) (hclients : ((first :: others).map Prod.fst).Nodup) :
    (Strategy.constructIn memory quorum).GrantsFirst first others ↔
      memory.isLocked = false ∧ others.length ≤ MESSAGE_QUEUE_MAX_SIZE := by
  constructor
  · rintro ⟨c', out, hrun, hcount, -, -, hwait⟩
    constructor
    · by_contra hl
      have htaken : (Strategy.constructIn memory quorum).Taken :=
        ⟨Bool.not_eq_false _ ▸ hl, .inr rfl⟩
      obtain ⟨c₁, out₁, hrun₁, -, -, hnone, -⟩ := treatRequests_of_taken htaken (first :: others)
      obtain ⟨-, rfl⟩ := Prod.mk.inj (Option.some.inj (hrun.symm.trans hrun₁))
      have hone := (hcount first.1).symm.trans (hnone first.1)
      rw [if_pos rfl] at hone
      cases hone
    · have hnodup : (others.map fun r => (⟨r.2, some r.1⟩ : Request n)).Nodup := by
        refine List.Nodup.of_map Request.sender ?_
        have hsender : (others.map fun r => (⟨r.2, some r.1⟩ : Request n)).map Request.sender =
            (others.map Prod.fst).map some := by
          rw [List.map_map, List.map_map]
          rfl
        rw [hsender]
        exact (List.nodup_cons.mp hclients).2.map (Option.some_injective _)
      have hsub : (others.map fun r => (⟨r.2, some r.1⟩ : Request n)) ⊆ c'.waitingQueue.items := by
        intro r hr
        obtain ⟨q, hq, rfl⟩ := List.mem_map.mp hr
        exact hwait q hq
      have hlen := (hnodup.subperm hsub).length_le
      rw [List.length_map] at hlen
      exact hlen.trans c'.waitingQueue.size_le
  · rintro ⟨hl, hlen⟩
    obtain ⟨j, t⟩ := first
    let c : Strategy n := Strategy.constructIn memory quorum
    have hgrant : c.treatRequestMessage j t =
        ({ c with hgstSequenceNumber := max c.hgstSequenceNumber t, isLocked := true } :
          Strategy n).lock ⟨t, some j⟩ := by
      have hc : c.isLocked = false := hl
      rw [Strategy.treatRequestMessage]
      simp only [hc, Bool.not_false, if_true]
    obtain ⟨c', out, hrun, hl', hlocking, hcount, hroom⟩ := treatRequests_of_taken
      (c := { c with
        hgstSequenceNumber := max c.hgstSequenceNumber t, isLocked := true
        lockingRequest := ⟨t, some j⟩, grants := c.grants + 1 }) ⟨rfl, .inl ⟨j, rfl⟩⟩ others
    refine ⟨c', _, treatRequestMessages_cons hgrant hrun, fun i => ?_, hl', hlocking, ?_⟩
    · rw [List.countP_append, hcount]
      unfold Network.only Strategy.say
      split_ifs <;> rfl
    · exact (hroom ((Nat.zero_add others.length).trans_le hlen)).2

/-- Three clients ask an object in memory that was zero. -/
theorem new_grants_first_of_three :
    (Strategy.constructIn (Strategy.construct 3) {0, 1}).GrantsFirst (2, 5) [(0, 1), (1, 1)] :=
  (new_grants_first_iff (Strategy.construct 3) {0, 1} (2, 5) [(0, 1), (1, 1)] (by decide)).mpr
    (by decide)

/-- In memory whose byte at is_locked was not zero the object is locked for nobody. -/
theorem new_grants_first_fails : ¬ ∀ (n : ℕ) (memory : Strategy n) (quorum : Finset (Fin n))
    (first : Fin n × ℕ) (others : List (Fin n × ℕ)), ((first :: others).map Prod.fst).Nodup →
    others.length ≤ MESSAGE_QUEUE_MAX_SIZE →
    (Strategy.constructIn memory quorum).GrantsFirst first others := by
  intro h
  obtain ⟨c', out, hrun, hcount, -⟩ := h 1 { Strategy.construct 1 with isLocked := true } {0}
    (0, 1) [] (by decide) (by decide)
  obtain ⟨c₁, out₁, hrun₁, -, -, hnone, -⟩ := treatRequests_of_taken
    (c := Strategy.constructIn { Strategy.construct 1 with isLocked := true } {0})
    ⟨rfl, .inr rfl⟩ [(0, 1)]
  obtain ⟨-, rfl⟩ := Prod.mk.inj (Option.some.inj (hrun.symm.trans hrun₁))
  exact absurd ((hcount 0).symm.trans (hnone 0)) (by decide)

end DistributedME.Maekawa
