import DistributedME.Program.Progress
import DistributedME.RicartAgrawala.Cost

/-! How far sequence numbers and clocks get in a run. -/
namespace DistributedME.Program
open Library
variable {n m : ℕ}

/-- No number is above k. -/
structure Numbered (k : ℕ) (s : RicartAgrawala.State n) : Prop where
  ours : ∀ i, (s.strategy i).ourSequenceNumber ≤ k
  hgst : ∀ i, (s.strategy i).hgstSequenceNumber ≤ k
  inFlight : ∀ i j, ∀ message ∈ s.inFlight i j, ourSequenceNumber message ≤ k

theorem Numbered.mono {k k' : ℕ} {s : RicartAgrawala.State n} (h : Numbered k s) (hk : k ≤ k') :
    Numbered k' s where
  ours i := (h.ours i).trans hk
  hgst i := (h.hgst i).trans hk
  inFlight i j message hm := (h.inFlight i j message hm).trans hk

theorem Numbered.write {k k' : ℕ} {s : RicartAgrawala.State n} (h : Numbered k s) (hk : k ≤ k')
    {i : Fin n} {c : RicartAgrawala.Strategy n} (main : RicartAgrawala.MainThread)
    {out : Fin n → List RicartAgrawala.Message} (hours : c.ourSequenceNumber ≤ k')
    (hhgst : c.hgstSequenceNumber ≤ k')
    (hout : ∀ j, ∀ message ∈ out j, ourSequenceNumber message ≤ k') :
    Numbered k' (s.write i c main out) where
  ours j := by
    simp only [RicartAgrawala.State.write, Function.update_apply]
    split_ifs
    · exact hours
    · exact (h.ours j).trans hk
  hgst j := by
    simp only [RicartAgrawala.State.write, Function.update_apply]
    split_ifs
    · exact hhgst
    · exact (h.hgst j).trans hk
  inFlight x y message hmessage := by
    rcases Network.mem_post.mp hmessage with hold | ⟨rfl, hnew⟩
    · exact (h.inFlight x y message hold).trans hk
    · exact hout y message hnew

/-- Only request_resource makes a new number. -/
theorem numbered_step {k : ℕ} {s t : RicartAgrawala.State n} {a : RicartAgrawala.Action n}
    (h : Numbered k s) (hstep : RicartAgrawala.step s a = some t) :
    Numbered (k + if a.isRequestResource then 1 else 0) t := by
  have he := RicartAgrawala.effect_of_step hstep
  cases a with
  | requestResource i =>
    obtain ⟨-, rfl⟩ := he
    have hnumber : (s.strategy i).hgstSequenceNumber + 1 ≤ k + 1 := Nat.succ_le_succ (h.hgst i)
    apply h.write (Nat.le_succ k)
    · exact hnumber
    · exact (h.hgst i).trans (Nat.le_succ k)
    · intro j message hmessage
      rw [(mem_requestResource hmessage).2]
      exact hnumber
  | canEnterCriticalSection i =>
    obtain ⟨-, rfl⟩ := he
    exact h.write (Nat.le_refl k) _ (h.ours i) (h.hgst i) fun _ _ hm => absurd hm List.not_mem_nil
  | enterCriticalSection i =>
    obtain ⟨-, rfl⟩ := he
    exact h.write (Nat.le_refl k) _ (h.ours i) (h.hgst i) fun _ _ hm => absurd hm List.not_mem_nil
  | releaseResource i =>
    obtain ⟨-, rfl⟩ := he
    apply h.write (Nat.le_refl k)
    · exact h.ours i
    · exact h.hgst i
    · intro j message hmessage
      rw [(mem_releaseResource hmessage).2]
      exact h.ours i
  | treatMessage i j =>
    obtain ⟨message, rest, hmail, rfl⟩ := he
    have hmem : message ∈ s.inFlight j i := hmail ▸ List.mem_cons_self
    have hrest : Numbered k { s with inFlight := s.inFlight.put j i rest } := by
      refine ⟨h.ours, h.hgst, fun x y message' hm => h.inFlight x y message' ?_⟩
      exact Network.mem_of_mem_put (hmail ▸ List.subset_cons_self _ _) hm
    obtain ⟨hours, hhgst, hanswers⟩ := numbers_treatMessage (s.strategy i) i j message
    apply hrest.write (Nat.le_refl k)
    · rw [hours]
      exact h.ours i
    · exact hhgst.trans (max_le (h.hgst i) (h.inFlight j i message hmem))
    · intro y answer hanswer
      rw [hanswers answer (Network.mem_only.mp hanswer).2]
      exact h.ours i

theorem numbered_run {config : Config n m} (hnames : config.Named) (filename : Bytes) {k : ℕ}
    {s t : State n m} {acts : List (Action n m)}
    (hs : (fileRefinement hnames filename).Invariant s) (h : Numbered k (s.project filename))
    (hr : (machine config).run s acts = some t) :
    Numbered (k + acts.length) (t.project filename) := by
  induction acts generalizing s k with
  | nil =>
    cases hr
    exact h
  | cons act acts ih =>
    obtain ⟨u, hu, hr⟩ := Machine.run_cons.mp hr
    obtain ⟨hinv, hfollow⟩ := (fileRefinement hnames filename).step hs hu
    have hone : Numbered (k + 1) (u.project filename) := by
      cases hl : sectionOf filename (label s act) with
      | none =>
        have hsame : s.project filename = u.project filename := by
          change (RicartAgrawala.machine n).follow _ (sectionOf filename (label s act)) = _
            at hfollow
          rw [hl] at hfollow
          exact Option.some.inj hfollow
        exact (hsame ▸ h).mono (Nat.le_succ k)
      | some b =>
        have hstep : RicartAgrawala.step (s.project filename) b = some (u.project filename) := by
          change (RicartAgrawala.machine n).follow _ (sectionOf filename (label s act)) = _
            at hfollow
          rw [hl] at hfollow
          exact hfollow
        apply (numbered_step h hstep).mono
        split_ifs <;> omega
    rw [List.length_cons, Nat.add_comm acts.length, ← Nat.add_assoc]
    exact ih hinv hone hr

/-- No step takes more than one timestamp. -/
theorem timestamp_of_step {config : Cluster.Config n m} {s t : Cluster.State n m}
    {a : Cluster.Action n m} (h : Cluster.step config s a = some t) (j : Fin n) :
    (t.client j).timestamp ≤ (s.client j).timestamp + 1 := by
  have hset {i : Fin n} {c : Cluster.Client n m}
      (hc : c.timestamp ≤ (s.client i).timestamp + 1) :
      (Function.update s.client i c j).timestamp ≤ (s.client j).timestamp + 1 := by
    rw [Function.update_apply]
    split_ifs with hj
    · rw [hj]
      exact hc
    · exact Nat.le_succ _
  cases a with
  | mainStep i =>
    obtain ⟨c, out, events, hc, hclient⟩ := mainMove_of_step h
    rw [hclient]
    apply hset
    cases hc <;> first | exact Nat.le_refl _ | exact Nat.le_succ _
  | sendCriticalSectionMessage i k message =>
    simp only [Cluster.step] at h
    split_ifs at h
    obtain ⟨c, hc, rfl⟩ := Option.map_eq_some_iff.mp h
    obtain ⟨-, rfl⟩ := Cluster.Client.increaseTimestamp_eq_some hc
    exact hset (Nat.le_refl _)
  | treatServerPacket i k =>
    simp only [Cluster.step] at h
    split at h
    · cases h
    · split_ifs at h
      cases h
      apply hset
      rw [Cluster.Client.timestamp_treatServerPacket]
      exact Nat.le_succ _
  | passServer i k =>
    simp only [Cluster.step, Cluster.passServer] at h
    split at h
    · split_ifs at h
      cases h
      exact hset (Nat.le_succ _)
    · cases h
      exact hset (Nat.le_succ _)
    · split_ifs at h
      · obtain ⟨c, hc, rfl⟩ := Option.map_eq_some_iff.mp h
        obtain ⟨-, rfl⟩ := Cluster.Client.increaseTimestamp_eq_some hc
        exact hset (Nat.le_refl _)
      all_goals
        cases h
        exact hset (Nat.le_succ _)
    · cases h
  | handleClientPacket i k place =>
    simp only [Cluster.step] at h
    split at h
    · cases h
    · split_ifs at h
      cases h
      exact hset (Nat.le_succ _)
  | passClient i k =>
    simp only [Cluster.step, Cluster.passClient] at h
    split at h
    · split_ifs at h
      all_goals
        cases h
        exact hset (Nat.le_succ _)
    · cases h
      exact hset (Nat.le_succ _)
    · cases h
    · cases h
  | treatRequest k i =>
    simp only [Cluster.step] at h
    split at h
    · cases h
    · split_ifs at h
      obtain ⟨v, -, rfl⟩ := Option.map_eq_some_iff.mp h
      exact Nat.le_succ _
  | passRequests k i =>
    simp only [Cluster.step, Cluster.passRequests] at h
    split at h
    · split_ifs at h
      cases h
      exact Nat.le_succ _
    · cases h
      exact Nat.le_succ _
    · split_ifs at h
      all_goals
        cases h
        exact Nat.le_succ _
    · cases h

end DistributedME.Program
