import DistributedME.RicartAgrawala.System

/-! Relations between two clients and the two channels that join them, kept by every step. -/
namespace DistributedME.RicartAgrawala
open Library
variable {n : ℕ}

def requests (msgs : List Message) : ℕ := msgs.countP fun m => !m.isReply

def replies (msgs : List Message) : ℕ := msgs.countP Message.isReply

@[simp] theorem requests_nil : requests [] = 0 := rfl
@[simp] theorem replies_nil : replies [] = 0 := rfl

@[simp] theorem requests_append (x y : List Message) :
    requests (x ++ y) = requests x + requests y := List.countP_append

@[simp] theorem replies_append (x y : List Message) :
    replies (x ++ y) = replies x + replies y := List.countP_append

@[simp] theorem requests_request (t : ℕ) (l : List Message) :
    requests (.request t :: l) = requests l + 1 := by simp [requests, Message.isReply]

@[simp] theorem requests_reply (t : ℕ) (l : List Message) :
    requests (.reply t :: l) = requests l := by simp [requests, Message.isReply]

@[simp] theorem replies_request (t : ℕ) (l : List Message) :
    replies (.request t :: l) = replies l := by simp [replies, Message.isReply]

@[simp] theorem replies_reply (t : ℕ) (l : List Message) :
    replies (.reply t :: l) = replies l + 1 := List.countP_cons_of_pos rfl

theorem requests_pos {t : ℕ} {l : List Message} (h : .request t ∈ l) : 0 < requests l :=
  List.countP_pos_iff.mpr ⟨_, h, rfl⟩

theorem exists_request {l : List Message} (h : 0 < requests l) : ∃ t, .request t ∈ l := by
  obtain ⟨m, hm, hr⟩ := List.countP_pos_iff.mp h
  cases m with
  | request t => exact ⟨t, hm⟩
  | reply t => simp [Message.isReply] at hr

theorem exists_reply {l : List Message} (h : 0 < replies l) : ∃ t, .reply t ∈ l := by
  obtain ⟨m, hm, hr⟩ := List.countP_pos_iff.mp h
  cases m with
  | request t => simp [Message.isReply] at hr
  | reply t => exact ⟨t, hm⟩

/-- What a relation may use about the place of a main thread and the flags of its object. -/
def Side.Modes (a : Side) : Prop :=
  (a.isWaiting = true ↔ a.main = .polling ∨ a.main = .entering) ∧
    (a.isUsing = true ↔ a.main = .inside)

/-- A relation between two clients, written on their sides and channels. -/
abbrev PairRelation (n : ℕ) :=
  Fin n → Fin n → Side → Side → List Message → List Message → Prop

def State.Pairwise (s : State n) (P : PairRelation n) : Prop :=
  ∀ i j, i ≠ j → P i j (s.side i j) (s.side j i) (s.inFlight i j) (s.inFlight j i)

/-- A symmetric relation kept by every local change of its first client is kept by every step. -/
theorem pairwise_step {P : PairRelation n} {s t : State n} {act : Action n}
    (hsymm : ∀ i j a b ij ji, P i j a b ij ji → P j i b a ji ij)
    (hlocal : ∀ i j a b ij ji a' ij' ji', a.Modes → P i j a b ij ji →
      Local (YieldsInGap s act) i j a ij ji a' ij' ji' → P i j a' b ij' ji')
    (hs : s.Modes) (hP : s.Pairwise P) (h : step s act = some t) : t.Pairwise P := by
  have acting : ∀ j, j ≠ act.actor →
      P act.actor j (t.side act.actor j) (t.side j act.actor)
        (t.inFlight act.actor j) (t.inFlight j act.actor) := by
    intro j hj
    rw [(step_frame h hj).1]
    exact hlocal _ _ (s.side act.actor j) (s.side j act.actor) _ _ _ _ _ (hs act.actor)
      (hP _ _ (Ne.symm hj)) (step_local hs h hj)
  intro i j hij
  by_cases hi : i = act.actor
  · subst hi
    exact acting j (Ne.symm hij)
  by_cases hj : j = act.actor
  · subst hj
    exact hsymm _ _ _ _ _ _ (acting i hij)
  · rw [(step_frame h hi).1, (step_frame h hj).1, (step_frame h hi).2 hj, (step_frame h hj).2 hi]
    exact hP i j hij

theorem modes_guarded {guard : State n → Action n → Prop} {s : State n}
    (h : (machine n).Guarded guard s) : s.Modes :=
  h.invariant (I := State.Modes) (by rintro _ rfl; exact initial_modes)
    fun _ _ _ hs _ h => modes_step hs h

/-- The run lemma of a pair relation, under any guard on the steps. -/
theorem pairwise_guarded {P : PairRelation n} {guard : State n → Action n → Prop}
    (hsymm : ∀ i j a b ij ji, P i j a b ij ji → P j i b a ji ij)
    (h₀ : (initial n).Pairwise P)
    (hlocal : ∀ (u : State n) (act : Action n) i j a b ij ji a' ij' ji', guard u act → a.Modes →
      P i j a b ij ji → Local (YieldsInGap u act) i j a ij ji a' ij' ji' → P i j a' b ij' ji')
    {s : State n} (h : (machine n).Guarded guard s) : s.Pairwise P :=
  h.invariant_of (J := State.Modes) (I := fun s => s.Pairwise P) (fun _ => modes_guarded)
    (by rintro _ rfl; exact h₀)
    fun _ _ _ hs _ hP hg hstep =>
      pairwise_step hsymm (fun _ _ _ _ _ _ _ _ _ => hlocal _ _ _ _ _ _ _ _ _ _ _ hg) hs hP hstep

end DistributedME.RicartAgrawala
