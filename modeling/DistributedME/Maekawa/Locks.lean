import DistributedME.Maekawa.View

/-! The lock of an arbiter is a single token as long as no RELINQUISH is sent too late. -/
namespace DistributedME.Maekawa
open Library
variable {n : ℕ}

def Up.isRequest : Up → Bool
  | .request _ => true
  | _ => false

def Up.isRelinquish : Up → Bool
  | .relinquish _ => true
  | _ => false

def Up.isRelease : Up → Bool
  | .release => true
  | _ => false

def Down.isLocked : Down → Bool
  | .locked _ => true
  | _ => false

def requests (mail : List Up) : ℕ := mail.countP Up.isRequest
def relinquishes (mail : List Up) : ℕ := mail.countP Up.isRelinquish
def releases (mail : List Up) : ℕ := mail.countP Up.isRelease
def lockeds (mail : List Down) : ℕ := mail.countP Down.isLocked

@[simp] theorem isRequest_request (t : ℕ) : (Up.request t).isRequest = true := rfl
@[simp] theorem isRequest_relinquish (g : ℕ) : (Up.relinquish g).isRequest = false := rfl
@[simp] theorem isRequest_release : Up.release.isRequest = false := rfl
@[simp] theorem isRelinquish_request (t : ℕ) : (Up.request t).isRelinquish = false := rfl
@[simp] theorem isRelinquish_relinquish (g : ℕ) : (Up.relinquish g).isRelinquish = true := rfl
@[simp] theorem isRelinquish_release : Up.release.isRelinquish = false := rfl
@[simp] theorem isRelease_request (t : ℕ) : (Up.request t).isRelease = false := rfl
@[simp] theorem isRelease_relinquish (g : ℕ) : (Up.relinquish g).isRelease = false := rfl
@[simp] theorem isRelease_release : Up.release.isRelease = true := rfl
@[simp] theorem isLocked_locked (g : ℕ) : (Down.locked g).isLocked = true := rfl
@[simp] theorem isLocked_inquire (g : ℕ) : (Down.inquire g).isLocked = false := rfl
@[simp] theorem isLocked_failed : Down.failed.isLocked = false := rfl

@[simp] theorem requests_nil : requests [] = 0 := rfl
@[simp] theorem relinquishes_nil : relinquishes [] = 0 := rfl
@[simp] theorem releases_nil : releases [] = 0 := rfl
@[simp] theorem lockeds_nil : lockeds [] = 0 := rfl

@[simp] theorem requests_append (x y : List Up) : requests (x ++ y) = requests x + requests y :=
  List.countP_append

@[simp] theorem relinquishes_append (x y : List Up) :
    relinquishes (x ++ y) = relinquishes x + relinquishes y := List.countP_append

@[simp] theorem releases_append (x y : List Up) : releases (x ++ y) = releases x + releases y :=
  List.countP_append

@[simp] theorem lockeds_append (x y : List Down) : lockeds (x ++ y) = lockeds x + lockeds y :=
  List.countP_append

private theorem countP_cons_toNat {α : Type*} (p : α → Bool) (a : α) (l : List α) :
    (a :: l).countP p = l.countP p + (p a).toNat := by
  rw [List.countP_cons]
  cases p a <;> rfl

@[simp] theorem requests_cons (m : Up) (x : List Up) :
    requests (m :: x) = requests x + m.isRequest.toNat :=
  countP_cons_toNat _ m x

@[simp] theorem relinquishes_cons (m : Up) (x : List Up) :
    relinquishes (m :: x) = relinquishes x + m.isRelinquish.toNat :=
  countP_cons_toNat _ m x

@[simp] theorem releases_cons (m : Up) (x : List Up) :
    releases (m :: x) = releases x + m.isRelease.toNat :=
  countP_cons_toNat _ m x

@[simp] theorem lockeds_cons (m : Down) (x : List Down) :
    lockeds (m :: x) = lockeds x + m.isLocked.toNat :=
  countP_cons_toNat _ m x

theorem requests_pos {t : ℕ} {mail : List Up} (h : .request t ∈ mail) : 0 < requests mail :=
  List.countP_pos_iff.mpr ⟨_, h, rfl⟩

theorem returned_pos {m : Up} {mail : List Up} (hmem : m ∈ mail) (hm : m.isRequest = false) :
    0 < relinquishes mail + releases mail := by
  cases m with
  | request t => cases hm
  | relinquish g => exact Nat.add_pos_left (List.countP_pos_iff.mpr ⟨_, hmem, rfl⟩) _
  | release => exact Nat.add_pos_right _ (List.countP_pos_iff.mpr ⟨_, hmem, rfl⟩)

/-- The client counts on the lock of the arbiter: it has LOCKED, or is inside. -/
def Side.holds (a : Side) : Bool :=
  match a.main with
  | .inside => a.member
  | .idle | .polling => a.reply = .locked

/-- FAILED gives a client nothing. -/
theorem holds_of_failed {a : Side} {x : Bool} {down : List Down}
    (h : Side.holds { a with reply := .failed, allLocked := x, down := down } = true) :
    a.holds = true := by
  cases hmain : a.main with
  | inside => simpa [Side.holds, hmain] using h
  | idle => simp [Side.holds, hmain] at h
  | polling => simp [Side.holds, hmain] at h

/-- The arbiter belongs to the quorum of a request that is not yet released. -/
def Side.active (a : Side) : Bool :=
  match a.main with
  | .idle => false
  | .polling | .inside => a.member

@[simp] theorem arbitrate_holds (v : View n) (j : Fin n) (up : List Up) (a : Arbiter n)
    (out : Fin n → List Down) (y : Fin n) :
    ((v.arbitrate j up a out).side y).holds = (v.side y).holds := rfl

@[simp] theorem arbitrate_active (v : View n) (j : Fin n) (up : List Up) (a : Arbiter n)
    (out : Fin n → List Down) (y : Fin n) :
    ((v.arbitrate j up a out).side y).active = (v.side y).active := rfl

/-- All places at which the lock of the arbiter can be for this client. -/
def Side.tokens (a : Side) : ℕ :=
  lockeds a.down + a.holds.toNat + relinquishes a.up + releases a.up

/-- The lock is given to client j. -/
def Arbiter.holder (a : Arbiter n) (j : Fin n) : Bool :=
  a.isLocked && a.locking.sender = some j

def Arbiter.queued (a : Arbiter n) (j : Fin n) : ℕ :=
  a.queue.items.countP fun r => r.sender = some j

/-- One client's part in the use of the lock. -/
structure Held (arb : Arbiter n) (j : Fin n) (a : Side) : Prop where
  token : a.tokens ≤ (arb.holder j).toNat
  request : requests a.up + arb.queued j + (arb.holder j).toNat ≤ releases a.up + a.active.toNat
  number : ∀ t, .request t ∈ a.up → t = a.ours
  queuedNumber : ∀ r ∈ arb.queue.items, r.sender = some j → r.timestamp = a.ours
  lockingNumber : arb.holder j = true → releases a.up = 0 → arb.locking.timestamp = a.ours
  outside : a.member = false → a.reply ≠ .locked
  replied : arb.replied j = false → arb.holder j = true ∧ arb.queue.items ≠ []

structure View.Held (v : View n) : Prop where
  free : v.arbiter.isLocked = false → v.arbiter.queue.items = []
  client : ∀ j, Maekawa.Held v.arbiter j (v.side j)

theorem holder_iff {a : Arbiter n} {j : Fin n} :
    a.holder j = true ↔ a.isLocked = true ∧ a.locking.sender = some j := by
  simp [Arbiter.holder]

theorem holder_unique {a : Arbiter n} {i j : Fin n} (hi : a.holder i = true)
    (hj : a.holder j = true) : i = j :=
  Option.some.inj ((holder_iff.mp hi).2.symm.trans (holder_iff.mp hj).2)

/-- The lock of an arbiter that is locked is given to one client. -/
theorem holder_eq {a : Arbiter n} {y : Fin n} (hl : a.isLocked = true)
    (hy : a.locking.sender = some y) (z : Fin n) : a.holder z = decide (z = y) := by
  simp [Arbiter.holder, hl, hy, eq_comm]

theorem holder_eq_false {a : Arbiter n} {j z : Fin n} (hj : a.holder j = true) (hz : z ≠ j) :
    a.holder z = false :=
  Bool.eq_false_iff.mpr fun hh => hz (holder_unique hh hj)

theorem queued_of_top {a : Arbiter n} {top : Request n} {rest : List (Request n)}
    (hq : a.queue.items = top :: rest) {y : Fin n} (htop : top.sender = some y) (z : Fin n) :
    a.queued z = rest.countP (fun r => r.sender = some z) + (decide (z = y)).toNat := by
  rw [Arbiter.queued, hq, countP_cons_toNat, htop]
  simp [eq_comm]

theorem lockeds_only (y z : Fin n) (d : Down) :
    lockeds (Network.only y [d] z) = (decide (z = y) && d.isLocked).toNat := by
  by_cases hz : z = y
  · simp [hz]
  · simp [hz]

/-- The mail that is left when an arbiter has taken a message. -/
theorem left_sublist {v : View n} {j : Fin n} {m : Up} {before behind : List Up}
    (hup : (v.side j).up = before ++ m :: behind) (z : Fin n) :
    (if z = j then before ++ behind else (v.side z).up).Sublist (v.side z).up := by
  by_cases hz : z = j
  · subst z
    rw [if_pos rfl, hup]
    exact (List.Sublist.refl _).append (List.sublist_cons_self _ _)
  · rw [if_neg hz]

theorem queued_eq_zero {a : Arbiter n} {j : Fin n} (h : a.queued j = 0) :
    ∀ r ∈ a.queue.items, r.sender ≠ some j := by
  intro r hr hj
  exact absurd h (Nat.ne_of_gt (List.countP_pos_iff.mpr ⟨r, hr, by simpa using hj⟩))

/-- The lock is on its way to a client, or back by RELINQUISH, only while the client waits. -/
theorem Held.waiting {arb : Arbiter n} {j : Fin n} {a : Side} (h : Held arb j a)
    (hl : 0 < lockeds a.down + relinquishes a.up) : a.main = .polling ∧ a.member = true := by
  have ht := h.token
  have hr := h.request
  have hone := Bool.toNat_le (arb.holder j)
  simp only [Side.tokens] at ht
  cases hmain : a.main with
  | idle =>
    simp only [Side.active, hmain, Bool.toNat_false] at hr
    omega
  | polling =>
    simp only [Side.active, hmain] at hr
    refine ⟨rfl, ?_⟩
    cases hmem : a.member with
    | true => rfl
    | false =>
      simp only [hmem, Bool.toNat_false] at hr
      omega
  | inside =>
    -- a member that is inside would hold the lock
    simp only [Side.active, hmain] at hr
    simp only [Side.holds, hmain] at ht
    omega

/-- A client that is not waiting, and has released its last request, has none at the arbiter. -/
theorem Held.nothing_asked {arb : Arbiter n} {j : Fin n} {a : Side} (h : Held arb j a)
    (hmain : a.main = .idle) :
    requests a.up = 0 ∧ arb.queued j = 0 ∧ (arb.holder j = true → 0 < releases a.up) := by
  have ht := h.token
  have hr := h.request
  simp only [Side.tokens] at ht
  simp only [Side.active, hmain, Bool.toNat_false] at hr
  refine ⟨by omega, by omega, fun hh => ?_⟩
  simp only [hh, Bool.toNat_true] at hr
  omega

/-- A client keeps its part by whatever it does, if its RELINQUISH is sent in time. -/
theorem held_side {p : Promise} (hp : p.inTime) {arb : Arbiter n} {j : Fin n} {a b : Side}
    (h : Held arb j a) (hm : SideMove p a b) : Held arb j b := by
  have hwaiting := h.waiting
  have hasked := h.nothing_asked
  obtain ⟨ht, hr, hn, hq, hl, ho, hi⟩ := h
  have hone := Bool.toNat_le (arb.holder j)
  simp only [Side.tokens] at ht
  cases hm with
  | elsewhere x => exact ⟨ht, hr, hn, hq, hl, ho, hi⟩
  | request t x hmain hmem =>
    obtain ⟨hz, hqz, hreleased⟩ := hasked hmain
    simp only [Side.active, hmain, Bool.toNat_false] at hr
    refine ⟨?_, ?_, ?_, ?_, ?_, by simp [hmem], hi⟩
    · simp [Side.tokens, Side.holds]
      omega
    · simp [Side.active, hmem]
      omega
    · intro t' h
      rcases List.mem_append.mp h with h | h
      · exact absurd (requests_pos h) (by omega)
      · simpa using h
    · exact fun r hr hj => absurd hj (queued_eq_zero hqz r hr)
    · intro hh h0
      have := hreleased hh
      simp at h0
      omega
  | requestElsewhere t x hmain hmem =>
    obtain ⟨hz, hqz, hreleased⟩ := hasked hmain
    simp only [Side.active, hmain, Bool.toNat_false] at hr
    refine ⟨?_, ?_, ?_, ?_, ?_, ho, hi⟩
    · simpa [Side.tokens, Side.holds, hmain] using ht
    · simpa [Side.active, hmem] using hr
    · exact fun t' h => absurd (requests_pos h) (by simp only; omega)
    · exact fun r hr hj => absurd hj (queued_eq_zero hqz r hr)
    · exact fun hh h0 => absurd h0 (Nat.ne_of_gt (hreleased hh))
  | enter hmain hreply =>
    refine ⟨?_, ?_, hn, hq, hl, ho, hi⟩
    · have : a.member.toNat ≤ (decide (a.reply = .locked)).toNat := by
        cases hmem : a.member with
        | false => simp
        | true => simp [hreply hmem]
      simp only [Side.holds, hmain] at ht
      simp only [Side.tokens, Side.holds]
      omega
    · simpa [Side.active, hmain] using hr
  | release x hmain hmem =>
    simp only [Side.holds, hmain, hmem, Bool.toNat_true] at ht
    simp only [Side.active, hmain, hmem, Bool.toNat_true] at hr
    refine ⟨?_, ?_, ?_, hq, ?_, by simp, hi⟩
    · simp [Side.tokens, Side.holds]
      omega
    · simp [Side.active]
      omega
    · exact fun t h => hn t (by simpa using h)
    · exact fun _ h0 => by simp at h0
  | releaseElsewhere x hmain hmem =>
    have hreply : a.reply ≠ .locked := ho hmem
    refine ⟨?_, ?_, hn, hq, hl, ho, hi⟩
    · simpa [Side.tokens, Side.holds, hmain, hmem, hreply] using ht
    · simpa [Side.active, hmain, hmem] using hr
  | @locked before behind grant x hready hdown hfirst =>
    simp only [hdown, lockeds_append, lockeds_cons, isLocked_locked, Bool.toNat_true]
      at ht hwaiting
    have hmember : a.member = true := (hwaiting (by omega)).2
    refine ⟨?_, hr, hn, hq, hl, ?_, hi⟩
    · have := Bool.toNat_le (Side.holds { a with reply := .locked, allLocked := x, down := before ++ behind })
      simp only [Side.tokens, lockeds_append]
      omega
    · exact fun hmem => absurd hmember (Bool.eq_false_iff.mp hmem)
  | @failed before behind x hready hdown hfirst =>
    simp only [hdown, lockeds_append, lockeds_cons, isLocked_failed, Bool.toNat_false] at ht
    refine ⟨?_, hr, hn, hq, hl, by simp, hi⟩
    have hle := Bool.toNat_le_toNat (@holds_of_failed a x (before ++ behind))
    simp only [Side.tokens, lockeds_append]
    omega
  | @inquire before behind grant hready hdown hfirst =>
    simp only [hdown, lockeds_append, lockeds_cons, isLocked_inquire, Bool.toNat_false] at ht
    exact ⟨by simpa [Side.tokens, Side.holds] using ht, hr, hn, hq, hl, ho, hi⟩
  | consider grant point' hpoint => exact ⟨ht, hr, hn, hq, hl, ho, hi⟩
  | leave grant hpoint hanswer => exact ⟨ht, hr, hn, hq, hl, ho, hi⟩
  | relinquish grant x hpoint htime =>
    obtain ⟨hmain, hreply⟩ := htime hp
    simp only [Side.holds, hmain, hreply, decide_true, Bool.toNat_true] at ht
    refine ⟨?_, ?_, ?_, hq, ?_, by simp, hi⟩
    · simp [Side.tokens, Side.holds, hmain]
      omega
    · simpa [Side.active] using hr
    · exact fun t h => hn t (by simpa using h)
    · intro hh h0
      simp at h0
      exact hl hh h0

theorem queued_enqueue_le (a : Arbiter n) (r : Request n) (y : Fin n) :
    (a.enqueue r).queued y ≤ a.queued y + (decide (r.sender = some y)).toNat :=
  MessageQueue.countP_push_le ..

theorem mem_enqueue {a : Arbiter n} {r r' : Request n} (h : r' ∈ (a.enqueue r).queue.items) :
    r' = r ∨ r' ∈ a.queue.items := MessageQueue.mem_push h

theorem enqueue_ne_nil (a : Arbiter n) (r : Request n) : (a.enqueue r).queue.items ≠ [] :=
  MessageQueue.push_ne_nil (by decide) _ _

/-- Nobody but the holder has a token. -/
theorem View.Held.no_tokens {v : View n} (h : v.Held) {y : Fin n}
    (hy : v.arbiter.holder y = false) : (v.side y).tokens = 0 := by
  have := (h.client y).token
  rw [hy] at this
  exact Nat.le_zero.mp this

/-- A RELEASE or RELINQUISH comes from the holder. -/
theorem View.Held.holder_of_up {v : View n} (h : v.Held) {j : Fin n}
    (hj : 0 < relinquishes (v.side j).up + releases (v.side j).up) :
    v.arbiter.holder j = true := by
  by_contra hn
  have := h.no_tokens (Bool.not_eq_true _ ▸ hn)
  simp only [Side.tokens] at this
  omega

theorem View.Held.holder_of_return {v : View n} (h : v.Held) {j : Fin n} {m : Up}
    {before behind : List Up} (hup : (v.side j).up = before ++ m :: behind)
    (hm : m.isRequest = false) : v.arbiter.holder j = true :=
  h.holder_of_up (returned_pos (hup ▸ List.mem_append_right before List.mem_cons_self) hm)

/-- A queued REQUEST from client j, whatever the arbiter answers to it. -/
private theorem held_enqueue {v : View n} (h : v.Held) {j : Fin n} {t : ℕ}
    {before behind : List Up} (hup : (v.side j).up = before ++ .request t :: behind)
    (hlocked : v.arbiter.isLocked = true) {replied : Fin n → Bool} {out : Fin n → List Down}
    (hreplied : ∀ y, replied y = false → v.arbiter.holder y = true)
    (hout : ∀ y, lockeds (out y) = 0) :
    (v.arbitrate j (before ++ behind)
      { v.arbiter.enqueue ⟨t, some j⟩ with replied := replied } out).Held where
  free hfree := by simp [View.arbitrate, Arbiter.enqueue, hlocked] at hfree
  client y := by
    obtain ⟨ht, hr, hn, hq, hl, ho, hi⟩ := h.client y
    have hqueued := queued_enqueue_le v.arbiter ⟨t, some j⟩ y
    refine ⟨le_trans (le_of_eq ?_) ht, ?_, ?_, ?_, ?_, ho, ?_⟩
    · by_cases hy : y = j
      · subst y
        simp [Side.tokens, hup, hout]
      · simp [Side.tokens, hout, hy]
    · change _ + (v.arbiter.enqueue ⟨t, some j⟩).queued y + (v.arbiter.holder y).toNat ≤ _
      by_cases hy : y = j
      · subst y
        simp [hup] at hr hqueued ⊢
        omega
      · simp [hy, Ne.symm hy] at hqueued ⊢
        omega
    · exact fun t' h => hn t' ((left_sublist hup y).subset h)
    · intro r hr hry
      rcases mem_enqueue hr with rfl | hr
      · obtain rfl : j = y := Option.some.inj hry
        exact hn t (by simp [hup])
      · exact hq r hr hry
    · intro hh h0
      apply hl hh
      by_cases hy : y = j
      · subst y
        simpa [hup] using h0
      · simpa [hy] using h0
    · exact fun hy => ⟨hreplied y hy, enqueue_ne_nil _ _⟩

/-- The lock passes from the holder j to the client y of the top of the queue. What is in the
queue and what becomes of the RELINQUISH or RELEASE is the caller's. -/
private theorem held_pass {v : View n} (h : v.Held) {j y : Fin n} {m : Up}
    {before behind : List Up} (hup : (v.side j).up = before ++ m :: behind)
    (hm : m.isRelinquish = true ∨ m.isRelease = true) {top : Request n} {rest : List (Request n)}
    (hq : v.arbiter.queue.items = top :: rest) (htop : top.sender = some y)
    {queue : MessageQueue (Request.key (n := n)) MESSAGE_QUEUE_MAX_SIZE}
    (hqueue : ∀ r ∈ queue.items, r ∈ rest ∨ r = v.arbiter.locking ∧ m.isRelinquish = true)
    (hcount : ∀ z, queue.items.countP (fun r => r.sender = some z) ≤
      rest.countP (fun r => r.sender = some z) + (decide (z = j) && m.isRelinquish).toNat) :
    (v.arbitrate j (before ++ behind)
      ({ v.arbiter with
        queue := queue
        replied := Function.update v.arbiter.replied j true }.grant top)
      (Network.only y [.locked (v.arbiter.grants + 1)])).Held := by
  have hone : m.isRelinquish.toNat + m.isRelease.toNat = 1 := by
    rcases hm with hm | hm <;> cases m <;> first | rfl | cases hm
  have hrequest : m.isRequest = false := by
    rcases hm with hm | hm <;> cases m <;> first | rfl | cases hm
  have hj : v.arbiter.holder j = true := h.holder_of_return hup hrequest
  obtain ⟨hlocked, hsender⟩ := holder_iff.mp hj
  have hother {z : Fin n} (hz : z ≠ j) := holder_eq_false hj hz
  have htj := (h.client j).token
  simp only [Side.tokens, hup, hj, relinquishes_append, relinquishes_cons, releases_append,
    releases_cons, Bool.toNat_true] at htj
  let up (z : Fin n) := if z = j then before ++ behind else (v.side z).up
  have hzero (z : Fin n) : lockeds (v.side z).down = 0 ∧ (v.side z).holds.toNat = 0 ∧
      relinquishes (up z) = 0 ∧ releases (up z) = 0 := by
    by_cases hz : z = j
    · subst z
      simp only [up, if_true, relinquishes_append, releases_append]
      omega
    · have := h.no_tokens (hother hz)
      simp only [Side.tokens] at this
      simp only [up, if_neg hz]
      omega
  refine ⟨fun hfree => by simp [View.arbitrate, Arbiter.grant, hlocked] at hfree, fun z => ?_⟩
  obtain ⟨ht, hr, hn, hnum, hl, ho, hi⟩ := h.client z
  obtain ⟨hz₁, hz₂, hz₃, hz₄⟩ := hzero z
  have hholder : Arbiter.holder (Arbiter.grant { v.arbiter with
      queue := queue
      replied := Function.update v.arbiter.replied j true } top) z = decide (z = y) :=
    holder_eq (a := Arbiter.grant _ top) hlocked htop z
  refine ⟨?_, ?_, fun t' h => hn t' ((left_sublist hup z).subset h), ?_, ?_, ho, ?_⟩
  · rw [arbitrate_arbiter, hholder]
    change lockeds (_ ++ _) + _ + relinquishes (up z) + releases (up z) ≤ _
    simp [lockeds_only, hz₁, hz₂, hz₃, hz₄]
  · rw [arbitrate_arbiter, hholder]
    change requests (up z) + queue.items.countP _ + _ ≤ releases (up z) + (v.side z).active.toNat
    have hqz := queued_of_top hq htop z
    have hcz := hcount z
    by_cases hz : z = j
    · subst z
      simp only [hup, hj, releases_append, releases_cons, requests_append, requests_cons,
        Bool.toNat_true] at hr
      simp only [up, if_true, releases_append, requests_append, decide_true, Bool.true_and]
        at hcz hz₄ ⊢
      omega
    · simp only [hother hz, Bool.toNat_false] at hr
      simp only [up, if_neg hz, hz, decide_false, Bool.false_and, Bool.toNat_false] at hcz hz₄ ⊢
      omega
  · intro r hr hrz
    rcases hqueue r hr with hr | ⟨rfl, hmr⟩
    · exact hnum r (hq ▸ List.mem_cons_of_mem _ hr) hrz
    · obtain rfl : j = z := Option.some.inj (hsender.symm.trans hrz)
      refine hl hj ?_
      simp only [hmr, Bool.toNat_true] at htj
      simp only [hup, releases_append, releases_cons]
      omega
  · intro hh _
    rw [arbitrate_arbiter, hholder, decide_eq_true_eq] at hh
    subst hh
    exact hnum top (hq ▸ List.mem_cons_self) htop
  · intro hz
    simp only [arbitrate_arbiter, Arbiter.grant, Function.update_apply] at hz
    split_ifs at hz with hzj
    exact absurd (hi hz).1 (by simp [hother hzj])

/-- The first grant after a time in which nobody had the lock. -/
private theorem held_accept {v : View n} (h : v.Held) {j : Fin n} {t : ℕ}
    {before behind : List Up} (hup : (v.side j).up = before ++ .request t :: behind)
    (hfree : v.arbiter.isLocked = false) :
    (v.arbitrate j (before ++ behind)
      (Arbiter.grant { v.arbiter with isLocked := true } ⟨t, some j⟩)
      (Network.only j [.locked (v.arbiter.grants + 1)])).Held := by
  have hq := h.free hfree
  refine ⟨fun hl => by simp [Arbiter.grant] at hl, fun z => ?_⟩
  obtain ⟨ht, hr, hn, hnum, hl, ho, hi⟩ := h.client z
  have hnone : v.arbiter.holder z = false := by simp [Arbiter.holder, hfree]
  have hz := h.no_tokens hnone
  have hqz : v.arbiter.queued z = 0 := by simp [Arbiter.queued, hq]
  have hholder : Arbiter.holder (Arbiter.grant { v.arbiter with isLocked := true }
      (⟨t, some j⟩ : Request n)) z = decide (z = j) := holder_eq rfl rfl z
  simp only [Side.tokens] at hz
  simp only [hqz, hnone, Bool.toNat_false] at hr
  refine ⟨?_, ?_, ?_, ?_, ?_, ho, fun hz => absurd (hi hz).1 (by simp [hnone])⟩
  · rw [arbitrate_arbiter, hholder]
    by_cases hzj : z = j
    · subst z
      simp [hup] at hz
      simp [Side.tokens, hz]
    · simp [Side.tokens, hzj, hz]
  · change _ + v.arbiter.queued z + _ ≤ _
    rw [arbitrate_arbiter, hholder, hqz]
    by_cases hzj : z = j
    · subst z
      simp [hup] at hr ⊢
      omega
    · simp [hzj] at hr ⊢
      omega
  · exact fun t' h => hn t' ((left_sublist hup z).subset h)
  · exact fun r hr => absurd (hq ▸ hr) List.not_mem_nil
  · intro hh _
    rw [arbitrate_arbiter, hholder, decide_eq_true_eq] at hh
    subst hh
    exact hn t (by simp [hup])

/-- The last RELEASE, after which nobody has the lock. -/
private theorem held_free {v : View n} (h : v.Held) {j : Fin n} {before behind : List Up}
    (hup : (v.side j).up = before ++ .release :: behind) (hq : v.arbiter.queue.items = []) :
    (v.arbitrate j (before ++ behind)
      { v.arbiter with
        isLocked := false, locking := { v.arbiter.locking with sender := none }
        replied := Function.update v.arbiter.replied j true } fun _ => []).Held := by
  have hj : v.arbiter.holder j = true := h.holder_of_return hup rfl
  have hother {z : Fin n} (hz : z ≠ j) := holder_eq_false hj hz
  refine ⟨fun _ => hq, fun z => ?_⟩
  obtain ⟨ht, hr, hn, hnum, hl, ho, hi⟩ := h.client z
  have hqz : v.arbiter.queued z = 0 := by simp [Arbiter.queued, hq]
  refine ⟨?_, ?_, ?_, ?_, fun hh => by simp [Arbiter.holder] at hh, ho, ?_⟩
  · by_cases hz : z = j
    · subst z
      simp [Side.tokens, hup, hj] at ht
      simp [Side.tokens]
      omega
    · have := h.no_tokens (hother hz)
      simp [Side.tokens] at this
      simp [Side.tokens, hz, this]
  · change _ + v.arbiter.queued z + Bool.toNat (false && _) ≤ _
    rw [hqz, Bool.false_and]
    by_cases hz : z = j
    · subst z
      simp [hup, hj] at hr ⊢
      omega
    · simp [hz, hother hz, hqz] at hr ⊢
      omega
  · exact fun t' h => hn t' ((left_sublist hup z).subset h)
  · exact fun r hr => absurd (hq ▸ hr) List.not_mem_nil
  · intro hz
    simp only [arbitrate_arbiter, Function.update_apply] at hz
    split_ifs at hz with hzj
    exact absurd (hi hz).1 (by simp [hother hzj])

/-- Whatever an arbiter does with a message keeps the lock a single token. -/
theorem held_arbiter {p : Promise} {v : View n} (h : v.Held) {j : Fin n} {m : Up}
    {before behind : List Up} {arb : Arbiter n} {out : Fin n → List Down}
    (hup : (v.side j).up = before ++ m :: behind) (ha : Arbitration p v.arbiter j m arb out) :
    (v.arbitrate j (before ++ behind) arb out).Held := by
  have hreplied (y : Fin n) (hy : v.arbiter.replied y = false) := ((h.client y).replied hy).1
  have hsilent {y : Fin n} {d : Down} (hd : d.isLocked = false) (z : Fin n) :
      lockeds (Network.only y [d] z) = 0 := by
    rw [lockeds_only, hd, Bool.and_false, Bool.toNat_false]
  cases ha with
  | accept t hfree => exact held_accept h hup hfree
  | refuse t hlocked hroom hkey => exact held_enqueue h hup hlocked hreplied (hsilent rfl)
  | inquire t y hlocked hroom hy hyes hkey htop =>
    refine held_enqueue h hup hlocked (fun z hz => ?_) (hsilent rfl)
    rw [Function.update_apply] at hz
    split_ifs at hz with hzy
    · subst z
      simp [Arbiter.holder, hlocked, hy]
    · exact hreplied z hz
  | await t hlocked hheard => exact held_enqueue h hup hlocked hreplied fun _ => rfl
  | @hand top rest y hq hy =>
    have hpop : v.arbiter.queue.pop.items = rest := by rw [MessageQueue.items_pop, hq, List.tail_cons]
    refine held_pass h hup (.inr rfl) hq hy (fun r hr => .inl (hpop ▸ hr)) fun z => ?_
    rw [hpop]
    exact Nat.le_add_right _ _
  | free hq => exact held_free h hup hq
  | @replace top rest grant y hq hy =>
    have hsender := (holder_iff.mp (h.holder_of_return hup rfl)).2
    have hpop : v.arbiter.queue.pop.items = rest := by rw [MessageQueue.items_pop, hq, List.tail_cons]
    refine held_pass h hup (.inl rfl) hq hy (fun r hr => ?_) fun z => ?_
    · rcases MessageQueue.mem_push hr with rfl | hr
      · exact .inr ⟨rfl, rfl⟩
      · exact .inl (hpop ▸ hr)
    · refine (MessageQueue.countP_push_le _ _ _).trans (le_of_eq ?_)
      rw [hpop, hsender]
      by_cases hz : z = j
      · simp [hz]
      · simp [hz, Ne.symm hz]

theorem initial_held (Q : Quorums n) (k : Fin n) : ((initial n).view Q k).Held := by
  refine ⟨fun _ => rfl, fun j => ?_⟩
  constructor <;> simp [initial, State.view, State.side, Strategy.construct, Strategy.arbiter,
    Side.tokens, Side.holds, Arbiter.holder, Arbiter.queued]

/-- The step lemma. -/
theorem held_move {p : Promise} (hp : p.inTime) {v w : View n} (h : v.Held) (hm : Move p v w) :
    w.Held := by
  cases hm with
  | stay => exact h
  | client j hs =>
    refine ⟨h.free, fun y => ?_⟩
    by_cases hy : y = j
    · subst y
      rw [change_self]
      exact held_side hp (h.client j) hs
    · rw [change_of_ne _ _ hy]
      exact h.client y
  | arbiter j hup hfirst ha => exact held_arbiter h hup ha

/-- The run lemma. -/
theorem held_inTime {Q : Quorums n} {s : State n}
    (h : (machine Q).Guarded (fun s a => inTime s a = true) s) (k : Fin n) : (s.view Q k).Held := by
  refine h.invariant (I := fun s => (s.view Q k).Held) ?_ fun s a t hI hg hs => ?_
  · rintro _ rfl
    exact initial_held Q k
  · exact held_move hg hI (step_move hs k)

/-- At most one client is inside the critical section. -/
def State.Exclusive (s : State n) : Prop :=
  ∀ i j, s.main i = .inside → s.main j = .inside → i = j

instance (s : State n) : Decidable s.Exclusive :=
  inferInstanceAs (Decidable (∀ i j, s.main i = .inside → s.main j = .inside → i = j))

theorem View.Held.holder_of_holds {v : View n} (h : v.Held) {j : Fin n}
    (hj : (v.side j).holds = true) : v.arbiter.holder j = true := by
  by_contra hn
  have := h.no_tokens (Bool.not_eq_true _ ▸ hn)
  simp only [Side.tokens, hj, Bool.toNat_true] at this
  omega

/-- Two clients inside would both hold the lock of an arbiter in both quorums. -/
theorem exclusive_of_held {Q : Quorums n} {s : State n} (h : ∀ k, (s.view Q k).Held) :
    s.Exclusive := by
  intro i j hi hj
  obtain ⟨k, hk⟩ := Q.inter i j
  obtain ⟨hki, hkj⟩ := Finset.mem_inter.mp hk
  have hholds {y : Fin n} (hm : s.main y = .inside) (hky : k ∈ Q.quorum y) :
      (s.view Q k).arbiter.holder y = true := by
    apply (h k).holder_of_holds
    simp [State.view, State.side, Side.holds, hm, hky]
  exact holder_unique (hholds hi hki) (hholds hj hkj)

/-- Clients exclude each other in every run whose RELINQUISH messages are all sent in time. -/
theorem quorum_mutual_exclusion (Q : Quorums n) (acts : List (Action n)) (s : State n)
    (hg : (machine Q).Along (fun s a => inTime s a = true) (initial n) acts)
    (hr : (machine Q).run (initial n) acts = some s) : s.Exclusive :=
  exclusive_of_held (held_inTime (hg.guarded (.init rfl) hr))

/-- Two clients, each of which needs the locks of both. -/
def Quorums.pair : Quorums 2 where
  quorum _ := Finset.univ
  self_mem i := Finset.mem_univ i
  inter := by decide

/-- Three clients, each of which needs its own lock and that of the next client. -/
def Quorums.ring : Quorums 3 where
  quorum i := {i, i + 1}
  self_mem i := Finset.mem_insert_self i _
  inter := by decide

/-- Clients 0 and 1 lock themselves first. Client 1 is asked to yield, has been refused by 0
and sends RELINQUISH; client 0 enters. -/
def yieldRun : List (Action 2) :=
  [.requestResource 1, .requestResource 0, .treatMessage 1 1 0, .treatMessage 0 0 0,
    .treatMessage 0 1 0, .treatMessage 1 0 0, .treatMessage 1 1 0, .treatMessage 1 0 0,
    .treatMessage 1 1 0, .treatInquireMessage 1 1, .treatInquireMessage 1 1,
    .treatInquireMessage 1 1, .treatMessage 1 1 0, .treatMessage 0 0 0, .treatMessage 0 1 0,
    .canEnterCriticalSection 0]

theorem quorum_mutual_exclusion_after_yield :
    ∃ s : State 2, s.main 0 = .inside ∧ s.Exclusive := by
  obtain ⟨s, hr, hp⟩ := (machine .pair).exists_run (s := initial 2) yieldRun
    (fun s => s.main 0 = .inside) (by decide)
  exact ⟨s, of_decide_eq_true hp, quorum_mutual_exclusion .pair yieldRun s (by decide) hr⟩

/-- Client 2 has been refused by client 0 when the handler of an INQUIRE looks, but has all
locks and enters before the RELINQUISH is sent. Its lock goes to client 1, which enters too. -/
def lateRun : List (Action 3) :=
  [.requestResource 2, .treatMessage 2 2 0, .requestResource 1, .requestResource 0,
    .treatMessage 1 0 0, .treatMessage 0 0 0, .treatMessage 1 1 0, .treatMessage 0 0 0,
    .treatMessage 0 1 0, .treatMessage 2 2 0, .treatMessage 0 2 0, .treatMessage 1 1 0,
    .canEnterCriticalSection 0, .treatMessage 2 0 0, .treatMessage 2 1 0, .treatMessage 2 2 0,
    .treatInquireMessage 2 2, .releaseResource 0, .treatMessage 1 0 0,
    .treatInquireMessage 2 2, .treatMessage 0 0 0, .treatMessage 1 1 0, .treatMessage 2 0 0,
    .canEnterCriticalSection 2, .treatInquireMessage 2 2, .treatMessage 2 2 0,
    .treatMessage 1 2 0, .canEnterCriticalSection 1]

theorem quorum_mutual_exclusion_fails : ¬ ∀ (n : ℕ) (Q : Quorums n) (s : State n),
    (machine Q).Reachable s → s.Exclusive := by
  intro h
  obtain ⟨s, hs, hp⟩ := (machine .ring).exists_reachable_of_run (s := initial 3) rfl lateRun
    (fun s => !decide s.Exclusive) (by decide)
  simp only [Bool.not_eq_true', decide_eq_false_iff_not] at hp
  exact hp (h 3 .ring s hs)

end DistributedME.Maekawa
