import DistributedME.Maekawa.Inquiries

/-! Every request of an arbiter's member is at one known place, and a queued request that may
have to yield to another one has been told so, as long as the steps keep their promises. -/
namespace DistributedME.Maekawa
open Library
variable {n : ℕ}

/-- Behind a REQUEST comes no RELEASE. -/
def Ordered (up : List Up) : Prop :=
  up.Pairwise fun x y => x.isRequest = true → y.isRelease = false

/-- Behind a LOCKED comes no FAILED. -/
def Clean (down : List Down) : Prop := down.Pairwise fun x y => x.isLocked = true → y ≠ .failed

/-- The client has FAILED from the arbiter, or will have when its mail is treated. -/
def Side.Refused (a : Side) : Prop := .failed ∈ a.down ∨ a.reply = .failed

/-- The queued request may still get the lock before the locking one is released, and is the
first to get it. -/
def Arbiter.First (a : Arbiter n) (r : Request n) : Prop :=
  r.key ≤ a.locking.key ∧ ∀ r' ∈ a.queue.items, r.key ≤ r'.key

/-- Nothing of one client's request is lost. -/
structure Placed (arb : Arbiter n) (j : Fin n) (a : Side) : Prop where
  token : a.tokens = (arb.holder j).toNat
  request : requests a.up + arb.queued j + (arb.holder j).toNat = releases a.up + a.active.toNat
  ordered : Ordered a.up
  single : arb.queued j + (arb.holder j).toNat ≤ 1
  refused : ∀ r ∈ arb.queue.items, r.sender = some j → a.Refused ∨ arb.First r
  yielded : 0 < relinquishes a.up → a.reply = .failed
  accepted : a.holds = true → .failed ∉ a.down
  clean : Clean a.down

structure View.Placed (v : View n) : Prop where
  taken : v.arbiter.isLocked = true → ∃ h, v.arbiter.locking.sender = some h
  asked : ∀ h, v.arbiter.holder h = true → v.arbiter.replied h = false →
    ∃ r ∈ v.arbiter.queue.items, r.key ≤ v.arbiter.locking.key
  preceded : ∀ r ∈ v.arbiter.queue.items, r.key < v.arbiter.locking.key →
    ∀ h, v.arbiter.holder h = true → v.arbiter.replied h = false
  client : ∀ j, Maekawa.Placed v.arbiter j (v.side j)

theorem holds_eq_false {arb : Arbiter n} {j : Fin n} {a : Side} (h : Held arb j a)
    (hm : a.member = false) : a.holds = false := by
  rw [← Bool.not_eq_true]
  intro hh
  rw [holds_iff h hh] at hm
  cases hm

theorem ordered_append {up : List Up} (h : Ordered up) {m : Up}
    (hm : m.isRelease = true → requests up = 0) : Ordered (up ++ [m]) := by
  refine List.pairwise_append.mpr ⟨h, List.pairwise_singleton _ _, ?_⟩
  intro x hx y hy hreq
  rw [List.mem_singleton.mp hy]
  by_contra hrel
  exact absurd (hm (Bool.not_eq_false _ ▸ hrel))
    (Nat.ne_of_gt (List.countP_pos_iff.mpr ⟨x, hx, hreq⟩))

/-- A client keeps its request in place by whatever it does. -/
theorem placed_side {p : Promise} (hp : p.inTime) (ho : p.inOrder) {arb : Arbiter n} {j : Fin n}
    {a b : Side} (hheld : Held arb j a) (h : Placed arb j a) (hm : SideMove p a b) :
    Placed arb j b := by
  obtain ⟨ht, hr, hord, hs, href, hy, hacc, hcl⟩ := h
  have hout := holds_eq_false hheld
  have hone := Bool.toNat_le (arb.holder j)
  simp only [Side.tokens] at ht
  cases hm with
  | elsewhere x => exact ⟨ht, hr, hord, hs, href, hy, hacc, hcl⟩
  | request t x hmain hmem =>
    have hqz : arb.queued j = 0 := (hheld.nothing_asked hmain).2.1
    simp only [Side.active, hmain, Bool.toNat_false] at hr
    have hholds : a.holds.toNat = 0 := by omega
    refine ⟨?_, ?_, ?_, hs, ?_, ?_, by simp [Side.holds], hcl⟩
    · simp [Side.tokens, Side.holds]
      omega
    · simp [Side.active, hmem]
      omega
    · exact ordered_append hord (by simp)
    · exact fun r hr hj => absurd hj (queued_eq_zero hqz r hr)
    · simp
      omega
  | requestElsewhere t x hmain hmem =>
    have hreply := hheld.outside hmem
    refine ⟨?_, ?_, hord, hs, href, hy, by simp [Side.holds, hreply], hcl⟩
    · rw [hout hmem] at ht
      simpa [Side.tokens, Side.holds, hreply] using ht
    · simpa [Side.active, hmain, hmem] using hr
  | enter hmain hreply =>
    have hsame : a.member = a.holds := by
      cases hmem : a.member with
      | false => exact (hout hmem).symm
      | true => simp [Side.holds, hmain, hreply hmem]
    refine ⟨?_, ?_, hord, hs, href, hy, fun hh => hacc (hsame ▸ hh), hcl⟩
    · change lockeds a.down + a.member.toNat + relinquishes a.up + releases a.up = _
      rw [hsame]
      exact ht
    · simpa [Side.active, hmain] using hr
  | release x hmain hmem =>
    simp only [Side.holds, hmain, hmem, Bool.toNat_true] at ht
    simp only [Side.active, hmain, hmem, Bool.toNat_true] at hr
    have hqz : arb.queued j = 0 := by omega
    have hrz : requests a.up = 0 := by omega
    refine ⟨?_, ?_, ?_, hs, ?_, ?_, by simp [Side.holds], hcl⟩
    · simp [Side.tokens, Side.holds]
      omega
    · simp [Side.active]
      omega
    · exact ordered_append hord fun _ => hrz
    · exact fun r hr hj => absurd hj (queued_eq_zero hqz r hr)
    · simp
      omega
  | releaseElsewhere x hmain hmem =>
    have hreply := hheld.outside hmem
    refine ⟨?_, ?_, hord, hs, href, hy, by simp [Side.holds, hreply], hcl⟩
    · rw [hout hmem] at ht
      simpa [Side.tokens, Side.holds, hreply] using ht
    · simpa [Side.active, hmain, hmem] using hr
  | @locked before behind grant x hready hdown hfirst =>
    obtain rfl := hfirst ho
    rw [List.nil_append] at hdown
    simp only [hdown, lockeds_cons, isLocked_locked, Bool.toNat_true] at ht
    rw [hdown] at hcl
    obtain ⟨hnext, hcl⟩ := List.pairwise_cons.mp hcl
    obtain ⟨hpolling, -⟩ := hheld.waiting (by
      rw [hdown, lockeds_cons]
      exact Nat.add_pos_left (Nat.succ_pos _) _)
    have hqz : arb.queued j = 0 := by omega
    refine ⟨?_, hr, hord, hs, ?_, ?_, ?_, hcl⟩
    · simp [Side.tokens, Side.holds, hpolling]
      omega
    · exact fun r hr hj => absurd hj (queued_eq_zero hqz r hr)
    · intro hpos
      simp only at hpos
      omega
    · exact fun _ hmem => hnext _ hmem rfl rfl
  | @failed before behind x hready hdown hfirst =>
    obtain rfl := hfirst ho
    rw [List.nil_append] at hdown
    have hno : a.holds = false :=
      Bool.eq_false_iff.mpr fun hh => hacc hh (hdown ▸ List.mem_cons_self)
    have hno' : Side.holds { a with
        reply := .failed, allLocked := x, down := [] ++ behind } = false :=
      Bool.eq_false_iff.mpr fun hh => Bool.eq_false_iff.mp hno (holds_of_failed hh)
    simp only [hdown, hno, lockeds_cons, isLocked_failed, Bool.toNat_false] at ht
    rw [hdown] at hcl
    refine ⟨?_, hr, hord, hs, fun r _ _ => .inl (.inr rfl), fun _ => rfl, ?_, hcl.tail⟩
    · rw [Side.tokens, hno']
      simpa using ht
    · exact fun hh => (Bool.false_ne_true (hno'.symm.trans hh)).elim
  | @inquire before behind grant hready hdown hfirst =>
    obtain rfl := hfirst ho
    rw [List.nil_append] at hdown
    simp only [hdown, lockeds_cons, isLocked_inquire, Bool.toNat_false] at ht
    rw [hdown] at hcl hacc
    refine ⟨?_, hr, hord, hs, fun r hr hj => (href r hr hj).imp_left ?_, hy, ?_, hcl.tail⟩
    · simpa [Side.tokens, Side.holds] using ht
    · simp [Side.Refused, hdown]
    · exact fun hh hmem => hacc hh (.tail _ hmem)
  | consider grant point' hpoint => exact ⟨ht, hr, hord, hs, href, hy, hacc, hcl⟩
  | leave grant hpoint hanswer => exact ⟨ht, hr, hord, hs, href, hy, hacc, hcl⟩
  | relinquish grant x hpoint htime =>
    obtain ⟨hmain, hreply⟩ := htime hp
    simp only [Side.holds, hmain, hreply, decide_true, Bool.toNat_true] at ht
    refine ⟨?_, ?_, ?_, hs, fun r _ _ => .inl (.inr rfl), fun _ => rfl, ?_, hcl⟩
    · simp [Side.tokens, Side.holds, hmain]
      omega
    · simpa [Side.active] using hr
    · exact ordered_append hord (by simp)
    · simp [Side.holds, hmain]

theorem clean_append_locked {down : List Down} (h : Clean down) (z y : Fin n) (g : ℕ) :
    Clean (down ++ Network.only y [.locked g] z) := by
  refine List.pairwise_append.mpr ⟨h, ?_, ?_⟩
  · by_cases hz : z = y <;> simp [hz]
  · intro a _ b hb _
    rw [List.mem_singleton.mp (Network.mem_only.mp hb).2]
    exact Down.noConfusion

/-- What a grant to y leaves to show: where each client's request is now, and that what stays
in the queue has been refused. -/
private theorem placed_grant {v : View n} (h : v.Placed) {j y : Fin n} {m : Up}
    {before behind : List Up} (hup : (v.side j).up = before ++ m :: behind) {arb : Arbiter n}
    (hy : arb.locking.sender = some y) (hlocked : arb.isLocked = true)
    (hheld : (v.arbitrate j (before ++ behind) arb (Network.only y [.locked arb.grants])).Held)
    (hreplied : ∀ z, arb.replied z = true)
    (hfirst : ∀ r ∈ arb.queue.items, arb.locking.key ≤ r.key)
    (hrequest : ∀ z, requests (if z = j then before ++ behind else (v.side z).up) +
      arb.queued z + (arb.holder z).toNat =
        releases (if z = j then before ++ behind else (v.side z).up) + (v.side z).active.toNat)
    (hsingle : ∀ z, arb.queued z + (arb.holder z).toNat ≤ 1)
    (hrefused : ∀ r ∈ arb.queue.items, ∀ z, r.sender = some z → (v.side z).Refused) :
    (v.arbitrate j (before ++ behind) arb (Network.only y [.locked arb.grants])).Placed := by
  refine ⟨fun _ => ⟨y, hy⟩, fun z _ hz => by simp [hreplied] at hz, fun r hr hlt => ?_, fun z => ?_⟩
  · exact absurd hlt (not_lt.mpr (hfirst r hr))
  obtain ⟨ht, hr, hord, hs, href, hyield, hacc, hcl⟩ := h.client z
  have htok := (hheld.client z).token
  have hholder := holder_eq hlocked hy z
  have honly : lockeds (Network.only y [.locked arb.grants] z) = (decide (z = y)).toNat := by
    rw [lockeds_only, isLocked_locked, Bool.and_true]
  simp only [Side.tokens, arbitrate_down, arbitrate_up, arbitrate_holds, arbitrate_arbiter,
    lockeds_append, honly, hholder] at htok
  refine ⟨?_, hrequest z, hord.sublist (left_sublist hup z), hsingle z, ?_, ?_, ?_,
    clean_append_locked hcl z y _⟩
  · simp only [Side.tokens, arbitrate_down, arbitrate_up, arbitrate_holds, arbitrate_arbiter,
      lockeds_append, honly, hholder]
    omega
  · intro r hr hrz
    refine .inl ((hrefused r hr z hrz).imp_left fun hf => ?_)
    exact List.mem_append.mpr (.inl hf)
  · intro hpos
    exact hyield (lt_of_lt_of_le hpos ((left_sublist hup z).countP_le))
  · intro hh
    rw [arbitrate_holds] at hh
    simp only [hh, Bool.toNat_true] at htok
    omega

/-- A client whose REQUEST is the oldest message to an arbiter has nothing else there. -/
theorem idle_of_request {arb : Arbiter n} {j : Fin n} {a : Side} (h : Placed arb j a) {t : ℕ}
    {behind : List Up} (hup : a.up = .request t :: behind) :
    arb.queued j = 0 ∧ arb.holder j = false := by
  have hord := h.ordered
  rw [hup] at hord
  have hrel : releases behind = 0 := by
    refine List.countP_eq_zero.mpr fun m hm => ?_
    rw [(List.pairwise_cons.mp hord).1 m hm rfl]
    exact Bool.false_ne_true
  have hreq := h.request
  have hone := Bool.toNat_le a.active
  simp only [hup, requests_cons, releases_cons, isRequest_request, isRelease_request,
    Bool.toNat_true, Bool.toNat_false] at hreq
  refine ⟨by omega, ?_⟩
  cases hh : arb.holder j with
  | false => rfl
  | true =>
    simp only [hh, Bool.toNat_true] at hreq
    omega

/-- A request goes into the queue. -/
private theorem placed_enqueue {v : View n} (h : v.Placed) {j : Fin n} {t : ℕ}
    {behind : List Up} (hup : (v.side j).up = .request t :: behind)
    (hroom : v.arbiter.queue.size < MESSAGE_QUEUE_MAX_SIZE) {arb : Arbiter n}
    (hqueue : arb.queue = (v.arbiter.queue.push ⟨t, some j⟩).1)
    (hlocking : arb.locking = v.arbiter.locking) (hlocked : arb.isLocked = v.arbiter.isLocked)
    {out : Fin n → List Down} (hout : ∀ z, lockeds (out z) = 0)
    (hfailed : ∀ z, .failed ∈ out z → z = j)
    (hasked : ∀ h, arb.holder h = true → arb.replied h = false →
      ∃ r ∈ arb.queue.items, r.key ≤ arb.locking.key)
    (hpreceded : ∀ r ∈ arb.queue.items, r.key < arb.locking.key →
      ∀ h, arb.holder h = true → arb.replied h = false)
    (hrefused : ∀ r ∈ arb.queue.items, ∀ z, r.sender = some z →
      (v.side z).Refused ∨ .failed ∈ out z ∨ arb.First r) :
    (v.arbitrate j behind arb out).Placed := by
  refine ⟨fun hl => ?_, hasked, hpreceded, fun z => ?_⟩
  · rw [arbitrate_arbiter, hlocking]
    exact h.taken (hlocked.symm.trans hl)
  obtain ⟨ht, hr, hord, hs, href, hyield, hacc, hcl⟩ := h.client z
  have hholder : arb.holder z = v.arbiter.holder z := by
    rw [Arbiter.holder, hlocking, hlocked]
    rfl
  have hqueued : arb.queued z = v.arbiter.queued z + (decide (z = j)).toNat := by
    rw [Arbiter.queued, hqueue, MessageQueue.countP_push_of_room hroom]
    simp [Arbiter.queued, eq_comm]
  have hup' : (v.side j).up = [] ++ .request t :: behind := hup
  have hfree := idle_of_request (h.client j) hup
  have hholds (hz : z = j) : (v.side z).holds.toNat = 0 ∧ lockeds (v.side z).down = 0 := by
    subst hz
    simp only [Side.tokens, hfree.2, Bool.toNat_false] at ht
    omega
  refine ⟨?_, ?_, hord.sublist (left_sublist hup' z), ?_, ?_, ?_, ?_, ?_⟩
  · rw [arbitrate_arbiter, hholder, ← ht]
    by_cases hz : z = j
    · subst z
      simp [Side.tokens, hup, hout]
    · simp [Side.tokens, hz, hout]
  · rw [arbitrate_arbiter, hholder, hqueued]
    by_cases hz : z = j
    · subst z
      simp [hup] at hr ⊢
      omega
    · simpa [hz] using hr
  · rw [arbitrate_arbiter, hholder, hqueued]
    by_cases hz : z = j
    · subst z
      simp [hfree.1, hfree.2]
    · simpa [hz] using hs
  · intro r hr hrz
    rcases hrefused r hr z hrz with (hf | hf) | hf | hf
    · exact .inl (.inl (List.mem_append.mpr (.inl hf)))
    · exact .inl (.inr hf)
    · exact .inl (.inl (List.mem_append.mpr (.inr hf)))
    · exact .inr hf
  · intro hpos
    exact hyield (lt_of_lt_of_le hpos ((left_sublist hup' z).countP_le))
  · intro hh hmem
    rcases List.mem_append.mp hmem with hmem | hmem
    · exact hacc hh hmem
    · rw [arbitrate_holds] at hh
      have := (hholds (hfailed z hmem)).1
      simp [hh] at this
  · refine List.pairwise_append.mpr ⟨hcl, ?_, ?_⟩
    · refine List.pairwise_iff_forall_sublist.mpr fun {x y} hxy hx => ?_
      have hmem : x ∈ out z := hxy.subset List.mem_cons_self
      exact absurd (hout z) (Nat.ne_of_gt (List.countP_pos_iff.mpr ⟨x, hmem, hx⟩))
    · rintro x hx y hy hxl rfl
      have := (hholds (hfailed z hy)).2
      exact absurd this (Nat.ne_of_gt (List.countP_pos_iff.mpr ⟨x, hx, hxl⟩))

/-- Only the top of the queue has not been refused. -/
theorem refused_of_rest {v : View n} (h : v.Placed) {top : Request n} {rest : List (Request n)}
    (hq : v.arbiter.queue.items = top :: rest) {r : Request n} (hr : r ∈ rest) {z : Fin n}
    (hz : r.sender = some z) : (v.side z).Refused := by
  have hmem : r ∈ v.arbiter.queue.items := hq ▸ List.mem_cons_of_mem _ hr
  rcases (h.client z).refused r hmem hz with href | ⟨-, hleast⟩
  · exact href
  · have htop : top ∈ v.arbiter.queue.items := hq ▸ List.mem_cons_self
    have heq : r = top := eq_of_key_eq (le_antisymm (hleast top htop) (MessageQueue.top_le hq hmem))
    -- the client would be queued twice
    have htwo : 1 < v.arbiter.queued z := by
      have : 0 < rest.countP fun r => r.sender = some z :=
        List.countP_pos_iff.mpr ⟨r, hr, by simpa using hz⟩
      simp only [queued_of_top hq (heq ▸ hz), decide_true, Bool.toNat_true]
      omega
    have := (h.client z).single
    omega

/-- The queue after the top is gone, and perhaps the old locking request put back. -/
private theorem placed_pass {v : View n} (hheld : v.Held) (h : v.Placed) {j y : Fin n} {m : Up}
    {before behind : List Up} (hup : (v.side j).up = before ++ m :: behind)
    (hm : m.isRelinquish = true ∨ m.isRelease = true) {top : Request n} {rest : List (Request n)}
    (hq : v.arbiter.queue.items = top :: rest) (htop : top.sender = some y)
    {queue : MessageQueue (Request.key (n := n)) MESSAGE_QUEUE_MAX_SIZE}
    (hqueue : ∀ r ∈ queue.items, r ∈ rest ∨ r = v.arbiter.locking ∧ m.isRelinquish = true)
    (hcount : ∀ z, queue.items.countP (fun r => r.sender = some z) =
      rest.countP (fun r => r.sender = some z) + (decide (z = j) && m.isRelinquish).toNat)
    (hback : m.isRelinquish = true → top.key ≤ v.arbiter.locking.key)
    (hw : (v.arbitrate j (before ++ behind)
      (Arbiter.grant { v.arbiter with
        queue := queue
        replied := Function.update v.arbiter.replied j true } top)
      (Network.only y [.locked (v.arbiter.grants + 1)])).Held) :
    (v.arbitrate j (before ++ behind)
      (Arbiter.grant { v.arbiter with
        queue := queue
        replied := Function.update v.arbiter.replied j true } top)
      (Network.only y [.locked (v.arbiter.grants + 1)])).Placed := by
  have hone : m.isRelinquish.toNat + m.isRelease.toNat = 1 ∧ m.isRequest.toNat = 0 := by
    rcases hm with hm | hm <;> cases m <;> first | exact ⟨rfl, rfl⟩ | cases hm
  have hj : v.arbiter.holder j = true :=
    hheld.holder_of_return hup (Bool.toNat_eq_zero.mp hone.2)
  obtain ⟨hlocked, hsender⟩ := holder_iff.mp hj
  have hold := holder_eq hlocked hsender
  have hnew (z : Fin n) : Arbiter.holder (Arbiter.grant { v.arbiter with
      queue := queue
      replied := Function.update v.arbiter.replied j true } top) z = decide (z = y) :=
    holder_eq (a := Arbiter.grant _ top) hlocked htop z
  have hqueued := queued_of_top hq htop
  have hyj : y ≠ j := by
    rintro rfl
    have := (h.client y).single
    simp only [hqueued, hold, decide_true, Bool.toNat_true] at this
    omega
  refine placed_grant h hup htop hlocked hw (fun z => ?_) (fun r hr => ?_) (fun z => ?_)
    (fun z => ?_) fun r hr z hz => ?_
  · simp only [Arbiter.grant, Function.update_apply]
    split_ifs with hz
    · rfl
    · by_contra hno
      have := ((hheld.client z).replied (Bool.not_eq_true _ ▸ hno)).1
      simp [hold, hz] at this
  · rcases hqueue r hr with hr | ⟨rfl, hrel⟩
    · exact MessageQueue.top_le hq (hq ▸ List.mem_cons_of_mem _ hr)
    · exact hback hrel
  · have hreq := (h.client z).request
    rw [hnew]
    change _ + queue.items.countP _ + _ = _
    rw [hcount z]
    by_cases hz : z = j
    · subst z
      simp only [hup, hqueued, hold, requests_append, requests_cons, releases_append,
        releases_cons, decide_true, Bool.toNat_true] at hreq
      simp only [if_true, requests_append, releases_append, decide_true, Bool.true_and,
        Ne.symm hyj, decide_false, Bool.toNat_false] at hreq ⊢
      omega
    · simp only [hqueued, hold, hz, decide_false, Bool.toNat_false] at hreq
      simp only [hz, if_false, decide_false, Bool.false_and, Bool.toNat_false]
      omega
  · have hs := (h.client z).single
    rw [hnew]
    change queue.items.countP _ + _ ≤ 1
    rw [hcount z]
    have hle := Bool.toNat_le m.isRelinquish
    simp only [hqueued, hold] at hs
    by_cases hz : z = j
    · subst z
      simp only [Ne.symm hyj, decide_true, Bool.true_and, decide_false, Bool.toNat_true,
        Bool.toNat_false] at hs ⊢
      omega
    · simp only [hz, decide_false, Bool.false_and, Bool.toNat_false] at hs ⊢
      omega
  · rcases hqueue r hr with hr | ⟨rfl, hrel⟩
    · exact refused_of_rest h hq hr hz
    · obtain rfl : j = z := Option.some.inj (hsender.symm.trans hz)
      have hpos : 0 < relinquishes (v.side j).up :=
        List.countP_pos_iff.mpr ⟨m, by simp [hup], hrel⟩
      exact .inr ((h.client j).yielded hpos)

/-- The first request after a time in which nobody had the lock. -/
private theorem placed_accept {v : View n} (hheld : v.Held) (h : v.Placed) {j : Fin n} {t : ℕ}
    {before behind : List Up} (hup : (v.side j).up = before ++ .request t :: behind)
    (hfree : v.arbiter.isLocked = false)
    (hw : (v.arbitrate j (before ++ behind)
      (Arbiter.grant { v.arbiter with isLocked := true } ⟨t, some j⟩)
      (Network.only j [.locked (v.arbiter.grants + 1)])).Held) :
    (v.arbitrate j (before ++ behind)
      (Arbiter.grant { v.arbiter with isLocked := true } ⟨t, some j⟩)
      (Network.only j [.locked (v.arbiter.grants + 1)])).Placed := by
  have hq := hheld.free hfree
  have hnone (z : Fin n) : v.arbiter.holder z = false := by simp [Arbiter.holder, hfree]
  have hqueued (z : Fin n) : v.arbiter.queued z = 0 := by simp [Arbiter.queued, hq]
  have hholder (z : Fin n) : Arbiter.holder (Arbiter.grant { v.arbiter with isLocked := true }
      (⟨t, some j⟩ : Request n)) z = decide (z = j) := holder_eq rfl rfl z
  refine placed_grant h hup rfl rfl hw (fun z => ?_) (fun r hr => ?_) (fun z => ?_)
    (fun z => ?_) fun r hr => ?_
  · by_contra hno
    have := ((hheld.client z).replied (Bool.not_eq_true _ ▸ hno)).1
    simp [hnone] at this
  · exact absurd (hq ▸ hr) List.not_mem_nil
  · have hreq := (h.client z).request
    rw [hholder]
    change _ + v.arbiter.queued z + _ = _
    simp only [hqueued, hnone, Bool.toNat_false] at hreq ⊢
    by_cases hz : z = j
    · subst z
      simp [hup] at hreq ⊢
      omega
    · simp [hz]
      omega
  · rw [hholder]
    change v.arbiter.queued z + _ ≤ _
    rw [hqueued]
    simpa using Bool.toNat_le _
  · exact absurd (hq ▸ hr) List.not_mem_nil

/-- The last RELEASE, after which nobody has the lock. -/
private theorem placed_free {v : View n} (hheld : v.Held) (h : v.Placed) {j : Fin n}
    {before behind : List Up} (hup : (v.side j).up = before ++ .release :: behind)
    (hq : v.arbiter.queue.items = [])
    (hw : (v.arbitrate j (before ++ behind)
      { v.arbiter with
        isLocked := false, locking := { v.arbiter.locking with sender := none }
        replied := Function.update v.arbiter.replied j true } fun _ => []).Held) :
    (v.arbitrate j (before ++ behind)
      { v.arbiter with
        isLocked := false, locking := { v.arbiter.locking with sender := none }
        replied := Function.update v.arbiter.replied j true } fun _ => []).Placed := by
  have hj : v.arbiter.holder j = true := hheld.holder_of_return hup rfl
  refine ⟨fun hl => (Bool.false_ne_true hl).elim, fun y hy => (Bool.false_ne_true hy).elim,
    fun r hr => absurd (hq ▸ hr) List.not_mem_nil, fun z => ?_⟩
  obtain ⟨ht, hr, hord, hs, href, hyield, hacc, hcl⟩ := h.client z
  have hqz : v.arbiter.queued z = 0 := by simp [Arbiter.queued, hq]
  refine ⟨Nat.le_antisymm (hw.client z).token (Nat.zero_le _), ?_,
    hord.sublist (left_sublist hup z), ?_, fun r hr => absurd (hq ▸ hr) List.not_mem_nil,
    fun hpos => hyield (lt_of_lt_of_le hpos ((left_sublist hup z).countP_le)), ?_, ?_⟩
  · change _ + v.arbiter.queued z + 0 = _
    by_cases hz : z = j
    · subst z
      simp [hup, hj] at hr ⊢
      omega
    · simpa [hz, holder_eq_false hj hz] using hr
  · change v.arbiter.queued z + 0 ≤ 1
    omega
  · simpa using hacc
  · simpa using hcl

/-- The request comes after the locking one or after another one in the queue, and is refused. -/
private theorem placed_refuse {v : View n} (h : v.Placed) {j : Fin n} {t : ℕ}
    {behind : List Up} (hup : (v.side j).up = .request t :: behind)
    (hroom : v.arbiter.queue.size < MESSAGE_QUEUE_MAX_SIZE)
    (hlater : v.arbiter.locking.key < (⟨t, some j⟩ : Request n).key ∨
      ∃ r ∈ v.arbiter.queue.items, r.key < (⟨t, some j⟩ : Request n).key) :
    (v.arbitrate j behind (v.arbiter.enqueue ⟨t, some j⟩) (Network.only j [.failed])).Placed := by
  have hmem {r : Request n} : r ∈ (v.arbiter.enqueue ⟨t, some j⟩).queue.items ↔
      r = ⟨t, some j⟩ ∨ r ∈ v.arbiter.queue.items := MessageQueue.mem_push_of_room hroom
  refine placed_enqueue h hup hroom (by rfl) (by rfl) (by rfl) (fun z => by simp [lockeds_only])
    (fun z hz => (Network.mem_only.mp hz).1) (fun y hy hno => ?_) (fun r hr hlt y hy => ?_)
    fun r hr z hz => ?_
  · obtain ⟨r, hr, hle⟩ := h.asked y hy hno
    exact ⟨r, hmem.mpr (.inr hr), hle⟩
  · rcases hmem.mp hr with rfl | hr
    · rcases hlater with hlater | ⟨r, hr, hlater⟩
      · exact absurd hlt hlater.not_gt
      · exact h.preceded r hr (hlater.trans hlt) y hy
    · exact h.preceded r hr hlt y hy
  · rcases hmem.mp hr with rfl | hr
    · obtain rfl : j = z := Option.some.inj hz
      exact .inr (.inl (by simp))
    · refine ((h.client z).refused r hr hz).imp_right ?_
      rintro ⟨hle, hleast⟩
      refine .inr ⟨hle, fun r' hr' => ?_⟩
      rcases hmem.mp hr' with rfl | hr'
      · rcases hlater with hlater | ⟨r', hr', hlater⟩
        · exact hle.trans hlater.le
        · exact (hleast r' hr').trans hlater.le
      · exact hleast r' hr'

/-- The request is to get the lock next, and its holder y is asked for it. -/
private theorem placed_inquire {v : View n} (h : v.Placed) {j y : Fin n} {t : ℕ}
    {behind : List Up} (hup : (v.side j).up = .request t :: behind)
    (hroom : v.arbiter.queue.size < MESSAGE_QUEUE_MAX_SIZE)
    (hholder : v.arbiter.holder y = true) (hyes : v.arbiter.replied y = true)
    (hfirst : (v.arbiter.enqueue ⟨t, some j⟩).First ⟨t, some j⟩) :
    (v.arbitrate j behind
      { v.arbiter.enqueue ⟨t, some j⟩ with
        replied := Function.update v.arbiter.replied y false }
      (Network.only y [.inquire v.arbiter.grants])).Placed := by
  have hmem {r : Request n} : r ∈ (v.arbiter.enqueue ⟨t, some j⟩).queue.items ↔
      r = ⟨t, some j⟩ ∨ r ∈ v.arbiter.queue.items := MessageQueue.mem_push_of_room hroom
  refine placed_enqueue h hup hroom (by rfl) (by rfl) (by rfl) (fun z => by simp [lockeds_only])
    (fun z hz => ?_) (fun z _ _ => ?_) (fun r hr hlt z hz => ?_) fun r hr z hz => ?_
  · cases List.mem_singleton.mp (Network.mem_only.mp hz).2
  · exact ⟨⟨t, some j⟩, hmem.mpr (.inl rfl), hfirst.1⟩
  · obtain rfl : z = y := holder_unique (a := v.arbiter) hz hholder
    simp
  · rcases hmem.mp hr with rfl | hr
    · exact .inr (.inr hfirst)
    · rcases (h.client z).refused r hr hz with href | ⟨hle, -⟩
      · exact .inl href
      · rcases hle.lt_or_eq with hlt | heq
        · exact absurd (h.preceded r hr hlt y hholder) (by simp [hyes])
        · -- then the holder itself would be in the queue
          rw [eq_of_key_eq heq] at hr hz
          obtain rfl : y = z := Option.some.inj ((holder_iff.mp hholder).2.symm.trans hz)
          have hs := (h.client y).single
          have hpos : 0 < v.arbiter.queued y :=
            List.countP_pos_iff.mpr ⟨_, hr, by simpa using hz⟩
          simp only [hholder, Bool.toNat_true] at hs
          omega

/-- Whatever an arbiter does with its oldest message from a client keeps all requests in
place, if it finds room in its queue and asks the holder of the lock when it should. -/
theorem placed_arbiter {p : Promise} (hh : p.heard) (ho : p.inOrder) {v : View n}
    (hheld : v.Held) (hasked : v.Asked) (h : v.Placed) {j : Fin n} {m : Up}
    {before behind : List Up} {arb : Arbiter n} {out : Fin n → List Down}
    (hup : (v.side j).up = before ++ m :: behind) (hfirst : p.inOrder → before = [])
    (ha : Arbitration p v.arbiter j m arb out) :
    (v.arbitrate j (before ++ behind) arb out).Placed := by
  have hw := held_arbiter hheld hup ha
  obtain rfl := hfirst ho
  have hhead : (v.side j).up = m :: behind := hup
  cases ha with
  | accept t hfree => exact placed_accept hheld h hup hfree hw
  | refuse t hlocked hroom hkey =>
    refine placed_refuse h hhead (hroom hh) (hkey.imp_right ?_)
    rintro ⟨top, htop, hkey⟩
    rcases mem_enqueue (List.mem_of_mem_head? htop) with rfl | htop
    · exact absurd hkey (lt_irrefl _)
    · exact ⟨top, htop, hkey⟩
  | inquire t y hlocked hroom hy hyes hkey htop =>
    refine placed_inquire h hhead (hroom hh) (holder_iff.mpr ⟨hlocked, hy⟩) hyes ⟨hkey, ?_⟩
    intro r hr
    obtain ⟨top, rest, hq⟩ := List.exists_cons_of_ne_nil (enqueue_ne_nil v.arbiter ⟨t, some j⟩)
    exact (htop top (by rw [hq]; rfl)).trans (MessageQueue.top_le hq hr)
  | await t hlocked hheard => exact absurd hh hheard
  | @hand top rest y hq hy =>
    have hpop : v.arbiter.queue.pop.items = rest := by rw [MessageQueue.items_pop, hq, List.tail_cons]
    refine placed_pass hheld h hup (.inr rfl) hq hy (fun r hr => .inl (hpop ▸ hr))
      (fun z => ?_) (fun hrel => ?_) hw
    · simp [hpop]
    · cases hrel
  | free hq => exact placed_free hheld h hup hq hw
  | @replace top rest grant y hq hy =>
    have hpop : v.arbiter.queue.pop.items = rest := by rw [MessageQueue.items_pop, hq, List.tail_cons]
    have hj : v.arbiter.holder j = true := hheld.holder_of_return hup rfl
    have hsender := (holder_iff.mp hj).2
    refine placed_pass hheld h hup (.inl rfl) hq hy (fun r hr => ?_) (fun z => ?_) (fun _ => ?_) hw
    · rcases MessageQueue.mem_push hr with rfl | hr
      · exact .inr ⟨rfl, rfl⟩
      · exact .inl (hpop ▸ hr)
    · rw [MessageQueue.countP_push_of_room (MessageQueue.pop_size_lt hq), hpop, hsender]
      simp [eq_comm]
    · have hno : v.arbiter.replied j = false := by
        have hone := (hasked j).once
        cases hno : v.arbiter.replied j with
        | false => rfl
        | true => simp [hhead, hno] at hone
      obtain ⟨r, hr, hle⟩ := h.asked j hj hno
      exact (MessageQueue.top_le hq hr).trans hle

theorem initial_placed (Q : Quorums n) (k : Fin n) : ((initial n).view Q k).Placed := by
  refine ⟨fun hl => (Bool.false_ne_true hl).elim, fun h hh => (Bool.false_ne_true hh).elim,
    fun r hr => absurd hr List.not_mem_nil, fun j => ?_⟩
  constructor <;> simp [initial, State.view, State.side, Strategy.construct, Strategy.arbiter,
    Side.tokens, Side.holds, Side.active, Arbiter.holder, Arbiter.queued, Ordered, Clean]

/-- What a step has to keep for requests to stay in place. -/
structure Promise.Kept (p : Promise) : Prop where
  inTime : p.inTime
  inOrder : p.inOrder
  heard : p.heard
  noticed : p.noticed
  answers : p.answers

/-- The step lemma. -/
theorem placed_move {p : Promise} (hp : p.Kept) {v w : View n} (hheld : v.Held) (hasked : v.Asked)
    (h : v.Placed) (hm : Move p v w) : w.Placed := by
  cases hm with
  | stay => exact h
  | client j hs =>
    refine ⟨h.taken, h.asked, h.preceded, fun y => ?_⟩
    by_cases hy : y = j
    · subst y
      rw [change_self]
      exact placed_side hp.inTime hp.inOrder (hheld.client j) (h.client j) hs
    · rw [change_of_ne _ _ hy]
      exact h.client y
  | arbiter j hup hfirst ha =>
    exact placed_arbiter hp.heard hp.inOrder hheld hasked h hup hfirst ha

/-- The run lemma. -/
theorem placed_kept {Q : Quorums n} {s : State n}
    (h : (machine Q).Guarded (fun s a => (promise Q s a).Kept) s) (k : Fin n) :
    (s.view Q k).Placed := by
  refine h.invariant_of (J := fun s => (s.view Q k).Held ∧ (s.view Q k).Asked)
    (I := fun s => (s.view Q k).Placed)
    (fun s hs => ⟨held_inTime (hs.mono fun _ _ hg => hg.inTime) k,
      asked_inOrder (hs.mono fun _ _ hg => ⟨hg.inTime, hg.inOrder⟩) k⟩) ?_
    fun s a t hJ _ hI hg hs => ?_
  · rintro _ rfl
    exact initial_placed Q k
  · exact placed_move hg hJ.1 hJ.2 hI (step_move hs k)

end DistributedME.Maekawa
