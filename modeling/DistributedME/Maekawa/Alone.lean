import DistributedME.Library.Machine
import DistributedME.Maekawa.Construction
import DistributedME.Maekawa.View
import Mathlib.Data.Fintype.Option
import Mathlib.Data.List.FinRange

/-! One arbiter alone: what it was sent, what it sent, and what its clients owe it. -/
namespace DistributedME.Maekawa
open Library
variable {n : ℕ}

/-- The messages treated, with their senders, and the messages sent, with their receivers,
oldest first. -/
structure Alone (n : ℕ) where
  strategy : Strategy n
  treated : List (Fin n × Message)
  sent : List (Fin n × Message)

/-- What is sent in one section, to whom. -/
def mail (out : Fin n → List Message) : List (Fin n × Message) :=
  (List.finRange n).flatMap fun i => (out i).map (i, ·)

namespace Alone

def initial (n : ℕ) : Alone n := ⟨.construct n, [], []⟩

/-- Client j's message is treated. -/
def step (s : Alone n) : Fin n × Message → Option (Alone n)
  | (j, message) => (s.strategy.treatMessage j message).map fun (c, out) =>
    ⟨c, s.treated ++ [(j, message)], s.sent ++ mail out⟩

def machine (n : ℕ) : Machine (Alone n) (Fin n × Message) where
  init s := s = initial n
  step := step

/-- The number of the REQUEST of client j that was received and not yet released. -/
def outstanding (treated : List (Fin n × Message)) (j : Fin n) : Option ℕ :=
  treated.foldl (fun number m =>
    if m.1 = j then
      match m.2.body with
      | .request => some m.2.timestamp
      | .release => none
      | .locked _ | .inquire _ | .relinquish _ | .failed => number
    else number) none

/-- RELEASE and RELINQUISH give the lock back. -/
def returns (m : Fin n × Message) : Bool :=
  match m.2.body with
  | .release | .relinquish _ => true
  | .request | .locked _ | .inquire _ | .failed => false

def inquires (m : Fin n × Message) : Bool :=
  match m.2.body with
  | .inquire _ => true
  | .request | .locked _ | .relinquish _ | .failed | .release => false

def grants (m : Fin n × Message) : Bool := m.2.isLocked

/-- What was sent since the last LOCKED, newest first. -/
def sinceGrant (sent : List (Fin n × Message)) : List (Fin n × Message) :=
  sent.reverse.takeWhile fun m => !grants m

/-- The requests in the lock slot and in the queue. -/
def held (s : Alone n) : List (Request n) :=
  (if s.strategy.isLocked then [s.strategy.lockingRequest] else []) ++ s.strategy.waitingQueue.items

/-- A client requests again only when its last request is released, only the holder of the lock
releases, and only the holder relinquishes, in the case given. -/
def Disciplined (yields : Alone n → Fin n → Prop) (s : Alone n) : Fin n × Message → Prop
  | (j, message) =>
    match message.body with
    | .request => outstanding s.treated j = none
    | .release => s.strategy.isLocked = true ∧ s.strategy.lockingRequest.sender = some j
    | .relinquish _ =>
      s.strategy.isLocked = true ∧ s.strategy.lockingRequest.sender = some j ∧ yields s j
    | .locked _ | .inquire _ | .failed => True

theorem Disciplined.mono {yields weaker : Alone n → Fin n → Prop}
    (hw : ∀ s j, yields s j → weaker s j) {s : Alone n} {m : Fin n × Message}
    (h : s.Disciplined yields m) : s.Disciplined weaker m := by
  obtain ⟨j, t, body⟩ := m
  cases body with
  | relinquish grant =>
    obtain ⟨hl, hj, hy⟩ := h
    exact ⟨hl, hj, hw s j hy⟩
  | request | locked | inquire | failed | release => exact h

/-- An INQUIRE was sent for the current grant. -/
def Asked (s : Alone n) (j : Fin n) : Prop := ∃ m ∈ sinceGrant s.sent, m.1 = j ∧ inquires m = true

/-- The answer to an INQUIRE is awaited. -/
def Awaited (s : Alone n) (j : Fin n) : Prop := s.strategy.isInquireReplied j = false

instance (s : Alone n) (j : Fin n) : Decidable (s.Asked j) :=
  inferInstanceAs (Decidable (∃ m ∈ sinceGrant s.sent, m.1 = j ∧ inquires m = true))

instance (s : Alone n) (j : Fin n) : Decidable (s.Awaited j) :=
  inferInstanceAs (Decidable (s.strategy.isInquireReplied j = false))

instance Disciplined.decidable {yields : Alone n → Fin n → Prop} [∀ s j, Decidable (yields s j)]
    (s : Alone n) : ∀ m, Decidable (s.Disciplined yields m)
  | (_, ⟨_, .request⟩) => inferInstanceAs (Decidable (_ = _))
  | (_, ⟨_, .release⟩) => inferInstanceAs (Decidable (_ ∧ _))
  | (_, ⟨_, .relinquish _⟩) => inferInstanceAs (Decidable (_ ∧ _ ∧ _))
  | (_, ⟨_, .locked _⟩) | (_, ⟨_, .inquire _⟩) | (_, ⟨_, .failed⟩) =>
    inferInstanceAs (Decidable True)

end Alone

/-- Everything that treat_message can do as an arbiter, and what it sends. -/
inductive Strategy.Treats (c : Strategy n) (j : Fin n) :
    Message → Arbiter n → List (Fin n × Message) → Prop
  | accept (t s : ℕ) : c.isLocked = false → Treats c j ⟨t, .request⟩
      ({ c.arbiter with isLocked := true }.grant ⟨t, some j⟩) [(j, ⟨s, .locked (c.grants + 1)⟩)]
  | refuse (t s : ℕ) : c.isLocked = true →
      (c.lockingRequest.key < (⟨t, some j⟩ : Request n).key ∨
        ∃ top ∈ (c.arbiter.enqueue ⟨t, some j⟩).queue.items.head?,
          top.key < (⟨t, some j⟩ : Request n).key) →
      Treats c j ⟨t, .request⟩ (c.arbiter.enqueue ⟨t, some j⟩) [(j, ⟨s, .failed⟩)]
  | first (t s : ℕ) (y : Fin n) : c.isLocked = true → c.lockingRequest.sender = some y →
      (⟨t, some j⟩ : Request n).key ≤ c.lockingRequest.key →
      (∀ top ∈ (c.arbiter.enqueue ⟨t, some j⟩).queue.items.head?,
        (⟨t, some j⟩ : Request n).key ≤ top.key) →
      Treats c j ⟨t, .request⟩
        { c.arbiter.enqueue ⟨t, some j⟩ with
          replied := Function.update c.isInquireReplied y false }
        (if c.isInquireReplied y then [(y, ⟨s, .inquire c.grants⟩)] else [])
  | hand {top : Request n} {rest : List (Request n)} (t s : ℕ) (y : Fin n) :
      c.waitingQueue.items = top :: rest → top.sender = some y →
      Treats c j ⟨t, .release⟩
        ({ c.arbiter with
          queue := c.waitingQueue.pop
          replied := Function.update c.isInquireReplied j true }.grant top)
        [(y, ⟨s, .locked (c.grants + 1)⟩)]
  | free (t : ℕ) : c.waitingQueue.items = [] → Treats c j ⟨t, .release⟩
      { c.arbiter with
        isLocked := false, locking := { c.lockingRequest with sender := none }
        replied := Function.update c.isInquireReplied j true } []
  | replace {top : Request n} {rest : List (Request n)} (t s grant : ℕ) (y : Fin n) :
      c.waitingQueue.items = top :: rest → top.sender = some y →
      Treats c j ⟨t, .relinquish grant⟩
        ({ c.arbiter with
          queue := (c.waitingQueue.pop.push c.lockingRequest).1
          replied := Function.update c.isInquireReplied j true }.grant top)
        [(y, ⟨s, .locked (c.grants + 1)⟩)]
  | other {message : Message} : message.up? = none → Treats c j message c.arbiter []

theorem mail_only (y : Fin n) (m : Message) : mail (Network.only y [m]) = [(y, m)] := by
  have hsingle (l : List (Fin n)) (hl : l.Nodup) :
      (l.flatMap fun i => (Network.only y [m] i).map (i, ·)) =
        if y ∈ l then [(y, m)] else [] := by
    induction l with
    | nil => rfl
    | cons i l ih =>
      obtain ⟨hi, hl⟩ := List.nodup_cons.mp hl
      rw [List.flatMap_cons, ih hl]
      by_cases hy : y = i
      · subst hy
        simp [hi]
      · rw [Network.only_of_ne _ (Ne.symm hy), List.map_nil, List.nil_append]
        simp [hy]
  rw [mail, hsingle _ (List.nodup_finRange n), if_pos (List.mem_finRange y)]

theorem mail_none : mail (fun _ : Fin n => []) = [] := by
  simp [mail]

/-- The inversion lemma of treat_message. -/
theorem treats_of_treatMessage {c c' : Strategy n} {j : Fin n} {message : Message}
    {out : Fin n → List Message} (h : c.treatMessage j message = some (c', out)) :
    c.Treats j message c'.arbiter (mail out) := by
  obtain ⟨t, body⟩ := message
  cases body with
  | request =>
    simp only [Strategy.treatMessage, Strategy.treatRequestMessage] at h
    by_cases hl : c.isLocked = true
    · rw [if_neg (by simp [hl])] at h
      split_ifs at h with hr
      · cases h
        rw [Strategy.say, mail_only]
        exact .refuse t _ hl ((Strategy.refuses_iff _ _).mp hr)
      · obtain ⟨y, hy, h⟩ := Option.map_eq_some_iff.mp h
        have hkeys := mt (Strategy.refuses_iff _ _).mpr hr
        simp only [not_or, not_lt, not_exists, not_and] at hkeys
        have hfirst := Strategy.Treats.first t c.ourSequenceNumber y hl hy hkeys.1 hkeys.2
        split_ifs at h with hi <;> cases h
        · rw [Strategy.say, mail_only]
          rw [if_pos hi] at hfirst
          exact hfirst
        · rw [mail_none]
          rw [if_neg hi, Function.update_eq_self_iff.mpr (by simpa using hi)] at hfirst
          exact hfirst
    · rw [Bool.not_eq_true] at hl
      rw [if_pos (by simp [hl])] at h
      obtain ⟨y, hy, rfl, rfl⟩ := lock_eq_some h
      obtain rfl : j = y := Option.some.inj hy
      rw [Strategy.say, mail_only]
      exact .accept t _ hl
  | release =>
    simp only [Strategy.treatMessage, Strategy.treatReleaseMessage] at h
    split at h
    · next top htop =>
      obtain ⟨rest, hq⟩ := MessageQueue.top?_eq_some.mp htop
      obtain ⟨y, hy, rfl, rfl⟩ := lock_eq_some h
      rw [Strategy.say, mail_only]
      exact .hand t _ y hq hy
    · next htop =>
      cases h
      rw [mail_none]
      exact .free t (List.head?_eq_none_iff.mp htop)
  | relinquish grant =>
    obtain ⟨top, htop, h⟩ := Option.bind_eq_some_iff.mp h
    obtain ⟨rest, hq⟩ := MessageQueue.top?_eq_some.mp htop
    obtain ⟨y, hy, rfl, rfl⟩ := lock_eq_some h
    rw [Strategy.say, mail_only]
    exact .replace t _ grant y hq hy
  | locked | inquire | failed =>
    cases h
    rw [mail_none]
    exact .other rfl

/-- The requests in the lock slot and in the queue. -/
def Arbiter.held (a : Arbiter n) : List (Request n) :=
  (if a.isLocked then [a.locking] else []) ++ a.queue.items

/-- What an arbiter keeps, given all that it has treated and sent. -/
structure Arbiter.Kept (a : Arbiter n) (treated sent : List (Fin n × Message)) : Prop where
  idle : a.isLocked = false → a.queue.items = []
  holder : a.isLocked = true → ∃ y, a.locking.sender = some y
  nodup : (a.held.map Request.sender).Nodup
  mem_held : ∀ r, r ∈ a.held ↔ ∃ j t, r = ⟨t, some j⟩ ∧ Alone.outstanding treated j = some t
  balance : sent.countP Alone.grants = treated.countP Alone.returns + a.isLocked.toNat
  last : a.isLocked = true →
    ∃ m, (sent.filter Alone.grants).getLast? = some m ∧ a.locking.sender = some m.1
  flags : ∀ j, a.replied j = false → a.isLocked = true ∧ a.locking.sender = some j
  inverted : ∀ y, a.isLocked = true → a.locking.sender = some y →
    ((∃ r ∈ a.queue.items, r.key < a.locking.key) ↔ a.replied y = false)
  asked : ∀ y, a.isLocked = true → a.locking.sender = some y →
    (∀ m ∈ Alone.sinceGrant sent, Alone.inquires m = true → m.1 = y) ∧
      (Alone.sinceGrant sent).countP Alone.inquires = (!a.replied y).toNat

theorem outstanding_concat (treated : List (Fin n × Message)) (j' j : Fin n) (m : Message) :
    Alone.outstanding (treated ++ [(j', m)]) j =
      if j' = j then
        match m.body with
        | .request => some m.timestamp
        | .release => none
        | .locked _ | .inquire _ | .relinquish _ | .failed => Alone.outstanding treated j
      else Alone.outstanding treated j := by
  rw [Alone.outstanding, List.foldl_append]
  rfl

theorem sinceGrant_concat (sent : List (Fin n × Message)) (m : Fin n × Message) :
    Alone.sinceGrant (sent ++ [m]) = if Alone.grants m then [] else m :: Alone.sinceGrant sent := by
  rw [Alone.sinceGrant, List.reverse_append]
  cases hm : Alone.grants m <;> simp [Alone.sinceGrant, hm]

theorem kept_initial : (Strategy.construct n).arbiter.Kept [] [] where
  idle _ := rfl
  holder h := nomatch h
  nodup := List.nodup_nil
  mem_held r := by simp [Arbiter.held, Strategy.arbiter, Strategy.construct, Alone.outstanding]
  balance := rfl
  last h := nomatch h
  flags _ h := nomatch h
  inverted _ h := nomatch h
  asked _ h := nomatch h

/-- A request gets the lock, and nobody who waits precedes it. -/
theorem kept_grant {a : Arbiter n} {treated sent : List (Fin n × Message)} {top : Request n}
    {y : Fin n} {s g : ℕ} (hl : a.isLocked = true) (hy : top.sender = some y)
    (hnodup : ((a.grant top).held.map Request.sender).Nodup)
    (hmem : ∀ r, r ∈ (a.grant top).held ↔
      ∃ j t, r = ⟨t, some j⟩ ∧ Alone.outstanding treated j = some t)
    (hbalance : sent.countP Alone.grants = treated.countP Alone.returns)
    (hreplied : ∀ j, a.replied j = true) (hleast : ∀ r ∈ a.queue.items, ¬ r.key < top.key) :
    (a.grant top).Kept treated (sent ++ [(y, ⟨s, .locked g⟩)]) where
  idle h := Bool.noConfusion (hl.symm.trans h)
  holder _ := ⟨y, hy⟩
  nodup := hnodup
  mem_held := hmem
  balance := by
    rw [List.countP_append, hbalance]
    exact congrArg (_ + Bool.toNat ·) hl.symm
  last _ := ⟨(y, ⟨s, .locked g⟩), by rw [List.filter_append]; exact List.getLast?_concat, hy⟩
  flags j h := Bool.noConfusion ((hreplied j).symm.trans h)
  inverted y' _ _ := by
    constructor
    · rintro ⟨r, hr, hlt⟩
      exact absurd hlt (hleast r hr)
    · intro h
      exact Bool.noConfusion ((hreplied y').symm.trans h)
  asked y' _ _ := by
    have hnil : Alone.sinceGrant (sent ++ [(y, (⟨s, .locked g⟩ : Message))]) = [] := by
      rw [sinceGrant_concat]
      rfl
    rw [hnil]
    have htrue : (a.grant top).replied y' = true := hreplied y'
    rw [htrue]
    exact ⟨fun _ hm => absurd hm List.not_mem_nil, rfl⟩

namespace Arbiter.Kept
variable {a : Arbiter n} {treated sent out : List (Fin n × Message)}

/-- There is never more than one request of each client. -/
theorem room (h : a.Kept treated sent) (hn : n ≤ MESSAGE_QUEUE_MAX_SIZE) {j : Fin n}
    (hl : a.isLocked = true) (hj : Alone.outstanding treated j = none) :
    a.queue.size < MESSAGE_QUEUE_MAX_SIZE := by
  have hnew : some j ∉ a.held.map Request.sender := by
    intro hmem
    obtain ⟨r, hr, hsender⟩ := List.mem_map.mp hmem
    obtain ⟨i, t, rfl, ht⟩ := (h.mem_held r).mp hr
    obtain rfl : i = j := Option.some.inj hsender
    exact absurd (hj.symm.trans ht) (by simp)
  have hle := List.Nodup.length_le_card (List.nodup_cons.mpr ⟨hnew, h.nodup⟩)
  have hlen : a.held.length = a.queue.items.length + 1 := by
    simp [Arbiter.held, hl, Nat.add_comm]
  rw [List.length_cons, List.length_map, hlen, Fintype.card_option, Fintype.card_fin] at hle
  change a.queue.items.length < _
  omega

theorem sender_ne (h : a.Kept treated sent) {j : Fin n} (hj : Alone.outstanding treated j = none)
    {r : Request n} (hr : r ∈ a.held) : r.sender ≠ some j := by
  obtain ⟨i, t, rfl, ht⟩ := (h.mem_held r).mp hr
  intro hsender
  obtain rfl : i = j := Option.some.inj hsender
  exact absurd (hj.symm.trans ht) (by simp)

end Arbiter.Kept

/-- The requests not yet released when client j has sent a new one. -/
theorem outstanding_request {treated : List (Fin n × Message)} {j : Fin n}
    (hj : Alone.outstanding treated j = none) (t : ℕ) (r : Request n) :
    (∃ i u, r = ⟨u, some i⟩ ∧
        Alone.outstanding (treated ++ [(j, ⟨t, .request⟩)]) i = some u) ↔
      r = ⟨t, some j⟩ ∨ ∃ i u, r = ⟨u, some i⟩ ∧ Alone.outstanding treated i = some u := by
  constructor
  · rintro ⟨i, u, rfl, hu⟩
    rw [outstanding_concat] at hu
    split_ifs at hu with hij
    · subst hij
      cases hu
      exact .inl rfl
    · exact .inr ⟨i, u, rfl, hu⟩
  · rintro (rfl | ⟨i, u, rfl, hu⟩)
    · exact ⟨j, t, rfl, by rw [outstanding_concat, if_pos rfl]⟩
    · refine ⟨i, u, rfl, ?_⟩
      have hij : j ≠ i := fun hij => by
        rw [hij, hu] at hj
        cases hj
      rw [outstanding_concat, if_neg hij, hu]

theorem perm_held_enqueue {a : Arbiter n} (hl : a.isLocked = true)
    (hroom : a.queue.size < MESSAGE_QUEUE_MAX_SIZE) (r : Request n) :
    (a.enqueue r).held.Perm (r :: a.held) := by
  have hpush : (a.enqueue r).queue.items.Perm (r :: a.queue.items) := by
    change (a.queue.push r).1.items.Perm _
    rw [MessageQueue.push_of_room hroom]
    exact PriorityQueue.push_perm _ _
  have hl' : (a.enqueue r).isLocked = true := hl
  rw [Arbiter.held, Arbiter.held, if_pos hl', if_pos hl]
  exact (hpush.cons _).trans (List.Perm.swap _ _ _)

/-- A request goes into the queue, with whatever is sent about it. -/
theorem kept_enqueue {a : Arbiter n} {treated sent out : List (Fin n × Message)}
    (h : a.Kept treated sent) (hn : n ≤ MESSAGE_QUEUE_MAX_SIZE) (hl : a.isLocked = true) {j : Fin n}
    {t : ℕ} (hj : Alone.outstanding treated j = none) {replied : Fin n → Bool}
    (hout : ∀ m ∈ out, Alone.grants m = false)
    (hflags : ∀ y, replied y = false → a.locking.sender = some y)
    (hinverted : ∀ y, a.locking.sender = some y →
      ((∃ r ∈ (a.enqueue ⟨t, some j⟩).queue.items, r.key < a.locking.key) ↔ replied y = false))
    (hasked : ∀ y, a.locking.sender = some y →
      (∀ m ∈ Alone.sinceGrant (sent ++ out), Alone.inquires m = true → m.1 = y) ∧
        (Alone.sinceGrant (sent ++ out)).countP Alone.inquires = (!replied y).toNat) :
    Arbiter.Kept { a.enqueue ⟨t, some j⟩ with replied := replied }
      (treated ++ [(j, ⟨t, .request⟩)]) (sent ++ out) := by
  have hroom := h.room hn hl hj
  have hperm := perm_held_enqueue hl hroom (⟨t, some j⟩ : Request n)
  have hnone : out.filter Alone.grants = [] :=
    List.filter_eq_nil_iff.mpr fun m hm => by simp [hout m hm]
  refine ⟨fun hf => Bool.noConfusion (hl.symm.trans hf), fun _ => h.holder hl, ?_, ?_,
    ?_, fun _ => ?_, fun y hy => ⟨hl, hflags y hy⟩, fun y _ => hinverted y, fun y _ => hasked y⟩
  · refine (hperm.map Request.sender).nodup_iff.mpr (List.nodup_cons.mpr ⟨?_, h.nodup⟩)
    intro hmem
    obtain ⟨r, hr, hsender⟩ := List.mem_map.mp hmem
    exact h.sender_ne hj hr hsender
  · intro r
    refine hperm.mem_iff.trans ?_
    rw [List.mem_cons, h.mem_held, outstanding_request hj]
  · rw [List.countP_append, List.countP_append, List.countP_eq_length_filter (l := out), hnone]
    exact h.balance
  · rw [List.filter_append, hnone, List.append_nil]
    exact h.last hl

/-- The requests not yet released when client j has sent RELEASE. -/
theorem outstanding_release (treated : List (Fin n × Message)) (j : Fin n) (t : ℕ) (r : Request n) :
    (∃ i u, r = ⟨u, some i⟩ ∧
        Alone.outstanding (treated ++ [(j, ⟨t, .release⟩)]) i = some u) ↔
      r.sender ≠ some j ∧ ∃ i u, r = ⟨u, some i⟩ ∧ Alone.outstanding treated i = some u := by
  constructor
  · rintro ⟨i, u, rfl, hu⟩
    rw [outstanding_concat] at hu
    split_ifs at hu with hij
    exact ⟨fun hsender => hij (Option.some.inj hsender).symm, i, u, rfl, hu⟩
  · rintro ⟨hne, i, u, rfl, hu⟩
    have hij : j ≠ i := fun hij => hne (congrArg some hij.symm)
    exact ⟨i, u, rfl, by rw [outstanding_concat, if_neg hij, hu]⟩

/-- All other messages are about requests that stay where they are. -/
theorem outstanding_of_ne (treated : List (Fin n × Message)) (j i : Fin n) {m : Message}
    (hrequest : m.body ≠ .request) (hrelease : m.body ≠ .release) :
    Alone.outstanding (treated ++ [(j, m)]) i = Alone.outstanding treated i := by
  rw [outstanding_concat]
  split_ifs
  · split
    · next h => exact absurd h hrequest
    · next h => exact absurd h hrelease
    all_goals rfl
  · rfl

section steps
variable {c : Strategy n} {treated sent : List (Fin n × Message)} {j : Fin n}

theorem kept_accept (h : c.arbiter.Kept treated sent) (hl : c.isLocked = false)
    (hj : Alone.outstanding treated j = none) (t s g : ℕ) :
    Arbiter.Kept (Arbiter.grant { c.arbiter with isLocked := true } ⟨t, some j⟩)
      (treated ++ [(j, ⟨t, .request⟩)]) (sent ++ [(j, ⟨s, .locked g⟩)]) := by
  have hempty : c.waitingQueue.items = [] := h.idle hl
  have hheld : (Arbiter.grant { c.arbiter with isLocked := true } ⟨t, some j⟩).held =
      [⟨t, some j⟩] := by
    simp [Arbiter.held, Arbiter.grant, Strategy.arbiter, hempty]
  refine kept_grant rfl rfl ?_ (fun r => ?_) ?_ (fun y => ?_) (fun r hr => ?_)
  · rw [hheld]
    exact List.nodup_singleton _
  · have hnone : c.arbiter.held = [] := by
      simp [Arbiter.held, Strategy.arbiter, hl, hempty]
    rw [hheld, outstanding_request hj, ← h.mem_held, hnone, List.mem_singleton]
    simp
  · rw [h.balance, List.countP_append]
    simp [Strategy.arbiter, hl, Alone.returns]
  · by_contra hy
    have hfalse : c.arbiter.replied y = false := Bool.eq_false_iff.mpr hy
    exact Bool.noConfusion (hl.symm.trans (h.flags y hfalse).1)
  · have hnil : r ∈ c.waitingQueue.items := hr
    rw [hempty] at hnil
    exact absurd hnil List.not_mem_nil

/-- Whoever waits before and behind the new request. -/
theorem exists_enqueue_iff {a : Arbiter n} (hroom : a.queue.size < MESSAGE_QUEUE_MAX_SIZE)
    (r : Request n) (k : ℤ ×ₗ ℤ) : (∃ r' ∈ (a.enqueue r).queue.items, r'.key < k) ↔
      r.key < k ∨ ∃ r' ∈ a.queue.items, r'.key < k := by
  have hmem (r' : Request n) : r' ∈ (a.enqueue r).queue.items ↔ r' = r ∨ r' ∈ a.queue.items :=
    MessageQueue.mem_push_of_room hroom
  simp only [hmem, or_and_right, exists_or, exists_eq_left]

theorem kept_refuse (h : c.arbiter.Kept treated sent) (hn : n ≤ MESSAGE_QUEUE_MAX_SIZE)
    (hl : c.isLocked = true) (hj : Alone.outstanding treated j = none) {t s : ℕ}
    (hr : c.lockingRequest.key < (⟨t, some j⟩ : Request n).key ∨
      ∃ top ∈ (c.arbiter.enqueue ⟨t, some j⟩).queue.items.head?,
        top.key < (⟨t, some j⟩ : Request n).key) :
    (c.arbiter.enqueue ⟨t, some j⟩).Kept (treated ++ [(j, ⟨t, .request⟩)])
      (sent ++ [(j, ⟨s, .failed⟩)]) := by
  have hroom := h.room hn hl hj
  have hsince : Alone.sinceGrant (sent ++ [(j, (⟨s, .failed⟩ : Message))]) =
      (j, ⟨s, .failed⟩) :: Alone.sinceGrant sent := sinceGrant_concat _ _
  refine kept_enqueue h hn hl hj (by simp [Alone.grants, Message.isLocked])
    (fun y hy => (h.flags y hy).2) (fun y hy => ?_) (fun y hy => ?_)
  · rw [← h.inverted y hl hy, exists_enqueue_iff hroom, or_iff_right_of_imp]
    intro hlt
    rcases hr with hr | ⟨top, htop, hr⟩
    · exact absurd (hlt.trans hr) (lt_irrefl _)
    · -- the top precedes the new request, and so does not come with it
      rcases (MessageQueue.mem_push_of_room hroom).mp (List.mem_of_head? htop) with rfl | hold
      · exact absurd hr (lt_irrefl _)
      · exact ⟨top, hold, hr.trans hlt⟩
  · rw [hsince, List.countP_cons]
    obtain ⟨hall, hcount⟩ := h.asked y hl hy
    refine ⟨List.forall_mem_cons.mpr ⟨fun hm => Bool.noConfusion hm, hall⟩, ?_⟩
    rw [hcount]
    rfl

theorem kept_first (h : c.arbiter.Kept treated sent) (hn : n ≤ MESSAGE_QUEUE_MAX_SIZE)
    (hl : c.isLocked = true) (hj : Alone.outstanding treated j = none) {t s : ℕ} {y : Fin n}
    (hy : c.lockingRequest.sender = some y)
    (hle : (⟨t, some j⟩ : Request n).key ≤ c.lockingRequest.key) :
    Arbiter.Kept
      { c.arbiter.enqueue ⟨t, some j⟩ with replied := Function.update c.isInquireReplied y false }
      (treated ++ [(j, ⟨t, .request⟩)])
      (sent ++ if c.isInquireReplied y then [(y, ⟨s, .inquire c.grants⟩)] else []) := by
  have hroom := h.room hn hl hj
  have hmem : c.lockingRequest ∈ c.arbiter.held := by
    simp [Arbiter.held, Strategy.arbiter, hl]
  have hlt : (⟨t, some j⟩ : Request n).key < c.lockingRequest.key :=
    lt_of_le_of_ne hle fun hkey => h.sender_ne hj hmem (congrArg Request.sender (eq_of_key_eq hkey)).symm
  have hholder {y' : Fin n} (hy' : c.arbiter.locking.sender = some y') : y' = y :=
    Option.some.inj (hy'.symm.trans hy)
  refine kept_enqueue h hn hl hj (fun m hm => ?_) (fun y' hy' => ?_) (fun y' hy' => ?_)
    (fun y' hy' => ?_)
  · split_ifs at hm
    · obtain rfl := List.mem_singleton.mp hm
      rfl
    · exact absurd hm List.not_mem_nil
  · by_cases hyy : y' = y
    · rw [hyy]
      exact hy
    · rw [Function.update_of_ne hyy] at hy'
      exact (h.flags y' hy').2
  · rw [hholder hy', Function.update_self, exists_enqueue_iff hroom]
    exact iff_of_true (.inl hlt) rfl
  · rw [hholder hy', Function.update_self]
    obtain ⟨hall, hcount⟩ := h.asked y hl hy
    split_ifs with hi
    · rw [sinceGrant_concat, if_neg (by simp [Alone.grants, Message.isLocked]), List.countP_cons,
        hcount]
      have hreplied : c.arbiter.replied y = true := hi
      rw [hreplied]
      exact ⟨List.forall_mem_cons.mpr ⟨fun _ => rfl, hall⟩, rfl⟩
    · have hreplied : c.arbiter.replied y = false := Bool.eq_false_iff.mpr hi
      rw [List.append_nil, hcount, hreplied]
      exact ⟨hall, rfl⟩

/-- Nobody is asked any more when the holder has answered. -/
theorem replied_of_answer (h : c.arbiter.Kept treated sent) (hj : c.lockingRequest.sender = some j)
    (y : Fin n) : Function.update c.isInquireReplied j true y = true := by
  by_cases hy : y = j
  · rw [hy, Function.update_self]
  · rw [Function.update_of_ne hy]
    by_contra hfalse
    have hsender := (h.flags y (Bool.eq_false_iff.mpr hfalse)).2
    exact hy (Option.some.inj (hsender.symm.trans hj))

theorem held_of_locked (hl : c.isLocked = true) :
    c.arbiter.held = c.lockingRequest :: c.waitingQueue.items := by
  rw [Arbiter.held]
  exact congrArg (· ++ _) (if_pos hl)

/-- What is held without the request of the holder. -/
theorem mem_waiting (h : c.arbiter.Kept treated sent) (hl : c.isLocked = true)
    (hj : c.lockingRequest.sender = some j) (r : Request n) :
    r ∈ c.waitingQueue.items ↔ r.sender ≠ some j ∧ r ∈ c.arbiter.held := by
  have hnodup := h.nodup
  rw [held_of_locked hl] at hnodup ⊢
  obtain ⟨hlocking, -⟩ := List.nodup_cons.mp hnodup
  constructor
  · intro hr
    refine ⟨fun hsender => hlocking ?_, List.mem_cons_of_mem _ hr⟩
    exact List.mem_map.mpr ⟨r, hr, hsender.trans hj.symm⟩
  · rintro ⟨hne, hr⟩
    rcases List.mem_cons.mp hr with rfl | hr
    · exact absurd hj hne
    · exact hr

theorem kept_hand (h : c.arbiter.Kept treated sent) (hl : c.isLocked = true)
    (hj : c.lockingRequest.sender = some j) {top : Request n} {rest : List (Request n)}
    (hq : c.waitingQueue.items = top :: rest) {y : Fin n} (hy : top.sender = some y) (t s g : ℕ) :
    Arbiter.Kept (Arbiter.grant
        { c.arbiter with
          queue := c.waitingQueue.pop, replied := Function.update c.isInquireReplied j true } top)
      (treated ++ [(j, ⟨t, .release⟩)]) (sent ++ [(y, ⟨s, .locked g⟩)]) := by
  have hheld : (Arbiter.grant
      { c.arbiter with
        queue := c.waitingQueue.pop
        replied := Function.update c.isInquireReplied j true } top).held =
      c.waitingQueue.items := by
    rw [Arbiter.held, hq]
    have hpop : c.waitingQueue.pop.items = rest := by rw [MessageQueue.items_pop, hq, List.tail_cons]
    have hlocked : c.arbiter.isLocked = true := hl
    simp only [Arbiter.grant, hlocked, if_true, hpop]
    rfl
  have hnodup := h.nodup
  rw [held_of_locked hl] at hnodup
  refine kept_grant hl hy ?_ (fun r => ?_) ?_ (replied_of_answer h hj) (fun r hr => ?_)
  · rw [hheld]
    exact (List.nodup_cons.mp hnodup).2
  · rw [hheld, mem_waiting h hl hj, outstanding_release, h.mem_held]
  · rw [h.balance, List.countP_append]
    simp [Strategy.arbiter, hl, Alone.returns]
  · have hr' : r ∈ c.waitingQueue.items := List.mem_of_mem_tail hr
    exact not_lt.mpr (MessageQueue.top_le hq hr')

theorem kept_free (h : c.arbiter.Kept treated sent) (hl : c.isLocked = true)
    (hj : c.lockingRequest.sender = some j) (hq : c.waitingQueue.items = []) (t : ℕ) :
    Arbiter.Kept
      { c.arbiter with
        isLocked := false, locking := { c.lockingRequest with sender := none }
        replied := Function.update c.isInquireReplied j true }
      (treated ++ [(j, ⟨t, .release⟩)]) sent where
  idle _ := hq
  holder hf := Bool.noConfusion hf
  nodup := by
    simp [Arbiter.held, Strategy.arbiter, hq]
  mem_held r := by
    have hnil : r ∉ c.waitingQueue.items := by
      rw [hq]
      exact List.not_mem_nil
    rw [outstanding_release, ← h.mem_held, ← mem_waiting h hl hj]
    simp [Arbiter.held, Strategy.arbiter, hq]
  balance := by
    rw [h.balance, List.countP_append]
    simp [Strategy.arbiter, hl, Alone.returns]
  last hf := Bool.noConfusion hf
  flags y hy := Bool.noConfusion ((replied_of_answer h hj y).symm.trans hy)
  inverted _ hf := Bool.noConfusion hf
  asked _ hf := Bool.noConfusion hf

theorem kept_replace (h : c.arbiter.Kept treated sent) (hl : c.isLocked = true)
    (hj : c.lockingRequest.sender = some j) (hasked : c.isInquireReplied j = false)
    {top : Request n} {rest : List (Request n)} (hq : c.waitingQueue.items = top :: rest)
    {y : Fin n} (hy : top.sender = some y) (t s g grant : ℕ) :
    Arbiter.Kept (Arbiter.grant
        { c.arbiter with
          queue := (c.waitingQueue.pop.push c.lockingRequest).1
          replied := Function.update c.isInquireReplied j true } top)
      (treated ++ [(j, ⟨t, .relinquish grant⟩)]) (sent ++ [(y, ⟨s, .locked g⟩)]) := by
  have hpush : (c.waitingQueue.pop.push c.lockingRequest).1.items.Perm
      (c.lockingRequest :: rest) := by
    rw [MessageQueue.push_of_room (MessageQueue.pop_size_lt hq)]
    refine (PriorityQueue.push_perm _ _).trans ?_
    change (c.lockingRequest :: c.waitingQueue.pop.items).Perm _
    rw [MessageQueue.items_pop, hq, List.tail_cons]
  have hheld : (Arbiter.grant
      { c.arbiter with
        queue := (c.waitingQueue.pop.push c.lockingRequest).1
        replied := Function.update c.isInquireReplied j true } top).held.Perm c.arbiter.held := by
    have hlocked : c.arbiter.isLocked = true := hl
    rw [held_of_locked hl, hq, Arbiter.held]
    simp only [Arbiter.grant, hlocked, if_true]
    exact (hpush.cons top).trans (List.Perm.swap _ _ _)
  -- the holder was asked because somebody in the queue precedes it
  obtain ⟨r₀, hr₀, hlt⟩ := (h.inverted j hl hj).mpr hasked
  have htop (r : Request n) (hr : r ∈ c.waitingQueue.items) : top.key ≤ r.key :=
    MessageQueue.top_le hq hr
  refine kept_grant hl hy ?_ (fun r => ?_) ?_ (replied_of_answer h hj) (fun r hr => ?_)
  · exact (hheld.map Request.sender).nodup_iff.mpr h.nodup
  · rw [hheld.mem_iff, h.mem_held]
    simp only [outstanding_of_ne treated j _ (m := ⟨t, .relinquish grant⟩) (by simp) (by simp)]
  · rw [h.balance, List.countP_append]
    simp [Strategy.arbiter, hl, Alone.returns]
  · rcases List.mem_cons.mp (hpush.mem_iff.mp hr) with rfl | hr
    · exact not_lt.mpr ((htop r₀ hr₀).trans hlt.le)
    · exact not_lt.mpr (htop r (by rw [hq]; exact List.mem_cons_of_mem top hr))

theorem kept_other (h : c.arbiter.Kept treated sent) {m : Message} (hm : m.up? = none) :
    c.arbiter.Kept (treated ++ [(j, m)]) sent := by
  obtain ⟨t, body⟩ := m
  have hsame (i : Fin n) : Alone.outstanding (treated ++ [(j, ⟨t, body⟩)]) i =
      Alone.outstanding treated i := by
    apply outstanding_of_ne
    · rintro rfl
      cases hm
    · rintro rfl
      cases hm
  have hreturns : Alone.returns (j, (⟨t, body⟩ : Message)) = false := by
    cases body <;> first | rfl | cases hm
  exact ⟨h.idle, h.holder, h.nodup, fun r => by simp only [hsame]; exact h.mem_held r,
    by rw [List.countP_append]; simpa [hreturns] using h.balance, h.last, h.flags, h.inverted,
    h.asked⟩

theorem treats_of_step {s t : Alone n} {m : Message} (h : s.step (j, m) = some t) :
    ∃ out, t.treated = s.treated ++ [(j, m)] ∧ t.sent = s.sent ++ out ∧
      s.strategy.Treats j m t.strategy.arbiter out := by
  obtain ⟨⟨c, out⟩, hc, rfl⟩ := Option.map_eq_some_iff.mp h
  exact ⟨mail out, rfl, rfl, treats_of_treatMessage hc⟩

/-- A RELINQUISH that answers an INQUIRE is one that the arbiter waits for. -/
theorem awaited_of_asked {s : Alone n} (h : s.strategy.arbiter.Kept s.treated s.sent)
    (hl : s.strategy.isLocked = true) (hj : s.strategy.lockingRequest.sender = some j)
    (hasked : s.Asked j) : s.Awaited j := by
  obtain ⟨m, hm, -, hinquires⟩ := hasked
  have hcount := (h.asked j hl hj).2
  have hpos := List.countP_pos_iff.mpr ⟨m, hm, hinquires⟩
  rw [hcount] at hpos
  by_contra htrue
  have hreplied : s.strategy.arbiter.replied j = true := Bool.not_eq_false _ ▸ htrue
  rw [hreplied] at hpos
  exact absurd hpos (Nat.lt_irrefl 0)

/-- The step lemma. -/
theorem kept_step {s t : Alone n} (hn : n ≤ MESSAGE_QUEUE_MAX_SIZE) {m : Fin n × Message}
    (h : s.strategy.arbiter.Kept s.treated s.sent)
    (hd : s.Disciplined (fun s j => s.Asked j ∨ s.Awaited j) m) (hs : s.step m = some t) :
    t.strategy.arbiter.Kept t.treated t.sent := by
  obtain ⟨j, message⟩ := m
  obtain ⟨out, htreated, hsent, htreats⟩ := treats_of_step hs
  rw [htreated, hsent]
  revert htreats
  generalize t.strategy.arbiter = a
  intro htreats
  cases htreats with
  | accept t s' hl => exact kept_accept h hl hd t s' _
  | refuse t s' hl hr => exact kept_refuse h hn hl hd hr
  | first t s' y hl hy hle _ => exact kept_first h hn hl hd hy hle
  | hand t s' y hq hy => exact kept_hand h hd.1 hd.2 hq hy t s' _
  | free t hq =>
    rw [List.append_nil]
    exact kept_free h hd.1 hd.2 hq t
  | replace t s' grant y hq hy =>
    obtain ⟨hl, hj, hyields⟩ := hd
    have hawaited := hyields.elim (awaited_of_asked h hl hj) id
    exact kept_replace h hl hj hawaited hq hy t s' _ grant
  | other hm =>
    rw [List.append_nil]
    exact kept_other h hm

end steps

/-- The run lemma. -/
theorem kept_disciplined {yields : Alone n → Fin n → Prop}
    (hyields : ∀ s j, yields s j → s.Asked j ∨ s.Awaited j) (hn : n ≤ MESSAGE_QUEUE_MAX_SIZE)
    {s : Alone n} (h : (Alone.machine n).Guarded (Alone.Disciplined yields) s) :
    s.strategy.arbiter.Kept s.treated s.sent := by
  refine Machine.Guarded.invariant (I := fun s => s.strategy.arbiter.Kept s.treated s.sent)
    ?_ ?_ h
  · rintro _ rfl
    exact kept_initial
  · intro s m t hI hd hs
    exact kept_step hn hI (hd.mono hyields) hs

/-- A message that a client may send is treated. -/
theorem exists_step {s : Alone n} (h : s.strategy.arbiter.Kept s.treated s.sent)
    {m : Fin n × Message} (hd : s.Disciplined (fun s j => s.Asked j ∨ s.Awaited j) m) :
    ∃ t, s.step m = some t := by
  have hsender {r : Request n} (hr : r ∈ s.strategy.waitingQueue.items) :
      ∃ y, r.sender = some y := by
    obtain ⟨y, t, rfl, -⟩ := (h.mem_held r).mp (List.mem_append_right _ hr)
    exact ⟨y, rfl⟩
  obtain ⟨j, t, body⟩ := m
  suffices hsome : ∃ next, s.strategy.treatMessage j ⟨t, body⟩ = some next by
    obtain ⟨next, hnext⟩ := hsome
    exact ⟨_, Option.map_eq_some_iff.mpr ⟨next, hnext, rfl⟩⟩
  cases body with
  | request =>
    simp only [Strategy.treatMessage, Strategy.treatRequestMessage]
    split_ifs with hl hr
    · exact ⟨_, rfl⟩
    · exact ⟨_, rfl⟩
    · obtain ⟨y, hy⟩ := h.holder (by simpa [Strategy.arbiter] using hl)
      exact ⟨_, Option.map_eq_some_iff.mpr ⟨y, hy, rfl⟩⟩
  | release =>
    simp only [Strategy.treatMessage, Strategy.treatReleaseMessage]
    split
    · next top htop =>
      obtain ⟨y, hy⟩ := hsender (List.mem_of_head? htop)
      exact ⟨_, Option.map_eq_some_iff.mpr ⟨y, hy, rfl⟩⟩
    · exact ⟨_, rfl⟩
  | relinquish grant =>
    obtain ⟨hl, hj, hyields⟩ := hd
    have hawaited := hyields.elim (awaited_of_asked h hl hj) id
    obtain ⟨r, hr, -⟩ := (h.inverted j hl hj).mpr hawaited
    obtain ⟨top, rest, hq⟩ := List.exists_cons_of_ne_nil (List.ne_nil_of_mem hr)
    have hmem : top ∈ s.strategy.waitingQueue.items := hq ▸ List.mem_cons_self
    obtain ⟨y, hy⟩ := hsender hmem
    exact ⟨_, Option.bind_eq_some_iff.mpr ⟨top, MessageQueue.top?_eq_some.mpr ⟨rest, hq⟩,
      Option.map_eq_some_iff.mpr ⟨y, hy, rfl⟩⟩⟩
  | locked | inquire | failed => exact ⟨_, rfl⟩

/-- RELEASE and RELINQUISH pass the lock to the least request of the queue. -/
theorem handed_of_step {s t : Alone n} {m : Fin n × Message} (hs : s.step m = some t)
    (hd : s.Disciplined (fun s j => s.Asked j ∨ s.Awaited j) m) (hm : Alone.returns m = true)
    {r : Request n} (hr : r ∈ s.strategy.waitingQueue.items)
    (hleast : ∀ r' ∈ s.strategy.waitingQueue.items, r.key ≤ r'.key) :
    t.strategy.isLocked = true ∧ t.strategy.lockingRequest = r ∧
      ∃ y k g, r.sender = some y ∧ t.sent = s.sent ++ [(y, ⟨k, .locked g⟩)] := by
  have htop {top : Request n} {rest : List (Request n)}
      (hq : s.strategy.waitingQueue.items = top :: rest) : top = r := by
    have hmem : top ∈ s.strategy.waitingQueue.items := hq ▸ List.mem_cons_self
    exact eq_of_key_eq (le_antisymm (MessageQueue.top_le hq hr) (hleast top hmem))
  obtain ⟨j, message⟩ := m
  obtain ⟨out, -, hsent, htreats⟩ := treats_of_step hs
  rw [hsent]
  change t.strategy.arbiter.isLocked = true ∧ t.strategy.arbiter.locking = r ∧ _
  revert htreats
  generalize t.strategy.arbiter = a
  intro htreats
  cases htreats with
  | hand t k y hq hy =>
    obtain rfl := htop hq
    exact ⟨hd.1, rfl, y, k, _, hy, rfl⟩
  | free t hq =>
    rw [hq] at hr
    exact absurd hr List.not_mem_nil
  | replace t k grant y hq hy =>
    obtain rfl := htop hq
    exact ⟨hd.1, rfl, y, k, _, hy, rfl⟩
  | accept | refuse | first => cases hm
  | other hnone =>
    obtain ⟨t, body⟩ := message
    cases body with
    | release | relinquish => cases hnone
    | request | locked | inquire | failed => cases hm

/-- A REQUEST that finds the lock taken and comes after somebody is answered by FAILED. -/
theorem failed_of_step {s t : Alone n} (h : s.strategy.arbiter.Kept s.treated s.sent)
    (hn : n ≤ MESSAGE_QUEUE_MAX_SIZE) {j : Fin n} {number : ℕ}
    (hs : s.step (j, ⟨number, .request⟩) = some t)
    (hj : Alone.outstanding s.treated j = none) (hl : s.strategy.isLocked = true)
    {r : Request n} (hr : r ∈ s.held) (hlt : r.key < (⟨number, some j⟩ : Request n).key) :
    ∃ k, t.sent = s.sent ++ [(j, ⟨k, .failed⟩)] := by
  obtain ⟨out, -, hsent, htreats⟩ := treats_of_step hs
  rw [hsent]
  revert htreats
  generalize t.strategy.arbiter = a
  intro htreats
  cases htreats with
  | accept _ _ hidle => exact Bool.noConfusion (hl.symm.trans hidle)
  | refuse _ k _ _ => exact ⟨k, rfl⟩
  | first _ _ y _ _ hlocking hqueue =>
    have hheld : r ∈ s.strategy.arbiter.held := hr
    rw [held_of_locked hl] at hheld
    rcases List.mem_cons.mp hheld with rfl | hwaits
    · exact absurd hlt (not_lt.mpr hlocking)
    · -- whoever waits is not before the top of the queue
      have hmem := (MessageQueue.mem_push_of_room (h.room hn hl hj)
        (a := (⟨number, some j⟩ : Request n))).mpr (.inr hwaits)
      obtain ⟨top, rest, hq⟩ := List.exists_cons_of_ne_nil (List.ne_nil_of_mem hmem)
      have hle := hqueue top (List.head?_eq_some_iff.mpr ⟨rest, hq⟩)
      exact absurd hlt (not_lt.mpr (hle.trans (MessageQueue.top_le hq hmem)))
  | other hnone => cases hnone

/-- Nothing that was requested and not yet released is lost or doubled, and at most one grant
is out. -/
structure Alone.Conserves (s : Alone n) : Prop where
  nodup : s.held.Nodup
  mem_held : ∀ r, r ∈ s.held ↔ ∃ j t, r = ⟨t, some j⟩ ∧ Alone.outstanding s.treated j = some t
  idle : s.strategy.isLocked = false → s.strategy.waitingQueue.items = []
  balance : s.sent.countP Alone.grants =
    s.treated.countP Alone.returns + s.strategy.isLocked.toNat
  last : s.strategy.isLocked = true → ∃ m, (s.sent.filter Alone.grants).getLast? = some m ∧
    s.strategy.lockingRequest.sender = some m.1
  handed : ∀ m, s.Disciplined Alone.Asked m → Alone.returns m = true →
    ∀ r ∈ s.strategy.waitingQueue.items,
      (∀ r' ∈ s.strategy.waitingQueue.items, r.key ≤ r'.key) →
      ∃ t, s.step m = some t ∧ t.strategy.isLocked = true ∧ t.strategy.lockingRequest = r ∧
        ∃ y k g, r.sender = some y ∧ t.sent = s.sent ++ [(y, ⟨k, .locked g⟩)]

/-- One INQUIRE asks the holder for the lock just while somebody who waits precedes it. -/
structure Alone.InquiresInversions (s : Alone n) : Prop where
  flags : ∀ j, s.strategy.isInquireReplied j = false →
    s.strategy.isLocked = true ∧ s.strategy.lockingRequest.sender = some j
  inquired : ∀ j, s.strategy.isLocked = true → s.strategy.lockingRequest.sender = some j →
    (∃ r ∈ s.strategy.waitingQueue.items, r.key < s.strategy.lockingRequest.key) →
    s.strategy.isInquireReplied j = false ∧
      ∃ m, (Alone.sinceGrant s.sent).filter Alone.inquires = [m] ∧ m.1 = j
  inverted : ∀ j, s.strategy.isInquireReplied j = false →
    ∃ r ∈ s.strategy.waitingQueue.items, r.key < s.strategy.lockingRequest.key
  relinquished : ∀ j t grant, s.Disciplined Alone.Awaited (j, ⟨t, .relinquish grant⟩) →
    ∃ top, s.strategy.waitingQueue.top? = some top
  failed : ∀ j number, s.Disciplined Alone.Awaited (j, ⟨number, .request⟩) →
    s.strategy.isLocked = true →
    (∃ r ∈ s.held, r.key < (⟨number, some j⟩ : Request n).key) →
    ∃ t k, s.step (j, ⟨number, .request⟩) = some t ∧ t.sent = s.sent ++ [(j, ⟨k, .failed⟩)]

theorem exists_disciplined_run {yields : Alone n → Fin n → Prop}
    (hyields : ∀ s j, yields s j → s.Asked j ∨ s.Awaited j) (hn : n ≤ MESSAGE_QUEUE_MAX_SIZE)
    {messages : List (Fin n × Message)}
    (hg : (Alone.machine n).Along (Alone.Disciplined yields) (.initial n) messages) :
    ∃ s, (Alone.machine n).run (.initial n) messages = some s ∧
      s.strategy.arbiter.Kept s.treated s.sent := by
  obtain ⟨s, hr, hs⟩ := hg.exists_run (fun s m h hd =>
    exists_step (kept_disciplined hyields hn h) (hd.mono hyields)) (.init rfl)
  exact ⟨s, hr, kept_disciplined hyields hn hs⟩

/-- An arbiter conserves requests and grants, and it never gets stuck. -/
theorem requests_conserved (hn : n ≤ MESSAGE_QUEUE_MAX_SIZE) (messages : List (Fin n × Message))
    (hg : (Alone.machine n).Along (Alone.Disciplined Alone.Asked) (.initial n) messages) :
    ∃ s, (Alone.machine n).run (.initial n) messages = some s ∧ s.Conserves := by
  have hyields (s : Alone n) (j : Fin n) (h : s.Asked j) : s.Asked j ∨ s.Awaited j := .inl h
  obtain ⟨s, hr, h⟩ := exists_disciplined_run hyields hn hg
  refine ⟨s, hr, h.nodup.of_map _, h.mem_held, h.idle, h.balance, h.last, fun m hd hm r hr' hle => ?_⟩
  obtain ⟨t, ht⟩ := exists_step h (hd.mono hyields)
  exact ⟨t, ht, handed_of_step ht (hd.mono hyields) hm hr' hle⟩

/-- Client 1 makes client 0 give the lock back, and client 2 waits. -/
def returned : List (Fin 3 × Message) :=
  [(0, ⟨5, .request⟩), (1, ⟨3, .request⟩), (2, ⟨9, .request⟩), (0, ⟨5, .relinquish 1⟩),
    (1, ⟨3, .release⟩)]

theorem requests_conserved_when_returned :
    ∃ s, (Alone.machine 3).run (.initial 3) returned = some s ∧ s.Conserves :=
  requests_conserved (by decide) returned (by decide)

/-- An arbiter asks its holder for the lock just when it should. -/
theorem inversions_inquired (hn : n ≤ MESSAGE_QUEUE_MAX_SIZE) (messages : List (Fin n × Message))
    (hg : (Alone.machine n).Along (Alone.Disciplined Alone.Awaited) (.initial n) messages) :
    ∃ s, (Alone.machine n).run (.initial n) messages = some s ∧ s.InquiresInversions := by
  have hyields (s : Alone n) (j : Fin n) (h : s.Awaited j) : s.Asked j ∨ s.Awaited j := .inr h
  obtain ⟨s, hr, h⟩ := exists_disciplined_run hyields hn hg
  have hinverted (j : Fin n) (hj : s.strategy.isInquireReplied j = false) :
      ∃ r ∈ s.strategy.waitingQueue.items, r.key < s.strategy.lockingRequest.key :=
    (h.inverted j (h.flags j hj).1 (h.flags j hj).2).mpr hj
  refine ⟨s, hr, h.flags, fun j hl hj hr => ?_, hinverted, ?_, ?_⟩
  · have hfalse := (h.inverted j hl hj).mp hr
    obtain ⟨hall, hcount⟩ := h.asked j hl hj
    rw [hfalse, List.countP_eq_length_filter] at hcount
    obtain ⟨m, hm⟩ := List.length_eq_one_iff.mp hcount
    have hmem : m ∈ (Alone.sinceGrant s.sent).filter Alone.inquires := hm ▸ List.mem_singleton_self m
    obtain ⟨hsince, hinquires⟩ := List.mem_filter.mp hmem
    exact ⟨hfalse, m, hm, hall m hsince hinquires⟩
  · rintro j t grant ⟨-, -, hawaited⟩
    obtain ⟨r, hr, -⟩ := hinverted j hawaited
    obtain ⟨top, rest, hq⟩ := List.exists_cons_of_ne_nil (List.ne_nil_of_mem hr)
    exact ⟨top, MessageQueue.top?_eq_some.mpr ⟨rest, hq⟩⟩
  · rintro j number hd hl ⟨r, hr, hlt⟩
    obtain ⟨t, ht⟩ := exists_step h (hd.mono hyields)
    obtain ⟨k, hk⟩ := failed_of_step h hn ht hd hl hr hlt
    exact ⟨t, k, ht, hk⟩

theorem inversions_inquired_when_returned :
    ∃ s, (Alone.machine 3).run (.initial 3) returned = some s ∧ s.InquiresInversions :=
  inversions_inquired (by decide) returned (by decide)

end DistributedME.Maekawa
