import DistributedME.Library.Network
import Mathlib.Data.Fintype.Basic
import Mathlib.Data.Fin.Basic

/-! The object RACriticalSectionAlgStrategy of one client and one file. Each locked part of a
member function is one function of the object that also returns what it sends. -/
namespace DistributedME.RicartAgrawala
open Library

/-- The two message types of the algorithm. Both texts end in get_msg's sequence number;
the ME before it is the party that owns the sending end of the channel. -/
inductive Message where
  | request (theirSequenceNumber : ℕ)
  | reply (theirSequenceNumber : ℕ)
  deriving DecidableEq, Repr

def Message.isReply : Message → Bool
  | .request _ => false
  | .reply _ => true

variable {n : ℕ}

def ourPriority (ourSequenceNumber : ℕ) (me : Fin n) (theirSequenceNumber : ℕ) (j : Fin n) :
    Bool :=
  decide (theirSequenceNumber > ourSequenceNumber) ||
    (decide (theirSequenceNumber = ourSequenceNumber) && decide (j > me))

/-- The pair (sequence number, id) orders the requests of different clients. -/
def Precedes (s : ℕ) (i : Fin n) (t : ℕ) (j : Fin n) : Prop := s < t ∨ (s = t ∧ i < j)

theorem ourPriority_iff (s : ℕ) (me : Fin n) (t : ℕ) (j : Fin n) :
    ourPriority s me t j = true ↔ Precedes s me t j := by
  simp only [ourPriority, Precedes, Bool.or_eq_true, Bool.and_eq_true, decide_eq_true_eq]
  omega

theorem ourPriority_eq_false_iff (s : ℕ) (me : Fin n) (t : ℕ) (j : Fin n) (hj : j ≠ me) :
    ourPriority s me t j = false ↔ Precedes t j s me := by
  rw [← Bool.not_eq_true, ourPriority_iff]
  unfold Precedes
  omega

theorem Precedes.asymm {s t : ℕ} {i j : Fin n} (h : Precedes s i t j) : ¬ Precedes t j s i := by
  unfold Precedes at *
  omega

theorem Precedes.trans_le {s t u : ℕ} {i j : Fin n} (h : Precedes s i t j) (hu : t ≤ u) :
    Precedes s i u j := by
  unfold Precedes at *
  omega

/-- Sequence numbers are unbounded. -/
structure Strategy (n : ℕ) where
  ourSequenceNumber : ℕ
  hgstSequenceNumber : ℕ
  A : Fin n → Bool
  isUsing : Bool
  isWaiting : Bool
  replyDeferred : Fin n → Bool

namespace Strategy

def construct (n : ℕ) : Strategy n where
  ourSequenceNumber := 0
  hgstSequenceNumber := 0
  A := fun _ => false
  isUsing := false
  isWaiting := false
  replyDeferred := fun _ => false

/-- The locked part of request_resource. -/
def requestResource (c : Strategy n) (me : Fin n) : Strategy n × (Fin n → List Message) :=
  let ours := c.hgstSequenceNumber + 1
  ({ c with isWaiting := true, ourSequenceNumber := ours },
    fun j => if j ≠ me ∧ c.A j = false then [.request ours] else [])

def releaseResource (c : Strategy n) (me : Fin n) : Strategy n × (Fin n → List Message) :=
  ({ c with
      isUsing := false
      A := fun j => if j ≠ me ∧ c.replyDeferred j then false else c.A j
      replyDeferred := fun j => if j ≠ me ∧ c.replyDeferred j then false else c.replyDeferred j },
    fun j => if j ≠ me ∧ c.replyDeferred j then [.reply c.ourSequenceNumber] else [])

def treatReplyMessage (c : Strategy n) (j : Fin n) : Strategy n :=
  { c with A := Function.update c.A j true }

/-- The three conditionals run one after another on the same object: the third one reads
the A[j] that the second may have cleared. All messages go to j. -/
def treatRequestMessage (c : Strategy n) (me : Fin n) (theirSequenceNumber : ℕ) (j : Fin n) :
    Strategy n × List Message :=
  let c₁ := { c with hgstSequenceNumber := max c.hgstSequenceNumber theirSequenceNumber }
  let ours := ourPriority c₁.ourSequenceNumber me theirSequenceNumber j
  let c₂ := if c₁.isUsing || (c₁.isWaiting && ours) then
      { c₁ with replyDeferred := Function.update c₁.replyDeferred j true }
    else c₁
  let (c₃, out₃) := if !(c₂.isUsing || c₂.isWaiting) || (c₂.isWaiting && !c₂.A j && !ours) then
      ({ c₂ with A := Function.update c₂.A j false },
        [Message.reply c₂.ourSequenceNumber])
    else (c₂, [])
  if c₃.isWaiting && c₃.A j && !ours then
    ({ c₃ with A := Function.update c₃.A j false },
      out₃ ++ [.reply c₃.ourSequenceNumber, .request c₃.ourSequenceNumber])
  else (c₃, out₃)

/-- treat_message looks at the message type. -/
def treatMessage (c : Strategy n) (me j : Fin n) : Message → Strategy n × List Message
  | .reply _ => (c.treatReplyMessage j, [])
  | .request theirSequenceNumber => c.treatRequestMessage me theirSequenceNumber j

def canEnterCriticalSection (c : Strategy n) (me : Fin n) : Bool :=
  decide (∀ j, j ≠ me → c.A j = true)

/-- The locked part of enter_critical_section. -/
def enterCriticalSection (c : Strategy n) : Strategy n :=
  { c with isWaiting := false, isUsing := true }

theorem canEnterCriticalSection_iff (c : Strategy n) (me : Fin n) :
    c.canEnterCriticalSection me = true ↔ ∀ j, j ≠ me → c.A j = true := by
  simp [canEnterCriticalSection]

/-- While the object is using, a REQUEST is deferred. -/
theorem treatRequestMessage_of_using (c : Strategy n) (me : Fin n) (t : ℕ) (j : Fin n)
    (hu : c.isUsing = true) (hw : c.isWaiting = false) :
    c.treatRequestMessage me t j =
      ({ c with
          hgstSequenceNumber := max c.hgstSequenceNumber t
          replyDeferred := Function.update c.replyDeferred j true }, []) := by
  simp [treatRequestMessage, hu, hw]

/-- First branch: an own waiting request with priority defers. -/
theorem treatRequestMessage_of_priority (c : Strategy n) (me : Fin n) (t : ℕ) (j : Fin n)
    (hw : c.isWaiting = true) (ho : ourPriority c.ourSequenceNumber me t j = true) :
    c.treatRequestMessage me t j =
      ({ c with
          hgstSequenceNumber := max c.hgstSequenceNumber t
          replyDeferred := Function.update c.replyDeferred j true }, []) := by
  simp [treatRequestMessage, hw, ho]

/-- Second branch: nothing is wanted, or a wanted permission is not held. -/
theorem treatRequestMessage_of_idle (c : Strategy n) (me : Fin n) (t : ℕ) (j : Fin n)
    (hu : c.isUsing = false) (hw : c.isWaiting = false) :
    c.treatRequestMessage me t j =
      ({ c with
          hgstSequenceNumber := max c.hgstSequenceNumber t
          A := Function.update c.A j false }, [.reply c.ourSequenceNumber]) := by
  simp [treatRequestMessage, hu, hw]

theorem treatRequestMessage_of_lacking (c : Strategy n) (me : Fin n) (t : ℕ) (j : Fin n)
    (hu : c.isUsing = false) (hw : c.isWaiting = true) (ho : ourPriority c.ourSequenceNumber me t j = false)
    (hA : c.A j = false) :
    c.treatRequestMessage me t j =
      ({ c with
          hgstSequenceNumber := max c.hgstSequenceNumber t
          A := Function.update c.A j false }, [.reply c.ourSequenceNumber]) := by
  simp [treatRequestMessage, hu, hw, ho, hA]

/-- Third branch: a held permission is yielded and asked for again. -/
theorem treatRequestMessage_of_yielding (c : Strategy n) (me : Fin n) (t : ℕ) (j : Fin n)
    (hu : c.isUsing = false) (hw : c.isWaiting = true) (ho : ourPriority c.ourSequenceNumber me t j = false)
    (hA : c.A j = true) :
    c.treatRequestMessage me t j =
      ({ c with
          hgstSequenceNumber := max c.hgstSequenceNumber t
          A := Function.update c.A j false },
        [.reply c.ourSequenceNumber, .request c.ourSequenceNumber]) := by
  simp [treatRequestMessage, hu, hw, ho, hA]

end Strategy
end DistributedME.RicartAgrawala
