import DistributedME.Library.Machine
import Mathlib.Data.List.Nodup

/-! A log to which new entries are appended, and whose last entry is read. -/
namespace DistributedME.Library.Log
variable {α : Type*}

inductive Action (α : Type*) where
  | append (entry : α)
  | read (result : α)
  deriving DecidableEq, Repr

def Action.entry : Action α → Option α
  | .append entry => some entry
  | .read _ => none

/-- The entries that some actions append. -/
def entries (actions : List (Action α)) : List α := actions.filterMap Action.entry

variable [DecidableEq α]

/-- An entry that is there already cannot be appended. Before there is one, a reader may have
something else to read. -/
def machine (first : Option α) : Machine (List α) (Action α) where
  init log := log = []
  step log
    | .append entry => if entry ∈ log then none else some (log ++ [entry])
    | .read result => if log.getLast?.or first = some result then some log else none

variable {first : Option α} {log log' : List α}

theorem step_entry {a : Action α} (h : (machine first).step log a = some log') :
    log' = log ++ a.entry.toList := by
  cases a with
  | append entry =>
    obtain ⟨-, h⟩ := Option.ite_none_left_eq_some.mp h
    exact (Option.some.inj h).symm
  | read result =>
    obtain ⟨-, h⟩ := Option.ite_none_right_eq_some.mp h
    exact (Option.some.inj h).symm.trans (List.append_nil log).symm

/-- The log holds what was appended, in that order. -/
theorem run_entries {actions : List (Action α)} (h : (machine first).run log actions = some log') :
    log' = log ++ entries actions := by
  induction actions generalizing log with
  | nil =>
    obtain rfl := Option.some.inj h
    exact (List.append_nil log).symm
  | cons a actions ih =>
    obtain ⟨next, hnext, h⟩ := Machine.run_cons.mp h
    rw [ih h, step_entry hnext, List.append_assoc]
    cases a <;> rfl

theorem nodup_step {a : Action α} (h : (machine first).step log a = some log')
    (hlog : log.Nodup) : log'.Nodup := by
  cases a with
  | append entry =>
    obtain ⟨hnew, h⟩ := Option.ite_none_left_eq_some.mp h
    obtain rfl := Option.some.inj h
    rw [← List.concat_eq_append]
    exact hlog.concat hnew
  | read result =>
    obtain ⟨-, h⟩ := Option.ite_none_right_eq_some.mp h
    obtain rfl := Option.some.inj h
    exact hlog

/-- No entry is there twice. -/
theorem nodup_run {actions : List (Action α)} (h : (machine first).run log actions = some log')
    (hlog : log.Nodup) : log'.Nodup := by
  induction actions generalizing log with
  | nil =>
    obtain rfl := Option.some.inj h
    exact hlog
  | cons a actions ih =>
    obtain ⟨next, hnext, h⟩ := Machine.run_cons.mp h
    exact ih h (nodup_step hnext hlog)

/-- A reader gets what was appended last before. -/
theorem read_run {before after : List (Action α)} {result : α}
    (h : (machine first).run [] (before ++ .read result :: after) = some log) :
    (entries before).getLast?.or first = some result := by
  rw [Machine.run_append] at h
  obtain ⟨middle, hmiddle, h⟩ := Option.bind_eq_some_iff.mp h
  obtain ⟨next, hnext, -⟩ := Machine.run_cons.mp h
  obtain ⟨hlast, -⟩ := Option.ite_none_right_eq_some.mp hnext
  rw [run_entries hmiddle, List.nil_append] at hlast
  exact hlast

end DistributedME.Library.Log
