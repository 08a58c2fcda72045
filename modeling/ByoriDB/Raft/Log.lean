import Mathlib.Algebra.Order.Ring.Int

/-! The entries that are kept start at `firstIndex`; what came before is in a snapshot. -/

namespace ByoriDB.Raft

open List

structure LogEntry (γ : Type) where
  term : Nat
  index : Nat
  command : γ
  deriving DecidableEq, Repr

structure RaftLog (γ : Type) where
  entries : List (LogEntry γ)
  firstIndex : Nat
  snapshotTerm : Nat
  deriving DecidableEq, Repr

namespace RaftLog

def new : RaftLog γ := ⟨[], 1, 0⟩

section

variable (log : RaftLog γ)

def lastIndex : Nat :=
  if log.entries.isEmpty then log.firstIndex - 1 else log.firstIndex + log.entries.length - 1

def lastTerm : Nat :=
  (log.entries.getLast?.map LogEntry.term).getD log.snapshotTerm

def get (index : Nat) : Option (LogEntry γ) :=
  if index < log.firstIndex ∨ log.lastIndex < index then none else log.entries[index - log.firstIndex]?

def term (index : Nat) : Option Nat :=
  if index = 0 then some 0
  else if index < log.firstIndex then
    if index = log.firstIndex - 1 then some log.snapshotTerm else none
  else (log.get index).map LogEntry.term

def append (entries : List (LogEntry γ)) : RaftLog γ :=
  { log with entries := log.entries ++ entries }

def appendEntry (term : Nat) (command : γ) : RaftLog γ :=
  log.append [⟨term, log.lastIndex + 1, command⟩]

def truncate (fromIndex : Nat) : RaftLog γ :=
  if fromIndex ≤ log.firstIndex then { log with entries := [] }
  else if fromIndex ≤ log.lastIndex then { log with entries := log.entries.take (fromIndex - log.firstIndex) }
  else log

/-- A slice of the entries; bounds out of order or out of range are a panic. -/
def slice (start stop : Nat) : Option (List (LogEntry γ)) :=
  if start ≤ stop ∧ stop ≤ log.entries.length then some ((log.entries.take stop).drop start) else none

/-- The entries of a range; `none` is a panic. -/
def entriesRange (start stop : Nat) : Option (List (LogEntry γ)) :=
  -- `last_index` adds in 64 bits.
  if 2 ^ 64 ≤ log.firstIndex + log.entries.length then none
  else if log.lastIndex < start ∨ stop ≤ start then some []
  else
    let startOffset := if start < log.firstIndex then 0 else start - log.firstIndex
    if log.lastIndex + 1 < stop then log.slice startOffset log.entries.length
    -- The difference of unsigned numbers wraps and is no offset.
    else if stop < log.firstIndex then none
    else log.slice startOffset (stop - log.firstIndex)

def compact (upToIndex : Nat) (lastTerm : Nat) : RaftLog γ :=
  if upToIndex < log.firstIndex then log
  else ⟨log.entries.drop (upToIndex - log.firstIndex + 1), upToIndex + 1, lastTerm⟩

def isUpToDate (lastLogIndex lastLogTerm : Nat) : Bool :=
  if lastLogTerm ≠ log.lastTerm then log.lastTerm < lastLogTerm else log.lastIndex ≤ lastLogIndex

end

theorem lastIndex_eq (log : RaftLog γ) : log.lastIndex = log.firstIndex + log.entries.length - 1 := by
  unfold lastIndex
  split
  · rename_i empty
    simp [List.isEmpty_iff.mp empty]
  · rfl

variable {list later : List (LogEntry γ)}

/-- The entries stand at consecutive indices from the given one on. -/
def Follows (index : Nat) (entries : List (LogEntry γ)) : Prop :=
  ∀ k entry, entries[k]? = some entry → entry.index = index + k

theorem follows_cons : Follows index (entry :: rest) ↔ entry.index = index ∧ Follows (index + 1) rest := by
  constructor
  · intro follows
    refine ⟨follows 0 entry rfl, fun k later found => ?_⟩
    have := follows (k + 1) later found
    omega
  · rintro ⟨here, follows⟩ k later found
    cases k with
    | zero =>
      cases found
      exact here
    | succ k =>
      have := follows k later found
      omega

section

variable (follows : Follows index list)
include follows

theorem Follows.append (continues : Follows (index + list.length) later) : Follows index (list ++ later) := by
  intro k entry found
  rw [List.getElem?_append] at found
  split at found
  · exact follows k entry found
  · have := continues _ entry found
    omega

theorem Follows.take (count : Nat) : Follows index (list.take count) := by
  intro k entry found
  rw [List.getElem?_take] at found
  split at found
  · exact follows k entry found
  · cases found

theorem Follows.drop (count : Nat) : Follows (index + count) (list.drop count) := by
  intro k entry found
  rw [List.getElem?_drop] at found
  rw [follows _ entry found, Nat.add_assoc]

theorem Follows.filter (start stop : Nat) : list.filter (fun entry => start ≤ entry.index ∧
      entry.index < stop) = (list.take (stop - index)).drop (start - index) := by
  induction list generalizing index with
  | nil => simp
  | cons entry rest ih =>
    obtain ⟨rfl, follows⟩ := follows_cons.mp follows
    rw [filter_cons, ih follows]
    by_cases before : entry.index < stop
    · have more : stop - entry.index = stop - (entry.index + 1) + 1 := by omega
      rw [more, take_succ_cons]
      by_cases after : start ≤ entry.index
      · have all : start - entry.index = 0 ∧ start - (entry.index + 1) = 0 := by omega
        simp [before, after, all.1, all.2]
      · have fewer : start - entry.index = start - (entry.index + 1) + 1 := by omega
        simp [after, fewer]
    · have none : stop - entry.index = 0 ∧ stop - (entry.index + 1) = 0 := by omega
      simp [before, none.1, none.2]

end

inductive Call (γ : Type) where
  | append (entries : List (LogEntry γ))
  | appendEntry (term : Nat) (command : γ)
  | truncate (fromIndex : Nat)
  | compact (upToIndex : Nat) (lastTerm : Nat)

def Call.run : Call γ → RaftLog γ → RaftLog γ
  | .append entries, log => log.append entries
  | .appendEntry term command, log => log.appendEntry term command
  | .truncate fromIndex, log => log.truncate fromIndex
  | .compact upToIndex lastTerm, log => log.compact upToIndex lastTerm

/-- Appended entries carry the indices they get, and the index after a compaction is a 64-bit number. -/
def Call.Continues (log : RaftLog γ) : Call γ → Prop
  | .append entries => Follows (log.lastIndex + 1) entries
  | .compact upToIndex _ => upToIndex + 1 < 2 ^ 64
  | _ => True

inductive Reached : RaftLog γ → Prop where
  | new : Reached .new
  | call (call : Call γ) {log : RaftLog γ} (reached : Reached log) (continues : call.Continues log) : Reached (call.run log)

/-- Every entry stands at its index. -/
structure Aligned (log : RaftLog γ) : Prop where
  positive : 1 ≤ log.firstIndex
  follows : Follows log.firstIndex log.entries

variable {log : RaftLog γ}

section

variable (aligned : Aligned log)

include aligned

theorem Aligned.append (continues : Follows (log.lastIndex + 1) later) : Aligned (log.append later) := by
  refine ⟨aligned.positive, aligned.follows.append ?_⟩
  have := aligned.positive
  rw [lastIndex_eq] at continues
  rwa [show log.firstIndex + log.entries.length - 1 + 1 = log.firstIndex + log.entries.length by omega] at continues

theorem Aligned.appendEntry (term : Nat) (command : γ) : Aligned (log.appendEntry term command) :=
  aligned.append (follows_cons.mpr ⟨rfl, fun _ _ found => by cases found⟩)

theorem Aligned.truncate (fromIndex : Nat) : Aligned (log.truncate fromIndex) := by
  unfold RaftLog.truncate
  split
  · exact ⟨aligned.positive, by simp [Follows]⟩
  · split
    · exact ⟨aligned.positive, aligned.follows.take _⟩
    · exact aligned

theorem Aligned.compact (upToIndex : Nat) (lastTerm : Nat) : Aligned (log.compact upToIndex lastTerm) := by
  unfold RaftLog.compact
  split
  · exact aligned
  · refine ⟨by simp, ?_⟩
    have dropped := aligned.follows.drop (upToIndex - log.firstIndex + 1)
    rwa [show log.firstIndex + (upToIndex - log.firstIndex + 1) = upToIndex + 1 by omega] at dropped

end

theorem Reached.aligned (reached : Reached log) : Aligned log := by
  induction reached with
  | new => exact ⟨Nat.le_refl 1, by simp [Follows, RaftLog.new]⟩
  | call call reached continues ih =>
    cases call with
    | append entries => exact ih.append continues
    | appendEntry term command => exact ih.appendEntry term command
    | truncate fromIndex => exact ih.truncate fromIndex
    | compact upToIndex lastTerm => exact ih.compact upToIndex lastTerm

def compacted : RaftLog Unit := (new.append [⟨1, 1, ()⟩, ⟨1, 2, ()⟩, ⟨1, 3, ()⟩]).compact 2 1

theorem reached_compacted : Reached compacted := by
  refine .call (.compact 2 1) (.call (.append _) .new ?_) (show 2 + 1 < 2 ^ 64 by decide)
  exact follows_cons.mpr ⟨rfl, follows_cons.mpr ⟨rfl, follows_cons.mpr ⟨rfl, fun _ _ found => by cases found⟩⟩⟩

end RaftLog

end ByoriDB.Raft
