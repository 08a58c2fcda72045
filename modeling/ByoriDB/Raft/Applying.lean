import ByoriDB.Raft.Node

/-! A tick hands committed entries to the state machine only if it has no request to send. -/

namespace ByoriDB.Raft

open List

variable {node : RaftNode}

def RaftAction.applied : RaftAction → List (LogEntry Command)
  | .applyEntries entries => entries
  | _ => []

/-- The entries that ticks before the election timeout hand to the apply callback; a panic ends the task. -/
def RaftNode.handed : Nat → RaftNode → List (LogEntry Command)
  | 0, _ => []
  | count + 1, node => match node.tick false with
    | none => []
    | some (next, action) => action.applied ++ next.handed count

/-- The node has no other voter to send to when it ticks. -/
def RaftNode.Quiet (node : RaftNode) : Prop :=
  node.state = .leader → node.leaderState = none ∨ ∀ id ∈ node.config.voters, id = node.id

theorem applyCommitted_applied (node : RaftNode) : node.applyCommitted.2.applied = node.getEntriesToApply.2 := by
  simp only [RaftNode.applyCommitted]
  cases node.getEntriesToApply.2 with
  | nil => rfl
  | cons entry rest => rfl

theorem tick_quiet (quiet : node.Quiet) : node.tick false = some node.applyCommitted := by
  unfold RaftNode.tick
  split
  · rename_i leads
    have none : node.generateAppendEntries = some [] := by
      unfold RaftNode.generateAppendEntries
      rcases quiet leads with missing | alone
      · simp [leads, missing]
      · have others : node.config.voters.filter (· ≠ node.id) = [] := by
          simpa [filter_eq_nil_iff] using alone
        rw [leads, others]
        cases node.leaderState with
        | none => rfl
        | some leader => rfl
    rw [none]
    rfl
  · rfl

theorem tick_busy (busy : ¬ node.Quiet) :
    node.tick false = none ∨ ∃ requests, node.tick false = some (node, .sendAppendEntries requests) := by
  unfold RaftNode.Quiet at busy
  push Not at busy
  obtain ⟨leads, present, id, listed, other⟩ := busy
  obtain ⟨leader, found⟩ := Option.ne_none_iff_exists'.mp present
  rw [RaftNode.tick, if_pos leads]
  cases generated : node.generateAppendEntries with
  | none => exact .inl rfl
  | some requests =>
    cases requests with
    | nil =>
      simp only [RaftNode.generateAppendEntries, leads, found] at generated
      have among : id ∈ node.config.voters.filter (· ≠ node.id) := mem_filter.mpr ⟨listed, decide_eq_true other⟩
      cases others : node.config.voters.filter (· ≠ node.id) with
      | nil =>
        rw [others] at among
        cases among
      | cons first rest =>
        rw [others, mapM_cons] at generated
        obtain ⟨_, _, last⟩ := Option.bind_eq_some_iff.mp generated
        obtain ⟨_, _, last⟩ := Option.bind_eq_some_iff.mp last
        cases last
    | cons request rest => exact .inr ⟨_, rfl⟩

theorem handed_busy (busy : ¬ node.Quiet) (count : Nat) : node.handed count = [] := by
  induction count with
  | zero => rfl
  | succ count ih =>
    rw [RaftNode.handed]
    rcases tick_busy busy with stopped | ⟨requests, sent⟩
    · rw [stopped]
    · rw [sent]
      exact ih

theorem handed_applied (done : node.commitIndex ≤ node.lastApplied) (count : Nat) : node.handed count = [] := by
  induction count generalizing node with
  | zero => rfl
  | succ count ih =>
    by_cases quiet : node.Quiet
    · have nothing : node.getEntriesToApply.2 = [] := by
        simp [RaftNode.getEntriesToApply, Nat.sub_eq_zero_of_le done]
      rw [RaftNode.handed, tick_quiet quiet]
      simp only [applyCommitted_applied, nothing, nil_append]
      exact ih (Nat.le_max_right ..)
    · exact handed_busy quiet _

theorem handed_quiet (quiet : node.Quiet) (count : Nat) : node.handed (count + 1) = node.getEntriesToApply.2 := by
  have later : node.applyCommitted.1.handed count = [] := handed_applied (Nat.le_max_right ..) count
  rw [RaftNode.handed, tick_quiet quiet]
  simp [applyCommitted_applied, later]

theorem map_some_filterMap {f : α → Option β} {list : List α} :
    (list.filterMap f).map some = list.map f ↔ ∀ a ∈ list, (f a).isSome := by
  constructor
  · intro same a mem
    have image : f a ∈ (list.filterMap f).map some := same ▸ mem_map_of_mem mem
    obtain ⟨value, -, found⟩ := mem_map.mp image
    exact Option.isSome_of_eq_some found.symm
  · intro total
    induction list with
    | nil => rfl
    | cons a rest ih =>
      obtain ⟨value, found⟩ := Option.isSome_iff_exists.mp (total a (.head _))
      rw [filterMap_cons_some found, map_cons, map_cons, found, ih fun b later => total b (.tail _ later)]

/-- Any number of ticks hands out the committed entries, each once and in order,
if there is nothing to send and no entry is missing. -/
theorem handed_exact_iff {count : Nat} (pending : node.lastApplied < node.commitIndex) (ticked : 0 < count) :
    (node.handed count).map some = (range' (node.lastApplied + 1) (node.commitIndex - node.lastApplied)).map node.log.get ↔
      node.Quiet ∧ ∀ index, node.lastApplied < index → index ≤ node.commitIndex → (node.log.get index).isSome := by
  obtain ⟨count, rfl⟩ := Nat.exists_eq_succ_of_ne_zero ticked.ne'
  by_cases quiet : node.Quiet
  · rw [handed_quiet quiet, RaftNode.getEntriesToApply, map_some_filterMap]
    simp only [quiet, true_and, mem_range'_1]
    exact ⟨fun total index above within => total index ⟨above, by omega⟩,
      fun total index range => total index range.1 (by omega)⟩
  · have some : node.commitIndex - node.lastApplied ≠ 0 := by omega
    simp [handed_busy quiet, quiet, range'_eq_nil_iff, some]

/-- A follower that got three entries, two of which are committed. -/
def follower : RaftNode :=
  ((RaftNode.new 1 ⟨[1, 2], by decide⟩ 100).handleAppendEntries ⟨1,
    2, 0, 0, [⟨1, 1, .noop⟩, ⟨1, 2, .delete 1 1 []⟩, ⟨1, 3, .noop⟩], 2⟩).1

theorem handed_exact_follower : (follower.handed 2).map some = (range' 1 2).map follower.log.get :=
  (handed_exact_iff (by decide) (by decide)).mpr ⟨nofun, fun index above within => by
    obtain rfl | rfl : index = 1 ∨ index = 2 := by
      have : index ≤ 2 := within
      omega
    all_goals decide⟩

def committed : RaftNode :=
  let candidate := (RaftNode.new 1 ⟨[1, 2], by decide⟩ 100).becomeCandidate.1
  (candidate.handleRequestVoteResponse 2 ⟨1, true⟩).handleAppendEntriesResponse 2 ⟨1, true, 1⟩

/-- No number of ticks makes it apply the entry. -/
theorem leader_never_applies : committed.lastApplied < committed.commitIndex ∧ (committed.log.get 1).isSome ∧
    ∀ count, committed.handed count = [] := by
  refine ⟨by decide, by decide, fun count => handed_busy (fun quiet => ?_) count⟩
  rcases quiet (by decide) with missing | alone
  · have present : committed.leaderState.isSome = true := by decide
    rw [missing] at present
    cases present
  · exact absurd (alone 2 (by decide)) (by decide)

end ByoriDB.Raft
