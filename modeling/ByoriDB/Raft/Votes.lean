import ByoriDB.Raft.Node

/-! The vote of a node changes together with its term, unless it steps down within a term. -/

namespace ByoriDB.Raft

open List

variable {node : RaftNode}

/-- The vote that an event makes a node cast: a term and a candidate. -/
def Event.vote : Event → RaftNode → Option (Nat × Nat)
  | .tick elapsed, node =>
    if node.state ≠ .leader ∧ elapsed then some (node.becomeCandidate.1.currentTerm, node.id) else none
  | .requestVote req, node =>
    let resp := (node.handleRequestVote req).2
    if resp.voteGranted then some (resp.term, req.candidateId) else none
  | _, _ => none

section

variable (node : RaftNode)

/-- The node steps down within its term and forgets its vote. -/
def Event.Resets : Event → Prop
  | .appendEntries req => node.state = .candidate ∧ req.term = node.currentTerm
  | .applyConfigChange (.removeNode id) => node.state = .leader ∧ id = node.id
  | _ => False

/-- The part of a node that elections are about. -/
structure Ballot where
  id : Nat
  state : RaftState
  term : Nat
  votedFor : Option Nat
  votes : Data.Table Nat Bool

def RaftNode.ballot : Ballot :=
  ⟨node.id, node.state, node.currentTerm, node.votedFor, node.votesReceived⟩

/-- What an event can do to the role, the term and the votes of a node. -/
inductive Moves (event : Event) (node node' : RaftNode) : Option (Nat × Nat) → Prop where
  | rest (calm : ¬ event.Resets node) (same : node'.ballot = RaftNode.ballot node) : Moves event node node' none
  | follow {term : Nat} (newer : node.currentTerm < term ∨ term = node.currentTerm ∧ event.Resets node)
      (same : node'.ballot = RaftNode.ballot (node.becomeFollower term none)) : Moves event node node' none
  | stand (ticked : event = .tick true) (idle : node.state ≠ .leader)
      (same : node'.ballot = RaftNode.ballot node.becomeCandidate.1) :
      Moves event node node' (some (node.becomeCandidate.1.currentTerm, node.id))
  | grant {base : RaftNode} {candidate : Nat} (calm : ¬ event.Resets node)
      (reached : base = node ∨ ∃ term, node.currentTerm < term ∧ base = node.becomeFollower term none)
      (free : base.votedFor = none ∨ base.votedFor = some candidate)
      (same : node'.ballot = RaftNode.ballot { base with votedFor := some candidate }) :
      Moves event node node' (some (base.currentTerm, candidate))
  | count {src : Nat} {resp : RequestVoteResponse} (answered : event = .requestVoteResponse src resp)
      (known : resp.term ≤ node.currentTerm) (candidate : node.state = .candidate)
      (same : node'.ballot =
        RaftNode.ballot { node with votesReceived := node.votesReceived.insert src resp.voteGranted }) :
      Moves event node node' none
  | lead {src : Nat} {resp : RequestVoteResponse} (answered : event = .requestVoteResponse src resp)
      (known : resp.term ≤ node.currentTerm) (candidate : node.state = .candidate)
      (won : node.config.majority ≤
        (node.votesReceived.insert src resp.voteGranted).count fun _ granted => granted)
      (same : node'.ballot = RaftNode.ballot { node with
        votesReceived := node.votesReceived.insert src resp.voteGranted, state := .leader }) :
      Moves event node node' none

theorem matchPrevious_ballot (req : AppendEntriesRequest) : (node.matchPrevious req).1.ballot = node.ballot := by
  unfold RaftNode.matchPrevious
  repeat' split
  all_goals rfl

theorem tryAdvanceCommitIndex_ballot : node.tryAdvanceCommitIndex.ballot = node.ballot := by
  unfold RaftNode.tryAdvanceCommitIndex
  cases node.leaderState with
  | none => rfl
  | some leader =>
    dsimp only
    repeat' split
    all_goals rfl

theorem receiveSnapshot_ballot (req : InstallSnapshotRequest) : (node.receiveSnapshot req).ballot = node.ballot := by
  unfold RaftNode.receiveSnapshot
  split
  · rfl
  · split <;> rfl

end

theorem decideVote_moves (req : RequestVoteRequest) (calm : ¬ event.Resets node)
    (reached : base = node ∨ ∃ term, node.currentTerm < term ∧ base = node.becomeFollower term none) :
    Moves event node (base.decideVote req).1
      (if (base.decideVote req).2.voteGranted then some ((base.decideVote req).2.term, req.candidateId) else none) := by
  have refused : Moves event node base none := by
    rcases reached with rfl | ⟨term, newer, rfl⟩
    · exact .rest calm rfl
    · exact .follow (.inl newer) rfl
  unfold RaftNode.decideVote
  split
  · exact refused
  · split
    · exact refused
    · rename_i free
      split
      · exact refused
      · refine .grant calm reached ?_ rfl
        cases voted : base.votedFor with
        | none => exact .inl rfl
        | some other => simpa [voted] using free

theorem receiveEntries_ballot (known : req.term ≤ node.currentTerm) : (¬ (node.state = .candidate ∧
      req.term = node.currentTerm) ∧ (node.receiveEntries req).1.ballot = node.ballot) ∨
      (node.state = .candidate ∧ req.term = node.currentTerm) ∧
        (node.receiveEntries req).1.ballot = (node.becomeFollower req.term none).ballot := by
  unfold RaftNode.receiveEntries
  split
  · exact .inl ⟨by omega, rfl⟩
  · split
    · rename_i candidate
      exact .inr ⟨⟨candidate, by omega⟩, matchPrevious_ballot _ req⟩
    · rename_i other
      exact .inl ⟨fun own => other own.1, matchPrevious_ballot _ req⟩

theorem Event.moves (event : Event) (node : RaftNode) : Moves event node (event.run node) (event.vote node) := by
  cases event with
  | tick elapsed =>
    simp only [run, vote, RaftNode.tick]
    by_cases leads : node.state = .leader
    · simp only [leads, if_true, ne_eq, not_true_eq_false, false_and, if_false]
      cases node.generateAppendEntries with
      | none => exact .rest id rfl
      | some requests =>
        cases requests with
        | nil => exact .rest id rfl
        | cons request others => exact .rest id rfl
    · rw [if_neg leads]
      cases elapsed with
      | true =>
        simp only [leads, ne_eq, not_false_eq_true, true_and, if_true]
        exact .stand rfl leads rfl
      | false =>
        simp only [Bool.false_eq_true, and_false, if_false]
        exact .rest id rfl
  | requestVote req =>
    refine decideVote_moves req id ?_
    split
    · rename_i newer
      exact .inr ⟨_, newer, rfl⟩
    · exact .inl rfl
  | requestVoteResponse src resp =>
    simp only [run, vote, RaftNode.handleRequestVoteResponse]
    split
    · exact .rest id rfl
    · rename_i candidate
      rw [not_not] at candidate
      split
      · rename_i newer
        exact .follow (.inl newer) rfl
      · rename_i known
        split
        · rename_i won
          exact .lead rfl (Nat.le_of_not_lt known) candidate won rfl
        · exact .count rfl (Nat.le_of_not_lt known) candidate rfl
  | appendEntries req =>
    simp only [run, vote, RaftNode.handleAppendEntries]
    split
    · rename_i newer
      have known : req.term ≤ (node.becomeFollower req.term (some req.leaderId)).currentTerm := Nat.le_refl _
      rcases receiveEntries_ballot known with ⟨-, same⟩ | ⟨⟨candidate, -⟩, -⟩
      · exact .follow (.inl newer) same
      · cases candidate
    · rename_i known
      rcases receiveEntries_ballot (Nat.le_of_not_lt known) with ⟨calm, same⟩ | ⟨down, same⟩
      · exact .rest calm same
      · exact .follow (.inr ⟨down.2, down⟩) same
  | appendEntriesResponse src resp =>
    simp only [run, vote, RaftNode.handleAppendEntriesResponse]
    split
    · exact .rest id rfl
    · split
      · rename_i newer
        exact .follow (.inl newer) rfl
      · split
        · exact .rest id rfl
        · split
          · exact .rest id (tryAdvanceCommitIndex_ballot _)
          · exact .rest id rfl
  | installSnapshot req =>
    simp only [run, vote, RaftNode.installSnapshot]
    split
    · rename_i newer
      exact .follow (.inl newer) (receiveSnapshot_ballot _ req)
    · exact .rest id (receiveSnapshot_ballot _ req)
  | propose command =>
    simp only [run, vote, RaftNode.propose]
    split <;> exact .rest id rfl
  | applySnapshot index term => exact .rest id rfl
  | applyConfigChange change =>
    cases change with
    | addNode id addr => exact .rest (fun resets => resets) rfl
    | removeNode id =>
      simp only [run, vote, RaftNode.applyConfigChange]
      split
      · rename_i own
        exact .follow (.inr ⟨rfl, own.2, own.1⟩) rfl
      · rename_i other
        exact .rest (fun resets => other resets.symm) rfl

/-- The node keeps its vote within a term, and its term does not wrap around. -/
def Event.Steady (node : RaftNode) (event : Event) : Prop :=
  ¬ event.Resets node ∧ (event = .tick true → node.currentTerm + 1 < 2 ^ 64)

/-- The node after any events that meet a condition, with the votes it has cast on the way. -/
inductive NodeRun (meets : RaftNode → Event → Prop) (first : RaftNode) : RaftNode → List (Nat × Nat) → Prop where
  | start : NodeRun meets first first []
  | event {last : RaftNode} {votes : List (Nat × Nat)} (before : NodeRun meets first last votes) (event : Event)
      (met : meets last event) : NodeRun meets first (event.run last) (votes ++ (event.vote last).toList)

/-- The node has cast no vote of a later term, and its vote of this term is the one it keeps. -/
def Recorded (node : RaftNode) (votes : List (Nat × Nat)) : Prop :=
  ∀ vote ∈ votes, vote.1 ≤ node.currentTerm ∧ (vote.1 = node.currentTerm → node.votedFor = some vote.2)

theorem Moves.steady (moves : Moves event node node' vote) (met : event.Steady node) :
    (node.currentTerm < node'.currentTerm ∨ node'.currentTerm = node.currentTerm ∧
      (node'.votedFor = node.votedFor ∨ node.votedFor = none)) ∧
    ∀ cast ∈ vote, cast.1 = node'.currentTerm ∧ node'.votedFor = some cast.2 := by
  cases moves with
  | rest _ same =>
    exact ⟨.inr ⟨congrArg Ballot.term same, .inl (congrArg Ballot.votedFor same)⟩, nofun⟩
  | follow newer same =>
    rcases newer with newer | ⟨-, resets⟩
    · exact ⟨.inl (newer.trans_eq (congrArg Ballot.term same).symm), nofun⟩
    · exact absurd resets met.1
  | stand ticked idle same =>
    have term : node'.currentTerm = (node.currentTerm + 1) % 2 ^ 64 := congrArg Ballot.term same
    rw [Nat.mod_eq_of_lt (met.2 ticked)] at term
    refine ⟨.inl (by omega), fun cast mem => ?_⟩
    cases Option.mem_some.mp mem
    exact ⟨(congrArg Ballot.term same).symm, congrArg Ballot.votedFor same⟩
  | grant _ reached free same =>
    have term := congrArg Ballot.term same
    have voted := congrArg Ballot.votedFor same
    refine ⟨?_, fun cast mem => ?_⟩
    · rcases reached with rfl | ⟨later, newer, rfl⟩
      · exact .inr ⟨term, free.symm.imp_left fun chosen => voted.trans chosen.symm⟩
      · exact .inl (newer.trans_eq term.symm)
    · cases Option.mem_some.mp mem
      exact ⟨term.symm, voted⟩
  | count _ _ _ same =>
    exact ⟨.inr ⟨congrArg Ballot.term same, .inl (congrArg Ballot.votedFor same)⟩, nofun⟩
  | lead _ _ _ _ same =>
    exact ⟨.inr ⟨congrArg Ballot.term same, .inl (congrArg Ballot.votedFor same)⟩, nofun⟩

theorem NodeRun.recorded (run : NodeRun Event.Steady first node votes) :
    first.currentTerm ≤ node.currentTerm ∧ Recorded node votes := by
  induction run with
  | start => exact ⟨Nat.le_refl _, nofun⟩
  | @event node votes before event met known =>
    obtain ⟨move, cast⟩ := (event.moves node).steady met
    refine ⟨by omega, fun vote mem => ?_⟩
    rcases mem_append.mp mem with old | new
    · obtain ⟨earlier, kept⟩ := known.2 vote old
      refine ⟨by omega, fun present => ?_⟩
      rcases move with newer | ⟨same, voted | free⟩
      · omega
      · rw [voted]
        exact kept (present.trans same)
      · rw [free] at kept
        cases kept (present.trans same)
    · obtain ⟨term, voted⟩ := cast vote (Option.mem_toList.mp new)
      exact ⟨term.le, fun _ => voted⟩

/-- A node that never steps down within a term votes once in each term. -/
theorem votes_agree (run : NodeRun Event.Steady first node votes) :
    (∀ a ∈ votes, ∀ b ∈ votes, a.1 = b.1 → a.2 = b.2) ∧ first.currentTerm ≤ node.currentTerm := by
  refine ⟨?_, run.recorded.1⟩
  induction run with
  | start => exact nofun
  | @event node votes before event met agreed =>
    obtain ⟨-, known⟩ := (NodeRun.event before event met).recorded
    obtain ⟨-, cast⟩ := (event.moves node).steady met
    -- The new vote is the one the node keeps, so every vote of its term is for that candidate.
    have new : ∀ a ∈ (event.vote node).toList, ∀ b ∈ votes ++ (event.vote node).toList, a.1 = b.1 → a.2 = b.2 := by
      intro a chosen b mem same
      obtain ⟨term, voted⟩ := cast a (Option.mem_toList.mp chosen)
      have kept := (known b mem).2 (same.symm.trans term)
      exact Option.some.inj (voted.symm.trans kept)
    intro a left b right same
    rcases mem_append.mp left with old | chosen
    · rcases mem_append.mp right with old' | chosen
      · exact agreed a old b old' same
      · exact (new b chosen a left same.symm).symm
    · exact new a chosen b right same

def standing : RaftNode := (RaftNode.new 1 ⟨[1, 2, 3], by decide⟩ 100).becomeCandidate.1

/-- A candidate refuses another of its term, and votes for the first that asks in a later one. -/
theorem votes_agree_contested : ∃ node votes, NodeRun Event.Steady (RaftNode.new 1 standing.config 100) node votes ∧
    votes = [(1, 1), (2, 3)] ∧ (∀ a ∈ votes, ∀ b ∈ votes, a.1 = b.1 → a.2 = b.2) ∧ 0 ≤ node.currentTerm := by
  have first : NodeRun Event.Steady (RaftNode.new 1 standing.config 100) _ _ := .start
  have stood := first.event (.tick true) ⟨nofun, fun _ => by decide⟩
  have refused := stood.event (.requestVote ⟨1, 2, 0, 0⟩) ⟨nofun, nofun⟩
  have granted := refused.event (.requestVote ⟨2, 3, 0, 0⟩) ⟨nofun, nofun⟩
  have run := granted.event (.requestVote ⟨2, 2, 0, 0⟩) ⟨nofun, nofun⟩
  exact ⟨_, _, run, by decide, votes_agree run⟩

/-- Another leader of its term makes a candidate forget its own vote. -/
theorem votes_disagree : ∃ node votes, NodeRun (fun _ _ => True)
      (RaftNode.new 1 ⟨[1, 2, 3], by decide⟩ 100) node votes ∧ (1, 1) ∈ votes ∧ (1, 3) ∈ votes :=
  ⟨_, _, .event (.event (.event .start (.tick true) trivial) (.appendEntries ⟨1, 2, 0, 0, [], 0⟩) trivial)
    (.requestVote ⟨1, 3, 0, 0⟩) trivial, by decide, by decide⟩

end ByoriDB.Raft
