import ByoriDB.Data.Table
import ByoriDB.Raft.Log
import Mathlib.Data.List.Sort

namespace ByoriDB.Raft

open Data

inductive RaftState where
  | follower
  | candidate
  | leader
  deriving DecidableEq, Repr

inductive ConfigChange where
  | addNode (nodeId : Nat) (addr : String)
  | removeNode (nodeId : Nat)

inductive Command where
  | noop
  | put (spaceId partId : Nat) (key value : List UInt8)
  | delete (spaceId partId : Nat) (key : List UInt8)
  | configChange (change : ConfigChange)

structure ClusterConfig where
  voters : List Nat
  nodup : voters.Nodup

namespace ClusterConfig

def addNode (config : ClusterConfig) (id : Nat) : ClusterConfig :=
  if listed : id ∈ config.voters then config
  else ⟨config.voters.concat id, config.nodup.concat listed⟩

def removeNode (config : ClusterConfig) (id : Nat) : ClusterConfig :=
  ⟨config.voters.filter (· ≠ id), config.nodup.filter _⟩

def majority (config : ClusterConfig) : Nat := config.voters.length / 2 + 1

end ClusterConfig

structure RequestVoteRequest where
  term : Nat
  candidateId : Nat
  lastLogIndex : Nat
  lastLogTerm : Nat

structure RequestVoteResponse where
  term : Nat
  voteGranted : Bool

structure AppendEntriesRequest where
  term : Nat
  leaderId : Nat
  prevLogIndex : Nat
  prevLogTerm : Nat
  entries : List (LogEntry Command)
  leaderCommit : Nat

structure AppendEntriesResponse where
  term : Nat
  success : Bool
  matchIndex : Nat

structure InstallSnapshotRequest where
  term : Nat
  leaderId : Nat
  lastIncludedIndex : Nat
  lastIncludedTerm : Nat
  offset : Nat
  data : List UInt8
  done : Bool

structure LeaderState where
  nextIndex : Table Nat Nat
  matchIndex : Table Nat Nat

structure RaftNode where
  id : Nat
  state : RaftState
  currentTerm : Nat
  votedFor : Option Nat
  commitIndex : Nat
  lastApplied : Nat
  leaderState : Option LeaderState
  log : RaftLog Command
  config : ClusterConfig
  maxEntriesPerRequest : Nat
  leaderId : Option Nat
  votesReceived : Table Nat Bool

inductive RaftAction where
  | none
  | sendRequestVote (requests : List (Nat × RequestVoteRequest))
  | sendAppendEntries (requests : List (Nat × AppendEntriesRequest))
  | applyEntries (entries : List (LogEntry Command))

namespace RaftNode

def new (id : Nat) (config : ClusterConfig) (maxEntriesPerRequest : Nat) : RaftNode :=
  ⟨id, .follower, 0, none, 0, 0, none, .new, config, maxEntriesPerRequest, none, .empty⟩

section

variable (node : RaftNode)

def becomeFollower (term : Nat) (leaderId : Option Nat) : RaftNode :=
  { node with state := .follower, currentTerm := term, votedFor := none, leaderId, leaderState := none }

def becomeCandidate : RaftNode × List (Nat × RequestVoteRequest) :=
  let term := (node.currentTerm + 1) % 2 ^ 64
  ({ node with
      state := .candidate, currentTerm := term, votedFor := some node.id, leaderId := none, leaderState := none
      votesReceived := Table.empty.insert node.id true },
    (node.config.voters.filter (· ≠ node.id)).map fun id => (id, ⟨term, node.id, node.log.lastIndex, node.log.lastTerm⟩))

def becomeLeader : RaftNode :=
  let others := node.config.voters.filter (· ≠ node.id)
  { node with
    state := .leader, leaderId := some node.id
    leaderState := some ⟨Table.ofList (others.map fun id => (id, node.log.lastIndex + 1)),
      Table.ofList (others.map fun id => (id, 0))⟩
    log := node.log.appendEntry node.currentTerm .noop }

def decideVote (req : RequestVoteRequest) : RaftNode × RequestVoteResponse :=
  if req.term < node.currentTerm then (node, ⟨node.currentTerm, false⟩)
  else if node.votedFor.isSome ∧ node.votedFor ≠ some req.candidateId then (node, ⟨node.currentTerm, false⟩)
  else if !node.log.isUpToDate req.lastLogIndex req.lastLogTerm then (node, ⟨node.currentTerm, false⟩)
  else ({ node with votedFor := some req.candidateId }, ⟨node.currentTerm, true⟩)

def handleRequestVote (req : RequestVoteRequest) : RaftNode × RequestVoteResponse :=
  (if node.currentTerm < req.term then node.becomeFollower req.term none else node).decideVote req

def handleRequestVoteResponse (src : Nat) (resp : RequestVoteResponse) : RaftNode :=
  if node.state ≠ .candidate then node
  else if node.currentTerm < resp.term then node.becomeFollower resp.term none
  else
    let node := { node with votesReceived := node.votesReceived.insert src resp.voteGranted }
    if node.config.majority ≤ node.votesReceived.count fun _ granted => granted then node.becomeLeader else node

end

section

variable (node : RaftNode)

section

variable (req : AppendEntriesRequest)

def acceptEntries : RaftNode × AppendEntriesResponse :=
  let log := match req.entries.find? fun entry => (node.log.get entry.index).any (·.term ≠ entry.term) with
    | some entry => node.log.truncate entry.index
    | none => node.log
  let log := log.append (req.entries.filter (log.lastIndex < ·.index))
  let commitIndex := if node.commitIndex < req.leaderCommit then min req.leaderCommit log.lastIndex else node.commitIndex
  ({ node with log, commitIndex }, ⟨node.currentTerm, true, log.lastIndex⟩)

def matchPrevious : RaftNode × AppendEntriesResponse :=
  if req.prevLogIndex = 0 then node.acceptEntries req
  else match node.log.term req.prevLogIndex with
    | none => (node, ⟨node.currentTerm, false, node.log.lastIndex⟩)
    | some term =>
      if term ≠ req.prevLogTerm then
        let log := node.log.truncate req.prevLogIndex
        ({ node with log }, ⟨node.currentTerm, false, log.lastIndex⟩)
      else node.acceptEntries req

def receiveEntries : RaftNode × AppendEntriesResponse :=
  if req.term < node.currentTerm then (node, ⟨node.currentTerm, false, 0⟩)
  else if node.state = .candidate then (node.becomeFollower req.term (some req.leaderId)).matchPrevious req
  else { node with leaderId := some req.leaderId }.matchPrevious req

def handleAppendEntries : RaftNode × AppendEntriesResponse :=
  (if node.currentTerm < req.term then node.becomeFollower req.term (some req.leaderId) else node).receiveEntries req

end

def tryAdvanceCommitIndex : RaftNode :=
  match node.leaderState with
  | none => node
  | some leader =>
    let matchIndices := (leader.matchIndex.toList.map Prod.snd ++ [node.log.lastIndex]).insertionSort (· ≤ ·)
    -- Fewer values than a majority are a panic.
    if matchIndices.length < node.config.majority then node
    else match matchIndices[matchIndices.length - node.config.majority]? with
      | none => node
      | some majorityIndex =>
        if node.commitIndex < majorityIndex ∧ node.log.term majorityIndex = some node.currentTerm then
          { node with commitIndex := majorityIndex }
        else node

def handleAppendEntriesResponse (src : Nat) (resp : AppendEntriesResponse) : RaftNode :=
  if node.state ≠ .leader then node
  else if node.currentTerm < resp.term then node.becomeFollower resp.term none
  else match node.leaderState with
    | none => node
    | some leader =>
      if resp.success then
        { node with leaderState := some ⟨leader.nextIndex.insert src (resp.matchIndex + 1),
            leader.matchIndex.insert src resp.matchIndex⟩ }.tryAdvanceCommitIndex
      else
        let next := max 1 ((leader.nextIndex.get src).getD 1 - 1)
        { node with leaderState := some { leader with nextIndex := leader.nextIndex.insert src next } }

/-- Proposals of commands and of configuration changes. -/
def propose (command : Command) : Option (RaftNode × Nat) :=
  if node.state ≠ .leader then none
  else some ({ node with log := node.log.appendEntry node.currentTerm command }, node.log.lastIndex + 1)

/-- The requests of a leader to the other voters; `none` is a panic. -/
def generateAppendEntries : Option (List (Nat × AppendEntriesRequest)) :=
  match node.state, node.leaderState with
  | .leader, some leader => (node.config.voters.filter (· ≠ node.id)).mapM fun id => do
    let next := (leader.nextIndex.get id).getD 1
    let entries ← node.log.entriesRange next (next + node.maxEntriesPerRequest)
    pure (id, ⟨node.currentTerm, node.id, next - 1, (node.log.term (next - 1)).getD 0, entries, node.commitIndex⟩)
  | _, _ => some []

end

section

variable (node : RaftNode)

/-- Every committed index that is not applied yet, in order; an index without an entry is passed over. -/
def getEntriesToApply : RaftNode × List (LogEntry Command) :=
  ({ node with lastApplied := max node.lastApplied node.commitIndex },
    (List.range' (node.lastApplied + 1) (node.commitIndex - node.lastApplied)).filterMap node.log.get)

def applyCommitted : RaftNode × RaftAction :=
  let (node, entries) := node.getEntriesToApply
  (node, if entries.isEmpty then .none else .applyEntries entries)

def tick (elapsed : Bool) : Option (RaftNode × RaftAction) :=
  if node.state = .leader then do
    match ← node.generateAppendEntries with
    | [] => pure node.applyCommitted
    | requests => pure (node, .sendAppendEntries requests)
  else if elapsed then
    let (node, requests) := node.becomeCandidate
    pure (node, .sendRequestVote requests)
  else pure node.applyCommitted

def applySnapshot (lastIncludedIndex lastIncludedTerm : Nat) : RaftNode :=
  { node with
    log := node.log.compact lastIncludedIndex lastIncludedTerm
    commitIndex := max node.commitIndex lastIncludedIndex
    lastApplied := max node.lastApplied lastIncludedIndex }

/-- The request of the service: the chunk itself is logged and dropped, the last one moves the indices. -/
def receiveSnapshot (req : InstallSnapshotRequest) : RaftNode :=
  if req.term < node.currentTerm then node
  else
    let node := { node with leaderId := some req.leaderId }
    if req.done then node.applySnapshot req.lastIncludedIndex req.lastIncludedTerm else node

def installSnapshot (req : InstallSnapshotRequest) : RaftNode :=
  (if node.currentTerm < req.term then node.becomeFollower req.term (some req.leaderId) else node).receiveSnapshot req

def applyConfigChange : ConfigChange → RaftNode
  | .addNode id _ =>
    { node with
      config := node.config.addNode id
      leaderState := node.leaderState.map fun leader =>
        ⟨leader.nextIndex.insert id (node.log.lastIndex + 1), leader.matchIndex.insert id 0⟩ }
  | .removeNode id =>
    let node := { node with
      config := node.config.removeNode id
      leaderState := node.leaderState.map fun leader => ⟨leader.nextIndex.erase id, leader.matchIndex.erase id⟩ }
    if id = node.id ∧ node.state = .leader then node.becomeFollower node.currentTerm none else node

end

end RaftNode

inductive Event where
  | tick (elapsed : Bool)
  | requestVote (req : RequestVoteRequest)
  | requestVoteResponse (src : Nat) (resp : RequestVoteResponse)
  | appendEntries (req : AppendEntriesRequest)
  | appendEntriesResponse (src : Nat) (resp : AppendEntriesResponse)
  | installSnapshot (req : InstallSnapshotRequest)
  | propose (command : Command)
  | applySnapshot (lastIncludedIndex lastIncludedTerm : Nat)
  | applyConfigChange (change : ConfigChange)

/-- The node after an event; a panic leaves it as it was. -/
def Event.run : Event → RaftNode → RaftNode
  | .tick elapsed, node => ((node.tick elapsed).map Prod.fst).getD node
  | .requestVote req, node => (node.handleRequestVote req).1
  | .requestVoteResponse src resp, node => node.handleRequestVoteResponse src resp
  | .appendEntries req, node => (node.handleAppendEntries req).1
  | .appendEntriesResponse src resp, node => node.handleAppendEntriesResponse src resp
  | .installSnapshot req, node => node.installSnapshot req
  | .propose command, node => ((node.propose command).map Prod.fst).getD node
  | .applySnapshot lastIncludedIndex lastIncludedTerm, node => node.applySnapshot lastIncludedIndex lastIncludedTerm
  | .applyConfigChange change, node => node.applyConfigChange change

end ByoriDB.Raft
