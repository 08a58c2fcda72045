import ByoriDB.Raft.Votes
import Mathlib.Data.Finset.Card

/-! A cluster with a fixed set of voters.  Messages are delayed, reordered, repeated and lost. -/

namespace ByoriDB.Raft

open List RaftNode

variable {node last : RaftNode} {event : Event}

/-- What an event does to the vote of a node, and to a node that stands for election or leads. -/
theorem Event.effect (event : Event) (ran : event.run node = last)
    (unwrapped : event = .tick true → node.currentTerm + 1 < 2 ^ 64) :
    (last.id = node.id ∧ node.currentTerm ≤ last.currentTerm) ∧
    (∀ cast, event.vote node = some cast → cast.1 = last.currentTerm ∧ last.votedFor = some cast.2) ∧
    (last.currentTerm = node.currentTerm → last.votedFor = node.votedFor ∨ node.votedFor = none ∨ event.Resets node) ∧
    (event = .tick true ∧ node.state ≠ .leader ∧ last.ballot = node.becomeCandidate.1.ballot ∨ last.state = .follower ∨
      node.state ≠ .follower ∧ last.currentTerm = node.currentTerm ∧ ¬ event.Resets node ∧
      (last.state = node.state ∧ last.votesReceived = node.votesReceived ∨ node.state = .candidate ∧
        ∃ src resp, event = .requestVoteResponse src resp ∧ resp.term ≤ node.currentTerm ∧
          last.votesReceived = node.votesReceived.insert src resp.voteGranted ∧
          (last.state = .leader → node.config.majority ≤ last.votesReceived.count fun _ granted => granted))) := by
  have stood : event = .tick true → node.becomeCandidate.1.currentTerm = node.currentTerm + 1 :=
    fun ticked => Nat.mod_eq_of_lt (unwrapped ticked)
  have moves := event.moves node
  rw [ran] at moves
  generalize event.vote node = vote at moves
  cases moves <;> rename_i same <;> have fields := same <;> simp only [ballot, Ballot.mk.injEq] at fields <;>
    grind [becomeFollower, becomeCandidate, Resets]

/-- The nodes by their ids, the votes each has cast, and the leaders of all terms so far. -/
structure Cluster where
  nodes : Nat → RaftNode
  votes : Nat → List (Nat × Nat)
  leaders : List (Nat × Nat)

namespace Cluster

def new (config : ClusterConfig) (limit : Nat) : Cluster := ⟨fun id => .new id config limit, fun _ => [], []⟩

section

variable (cluster : Cluster) (id : Nat)

def act (event : Event) : Cluster :=
  let node := cluster.nodes id
  let last := event.run node
  { nodes := fun other => if other = id then last else cluster.nodes other
    votes := fun other => if other = id then cluster.votes id ++ (event.vote node).toList else cluster.votes other
    leaders := if last.state = .leader then (last.currentTerm, id) :: cluster.leaders else cluster.leaders }

/-- A vote comes from the node that cast it, and does not reach a candidate of a later term.  AppendEntries come
from a leader of their term.  Terms do not wrap around, and no leader removes itself. -/
def Admits : Event → Prop
  | .tick _ => (cluster.nodes id).currentTerm + 1 < 2 ^ 64
  | .requestVoteResponse src resp => resp.voteGranted = true → (resp.term, id) ∈ cluster.votes src ∧
      ((cluster.nodes id).state = .candidate → (cluster.nodes id).currentTerm ≤ resp.term)
  | .appendEntries req => (req.term, req.leaderId) ∈ cluster.leaders
  | event => ¬ event.Resets (cluster.nodes id)

/-- The voter will not vote for another candidate of this term. -/
def Firm (vote : Nat × Nat) : Prop :=
  vote.1 ≤ (cluster.nodes id).currentTerm ∧
    (vote.1 = (cluster.nodes id).currentTerm → (cluster.nodes id).votedFor = some vote.2) ∧
    ∀ other ∈ cluster.votes id, other.1 = vote.1 → other.2 = vote.2

/-- A candidate or leader votes for itself, and counts the votes it has in its term. -/
def Stands (node : RaftNode) : Prop :=
  node.votedFor = some id ∧ (node.state = .leader ↔ (node.currentTerm, id) ∈ cluster.leaders) ∧
    ∀ voter, node.votesReceived.get voter = some true → (node.currentTerm, id) ∈ cluster.votes voter

end

inductive Run (config : ClusterConfig) (limit : Nat) : Cluster → Prop where
  | start : Run config limit (new config limit)
  | act {cluster : Cluster} {id : Nat} (before : Run config limit cluster) (member : id ∈ config.voters)
      (configured : (cluster.nodes id).config = config) (event : Event) (admitted : cluster.Admits id event) :
      Run config limit (cluster.act id event)

/-- A leader has a majority that stays with it.  In a term without a leader nobody has changed their vote. -/
structure Safe (config : ClusterConfig) (cluster : Cluster) : Prop where
  named : ∀ id, (cluster.nodes id).id = id
  stands : ∀ id, (cluster.nodes id).state ≠ .follower → cluster.Stands id (cluster.nodes id)
  past : ∀ led ∈ cluster.leaders, led.1 ≤ (cluster.nodes led.2).currentTerm
  won : ∀ led ∈ cluster.leaders, ∃ quorum ⊆ config.voters.toFinset, config.majority ≤ quorum.card ∧
    ∀ voter ∈ quorum, led ∈ cluster.votes voter ∧ cluster.Firm voter led
  undecided : ∀ voter, ∀ vote ∈ cluster.votes voter, voter ∈ config.voters ∧
    ((∀ id, (vote.1, id) ∉ cluster.leaders) → cluster.Firm voter vote)

variable {config : ClusterConfig} {cluster : Cluster} {id : Nat}

theorem Safe.winner (safe : Safe config cluster) (led : (term, leader) ∈ cluster.leaders) {quorum : Finset Nat}
    (inside : quorum ⊆ config.voters.toFinset) (most : config.majority ≤ quorum.card)
    (cast : ∀ voter ∈ quorum, (term, id) ∈ cluster.votes voter) : id = leader := by
  obtain ⟨others, within, many, firm⟩ := safe.won _ led
  have size := config.voters.toFinset_card_le
  have more : config.voters.toFinset.card < quorum.card + others.card := by
    unfold ClusterConfig.majority at most many
    omega
  obtain ⟨voter, mem⟩ := Finset.inter_nonempty_of_card_lt_card_add_card inside within more
  rw [Finset.mem_inter] at mem
  exact (firm voter mem.2).2.2.2 _ (cast voter mem.1) rfl

section

variable (safe : Safe config cluster) (admitted : cluster.Admits id event) (here : cluster.nodes id = node)
  (ran : event.run node = last)
include safe admitted here ran

omit safe ran in
theorem Admits.unwrapped : event = .tick true → node.currentTerm + 1 < 2 ^ 64 := by
  subst here
  rintro rfl
  exact admitted

theorem Safe.stands_act (active : last.state ≠ .follower) : (cluster.act id event).Stands id last := by
  have effect := event.effect ran (admitted.unwrapped here)
  subst here
  obtain ⟨-, -, voted, ⟨rfl, idle, stood⟩ | down | ⟨before, term, calm, rest⟩⟩ := effect
  · have past := safe.past
    have own := safe.named id
    have next : (cluster.nodes id).becomeCandidate.1.currentTerm = (cluster.nodes id).currentTerm + 1 := Nat.mod_eq_of_lt admitted
    clear voted
    refine ⟨?_, ?_, fun voter granted => ?_⟩ <;>
      grind [act, Event.vote, ballot, becomeCandidate, Data.get_insert, Data.get_empty]
  · exact absurd down active
  · have stands := safe.stands id before
    unfold Stands at stands
    refine ⟨?_, ?_, fun voter granted => ?_⟩ <;> grind [act, Admits, Data.get_insert]

/-- An event keeps the votes for the leader of a term, and all votes of a term without a leader. -/
theorem Safe.firm_act (voter : Nat) (vote : Nat × Nat) (firm : cluster.Firm voter vote)
    (won : vote ∈ cluster.leaders ∨ ∀ leader, (vote.1, leader) ∉ cluster.leaders) :
    (cluster.act id event).Firm voter vote := by
  obtain ⟨⟨-, grown⟩, cast, voted, -⟩ := event.effect ran (admitted.unwrapped here)
  subst here
  by_cases own : voter = id
  · subst own
    have stands := safe.stands voter
    -- A candidate that the leader of its term resets has not voted for this leader.
    have calm : vote.1 = (cluster.nodes voter).currentTerm → ¬ event.Resets (cluster.nodes voter) := by
      cases event <;> grind [Event.Resets, Admits, Firm, Stands]
    obtain ⟨past, kept, alone⟩ := firm
    refine ⟨?_, ?_, fun other mem same => ?_⟩ <;> grind [act]
  · simpa [Firm, act, own] using firm

/-- A node that becomes the leader has the votes of a majority, and no other node has led its term. -/
theorem Safe.elected (configured : node.config = config) (leads : last.state = .leader)
    (new : (last.currentTerm, id) ∉ cluster.leaders) : (∀ leader, (last.currentTerm, leader) ∉ cluster.leaders) ∧
    ∃ quorum ⊆ config.voters.toFinset, config.majority ≤ quorum.card ∧
      ∀ voter ∈ quorum, (last.currentTerm, id) ∈ cluster.votes voter := by
  have counted := (safe.stands_act admitted here ran (by simp [leads])).2.2
  obtain ⟨-, -, -, turn⟩ := event.effect ran (admitted.unwrapped here)
  subst here
  have stands := safe.stands id
  obtain ⟨silent, most⟩ : event.vote (cluster.nodes id) = none ∧
      config.majority ≤ last.votesReceived.count fun _ granted => granted := by
    grind [ballot, becomeCandidate, Event.vote, Stands]
  obtain ⟨keys, exactly⟩ : ∃ keys, ∀ voter, voter ∈ keys ↔ ∃ value, last.votesReceived.get voter = some value ∧ value = true :=
    ⟨(last.votesReceived.toList.filter Prod.snd).map Prod.fst, by simp [Data.mem_toList]⟩
  rw [Data.Table.count_eq_dedup exactly, ← List.card_toFinset] at most
  have backed : ∀ voter ∈ keys.toFinset, (last.currentTerm, id) ∈ cluster.votes voter := by
    intro voter mem
    have cast := counted voter (by simpa [exactly] using mem)
    grind [act]
  have inside : keys.toFinset ⊆ config.voters.toFinset := by
    intro voter mem
    exact List.mem_toFinset.mpr (safe.undecided voter _ (backed voter mem)).1
  exact ⟨fun leader led => new (safe.winner led inside most backed ▸ led), _, inside, most, backed⟩

theorem Safe.act (member : id ∈ config.voters) (configured : node.config = config) :
    Safe config (cluster.act id event) := by
  have stands := safe.stands_act admitted here ran
  have elected := safe.elected admitted here ran configured
  have firm := safe.firm_act admitted here ran
  obtain ⟨⟨own, grown⟩, cast, -⟩ := event.effect ran (admitted.unwrapped here)
  subst here
  have kept : ∀ voter, ∀ vote ∈ cluster.votes voter, vote ∈ (cluster.act id event).votes voter := by
    grind [act]
  constructor
  case named =>
    have before := safe.named
    grind [act]
  case stands =>
    intro other active
    have before := safe.stands other
    by_cases here : other = id <;> grind [act, Stands]
  case past =>
    have before := safe.past
    grind [act]
  case won =>
    intro led mem
    by_cases old : led ∈ cluster.leaders
    · obtain ⟨quorum, inside, most, backed⟩ := safe.won led old
      refine ⟨quorum, inside, most, fun voter mem => ⟨kept voter led (backed voter mem).1, ?_⟩⟩
      exact firm voter led (backed voter mem).2 (.inl old)
    · obtain ⟨leads, rfl⟩ : last.state = .leader ∧ led = (last.currentTerm, id) := by
        grind [act]
      obtain ⟨free, quorum, inside, most, backed⟩ := elected leads old
      refine ⟨quorum, inside, most, fun voter mem => ⟨kept voter _ (backed voter mem), ?_⟩⟩
      exact firm voter _ ((safe.undecided voter _ (backed voter mem)).2 free) (.inr free)
  case undecided =>
    intro voter vote mem
    have known := safe.undecided voter
    by_cases old : vote ∈ cluster.votes voter
    · refine ⟨(known vote old).1, fun free => ?_⟩
      have free' : ∀ leader, (vote.1, leader) ∉ cluster.leaders := by
        grind [act]
      exact firm voter vote ((known vote old).2 free') (.inr free')
    · obtain ⟨rfl, new⟩ : voter = id ∧ event.vote (cluster.nodes id) = some vote := by
        grind [act]
      exact ⟨member, by grind [Firm, act]⟩

end

theorem Run.safe (run : Run config limit cluster) : Safe config cluster := by
  induction run with
  | start => constructor <;> simp [new, RaftNode.new]
  | act before member configured event admitted safe => exact safe.act admitted rfl rfl member configured

/-- Every term has one leader at most, as long as no candidate counts a vote for an earlier term of its own. -/
theorem leader_unique (run : Run config limit cluster) :
    (∀ id, (cluster.nodes id).state = .leader → ((cluster.nodes id).currentTerm, id) ∈ cluster.leaders) ∧
    ∀ term a b, (term, a) ∈ cluster.leaders → (term, b) ∈ cluster.leaders → a = b := by
  refine ⟨fun id leads => (run.safe.stands id (by simp [leads])).2.1.mp leads, fun term a b first second => ?_⟩
  obtain ⟨quorum, inside, most, firm⟩ := run.safe.won _ first
  exact run.safe.winner second inside most fun voter mem => (firm voter mem).1

/-- Node 1 is elected with the vote of node 2. -/
def elected : Cluster :=
  (((new standing.config 100).act 1 (.tick true)).act 2 (.requestVote ⟨1, 1, 0, 0⟩)).act 1 (.requestVoteResponse 2 ⟨1, true⟩)

theorem run_elected : Run standing.config 100 elected := by
  have begun : Run standing.config 100 (new standing.config 100) := .start
  have stood := begun.act (show 1 ∈ standing.config.voters by decide) rfl (.tick true) (show 0 + 1 < 2 ^ 64 by decide)
  have voted := stood.act (show 2 ∈ standing.config.voters by decide) rfl (.requestVote ⟨1, 1, 0, 0⟩) id
  exact voted.act (show 1 ∈ standing.config.voters by decide) rfl (.requestVoteResponse 2 ⟨1, true⟩)
    fun _ => ⟨by decide, fun _ => by decide⟩

theorem leader_unique_elected : (1, 1) ∈ elected.leaders ∧ ∀ b, (1, b) ∈ elected.leaders → 1 = b :=
  ⟨by decide, fun b => (leader_unique run_elected).2 1 1 b (by decide)⟩

end Cluster

end ByoriDB.Raft
