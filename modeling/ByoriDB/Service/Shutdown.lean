import Mathlib.Data.Nat.Bitwise

/-! Admission and shutdown share one atomic word: the top bit is the flag, the other bits count the requests. -/

namespace ByoriDB.Service.Shutdown

open List

def stopping : UInt64 := (1 : UInt64) <<< 63

def activeMask : UInt64 := stopping - 1

def tryAdmit (state : UInt64) : Option UInt64 :=
  if state &&& stopping = 0 ∧ state < activeMask then some (state + 1) else none

def stopAccepting (state : UInt64) : UInt64 := state ||| stopping

def activeQueries (state : UInt64) : UInt64 := state &&& activeMask

/-- One turn of the loop in `drain`; no answer if it goes on to sleep. -/
def drainTurn (state : UInt64) (expired : Bool) : Option Bool :=
  if activeQueries state = 0 then some true
  else if expired then some false
  else none

structure System (ρ : Type) where
  state : UInt64
  guards : List ρ

inductive Event (ρ : Type) where
  | tryAdmit (request : ρ)
  | drop (request : ρ)
  | stopAccepting
  | activeQueries
  | drainTurn (expired : Bool)
  deriving DecidableEq

variable {ρ : Type} [DecidableEq ρ]

def System.step (system : System ρ) : Event ρ → System ρ
  | .tryAdmit request => match Shutdown.tryAdmit system.state with
    | some state => ⟨state, request :: system.guards⟩
    | none => system
  | .drop request =>
    -- without a guard there is nothing to drop
    if request ∈ system.guards then ⟨system.state - 1, system.guards.erase request⟩ else system
  | .stopAccepting => { system with state := Shutdown.stopAccepting system.state }
  | .activeQueries => system
  | .drainTurn _ => system

/-- Threads interleave in any way, each atomic operation is one event. -/
def System.run : System ρ → List (Event ρ) → System ρ := foldl System.step

def new : System ρ := ⟨0, []⟩

/-- The word is the count, and the flag above it. -/
structure Counts (stopped : Bool) (system : System ρ) : Prop where
  word : system.state.toNat = system.guards.length + if stopped then 2 ^ 63 else 0
  bounded : system.guards.length < 2 ^ 63

theorem flag_or {active : Nat} (bounded : active < 2 ^ 63) : 2 ^ 63 ||| active = active + 2 ^ 63 :=
  (Nat.two_pow_add_eq_or_of_lt bounded 1).symm.trans (Nat.add_comm ..)

namespace Counts

variable {system : System ρ}

omit [DecidableEq ρ] in
theorem flag (counts : Counts stopped system) : system.state &&& stopping = 0 ↔ stopped = false := by
  rw [← UInt64.toNat_inj, UInt64.toNat_and, show stopping.toNat = 2 ^ 63 from rfl, Nat.and_two_pow]
  have bit : system.state.toNat.testBit 63 = stopped := by
    rw [counts.word]
    cases stopped with
    | false => exact Nat.testBit_lt_two_pow counts.bounded
    | true =>
      rw [if_pos rfl, ← flag_or counts.bounded, Nat.testBit_or, Nat.testBit_two_pow_self, Bool.true_or]
  cases stopped <;> simp [bit]

omit [DecidableEq ρ] in
theorem active (counts : Counts stopped system) : (activeQueries system.state).toNat = system.guards.length := by
  rw [activeQueries, UInt64.toNat_and, show activeMask.toNat = 2 ^ 63 - 1 from rfl, Nat.and_two_pow_sub_one_eq_mod, counts.word]
  have bounded := counts.bounded
  split <;> omega

theorem step (counts : Counts stopped system) : Counts (stopped || decide (event = .stopAccepting)) (system.step event) := by
  have word := counts.word
  have bounded := counts.bounded
  have flag := counts.flag
  cases event with
  | tryAdmit request =>
    simp only [System.step, tryAdmit, reduceCtorEq, decide_false, Bool.or_false]
    by_cases admits : system.state &&& stopping = 0 ∧ system.state < activeMask
    · have below : system.state.toNat < 2 ^ 63 - 1 := UInt64.lt_iff_toNat_lt.mp admits.2
      have running := flag.mp admits.1
      rw [if_pos admits]
      constructor
      · simp only [UInt64.toNat_add, length_cons]
        simp only [UInt64.toNat_one]
        omega
      · simp only [length_cons]
        omega
    · rw [if_neg admits]
      exact counts
  | drop request =>
    simp only [System.step, reduceCtorEq, decide_false, Bool.or_false]
    split
    case isTrue live =>
      have positive := length_pos_of_mem live
      constructor
      · simp only [UInt64.toNat_sub, length_erase_of_mem live, UInt64.toNat_one, word]
        split <;> omega
      · simp only [length_erase_of_mem live]
        omega
    case isFalse => exact counts
  | stopAccepting =>
    simp only [System.step, stopAccepting, decide_true, Bool.or_true]
    refine ⟨?_, bounded⟩
    rw [UInt64.toNat_or, show stopping.toNat = 2 ^ 63 from rfl, word, if_pos rfl]
    cases stopped with
    | false => exact (Nat.or_comm ..).trans (flag_or bounded)
    | true => rw [if_pos rfl, ← flag_or bounded, Nat.or_right_comm, Nat.or_self]
  | activeQueries => simpa [System.step] using counts
  | drainTurn expired => simpa [System.step] using counts

theorem run (counts : Counts stopped system) (events : List (Event ρ)) :
    Counts (stopped || decide (.stopAccepting ∈ events)) (system.run events) := by
  induction events generalizing stopped system with
  | nil => simpa [System.run] using counts
  | cons event events ih => simpa [System.run, Bool.or_assoc, eq_comm] using ih counts.step

omit [DecidableEq ρ] in
theorem closed (counts : Counts true system) : tryAdmit system.state = none :=
  if_neg fun admits => by simpa using counts.flag.mp admits.1

/-- After the stop guards are only dropped. -/
theorem drained (counts : Counts true system) (none : system.guards = [])
    (events : List (Event ρ)) : (system.run events).guards = [] := by
  induction events generalizing system with
  | nil => exact none
  | cons event events ih =>
    refine ih (by simpa using counts.step) ?_
    cases event <;> simp [System.step, counts.closed, none]

end Counts

/-- In every interleaving the requests are counted.  A drain is final if it comes after the stop; what counts is
its last look at the word, which one turn takes together with its answer. -/
theorem shutdown_drains (events : List (Event ρ)) : let system := new.run events
    (activeQueries system.state).toNat = system.guards.length ∧
    (system.state &&& stopping ≠ 0 ↔ .stopAccepting ∈ events) ∧
    (.stopAccepting ∈ events → tryAdmit system.state = none ∧
      ∀ expired, drainTurn system.state expired = some true → ∀ later, (system.run later).guards = []) := by
  have start : Counts false (new : System ρ) := ⟨rfl, by simp [new]⟩
  have counts := start.run events
  refine ⟨counts.active, ?_, ?_⟩
  · simpa using not_congr counts.flag
  · intro stopped
    have counts : Counts true (new.run events) := by simpa [stopped] using counts
    refine ⟨counts.closed, fun expired answer => counts.drained ?_⟩
    have idle : activeQueries (new.run events).state = 0 := by
      simp only [drainTurn] at answer
      grind
    rw [← length_eq_zero_iff, ← counts.active, idle, UInt64.toNat_zero]

end ByoriDB.Service.Shutdown
