import ByoriDB.Executor.Statement
import ByoriDB.Program.Tickets

namespace ByoriDB.Executor

open Program Store ByoriDB.Graph

abbrev Sessions (ι : Type) := Pool (signature Key Val) ExecutionError Response World ι

def isRunning {α : Type} : Exec α → Bool
  | .call _ _ => true
  | _ => false

/-- No two statements in progress hold the lock of one space. -/
def locked {ι : Type} (lock : ι → Option String) (sessions : Sessions ι) : Bool :=
  sessions.calls.Pairwise fun a b => ¬(isRunning a.2 ∧ isRunning b.2 ∧ (lock a.1).isSome ∧ lock a.1 = lock b.1)

/-- Markers of incomplete inference are never set. -/
def StaysClean (before after : World) : Prop :=
  ∀ space, before.kv.get (inferenceDirty space) = none → after.kv.get (inferenceDirty space) = none

section

variable {τ : Type} {T : Tickets (signature Key Val) World τ}

/-- A statement that finds its space clean, between others that leave it clean, has
nothing to rebuild in the end. -/
theorem draws_execute (mutates : plan.access.2 = true) (gated : plan.isRecovery = false)
    (clean : ∀ {a b}, T.grows a b → StaysClean a b) (reads : ∀ key, T.number (.kv (.get key)) = none)
    (body : ∀ held state, (dispatch layout fuel ctx plan).Draws T (handler env) (fun _ _ _ => True) held state) :
    (execute layout fuel ctx plan).Draws T (handler env) (fun _ _ _ => True) held state := by
  unfold execute
  cases scope : inferenceScope ctx plan with
  | none => exact body held state
  | some found =>
    obtain ⟨space, mutation⟩ := found
    have mutation_eq : mutation = true := by
      obtain ⟨name, -, same⟩ := Option.map_eq_some_iff.mp scope
      cases same
      exact mutates
    subst mutation_eq
    simp only [gate, gated, Bool.false_eq_true, if_false, ensureInferenceClean, inferenceIsDirty, settle, if_true]
    refine draws_bind (draws_bind (draws_bind (draws_read (reads _) (fun _ => rfl) ?_)))
    intro state _ _ _
    change Prog.Draws T _ _ (if ((state.kv.get (inferenceDirty space)).isSome) = true then _ else _) _ _
    split
    · trivial
    next unmarked =>
    have before : state.kv.get (inferenceDirty space) = none := by simpa using unmarked
    refine draws_bind (draws_mono (Prog.draws_grown (body _ state)) fun response held state' ends => ?_)
    refine draws_bind (draws_bind (draws_bind (draws_read (reads _) (fun _ => rfl) ?_)))
    intro state'' grown _ _
    have after := clean (T.grows_trans ends.2 grown) space before
    change Prog.Draws T _ _ (if ((state''.kv.get (inferenceDirty space)).isSome) = true then _ else _) _ _
    rw [after]
    trivial

end

end ByoriDB.Executor
