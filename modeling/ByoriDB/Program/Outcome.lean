import ByoriDB.Program.Answers

/-! `Prog.Ends` speaks of the one execution of a program from a state: its result and the state it leaves. -/

namespace ByoriDB.Program.Prog

variable {S : Signature} {ε α β σ : Type} {handler : Handler S σ} {p : Prog S ε α} {final : Except ε β → σ → Prop}
  {f : α → Prog S ε β}

/-- The result of the execution and the state it leaves are as stated. -/
def Ends (handler : Handler S σ) (post : Except ε α → σ → Prop) (p : Prog S ε α) (state : σ) : Prop :=
  post (p.run handler state).1 (p.run handler state).2

@[simp] theorem ends_pure {value : α} :
    (Pure.pure value : Prog S ε α).Ends handler post state ↔ post (.ok value) state := .rfl

@[simp] theorem ends_fail {reason : ε} :
    (Prog.fail reason : Prog S ε α).Ends handler post state ↔ post (.error reason) state := .rfl

theorem ends_perform {op : S.Op} {next : S.Res op → Prog S ε α} :
    (perform op >>= next).Ends handler post state ↔ (next (handler op state).1).Ends handler post (handler op state).2 := .rfl

theorem ends_mono (ends : p.Ends handler post state) (weaker : ∀ result final, post result final →
      post' result final) : p.Ends handler post' state :=
  weaker _ _ ends

theorem ends_seq (first : p.Ends handler post state)
    (rest : ∀ value state', post (.ok value) state' → (f value).Ends handler final state')
    (errors : ∀ reason state', post (.error reason) state' → final (.error reason) state') :
    (p >>= f).Ends handler final state := by
  rw [Ends, run_bind]
  rw [Ends] at first
  cases ran : p.run handler state with
  | mk result reached =>
    rw [ran] at first
    cases result with
    | ok value => exact rest value reached first
    | error reason => exact errors reason reached first

/-- A program that only reads comes first. -/
theorem ends_answers {found : α → Prop} (answers : Answers handler state raise found p)
    (rest : ∀ value, found value → (f value).Ends handler final state)
    (errors : ∀ reason, raise reason → final (.error reason) state) :
    (p >>= f).Ends handler final state := by
  refine ends_seq (show p.Ends handler (fun result reached => reached = state ∧
    Returns raise found result) state from answers) ?_ ?_
  · rintro value _ ⟨rfl, holds⟩
    exact rest value holds
  · rintro reason _ ⟨rfl, holds⟩
    exact errors reason holds

/-- Where every operation keeps an invariant, it holds in the end. -/
theorem ends_of_wp {allowed : σ → S.Op → Prop} {returned : α → σ → Prop} {inv : σ → Prop}
    (holds : p.wp handler allowed returned state)
    (keeps : ∀ state op, allowed state op → inv state → inv (handler op state).2)
    (start : inv state) : p.Ends handler (fun _ final => inv final) state := by
  induction p generalizing state with
  | pure value => exact start
  | fail reason => exact start
  | call op next ih => exact ih _ holds.2 (keeps state op holds.1 start)

end ByoriDB.Program.Prog

namespace ByoriDB.Program

export Prog (ends_answers ends_perform ends_pure)

end ByoriDB.Program
