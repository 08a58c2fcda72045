import ByoriDB.Program.Answers

namespace ByoriDB.Program.Prog

variable {S : Signature} {ε α β γ σ : Type} {handler : Handler S σ} {p : Prog S ε α} {middle : α → σ → Prop}
  {f : α → Prog S ε β} {post : α → Prop} {op : S.Op} {next : S.Res op → Prog S ε α}

/-- If the execution fails, its error is as stated. -/
def Fails (handler : Handler S σ) (raise : ε → Prop) (p : Prog S ε α) (state : σ) : Prop :=
  ∀ reason, (p.run handler state).1 = .error reason → raise reason

@[simp] theorem fails_pure (value : α) : (Pure.pure value : Prog S ε α).Fails handler raise state := by
  intro reason failed
  cases failed

theorem fails_fail {reason : ε} (holds : raise reason) : (Prog.fail reason : Prog S ε α).Fails handler raise state := by
  intro other failed
  cases failed
  exact holds

theorem fails_perform
    (rest : (next (handler op state).1).Fails handler raise (handler op state).2) :
    (perform op >>= next).Fails handler raise state := rest

theorem fails_mono (fails : p.Fails handler raise state)
    (weaker : ∀ reason, raise reason → raise' reason) : p.Fails handler raise' state :=
  fun reason failed => weaker reason (fails reason failed)

theorem fails_seq (first : p.Fails handler raise state)
    (reaches : p.wp handler allowed middle state) (rest : ∀ value state', middle value state' →
      (f value).Fails handler raise state') : (p >>= f).Fails handler raise state := by
  intro reason failed
  rw [run_bind] at failed
  cases ran : p.run handler state with
  | mk outcome final =>
    rw [ran] at failed
    cases outcome with
    | ok value => exact rest value final (wp_run reaches ran) reason failed
    | error other =>
      cases failed
      exact first reason (by rw [ran])

/-- A program that answers without an error fails for no reason. -/
theorem fails_of_answers (answers : Answers handler state (fun _ => False) post p) : p.Fails handler raise state := by
  intro reason failed
  have result := answers.2
  rw [failed] at result
  exact result.elim

/-- A program that answers without an error comes first. -/
theorem fails_answers (answers : Answers handler state (fun _ => False) post p)
    (reaches : p.wp handler allowed middle state) (rest : ∀ value state', middle value state' →
      (f value).Fails handler raise state') : (p >>= f).Fails handler raise state :=
  fails_seq (fails_of_answers answers) reaches rest

/-- Whether it fails or returns, the execution is as stated. -/
def Meets (handler : Handler S σ) (allowed : σ → S.Op → Prop)
    (raise : ε → Prop) (post : α → σ → Prop) (p : Prog S ε α) (state : σ) : Prop :=
  p.Fails handler raise state ∧ p.wp handler allowed post state

theorem meets_perform {post : α → σ → Prop} (permitted : allowed state op)
    (rest : (next (handler op state).1).Meets handler allowed raise post (handler op state).2) :
    (perform op >>= next).Meets handler allowed raise post state :=
  ⟨rest.1, permitted, rest.2⟩

theorem meets_seq {post : β → σ → Prop}
    (first : p.Meets handler allowed raise middle state)
    (rest : ∀ value state', middle value state' → (f value).Meets handler allowed raise post state') :
    (p >>= f).Meets handler allowed raise post state :=
  ⟨fails_seq first.1 first.2 fun value state' reached => (rest value state' reached).1,
    wp_seq first.2 fun value state' reached => (rest value state' reached).2⟩

end ByoriDB.Program.Prog

namespace ByoriDB.Program

export Prog (fails_answers fails_mono fails_perform fails_pure fails_seq meets_seq)

end ByoriDB.Program
