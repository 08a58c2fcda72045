import ByoriDB.Program.Prog

/-! A query leaves the state as it is; what matters is the value it returns or the error it raises. -/

namespace ByoriDB.Program.Prog

open List

variable {S : Signature} {ε α β γ σ : Type} {handler : Handler S σ} {result : Except ε α} {p : Prog S ε α}
  {items : List γ} {f : β → γ → Prog S ε β} {reason : ε}

/-- The value or the error is as stated. -/
def Returns (raise : ε → Prop) (post : α → Prop) : Except ε α → Prop
  | .ok value => post value
  | .error reason => raise reason

@[simp] theorem returns_ok {value : α} : Returns raise post (.ok value) ↔ post value := .rfl

@[simp] theorem returns_pure {value : α} : Returns raise post (Pure.pure value) ↔ post value := .rfl

theorem Returns.imp (returns : Returns raise post result) (errors : ∀ reason, raise reason → raise' reason)
    (values : ∀ value, post value → post' value) : Returns raise' post' result := by
  cases result with
  | ok value => exact values value returns
  | error reason => exact errors reason returns

theorem Returns.mono (returns : Returns raise post result)
    (values : ∀ value, post value → post' value) : Returns raise post' result :=
  returns.imp (fun _ => id) values

theorem Returns.value {value : α} (returns : Returns raise post result) (ok : result = .ok value) : post value := by
  rwa [ok] at returns

theorem Returns.raised (returns : Returns raise post result) (failed : result = .error reason) : raise reason := by
  rwa [failed] at returns

/-- The program leaves the state alone, and the value it returns or the error it
raises is as stated. -/
def Answers (handler : Handler S σ) (state : σ) (raise : ε → Prop) (post : α → Prop) (p : Prog S ε α) : Prop :=
  (p.run handler state).2 = state ∧ match (p.run handler state).1 with
    | .ok value => post value
    | .error reason => raise reason

theorem answers_pure {value : α} (holds : post value) : Answers handler state raise post (Pure.pure value : Prog S ε α) :=
  ⟨rfl, holds⟩

theorem answers_fail (raised : raise reason) : Answers handler state raise post (Prog.fail reason : Prog S ε α) :=
  ⟨rfl, raised⟩

theorem answers_ofExcept (returns : Returns raise post result) :
    Answers handler state raise post (ofExcept result : Prog S ε α) := by
  cases result with
  | ok value => exact answers_pure returns
  | error reason => exact answers_fail returns

theorem answers_perform {op : S.Op} {post : S.Res op → Prop} (reads : (handler op state).2 = state)
    (holds : post (handler op state).1) : Answers handler state raise post (perform op : Prog S ε _) :=
  ⟨reads, holds⟩

theorem answers_bind {f : α → Prog S ε β} {post : β → Prop}
    (first : Answers handler state raise (fun value => Answers handler state raise post (f value)) p) :
    Answers handler state raise post (p >>= f) := by
  obtain ⟨same, result⟩ := first
  rw [Answers, run_bind]
  cases ran : p.run handler state with
  | mk outcome final =>
    rw [ran] at same result
    subst same
    cases outcome with
    | ok value => exact result
    | error reason => exact ⟨rfl, result⟩

theorem answers_mono (answers : Answers handler state raise post p)
    (errors : ∀ reason, raise reason → raise' reason) (values : ∀ value, post value → post' value) :
    Answers handler state raise' post' p := by
  obtain ⟨same, result⟩ := answers
  exact ⟨same, Returns.imp result errors values⟩

theorem answers_imp (answers : Answers handler state raise post p)
    (values : ∀ value, post value → post' value) : Answers handler state raise post' p :=
  answers_mono answers (fun _ => id) values

/-- A program has only one answer. -/
theorem Answers.both (first : Answers handler state raise post p) (second : Answers handler state raise' post' p) :
    Answers handler state raise (fun value => post value ∧ post' value) p := by
  obtain ⟨same, (left : Returns raise post _)⟩ := first
  obtain ⟨-, (right : Returns raise' post' _)⟩ := second
  refine ⟨same, ?_⟩
  cases ran : (p.run handler state).1 with
  | ok value => exact ⟨left.value ran, right.value ran⟩
  | error reason => exact left.raised ran

theorem Answers.exists (answers : Answers handler state (fun _ => False) post p) : ∃ value, post value := by
  obtain ⟨-, (result : Returns (fun _ => False) post _)⟩ := answers
  cases ran : (p.run handler state).1 with
  | ok value => exact ⟨value, result.value ran⟩
  | error reason => exact (result.raised ran).elim

theorem answers_seq {f : α → Prog S ε β} {post' : β → Prop}
    (first : Answers handler state raise post p) (rest : ∀ value, post value →
      Answers handler state raise post' (f value)) : Answers handler state raise post' (p >>= f) :=
  answers_bind (answers_imp first rest)

theorem answers_of_only {permits : S.Op → Prop} (only : p.Only permits)
    (reads : ∀ op, permits op → (handler op state).2 = state) : Answers handler state (fun _ => True) (fun _ => True) p := by
  induction p with
  | pure value => exact answers_pure trivial
  | fail reason => exact answers_fail trivial
  | call op next ih =>
    refine answers_bind (p := perform op) (answers_perform (reads op only.1) (ih _ (only.2 _)))

/-- A loop keeps a relation between the items still to come and the accumulator. -/
theorem answers_foldlM {acc : β} (loop : List γ → β → Prop) (holds : loop items acc)
    (step : ∀ item rest acc, loop (item :: rest) acc → Answers handler state raise (loop rest) (f acc item)) :
    Answers handler state raise (loop []) (items.foldlM f acc) := by
  induction items generalizing acc with
  | nil => exact answers_pure holds
  | cons item rest ih =>
    exact answers_seq (step item rest acc holds) fun _ kept => ih kept

/-- A loop over distinct items, by what holds of the accumulator when some of them are done. -/
theorem answers_foldlM_done {acc : β} (valid : (γ → Prop) → β → Prop) (distinct : items.Nodup)
    (start : valid (fun _ => False) acc)
    (step : ∀ item ∈ items, ∀ done acc, ¬ done item → valid done acc →
      Answers handler state raise (valid fun other => other = item ∨ done other) (f acc item)) :
    Answers handler state raise (valid (· ∈ items)) (items.foldlM f acc) := by
  refine answers_imp (answers_foldlM (fun rest acc =>
    rest.Nodup ∧ (∀ item ∈ rest, item ∈ items) ∧ valid (fun item => item ∈ items ∧ item ∉ rest) acc) ?_ ?_) ?_
  · exact ⟨distinct, fun _ => id, by simpa using start⟩
  · rintro item rest acc ⟨distinct', among, holds⟩
    obtain ⟨apart, distinct'⟩ := nodup_cons.mp distinct'
    refine answers_imp (step item (among item (.head _)) _ acc (by simp) holds) ?_
    intro acc' holds'
    refine ⟨distinct', fun other mem => among other (.tail _ mem), ?_⟩
    have same : (fun other => other = item ∨ other ∈ items ∧ other ∉ item :: rest) = fun other =>
      other ∈ items ∧ other ∉ rest := by
      funext other
      rw [eq_iff_iff, mem_cons]
      constructor
      · rintro (rfl | ⟨mem, later⟩)
        · exact ⟨among other (.head _), apart⟩
        · exact ⟨mem, by tauto⟩
      · rintro ⟨mem, later⟩
        tauto
    exact same ▸ holds'
  · rintro acc ⟨-, -, holds⟩
    simpa using holds

theorem answers_mapM {f : γ → Prog S ε β} (relates : γ → β → Prop)
    (each : ∀ item ∈ items, Answers handler state raise (relates item) (f item)) :
    Answers handler state raise (Forall₂ relates items) (items.mapM f) := by
  induction items with
  | nil => exact answers_pure .nil
  | cons item rest ih =>
    rw [mapM_cons]
    refine answers_seq (each item (.head _)) fun value holds => ?_
    refine answers_seq (ih fun other mem => each other (.tail _ mem)) fun values hold => ?_
    exact answers_pure (.cons holds hold)

/-- What each item yields, one after the other. -/
theorem answers_concat {f : γ → Prog S ε (List β)} {acc : List β} (relates : γ → List β → Prop)
    (each : ∀ item ∈ items, Answers handler state raise (relates item) (f item)) :
    Answers handler state raise (fun result => ∃ parts, Forall₂ relates items parts ∧ result = acc ++ parts.flatten)
      (items.foldlM (fun acc item => do pure (acc ++ (← f item))) acc) := by
  induction items generalizing acc with
  | nil => exact answers_pure ⟨[], .nil, by simp⟩
  | cons item rest ih =>
    refine answers_bind (answers_seq (each item (.head _)) fun part holds => answers_pure ?_)
    refine answers_imp (ih fun other mem => each other (.tail _ mem)) ?_
    rintro _ ⟨parts, hold, rfl⟩
    exact ⟨part :: parts, .cons holds hold, by simp⟩

theorem answers_forM {f : γ → Prog S ε PUnit}
    (each : ∀ item ∈ items, Answers handler state raise (fun _ => True) (f item)) :
    Answers handler state raise (fun _ => True) (items.forM f) := by
  induction items with
  | nil => exact answers_pure trivial
  | cons item rest ih =>
    exact answers_seq (each item (.head _)) fun _ _ => ih fun other mem => each other (.tail _ mem)

/-- The program fails exactly when the condition does not hold. -/
def Checks (handler : Handler S σ) (state : σ) (ok : Prop) (p : Prog S ε PUnit) : Prop :=
  Answers handler state (fun _ => ¬ ok) (fun _ => ok) p

theorem checks_congr {ok ok' : Prop} {p : Prog S ε PUnit} (same : ok ↔ ok')
    (checks : Checks handler state ok p) : Checks handler state ok' p :=
  propext same ▸ checks

theorem checks_seq {ok ok' : Prop} {p q : Prog S ε PUnit} (first : Checks handler state ok p)
    (second : Checks handler state ok' q) : Checks handler state (ok ∧ ok') (p >>= fun _ => q) := by
  refine answers_bind (answers_mono first (fun _ refused both => refused both.1) fun _ holds => ?_)
  exact answers_mono second (fun _ refused both => refused both.2) fun _ holds' => ⟨holds, holds'⟩

theorem checks_forM {f : γ → Prog S ε PUnit} (ok : γ → Prop)
    (each : ∀ item ∈ items, Checks handler state (ok item) (f item)) :
    Checks handler state (∀ item ∈ items, ok item) (items.forM f) := by
  induction items with
  | nil => exact answers_pure (by simp)
  | cons item rest ih =>
    exact checks_congr forall_mem_cons.symm (checks_seq (each item (.head _)) (ih fun other mem => each other (.tail _ mem)))

theorem Returns.bind {f : α → Except ε β} {post' : β → Prop} (returns : Returns raise post result)
    (rest : ∀ value, post value → Returns raise post' (f value)) : Returns raise post' (result >>= f) := by
  cases result with
  | ok value => exact rest value returns
  | error reason => exact returns

end ByoriDB.Program.Prog

namespace ByoriDB.Program

export Prog (answers_bind answers_fail answers_foldlM answers_foldlM_done answers_imp answers_mapM answers_mono
  answers_ofExcept answers_pure answers_seq checks_forM)

end ByoriDB.Program
