import Mathlib.Data.List.Forall2
import Mathlib.Logic.Relation

/-! A program performs operations of a signature one after the other and either returns a value or fails.
Every operation is one atomic step, so an execution may be cut off at the states of `Prog.visited`.
`Prog.wp` carries a condition on each of these states next to the condition on the result. -/

namespace ByoriDB.Program

open List

structure Signature where
  Op : Type
  Res : Op → Type

inductive Prog (S : Signature) (ε α : Type) where
  | pure (value : α)
  | fail (reason : ε)
  | call (op : S.Op) (next : S.Res op → Prog S ε α)

/-- What each operation answers, and the state it leaves behind. -/
abbrev Handler (S : Signature) (σ : Type) := (op : S.Op) → σ → S.Res op × σ

variable {S : Signature} {ε α β γ σ τ : Type} {p : Prog S ε α} {state : σ} {f : α → Prog S ε β} {raise : ε → Prop}
  {allowed' : σ → S.Op → Prop} {middle : α → σ → Prop} {value : α}

namespace Prog

def bind : Prog S ε α → (α → Prog S ε β) → Prog S ε β
  | .pure value, f => f value
  | .fail reason, _ => .fail reason
  | .call op next, f => .call op fun result => (next result).bind f

instance : Monad (Prog S ε) where
  pure := .pure
  bind := .bind

/-- A single operation, as a program that returns its answer. -/
def perform (op : S.Op) : Prog S ε (S.Res op) :=
  .call op .pure

def ofExcept : Except ε α → Prog S ε α
  | .ok value => .pure value
  | .error reason => .fail reason

@[simp] theorem pure_bind_eq (value : α) (f : α → Prog S ε β) : ((Pure.pure value : Prog S ε α) >>= f) = f value := rfl

@[simp] theorem fail_bind_eq (f : α → Prog S ε β) : ((Prog.fail reason : Prog S ε α) >>= f) = .fail reason := rfl

@[simp] theorem call_bind_eq (op : S.Op) (next : S.Res op → Prog S ε α)
    (f : α → Prog S ε β) :
    ((Prog.call op next) >>= f) = .call op fun result => next result >>= f := rfl

@[simp] theorem perform_bind_eq (op : S.Op) (f : S.Res op → Prog S ε β) :
    ((perform op : Prog S ε _) >>= f) = .call op f := rfl

theorem bind_pure_eq (p : Prog S ε α) : p >>= Pure.pure = p := by
  induction p with
  | pure value => rfl
  | fail reason => rfl
  | call op next ih =>
    simp [ih]

theorem bind_assoc_eq (p : Prog S ε α) (f : α → Prog S ε β) (g : β → Prog S ε γ) :
    p >>= f >>= g = p >>= fun value => f value >>= g := by
  induction p with
  | pure value => rfl
  | fail reason => rfl
  | call op next ih =>
    simp [ih]

instance : LawfulMonad (Prog S ε) :=
  LawfulMonad.mk' (Prog S ε) bind_pure_eq (fun _ _ => rfl) bind_assoc_eq

def run (handler : Handler S σ) : Prog S ε α → σ → Except ε α × σ
  | .pure value, state => (.ok value, state)
  | .fail reason, state => (.error reason, state)
  | .call op next, state =>
    let (result, state') := handler op state
    (next result).run handler state'

/-- The states before, between and after the operations of an execution. -/
def visited (handler : Handler S σ) : Prog S ε α → σ → List σ
  | .pure _, state => [state]
  | .fail _, state => [state]
  | .call op next, state =>
    let (result, state') := handler op state
    state :: (next result).visited handler state'

/-- The operations an execution performs, in order. -/
def trace (handler : Handler S σ) : Prog S ε α → σ → List S.Op
  | .pure _, _ => []
  | .fail _, _ => []
  | .call op next, state =>
    let (result, state') := handler op state
    op :: (next result).trace handler state'

variable {handler : Handler S σ} {inv : σ → Prop} {post' : α → σ → Prop} {items : List γ} {op : S.Op} {τ : Type}
  {related : τ → σ → Prop} {view : S.Op → Option τ} {concrete : Handler S τ} {reason : ε}

@[simp] theorem run_pure : (Pure.pure value : Prog S ε α).run handler state = (.ok value, state) := rfl

@[simp] theorem run_fail : (Prog.fail reason : Prog S ε α).run handler state = (.error reason, state) := rfl

@[simp] theorem run_call (op : S.Op) (next : S.Res op → Prog S ε α) : (Prog.call op next).run handler state =
      (next (handler op state).1).run handler (handler op state).2 := rfl

theorem run_bind (p : Prog S ε α) (f : α → Prog S ε β) : (p >>= f).run handler state = match p.run handler state with
      | (.ok value, state') => (f value).run handler state'
      | (.error reason, state') => (.error reason, state') := by
  induction p generalizing state with
  | pure value => rfl
  | fail reason => rfl
  | call op next ih =>
    simp [ih]

theorem ran_of_isOk (succeeds : (p.run handler state).1.isOk = true) :
    ∃ value, p.run handler state = (.ok value, (p.run handler state).2) := by
  cases result : (p.run handler state).1 with
  | ok value => exact ⟨value, Prod.ext result rfl⟩
  | error reason =>
    rw [result] at succeeds
    cases succeeds

theorem run_mem_visited (p : Prog S ε α) (state : σ) : (p.run handler state).2 ∈ p.visited handler state := by
  induction p generalizing state with
  | pure value => simp [run, visited]
  | fail reason => simp [run, visited]
  | call op next ih =>
    exact mem_cons_of_mem _ (ih _ _)

theorem self_mem_visited (p : Prog S ε α) : state ∈ p.visited handler state := by
  cases p <;> simp [visited]

/-- The operations along one branch of a program, up to some point, for answers
that may be anything. -/
inductive Path : Prog S ε α → List S.Op → Prop where
  | stop (p : Prog S ε α) : Path p []
  | step {op : S.Op} {next : S.Res op → Prog S ε α} {result : S.Res op} {ops : List S.Op}
      (rest : Path (next result) ops) : Path (.call op next) (op :: ops)

/-- No branch of the program ends with this error. -/
def Avoids (reason : ε) : Prog S ε α → Prop
  | .pure _ => True
  | .fail reason' => reason' ≠ reason
  | .call op next => ∀ result : S.Res op, (next result).Avoids reason

theorem avoids_bind
    (first : p.Avoids reason) (rest : ∀ value, (f value).Avoids reason) :
    (p >>= f).Avoids reason := by
  induction p with
  | pure value => exact rest value
  | fail reason' => exact first
  | call op next ih => exact fun result => ih result (first result)

/-- Along every branch, what `view` sees of the operations is an initial part of
this list. -/
def Emits {τ : Type} (view : S.Op → Option τ) : List τ → Prog S ε α → Prop
  | _, .pure _ => True
  | _, .fail _ => True
  | items, .call op next =>
    match view op with
    | none => ∀ result : S.Res op, (next result).Emits view items
    | some item => ∃ rest, items = item :: rest ∧ ∀ result : S.Res op, (next result).Emits view rest

theorem emits_bind {items : List τ} (first : p.Emits view [])
    (rest : ∀ value, (f value).Emits view items) : (p >>= f).Emits view items := by
  induction p with
  | pure value => exact rest value
  | fail reason => trivial
  | call op next ih =>
    simp only [Emits, call_bind_eq] at first ⊢
    cases seen : view op with
    | none =>
      rw [seen] at first
      exact fun result => ih result (first result)
    | some item =>
      rw [seen] at first
      obtain ⟨_, impossible, _⟩ := first
      exact absurd impossible (by simp)

theorem emits_unseen {items : List τ}
    {f : S.Res op → Prog S ε β} (unseen : view op = none)
    (rest : ∀ result, (f result).Emits view items) :
    (perform op >>= f).Emits view items := by
  rw [perform_bind_eq, Emits, unseen]
  exact rest

theorem emits_seen {item : τ} {items : List τ}
    {f : S.Res op → Prog S ε β} (seen : view op = some item)
    (rest : ∀ result, (f result).Emits view items) :
    (perform op >>= f).Emits view (item :: items) := by
  rw [perform_bind_eq, Emits, seen]
  exact ⟨items, rfl, rest⟩

theorem Path.emitted {items : List τ}
    {ops : List S.Op} (path : Path p ops) (emits : p.Emits view items) :
    ops.filterMap view <+: items := by
  induction path generalizing items with
  | stop p => exact List.nil_prefix
  | step rest ih =>
    rename_i op next result ops
    simp only [Emits] at emits
    cases seen : view op with
    | none =>
      rw [seen] at emits
      rw [filterMap_cons_none seen]
      exact ih (emits result)
    | some item =>
      rw [seen] at emits
      obtain ⟨others, rfl, continues⟩ := emits
      rw [filterMap_cons_some seen]
      exact prefix_cons_inj item |>.mpr (ih (continues result))

/-- Every operation along every branch is one that `permits` admits. -/
def Only (permits : S.Op → Prop) : Prog S ε α → Prop
  | .pure _ => True
  | .fail _ => True
  | .call op next => permits op ∧ ∀ result : S.Res op, (next result).Only permits

section

@[simp] theorem only_pure : (Pure.pure value : Prog S ε α).Only permits := trivial

@[simp] theorem only_fail : (Prog.fail reason : Prog S ε α).Only permits := trivial

theorem only_perform (permitted : permits op) : (perform op : Prog S ε _).Only permits :=
  ⟨permitted, fun _ => trivial⟩

theorem only_bind (first : p.Only permits)
    (rest : ∀ value, (f value).Only permits) : (p >>= f).Only permits := by
  induction p with
  | pure value => exact rest value
  | fail reason => trivial
  | call op next ih => exact ⟨first.1, fun result => ih result (first.2 result)⟩

@[simp] theorem only_ofExcept (result : Except ε α) : (ofExcept result : Prog S ε α).Only permits := by
  cases result <;> trivial

theorem only_foldlM {f : β → γ → Prog S ε β} (items : List γ) (acc : β)
    (step : ∀ acc, ∀ item ∈ items, (f acc item).Only permits) : (items.foldlM f acc).Only permits := by
  induction items generalizing acc with
  | nil => trivial
  | cons item rest ih =>
    exact only_bind (step acc item mem_cons_self) fun acc' =>
      ih acc' fun acc other mem => step acc other (mem_cons_of_mem _ mem)

theorem only_mapM {f : γ → Prog S ε β} (items : List γ)
    (step : ∀ item ∈ items, (f item).Only permits) : (items.mapM f).Only permits := by
  induction items with
  | nil => trivial
  | cons item rest ih =>
    rw [mapM_cons]
    exact only_bind (step item mem_cons_self) fun _ =>
      only_bind (ih fun other mem => step other (mem_cons_of_mem _ mem)) fun _ => trivial

theorem only_forM {f : γ → Prog S ε PUnit} (items : List γ)
    (step : ∀ item ∈ items, (f item).Only permits) : (items.forM f).Only permits := by
  induction items with
  | nil => trivial
  | cons item rest ih =>
    exact only_bind (step item mem_cons_self) fun _ =>
      ih fun other mem => step other (mem_cons_of_mem _ mem)

theorem only_mono {permits' : S.Op → Prop} (only : p.Only permits)
    (weaken : ∀ op, permits op → permits' op) : p.Only permits' := by
  induction p with
  | pure value => trivial
  | fail reason => trivial
  | call op next ih => exact ⟨weaken op only.1, fun result => ih result (only.2 result)⟩

end

def wp (handler : Handler S σ) (allowed : σ → S.Op → Prop) (post : α → σ → Prop) : Prog S ε α → σ → Prop
  | .pure value, state => post value state
  | .fail _, _ => True
  | .call op next, state =>
    allowed state op ∧ (next (handler op state).1).wp handler allowed post (handler op state).2

@[simp] theorem wp_pure : (Pure.pure value : Prog S ε α).wp handler allowed post state ↔ post value state := Iff.rfl

@[simp] theorem wp_fail : (Prog.fail reason : Prog S ε α).wp handler allowed post state := trivial

@[simp] theorem wp_call {next : S.Res op → Prog S ε α} : (Prog.call op next).wp handler allowed post state ↔
      allowed state op ∧ (next (handler op state).1).wp handler allowed post (handler op state).2 :=
  Iff.rfl

theorem wp_run {final : σ}
    (holds : p.wp handler allowed post state) (ran : p.run handler state = (.ok value, final)) :
    post value final := by
  induction p generalizing state with
  | pure result =>
    cases ran
    exact holds
  | fail reason => cases ran
  | call op next ih => exact ih _ holds.2 ran

/-- What every permitted operation keeps holds wherever the execution stops. -/
theorem wp_visited {reached : σ}
    (holds : p.wp handler allowed post state)
    (keeps : ∀ state op, allowed state op → inv state → inv (handler op state).2)
    (start : inv state) (mem : reached ∈ p.visited handler state) : inv reached := by
  induction p generalizing state with
  | pure value =>
    rw [visited, mem_singleton] at mem
    exact mem ▸ start
  | fail reason =>
    rw [visited, mem_singleton] at mem
    exact mem ▸ start
  | call op next ih =>
    simp only [visited, mem_cons] at mem
    rcases mem with rfl | later
    · exact start
    · exact ih _ holds.2 (keeps state op holds.1 start) later

theorem wp_mono
    (holds : p.wp handler allowed post state)
    (weakenAllowed : ∀ state op, allowed state op → allowed' state op)
    (weakenPost : ∀ value final, post value final → post' value final) :
    p.wp handler allowed' post' state := by
  induction p generalizing state with
  | pure value => exact weakenPost _ _ holds
  | fail reason => trivial
  | call op next ih => exact ⟨weakenAllowed _ _ holds.1, ih _ holds.2⟩

/-- A weaker condition on the result. -/
theorem wp_imp (holds : p.wp handler allowed post state)
    (weaken : ∀ value final, post value final → post' value final) : p.wp handler allowed post' state :=
  wp_mono holds (fun _ _ permitted => permitted) weaken

theorem wp_trivial (p : Prog S ε α) (state : σ) : p.wp handler (fun _ _ => True) (fun _ _ => True) state := by
  induction p generalizing state with
  | pure value => trivial
  | fail reason => trivial
  | call op next ih => exact ⟨trivial, ih _ _⟩

/-- What a program answers is the result of its own execution. -/
theorem wp_ran (holds : p.wp handler allowed post state) : p.wp handler allowed
      (fun value final => post value final ∧ p.run handler state = (.ok value, final)) state := by
  induction p generalizing state with
  | pure value => exact ⟨holds, rfl⟩
  | fail reason => trivial
  | call op next ih => exact ⟨holds.1, ih _ holds.2⟩

/-- Carry an invariant that the permitted operations keep through a proof. -/
theorem wp_with
    (holds : p.wp handler allowed post state)
    (keeps : ∀ state op, allowed state op → inv state → inv (handler op state).2)
    (start : inv state) :
    p.wp handler (fun state op => allowed state op ∧ inv state)
      (fun value final => post value final ∧ inv final) state := by
  induction p generalizing state with
  | pure value => exact ⟨holds, start⟩
  | fail reason => trivial
  | call op next ih => exact ⟨⟨holds.1, start⟩, ih _ holds.2 (keeps _ _ holds.1 start)⟩

theorem wp_bind {post : β → σ → Prop} : (p >>= f).wp handler allowed post state ↔
      p.wp handler allowed (fun value state' => (f value).wp handler allowed post state') state := by
  induction p generalizing state with
  | pure value => exact Iff.rfl
  | fail reason => exact Iff.rfl
  | call op next ih => simp [ih]

/-- Chain a proved program with its continuation. -/
theorem wp_seq
    {post : β → σ → Prop}
    (first : p.wp handler allowed middle state)
    (rest : ∀ value state', middle value state' → (f value).wp handler allowed post state') :
    (p >>= f).wp handler allowed post state :=
  wp_bind.mpr (wp_mono first (fun _ _ permitted => permitted) rest)

/-- Chain a proved program with its continuation, and hand on what the permitted
operations keep. -/
theorem wp_seq_with {post : β → σ → Prop} (keeps : ∀ state op, allowed state op → inv state →
      inv (handler op state).2) (start : inv state) (first : p.wp handler allowed middle state)
    (rest : ∀ value state', middle value state' → inv state' →
      (f value).wp handler allowed post state') : (p >>= f).wp handler allowed post state :=
  wp_bind.mpr (wp_mono (wp_with first keeps start) (fun _ _ permitted => permitted.1)
    fun value state' reached => rest value state' reached.1 reached.2)

/-- Two proofs about one execution give both conditions on its result. -/
theorem wp_and
    (first : p.wp handler allowed post state) (second : p.wp handler allowed' post' state) :
    p.wp handler allowed (fun value final => post value final ∧ post' value final) state := by
  induction p generalizing state with
  | pure value => exact ⟨first, second⟩
  | fail reason => trivial
  | call op next ih => exact ⟨first.1, ih _ first.2 second.2⟩

/-- The same, with a relation that the permitted operations keep to the state at
the start. -/
theorem wp_of_only_with {permits : S.Op → Prop} (only : p.Only permits)
    (permitted : ∀ state op, permits op → inv state → allowed state op)
    (keeps : ∀ state op, permits op → inv state → inv (handler op state).2) (start : inv state) :
    p.wp handler allowed (fun _ final => inv final) state := by
  induction p generalizing state with
  | pure value => exact start
  | fail reason => trivial
  | call op next ih =>
    exact ⟨permitted state op only.1 start, ih _ (only.2 _) (keeps state op only.1 start)⟩

@[simp] theorem wp_ofExcept {result : Except ε α} : (ofExcept result : Prog S ε α).wp handler allowed post state ↔
      ∀ value, result = .ok value → post value state := by
  cases result <;> simp [ofExcept, wp]

/-- When the execution fails, it is with an error that `raise` admits. -/
def FailsOnly (handler : Handler S σ) (raise : ε → Prop) (p : Prog S ε α) (state : σ) : Prop :=
  ∀ reason final, p.run handler state = (.error reason, final) → raise reason

theorem failsOnly_pure : FailsOnly handler raise (Pure.pure value : Prog S ε α) state := by
  intro reason final failed
  cases failed

theorem failsOnly_perform : FailsOnly handler raise (perform op : Prog S ε _) state := by
  intro reason final failed
  cases failed

theorem failsOnly_bind (first : FailsOnly handler raise p state)
    (rest : ∀ value final, p.run handler state = (.ok value, final) →
      FailsOnly handler raise (f value) final) : FailsOnly handler raise (p >>= f) state := by
  intro reason final failed
  rw [run_bind] at failed
  cases ran : p.run handler state with
  | mk result middle =>
    rw [ran] at failed
    cases result with
    | error reason' =>
      cases failed
      exact first _ _ ran
    | ok value => exact rest value middle ran reason final failed

theorem failsOnly_seq
    (first : FailsOnly handler raise p state) (holds : p.wp handler allowed post state)
    (rest : ∀ value final, post value final → FailsOnly handler raise (f value) final) :
    FailsOnly handler raise (p >>= f) state :=
  failsOnly_bind first fun value final ran => rest value final (wp_run holds ran)

/-- Two handlers that answer alike on related states, for the operations that an
execution under the second one performs, give related executions. -/
theorem run_related {state' : τ} (holds : p.wp handler allowed post state)
    (step : ∀ state' state op, related state' state → allowed state op → (concrete op state').1 =
      (handler op state).1 ∧ related (concrete op state').2 (handler op state).2)
    (start : related state' state) : (p.run concrete state').1 = (p.run handler state).1 ∧
      related (p.run concrete state').2 (p.run handler state).2 := by
  induction p generalizing state state' with
  | pure value => exact ⟨rfl, start⟩
  | fail reason => exact ⟨rfl, start⟩
  | call op next ih =>
    obtain ⟨answer, related'⟩ := step _ _ op start holds.1
    rw [run_call, run_call, answer]
    exact ih _ holds.2 related'

theorem visited_related {state' reached : τ} (holds : p.wp handler allowed post state)
    (step : ∀ state' state op, related state' state → allowed state op → (concrete op state').1 =
      (handler op state).1 ∧ related (concrete op state').2 (handler op state).2)
    (start : related state' state) (mem : reached ∈ p.visited concrete state') :
    ∃ counterpart ∈ p.visited handler state, related reached counterpart := by
  induction p generalizing state state' with
  | pure value =>
    rw [visited, mem_singleton] at mem
    exact ⟨state, self_mem_visited _, mem ▸ start⟩
  | fail reason =>
    rw [visited, mem_singleton] at mem
    exact ⟨state, self_mem_visited _, mem ▸ start⟩
  | call op next ih =>
    simp only [visited, mem_cons] at mem
    rcases mem with rfl | later
    · exact ⟨state, self_mem_visited _, start⟩
    · obtain ⟨answer, related'⟩ := step _ _ op start holds.1
      rw [answer] at later
      obtain ⟨counterpart, listed, kept⟩ := ih _ holds.2 related' later
      exact ⟨counterpart, mem_cons_of_mem _ listed, kept⟩

/-- A loop keeps a relation between the items still to come, the accumulator
and the state. -/
theorem wp_foldlM {f : β → γ → Prog S ε β} {acc : β}
    (loop : List γ → β → σ → Prop)
    (step : ∀ item rest acc state, loop (item :: rest) acc state →
      (f acc item).wp handler allowed (fun acc' state' => loop rest acc' state') state)
    (start : loop items acc state) :
    (items.foldlM f acc).wp handler allowed (fun acc' state' => loop [] acc' state') state := by
  induction items generalizing acc state with
  | nil => exact start
  | cons item rest ih =>
    exact wp_seq (step item rest acc state start) fun acc' state' kept => ih kept

/-- A loop over programs that leave the state as it is. -/
theorem wp_mapM {f : γ → Prog S ε β} (relates : γ → β → Prop)
    (step : ∀ item ∈ items, (f item).wp handler allowed (fun result state' => state' = state ∧
      relates item result) state) : (items.mapM f).wp handler allowed
      (fun results state' => state' = state ∧ Forall₂ relates items results) state := by
  induction items with
  | nil => exact ⟨rfl, .nil⟩
  | cons item rest ih =>
    rw [mapM_cons]
    refine wp_seq (step item mem_cons_self) ?_
    rintro result _ ⟨rfl, related⟩
    refine wp_seq (ih fun other mem => step other (mem_cons_of_mem _ mem)) ?_
    rintro results _ ⟨rfl, others⟩
    exact ⟨rfl, .cons related others⟩

theorem wp_forM {f : γ → Prog S ε PUnit} (loop : List γ → σ → Prop)
    (step : ∀ item rest state, loop (item :: rest) state →
      (f item).wp handler allowed (fun _ state' => loop rest state') state)
    (start : loop items state) :
    (items.forM f).wp handler allowed (fun _ state' => loop [] state') state := by
  induction items generalizing state with
  | nil => exact start
  | cons item rest ih =>
    exact wp_seq (step item rest state start) fun _ state' kept => ih kept

/-- A loop that checks its items and leaves the state as it is. -/
theorem wp_forM_each {f : γ → Prog S ε PUnit} (checked : γ → Prop)
    (step : ∀ item, (f item).wp handler allowed (fun _ state' => state' = state ∧ checked item) state) :
    (items.forM f).wp handler allowed (fun _ state' => state' = state ∧ ∀ item ∈ items, checked item) state := by
  induction items with
  | nil => exact ⟨rfl, by simp⟩
  | cons item rest ih =>
    refine wp_seq (step item) ?_
    rintro _ _ ⟨rfl, first⟩
    refine wp_mono ih (fun _ _ permitted => permitted) ?_
    rintro _ _ ⟨rfl, others⟩
    exact ⟨rfl, forall_mem_cons.mpr ⟨first, others⟩⟩

end Prog

theorem bind_eq_ok {ε α β : Type} {first : Except ε α} {rest : α → Except ε β} {result : β}
    (succeeded : first >>= rest = .ok result) : ∃ value, first = .ok value ∧ rest value = .ok result := by
  cases first with
  | error reason => exact absurd succeeded (by simp [bind, Except.bind])
  | ok value => exact ⟨value, rfl, succeeded⟩

theorem bind_eq_error {ε α β : Type} {first : Except ε α} {rest : α → Except ε β} {reason : ε}
    (failed : first >>= rest = .error reason) :
    first = .error reason ∨ ∃ value, first = .ok value ∧ rest value = .error reason := by
  cases first with
  | error other =>
    left
    exact congrArg _ (by simpa [bind, Except.bind] using failed)
  | ok value => exact .inr ⟨value, rfl, failed⟩

theorem mapM_ok {ε α β : Type} {f : α → Except ε β} {items : List α} (each : ∀ item ∈ items, ∃ result, f item = .ok result) :
    ∃ results, items.mapM f = .ok results := by
  induction items with
  | nil => exact ⟨[], rfl⟩
  | cons item rest ih =>
    obtain ⟨⟨result, first⟩, later⟩ := forall_mem_cons.mp each
    obtain ⟨results, all⟩ := ih later
    exact ⟨result :: results, by simp [first, all, bind, Except.bind, pure, Except.pure]⟩

theorem mem_of_mapM_ok {ε α β : Type} {f : α → Except ε β} {items : List α} {results : List β}
    (ran : items.mapM f = .ok results) :
    (∀ item ∈ items, ∃ result, f item = .ok result) ∧
      ∀ result, result ∈ results ↔ ∃ item ∈ items, f item = .ok result := by
  induction items generalizing results with
  | nil =>
    cases ran
    simp
  | cons item rest ih =>
    rw [mapM_cons] at ran
    obtain ⟨result, first, ran⟩ := bind_eq_ok ran
    obtain ⟨results, others, ran⟩ := bind_eq_ok ran
    cases ran
    obtain ⟨defined, listed⟩ := ih others
    constructor
    · rw [forall_mem_cons]
      exact ⟨⟨result, first⟩, defined⟩
    · intro other
      simp [listed, first, eq_comm]

export Prog (avoids_bind bind_assoc_eq emits_unseen failsOnly_bind failsOnly_perform failsOnly_pure
  failsOnly_seq ofExcept only_bind only_foldlM only_forM only_ofExcept only_perform pure_bind_eq ran_of_isOk run_mem_visited
  run_related wp_and wp_bind wp_foldlM wp_imp wp_mono wp_ofExcept wp_of_only_with wp_pure wp_ran wp_run wp_seq wp_seq_with
  wp_with)

end ByoriDB.Program
