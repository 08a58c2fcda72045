import Mathlib.Logic.Basic

namespace ByoriDB.Data

structure Rules (τ : Type) where
  unary : τ → τ → Prop
  binary : τ → τ → τ → Prop

namespace Rules

variable {τ : Type}

/-- The least set with the base facts that the rules close. -/
inductive Closure (rules : Rules τ) (base : τ → Prop) : τ → Prop where
  | base {fact : τ} (given : base fact) : Closure rules base fact
  | unary {fact result : τ} (premise : Closure rules base fact) (rule : rules.unary fact result) :
      Closure rules base result
  | binary {first second result : τ} (left : Closure rules base first) (right : Closure rules base second)
      (rule : rules.binary first second result) : Closure rules base result

/-- What follows from a fact and the stored facts in one step. -/
def Follows (rules : Rules τ) (stored : τ → Prop) (fact result : τ) : Prop :=
  rules.unary fact result ∨ ∃ other, stored other ∧ (rules.binary fact other result ∨ rules.binary other fact result)

/-- Where an evaluation stands: the facts it has stored and those it has taken. -/
structure Progress (rules : Rules τ) (base stored taken : τ → Prop) : Prop where
  complete : ∀ fact, base fact → stored fact
  sound : ∀ fact, stored fact → rules.Closure base fact
  takenStored : ∀ fact, taken fact → stored fact
  unary : ∀ fact result, taken fact → rules.unary fact result → stored result
  binary : ∀ first second result, taken first → taken second → rules.binary first second result → stored result

variable {rules : Rules τ} {stored : τ → Prop}

theorem Progress.start (rules : Rules τ) (same : ∀ fact, stored fact ↔ base fact) :
    rules.Progress base stored fun _ => False where
  complete fact given := (same fact).mpr given
  sound fact held := .base ((same fact).mp held)
  takenStored _ impossible := impossible.elim
  unary _ _ impossible := impossible.elim
  binary _ _ _ impossible := impossible.elim

theorem follows_sound {fact result : τ} (progress : rules.Progress base stored taken) (held : stored fact)
    (follows : rules.Follows stored fact result) : rules.Closure base result := by
  rcases follows with rule | ⟨other, otherHeld, rule | rule⟩
  · exact .unary (progress.sound fact held) rule
  · exact .binary (progress.sound fact held) (progress.sound other otherHeld) rule
  · exact .binary (progress.sound other otherHeld) (progress.sound fact held) rule

/-- Taking a stored fact adds exactly what follows from it. -/
theorem Progress.take {fact : τ} (progress : rules.Progress base stored taken) (held : stored fact)
    (grown : ∀ result, stored' result ↔ stored result ∨ rules.Follows stored fact result) :
    rules.Progress base stored' fun other => taken other ∨ other = fact where
  complete other given := (grown other).mpr (.inl (progress.complete other given))
  sound other held' := by
    rcases (grown other).mp held' with old | follows
    · exact progress.sound other old
    · exact follows_sound progress held follows
  takenStored other was := by
    rcases was with old | rfl
    · exact (grown other).mpr (.inl (progress.takenStored other old))
    · exact (grown other).mpr (.inl held)
  unary other result was rule := by
    rcases was with old | rfl
    · exact (grown result).mpr (.inl (progress.unary other result old rule))
    · exact (grown result).mpr (.inr (.inl rule))
  binary first second result wasFirst wasSecond rule := by
    -- The fact just taken meets every fact taken before, and itself.
    rcases wasFirst with oldFirst | rfl
    · rcases wasSecond with oldSecond | rfl
      · exact (grown result).mpr (.inl (progress.binary first second result oldFirst oldSecond rule))
      · exact (grown result).mpr (.inr (.inr ⟨first, progress.takenStored first oldFirst, .inr rule⟩))
    · rcases wasSecond with oldSecond | rfl
      · exact (grown result).mpr (.inr (.inr ⟨second, progress.takenStored second oldSecond, .inl rule⟩))
      · exact (grown result).mpr (.inr (.inr ⟨second, held, .inl rule⟩))

theorem Progress.finish (progress : rules.Progress base stored taken) (all : ∀ fact, stored fact → taken fact)
    (fact : τ) : stored fact ↔ rules.Closure base fact := by
  constructor
  · exact progress.sound fact
  · intro derived
    induction derived with
    | base given => exact progress.complete _ given
    | unary _ rule held => exact progress.unary _ _ (all _ held) rule
    | binary _ _ rule heldLeft heldRight => exact progress.binary _ _ _ (all _ heldLeft) (all _ heldRight) rule

end Rules

/-- Where the record of the applications stands. -/
structure Recording {τ ω : Type} (applies : List τ → ω → Prop) (stored taken : τ → Prop) (recorded : ω → Prop) : Prop where
  sound : ∀ outcome, recorded outcome → ∃ premises, applies premises outcome ∧ ∀ fact ∈ premises, stored fact
  complete : ∀ premises outcome, applies premises outcome → (∀ fact ∈ premises, taken fact) → recorded outcome

namespace Recording

variable {τ ω : Type} {applies : List τ → ω → Prop} {stored : τ → Prop}

theorem start (grounded : ∀ outcome, ¬ applies [] outcome) : Recording applies stored (fun _ => False) fun _ => False where
  sound _ impossible := impossible.elim
  complete premises outcome application all := by
    cases premises with
    | nil => exact grounded outcome application
    | cons fact _ => exact all fact (.head _)

theorem take {fact : τ} (recording : Recording applies stored taken recorded) (grown : ∀ other, stored other → stored' other)
    (held : ∀ other, taken other ∨ other = fact → stored other)
    (more : ∀ outcome, recorded' outcome ↔ recorded outcome ∨
      ∃ premises, applies premises outcome ∧ fact ∈ premises ∧ ∀ other ∈ premises, stored other) :
    Recording applies stored' (fun other => taken other ∨ other = fact) recorded' where
  sound outcome was := by
    rcases (more outcome).mp was with old | ⟨premises, application, -, all⟩
    · obtain ⟨premises, application, all⟩ := recording.sound outcome old
      exact ⟨premises, application, fun other mem => grown other (all other mem)⟩
    · exact ⟨premises, application, fun other mem => grown other (all other mem)⟩
  complete premises outcome application all := by
    by_cases mem : fact ∈ premises
    · exact (more outcome).mpr (.inr ⟨premises, application, mem, fun other among => held other (all other among)⟩)
    · refine (more outcome).mpr (.inl (recording.complete premises outcome application fun other among => ?_))
      refine (all other among).resolve_right ?_
      rintro rfl
      exact mem among

theorem finish (recording : Recording applies stored taken recorded) (all : ∀ fact, stored fact → taken fact) (outcome : ω) :
    recorded outcome ↔ ∃ premises, applies premises outcome ∧ ∀ fact ∈ premises, stored fact := by
  constructor
  · exact recording.sound outcome
  · rintro ⟨premises, application, held⟩
    exact recording.complete premises outcome application fun fact mem => all fact (held fact mem)

end Recording

end ByoriDB.Data
