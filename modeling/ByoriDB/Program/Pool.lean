import ByoriDB.Program.Prog

/-! A pool holds the calls in progress over one shared state.  In each step one call performs its next
operation, a new call begins, a call is cut off, or the surroundings change the state.
`Prog.Withstands` is the proof rule for a single call of such a pool: between any two of its
operations the others may have changed the state, as `grows` and the shared invariant allow. -/

namespace ByoriDB.Program

open List

variable {S : Signature} {ε α β σ ι : Type} {start : ι → Prog S ε α} {handler : Handler S σ} {state : σ}
  {surroundings : σ → σ → Prop} {p : Prog S ε α}

structure Pool (S : Signature) (ε α σ ι : Type) where
  state : σ
  calls : List (ι × Prog S ε α)

namespace Pool

inductive Step (handler : Handler S σ) (start : ι → Prog S ε α) (surroundings : σ → σ → Prop) :
    Pool S ε α σ ι → Pool S ε α σ ι → Prop where
  | begin (state : σ) (calls : List (ι × Prog S ε α)) (request : ι) :
      Step handler start surroundings ⟨state, calls⟩ ⟨state, (request, start request) :: calls⟩
  | advance (state : σ) (before after : List (ι × Prog S ε α)) (request : ι)
      (op : S.Op) (next : S.Res op → Prog S ε α) :
      Step handler start surroundings
        ⟨state, before ++ (request, .call op next) :: after⟩
        ⟨(handler op state).2, before ++ (request, next (handler op state).1) :: after⟩
  | cut (state : σ) (before after : List (ι × Prog S ε α)) (request : ι)
      (op : S.Op) (next : S.Res op → Prog S ε α) :
      Step handler start surroundings
        ⟨state, before ++ (request, .call op next) :: after⟩ ⟨state, before ++ after⟩
  | interfere (state state' : σ) (calls : List (ι × Prog S ε α)) (change : surroundings state state') :
      Step handler start surroundings ⟨state, calls⟩ ⟨state', calls⟩

abbrev Reaches (handler : Handler S σ) (start : ι → Prog S ε α) (surroundings : σ → σ → Prop) :
    Pool S ε α σ ι → Pool S ε α σ ι → Prop :=
  Relation.ReflTransGen (Step handler start surroundings)

end Pool

/-- What a call guarantees at each of its operations, whatever the others did
since the previous one. -/
def Prog.Withstands (handler : Handler S σ) (inv : σ → Prop) (grows : σ → σ → Prop)
    (post : α → σ → Prop) : Prog S ε α → σ → Prop
  | .pure value, state => post value state
  | .fail _, _ => True
  | .call op next, state =>
    ∀ state', grows state state' → inv state' → inv (handler op state').2 ∧ grows state' (handler op state').2 ∧
        (next (handler op state').1).Withstands handler inv grows post (handler op state').2

namespace Prog

variable {handler : Handler S σ}

theorem withstands_fail {reason : ε} :
    (Prog.fail reason : Prog S ε α).Withstands handler inv grows post state := trivial

/-- An operation that leaves the state alone only learns something about a later state. -/
theorem withstands_read {op : S.Op} {next : S.Res op → Prog S ε α}
    (grows_refl : ∀ a, grows a a) (reads : ∀ state', (handler op state').2 = state')
    (rest : ∀ state', grows state state' → inv state' →
      (next (handler op state').1).Withstands handler inv grows post state') :
    (Prog.call op next).Withstands handler inv grows post state := by
  intro state' grown holds
  rw [reads]
  exact ⟨holds, grows_refl _, rest state' grown holds⟩

theorem withstands_bind {f : α → Prog S ε β} {post : β → σ → Prop}
    (first : p.Withstands handler inv grows
      (fun value state' => (f value).Withstands handler inv grows post state') state) :
    (p >>= f).Withstands handler inv grows post state := by
  induction p generalizing state with
  | pure value => exact first
  | fail reason => exact first
  | call op next ih =>
    intro state' grown holds
    obtain ⟨kept, growth, rest⟩ := first state' grown holds
    exact ⟨kept, growth, ih _ rest⟩

/-- A guarantee survives what the others do. -/
theorem withstands_stable {state' : σ}
    (grows_trans : ∀ {a b c}, grows a b → grows b c → grows a c)
    (post_stable : ∀ {value a b}, grows a b → post value a → post value b)
    (grown : grows state state') (holds : p.Withstands handler inv grows post state) :
    p.Withstands handler inv grows post state' := by
  cases p with
  | pure value => exact post_stable grown holds
  | fail reason => trivial
  | call op next =>
    intro later laterGrown kept
    exact holds later (grows_trans grown laterGrown) kept

end Prog

/-- If every call withstands the others, then the invariant and the guarantees
of all calls in progress hold in every pool that can be reached. -/
theorem Pool.reaches_withstands {inv : σ → Prop} {grows : σ → σ → Prop} (post : ι → α → σ → Prop)
    (grows_refl : ∀ a, grows a a)
    (grows_trans : ∀ {a b c}, grows a b → grows b c → grows a c)
    (post_stable : ∀ {request value a b}, grows a b → post request value a → post request value b)
    (starts : ∀ request state, inv state → (start request).Withstands handler inv grows (post request) state)
    (tolerated : ∀ state state', surroundings state state' → inv state → inv state' ∧ grows state state')
    {first last : Pool S ε α σ ι} (initially : inv first.state)
    (initialCalls : ∀ call ∈ first.calls, call.2.Withstands handler inv grows (post call.1) first.state)
    (reached : Pool.Reaches handler start surroundings first last) :
    inv last.state ∧ grows first.state last.state ∧
      ∀ call ∈ last.calls, call.2.Withstands handler inv grows (post call.1) last.state := by
  induction reached with
  | refl => exact ⟨initially, grows_refl _, initialCalls⟩
  | tail _ step ih =>
    obtain ⟨holds, grown, calls⟩ := ih
    cases step with
    | begin state running request =>
      refine ⟨holds, grown, ?_⟩
      rintro call (_ | ⟨_, mem⟩)
      · exact starts request state holds
      · exact calls call mem
    | advance state before after request op next =>
      obtain ⟨kept, growth, rest⟩ := calls (request, .call op next) (by simp) state (grows_refl _) holds
      refine ⟨kept, grows_trans grown growth, ?_⟩
      intro call mem
      rcases mem_append.mp mem with inBefore | inAfter
      · exact Prog.withstands_stable grows_trans post_stable growth (calls call (by simp [inBefore]))
      · rcases mem_cons.mp inAfter with rfl | inRest
        · exact rest
        · exact Prog.withstands_stable grows_trans post_stable growth (calls call (by simp [inRest]))
    | cut state before after request op next =>
      refine ⟨holds, grown, ?_⟩
      intro other mem
      apply calls other
      rcases mem_append.mp mem with inBefore | inAfter
      · simp [inBefore]
      · simp [inAfter]
    | interfere state state' running change =>
      obtain ⟨kept, growth⟩ := tolerated state state' change holds
      exact ⟨kept, grows_trans grown growth, fun call mem =>
        Prog.withstands_stable grows_trans post_stable growth (calls call mem)⟩

/-- A call may run to its end without being interrupted. -/
theorem Pool.reaches_finish (before after : List (ι × Prog S ε α)) (request : ι)
    (p : Prog S ε α) (state : σ) :
    Pool.Reaches handler start surroundings ⟨state, before ++ (request, p) :: after⟩
      ⟨(p.run handler state).2, before ++ (request, .ofExcept (p.run handler state).1) :: after⟩ := by
  induction p generalizing state with
  | pure value => exact .refl
  | fail reason => exact .refl
  | call op next ih =>
    exact .head (.advance state before after request op next) (ih _ _)

namespace Pool

/-- A run all of whose pools are as `ok` says. -/
abbrev ReachesWithin (handler : Handler S σ) (start : ι → Prog S ε α) (ok : Pool S ε α σ ι → Prop) :
    Pool S ε α σ ι → Pool S ε α σ ι → Prop :=
  Relation.ReflTransGen fun pool pool' => Step handler start (fun _ _ => False) pool pool' ∧ ok pool'

inductive Turn (ι : Type) where
  | begin (request : ι)
  | advance (position : Nat)

/-- The pool after a turn; a call that has returned cannot be advanced. -/
def turn (handler : Handler S σ) (start : ι → Prog S ε α) (pool : Pool S ε α σ ι) : Turn ι → Option (Pool S ε α σ ι)
  | .begin request => some ⟨pool.state, (request, start request) :: pool.calls⟩
  | .advance position =>
    match pool.calls.drop position with
    | (request, .call op next) :: after =>
      some ⟨(handler op pool.state).2, pool.calls.take position ++ (request, next (handler op pool.state).1) :: after⟩
    | _ => none

/-- Follow a schedule as long as the pools are in order. -/
def play (handler : Handler S σ) (start : ι → Prog S ε α) (ok : Pool S ε α σ ι → Bool) :
    List (Turn ι) → Pool S ε α σ ι → Option (Pool S ε α σ ι)
  | [], pool => some pool
  | next :: rest, pool => do
    let pool' ← pool.turn handler start next
    if ok pool' then play handler start ok rest pool' else none

theorem step_of_turn {pool pool' : Pool S ε α σ ι} {next : Turn ι}
    (turned : pool.turn handler start next = some pool') : Step handler start (fun _ _ => False) pool pool' := by
  cases next with
  | begin request =>
    cases turned
    exact .begin pool.state pool.calls request
  | advance position =>
    simp only [turn] at turned
    split at turned
    · rename_i request op next after rest
      cases turned
      have shape : pool = ⟨pool.state, pool.calls.take position ++ (request, .call op next) :: after⟩ := by
        rw [← rest, take_append_drop]
      have step := @Step.advance S ε α σ ι handler start
        (fun _ _ => False) pool.state (pool.calls.take position) after request op next
      rwa [← shape] at step
    · cases turned

theorem reachesWithin_of_play {ok : Pool S ε α σ ι → Bool} {turns : List (Turn ι)}
    {pool pool' : Pool S ε α σ ι} (played : play handler start ok turns pool = some pool') :
    ReachesWithin handler start (fun pool => ok pool = true) pool pool' := by
  induction turns generalizing pool with
  | nil =>
    cases played
    exact .refl
  | cons next rest ih =>
    rw [play, Option.bind_eq_bind, Option.bind_eq_some_iff] at played
    obtain ⟨middle, turned, played⟩ := played
    split at played
    · exact .head ⟨step_of_turn turned, by assumption⟩ (ih played)
    · cases played

end Pool

end ByoriDB.Program
