import ByoriDB.Program.Pool

namespace ByoriDB.Program

open List

variable {S : Signature} {ε α β γ σ τ ι : Type} {p : Prog S ε α} {op : S.Op} {state : σ} {next : S.Res op → Prog S ε α}

/-- Which number an operation puts to use or marks, and what is known of numbers in a
state.  An operation that `draws` acts on a number that was read but not marked;
`fair` is what a run has to guarantee about its states, and `grows` what the calls
guarantee each other. -/
structure Tickets (S : Signature) (σ τ : Type) where
  number : S.Op → Option τ
  draws : S.Op → Bool
  live : σ → τ → Prop
  taken : σ → τ → Prop
  inv : σ → Prop
  fair : σ → Prop
  grows : σ → σ → Prop
  grows_refl : ∀ state, grows state state
  grows_trans : ∀ {a b c}, grows a b → grows b c → grows a c

namespace Tickets

variable (T : Tickets S σ τ)

/-- The number of the operation is unused, and marked unless it was just drawn. -/
def Valid (op : S.Op) (state : σ) : Prop :=
  ∀ number, T.number op = some number → ¬T.live state number ∧ (T.taken state number ↔ T.draws op = false)

/-- What an operation may do to the numbers. -/
structure Effect (op : S.Op) (before after : σ) : Prop where
  inv : T.inv after
  grows : T.grows before after
  live : ∀ number, T.live after number → T.live before number ∨ T.number op = some number
  taken : ∀ number, T.number op ≠ some number → (T.taken after number ↔ T.taken before number)

variable {T}

theorem Valid.of_none (none : T.number op = none) : T.Valid op state := by
  intro number own
  rw [none] at own
  cases own

theorem Effect.refl (holds : T.inv state) : T.Effect op state state where
  inv := holds
  grows := T.grows_refl state
  live := fun _ => .inl
  taken := fun _ _ => .rfl

/-- An operation with another number leaves a number valid. -/
theorem Valid.stable {other : S.Op} {before after : σ} (valid : T.Valid other before) (effect : T.Effect op before after)
    (apart : ∀ number, T.number op = some number → T.number other ≠ some number) : T.Valid other after := by
  intro number own
  obtain ⟨unused, marked⟩ := valid number own
  refine ⟨fun used => ?_, (effect.taken number fun mine => apart number mine own).trans marked⟩
  rcases effect.live number used with used | mine
  · exact unused used
  · exact apart number mine own

end Tickets

/-- What a call guarantees at each of its operations, whatever the others did since
the previous one.  `held` is the number of the previous operation. -/
def Prog.Draws (T : Tickets S σ τ) (handler : Handler S σ) (post : α → Option τ → σ → Prop) :
    Prog S ε α → Option τ → σ → Prop
  | .pure value, held, state => post value held state
  | .fail _, _, _ => True
  | .call op next, held, state =>
    T.Valid op state ∧ (T.draws op = false → T.number op = held ∨ T.number op = none) ∧
      ∀ state', T.grows state state' → T.inv state' → T.fair state' → T.Valid op state' →
        T.Effect op state' (handler op state').2 ∧
          (next (handler op state').1).Draws T handler post (T.number op) (handler op state').2

namespace Prog

variable {T : Tickets S σ τ} {handler : Handler S σ} {held : Option τ} {state : σ}

theorem draws_pure {value : α} (holds : post value held state) :
    (Pure.pure value : Prog S ε α).Draws T handler post held state := holds

/-- An operation without a number. -/
theorem draws_plain (none : T.number op = none) (rest : ∀ state', T.grows state state' →
      T.inv state' → T.fair state' → T.Effect op state' (handler op state').2 ∧
        (next (handler op state').1).Draws T handler post .none (handler op state').2) :
    (perform op >>= next).Draws T handler post held state := by
  refine ⟨.of_none none, fun _ => .inr none, fun state' grown holds fair _ => ?_⟩
  rw [none]
  exact rest state' grown holds fair

/-- An operation that only reads. -/
theorem draws_read (none : T.number op = none)
    (reads : ∀ state', (handler op state').2 = state')
    (rest : ∀ state', T.grows state state' → T.inv state' → T.fair state' →
      (next (handler op state').1).Draws T handler post .none state') :
    (perform op >>= next).Draws T handler post held state := by
  refine draws_plain none fun state' grown holds fair => ?_
  rw [reads]
  exact ⟨.refl holds, rest state' grown holds fair⟩

theorem draws_bind {f : α → Prog S ε β} {post : β → Option τ → σ → Prop}
    (first : p.Draws T handler (fun value held state' => (f value).Draws T handler post held state') held state) :
    (p >>= f).Draws T handler post held state := by
  induction p generalizing held state with
  | pure value => exact first
  | fail reason => exact first
  | call op next ih =>
    obtain ⟨valid, keeps, rest⟩ := first
    refine ⟨valid, keeps, fun state' grown holds fair valid => ?_⟩
    obtain ⟨effect, rest⟩ := rest state' grown holds fair valid
    exact ⟨effect, ih _ rest⟩

theorem draws_mono (draws : p.Draws T handler post held state)
    (weaker : ∀ value held final, post value held final → post' value held final) : p.Draws T handler post' held state := by
  induction p generalizing held state with
  | pure value => exact weaker _ _ _ draws
  | fail reason => trivial
  | call op next ih =>
    obtain ⟨valid, keeps, rest⟩ := draws
    refine ⟨valid, keeps, fun state' grown holds fair valid => ?_⟩
    obtain ⟨effect, rest⟩ := rest state' grown holds fair valid
    exact ⟨effect, ih _ rest⟩

theorem draws_forM {f : γ → Prog S ε PUnit} {items : List γ}
    (step : ∀ item ∈ items, ∀ held state, (f item).Draws T handler (fun _ _ _ => True) held state) :
    (items.forM f).Draws T handler (fun _ _ _ => True) held state := by
  induction items generalizing held state with
  | nil => trivial
  | cons item rest ih =>
    refine draws_bind (draws_mono (step item mem_cons_self held state) fun _ held state _ => ?_)
    exact ih fun other listed => step other (mem_cons_of_mem _ listed)

/-- The states in which a call ends follow on the one it started in. -/
theorem draws_grown (draws : p.Draws T handler post held state) :
    p.Draws T handler (fun value held final => post value held final ∧ T.grows state final) held state := by
  induction p generalizing held state with
  | pure value => exact ⟨draws, T.grows_refl state⟩
  | fail reason => trivial
  | call op next ih =>
    obtain ⟨valid, keeps, rest⟩ := draws
    refine ⟨valid, keeps, fun state' grown holds fair valid => ?_⟩
    obtain ⟨effect, rest⟩ := rest state' grown holds fair valid
    exact ⟨effect, draws_mono (ih _ rest) fun _ _ _ ends => ⟨ends.1, T.grows_trans grown (T.grows_trans effect.grows ends.2)⟩⟩

/-- An operation without a number that is harmless in every state. -/
def Harmless (T : Tickets S σ τ) (handler : Handler S σ) (op : S.Op) : Prop :=
  T.number op = none ∧ ∀ state, T.inv state → T.Effect op state (handler op state).2

theorem draws_of_only (only : p.Only (Harmless T handler))
    (ends : ∀ value held state', T.grows state state' → post value held state') : p.Draws T handler post held state := by
  induction p generalizing held state with
  | pure value => exact ends value held state (T.grows_refl state)
  | fail reason => trivial
  | call op next ih =>
    obtain ⟨⟨none, harmless⟩, rest⟩ := only
    refine ⟨.of_none none, fun _ => .inr none, fun state' grown holds _ _ => ⟨harmless state' holds, ih _ (rest _) ?_⟩⟩
    exact fun value held later growth => ends value held later
      (T.grows_trans grown (T.grows_trans (harmless state' holds).grows growth))

/-- The number that a call is about to use. -/
def number (T : Tickets S σ τ) : Prog S ε α → Option τ
  | .call op _ => T.number op
  | _ => none

/-- The call has drawn a number that is not marked yet. -/
def isDrawing (T : Tickets S σ τ) : Prog S ε α → Bool
  | .call op _ => (T.number op).isSome && T.draws op
  | _ => false

/-- The guarantee of a call survives the operations of the others. -/
theorem Draws.stable {after : σ} (draws : p.Draws T handler (fun _ _ _ => True) held state)
    (effect : T.Effect op state after) (apart : ∀ number, T.number op = some number → p.number T ≠ some number) :
    p.Draws T handler (fun _ _ _ => True) held after := by
  cases p with
  | pure value => trivial
  | fail reason => trivial
  | call other next =>
    obtain ⟨valid, keeps, rest⟩ := draws
    refine ⟨valid.stable effect apart, keeps, fun state' grown => ?_⟩
    exact rest state' (T.grows_trans effect.grows grown)

end Prog

namespace Pool

variable {T : Tickets S σ τ} {handler : Handler S σ} {q : Prog S ε α} {number : τ}

/-- All requests are permitted, and no two calls have drawn numbers that neither has marked. -/
structure Scheduled (T : Tickets S σ τ) (permitted : ι → Prop) (pool : Pool S ε α σ ι) : Prop where
  fair : T.fair pool.state
  requests : ∀ call ∈ pool.calls, permitted call.1
  drawing : pool.calls.Pairwise fun a b => ¬(a.2.isDrawing T ∧ b.2.isDrawing T)

/-- The numbers that calls are about to use differ from each other. -/
structure Orderly (T : Tickets S σ τ) (handler : Handler S σ) (pool : Pool S ε α σ ι) : Prop where
  inv : T.inv pool.state
  calls : ∀ call ∈ pool.calls, ∃ held, call.2.Draws T handler (fun _ _ _ => True) held pool.state
  apart : pool.calls.Pairwise fun a b => ∀ number, a.2.number T = some number → b.2.number T ≠ some number

/-- Two valid numbers differ unless both were just drawn. -/
theorem number_ne_of_drawing {held held' : Option τ}
    (first : p.Draws T handler (fun _ _ _ => True) held state)
    (second : q.Draws T handler (fun _ _ _ => True) held' state)
    (drawing : p.isDrawing T = true) (marked : q.isDrawing T = false)
    (own : p.number T = some number) : q.number T ≠ some number := by
  intro same
  cases p with
  | pure _ => cases own
  | fail _ => cases own
  | call op next =>
    cases q with
    | pure _ => cases same
    | fail _ => cases same
    | call other next' =>
      replace own : T.number op = some number := own
      replace same : T.number other = some number := same
      have drew : T.draws op = true := by simpa [Prog.isDrawing, own] using drawing
      have settled : T.draws other = false := by simpa [Prog.isDrawing, same] using marked
      have taken := (second.1 number same).2.mpr settled
      rw [(first.1 number own).2.mp taken] at drew
      cases drew

/-- A call that arrives at its next operation keeps the numbers apart. -/
theorem number_ne_of_arrival {held held' : Option τ}
    (arrives : p.Draws T handler (fun _ _ _ => True) held state)
    (waits : q.Draws T handler (fun _ _ _ => True) held' state)
    (scheduled : ¬(p.isDrawing T ∧ q.isDrawing T)) (kept : ∀ number, held = some number →
      q.number T ≠ some number) (own : p.number T = some number) : q.number T ≠ some number := by
  cases drawing : p.isDrawing T with
  | true => exact number_ne_of_drawing arrives waits drawing (by simpa [drawing] using scheduled) own
  | false =>
    cases p with
    | pure _ => cases own
    | fail _ => cases own
    | call op next =>
      replace own : T.number op = some number := own
      have settled : T.draws op = false := by simpa [Prog.isDrawing, own] using drawing
      rcases arrives.2.1 settled with same | none
      · exact kept number (same.symm.trans own)
      · cases none.symm.trans own

theorem Orderly.step {pool pool' : Pool S ε α σ ι} (orderly : Orderly T handler pool)
    (fair : T.fair pool.state) (starts : ∀ request state, permitted request →
      T.inv state → (start request).Draws T handler (fun _ _ _ => True) none state)
    (step : Step handler start (fun _ _ => False) pool pool')
    (scheduled : Scheduled T permitted pool') : Orderly T handler pool' := by
  obtain ⟨holds, calls, apart⟩ := orderly
  cases step with
  | begin state running request =>
    have arrives := starts request state (scheduled.requests _ mem_cons_self) holds
    obtain ⟨distinct, -⟩ := pairwise_cons.mp scheduled.drawing
    refine ⟨holds, ?_, pairwise_cons.mpr ⟨fun other listed number own => ?_, apart⟩⟩
    · rintro call (_ | ⟨_, listed⟩)
      · exact ⟨none, arrives⟩
      · exact calls call listed
    · obtain ⟨held, waits⟩ := calls other listed
      exact number_ne_of_arrival arrives waits (distinct other listed) (fun _ impossible => nomatch impossible) own
  | advance state before after request op next =>
    obtain ⟨held, valid, -, rest⟩ := calls (request, .call op next) (by simp)
    obtain ⟨effect, arrives⟩ := rest state (T.grows_refl state) holds fair valid
    -- The pairs with the moving call, in either order, and the pairs without it.
    have split : ∀ {R : ι × Prog S ε α → ι × Prog S ε α → Prop} {call : ι × Prog S ε α},
        (before ++ call :: after).Pairwise R →
        (before ++ after).Pairwise R ∧ (∀ other ∈ before, R other call) ∧ ∀ other ∈ after, R call other := by
      intro R call pairs
      obtain ⟨front, back, across⟩ := pairwise_append.mp pairs
      obtain ⟨own, back⟩ := pairwise_cons.mp back
      exact ⟨pairwise_append.mpr ⟨front, back, fun a left b right => across a left b (mem_cons_of_mem _ right)⟩,
        fun other listed => across other listed call mem_cons_self, own⟩
    obtain ⟨others, left, right⟩ := split apart
    obtain ⟨-, leftScheduled, rightScheduled⟩ := split scheduled.drawing
    have differs : ∀ other ∈ before ++ after, ∀ number, T.number op = some number → other.2.number T ≠ some number := by
      intro other listed number own same
      rcases mem_append.mp listed with listed | listed
      · exact left other listed number same own
      · exact right other listed number own same
    have waits : ∀ other ∈ before ++ after, ∃ held, other.2.Draws T handler (fun _ _ _ => True) held (handler op state).2 := by
      intro other listed
      obtain ⟨held, draws⟩ := calls other (by
        rcases mem_append.mp listed with listed | listed <;> simp [listed])
      exact ⟨held, draws.stable effect (differs other listed)⟩
    have unscheduled : ∀ other ∈ before ++ after, ¬((next (handler op state).1).isDrawing T ∧ other.2.isDrawing T) := by
      intro other listed both
      rcases mem_append.mp listed with listed | listed
      · exact leftScheduled other listed ⟨both.2, both.1⟩
      · exact rightScheduled other listed both
    have arrival : ∀ other ∈ before ++ after, ∀ number, (next (handler op state).1).number T = some number →
        other.2.number T ≠ some number := by
      intro other listed number own
      obtain ⟨held, draws⟩ := waits other listed
      exact number_ne_of_arrival arrives draws (unscheduled other listed) (differs other listed) own
    obtain ⟨front, back, across⟩ := pairwise_append.mp others
    refine ⟨effect.inv, fun call listed => ?_, pairwise_append.mpr ⟨front, pairwise_cons.mpr ⟨?_, back⟩, ?_⟩⟩
    · rcases mem_append.mp listed with listed | listed
      · exact waits call (mem_append_left _ listed)
      · rcases mem_cons.mp listed with rfl | listed
        · exact ⟨_, arrives⟩
        · exact waits call (mem_append_right _ listed)
    · exact fun other listed => arrival other (mem_append_right _ listed)
    · rintro other inFront _ (_ | ⟨_, listed⟩) number own same
      · exact arrival other (mem_append_left _ inFront) number same own
      · exact across other inFront _ listed number own same
  | cut state before after request op next =>
    obtain ⟨front, back, across⟩ := pairwise_append.mp apart
    refine ⟨holds, fun call listed => calls call ?_, pairwise_append.mpr
      ⟨front, (pairwise_cons.mp back).2, fun a left b right => across a left b (mem_cons_of_mem _ right)⟩⟩
    rcases mem_append.mp listed with listed | listed <;> simp [listed]
  | interfere state state' running change => exact change.elim

/-- In a run that is scheduled throughout, the numbers stay apart. -/
theorem orderly_of_reachesWithin {ok : Pool S ε α σ ι → Prop}
    (scheduled : ∀ pool, ok pool → Scheduled T permitted pool)
    (starts : ∀ request state, permitted request → T.inv state →
      (start request).Draws T handler (fun _ _ _ => True) none state)
    {first last : Pool S ε α σ ι} (initially : Orderly T handler first) (fair : T.fair first.state)
    (reached : ReachesWithin handler start ok first last) : Orderly T handler last := by
  suffices both : Orderly T handler last ∧ T.fair last.state from both.1
  induction reached with
  | refl => exact ⟨initially, fair⟩
  | tail _ step ih => exact ⟨ih.1.step ih.2 starts step.1 (scheduled _ step.2), (scheduled _ step.2).fair⟩

end Pool

export Prog (draws_bind draws_mono draws_of_only draws_pure draws_read)

end ByoriDB.Program
