import ByoriDB.Data.SemiNaive
import ByoriDB.Executor.Inference

namespace ByoriDB.Executor

variable {flags : String → SemanticFlags} {field : SemanticFlags → Option String} {space : String} {rel : RelMeta}

open List Data Program Store ByoriDB.Graph
open SchemaKey (edge)

section

variable (flags)

/-- The rules that a choice of flags for every edge type stands for. -/
def entailment : Rules Triple where
  unary t result :=
    ((flags t.p).symmetric = true ∧ result = ⟨t.d, t.p, t.s⟩) ∨
    (∃ q, ((flags t.p).inverseOf = some q ∨ (flags q).inverseOf = some t.p) ∧ result = ⟨t.d, q, t.s⟩) ∨
    (∃ q, (flags t.p).subpropertyOf = some q ∧ result = ⟨t.s, q, t.d⟩) ∨
    (∃ q, ((flags t.p).equivalentProperty = some q ∨ (flags q).equivalentProperty = some t.p) ∧ result = ⟨t.s, q, t.d⟩)
  binary t u result :=
    t.d = u.s ∧ (((flags t.p).transitive = true ∧ u.p = t.p ∧ result = ⟨t.s, t.p, u.d⟩) ∨
        ∃ q, (flags q).propertyChain = some [t.p, u.p] ∧ result = ⟨t.s, q, u.d⟩)

/-- The classes an edge puts its ends into. -/
def typing (t : Triple) (vid : Int) (className : String) : Prop :=
  ((flags t.p).domain = some className ∧ vid = t.s) ∨ ((flags t.p).range = some className ∧ vid = t.d)

/-- One application of a rule: its premises, and the fact it concludes. -/
inductive RuleInstance (flags : String → SemanticFlags) : RuleKind → List Triple → Fact → Prop where
  | symmetric {t : Triple} (declared : (flags t.p).symmetric = true) : RuleInstance flags .symmetric [t] (.edge t.d t.p t.s)
  | inverseOf {t : Triple} {q : String} (declared : (flags t.p).inverseOf = some q ∨ (flags q).inverseOf = some t.p) :
      RuleInstance flags .inverseOf [t] (.edge t.d q t.s)
  | subPropertyOf {t : Triple} {q : String} (declared : (flags t.p).subpropertyOf = some q) :
      RuleInstance flags .subPropertyOf [t] (.edge t.s q t.d)
  | equivalentProperty {t : Triple} {q : String}
      (declared : (flags t.p).equivalentProperty = some q ∨ (flags q).equivalentProperty = some t.p) :
      RuleInstance flags .equivalentProperty [t] (.edge t.s q t.d)
  | transitive {t u : Triple} (declared : (flags t.p).transitive = true) (meets : t.d = u.s) (alike : u.p = t.p) :
      RuleInstance flags .transitive [t, u] (.edge t.s t.p u.d)
  | propertyChain {t u : Triple} {q : String} (declared : (flags q).propertyChain = some [t.p, u.p]) (meets : t.d = u.s) :
      RuleInstance flags .propertyChain [t, u] (.edge t.s q u.d)
  | domain {t : Triple} {className : String} (declared : (flags t.p).domain = some className) :
      RuleInstance flags .domain [t] (.vtype t.s className)
  | range {t : Triple} {className : String} (declared : (flags t.p).range = some className) :
      RuleInstance flags .range [t] (.vtype t.d className)

/-- The fact is concluded from the premises for the reason that is given. -/
def Concludes (premises : List Triple) (outcome : Fact × Justification) : Prop :=
  RuleInstance flags outcome.2.rule premises outcome.1 ∧ outcome.2.premises = premises.map Triple.fact

/-- A rule concludes the outcome from this triple and others that are stored. -/
def Fires (stored : Triple → Prop) (t : Triple) (outcome : Fact × Justification) : Prop :=
  ∃ premises, Concludes flags premises outcome ∧ t ∈ premises ∧ ∀ u ∈ premises, stored u

end

theorem not_concludes_nil (outcome : Fact × Justification) : ¬ Concludes flags [] outcome := by
  obtain ⟨fact, rule, premises⟩ := outcome
  rintro ⟨⟨⟩, -⟩

/-- A triple follows from a stored one if a rule concludes it from the two. -/
theorem follows_iff_fires {stored : Triple → Prop} {t result : Triple} (held : stored t) :
    (entailment flags).Follows stored t result ↔ ∃ reason, Fires flags stored t (result.fact, reason) := by
  constructor
  · have unary : ∀ {rule}, RuleInstance flags rule [t] result.fact → ∃ reason, Fires flags stored t (result.fact, reason) :=
      fun {rule} applied => ⟨⟨rule, [t.fact]⟩, [t], ⟨applied, rfl⟩, by simp, by simpa using held⟩
    have binary : ∀ u v {rule}, RuleInstance flags rule [u, v] result.fact → t ∈ [u, v] → stored u → stored v →
        ∃ reason, Fires flags stored t (result.fact, reason) :=
      fun u v {rule} applied among first second =>
        ⟨⟨rule, [u.fact, v.fact]⟩, [u, v], ⟨applied, rfl⟩, among, by simp [first, second]⟩
    rintro ((⟨declared, rfl⟩ | ⟨q, declared, rfl⟩ | ⟨q, declared, rfl⟩ | ⟨q, declared, rfl⟩) |
      ⟨other, otherHeld, ⟨meets, ⟨declared, alike, rfl⟩ | ⟨q, declared, rfl⟩⟩ | ⟨meets,
        ⟨declared, alike, rfl⟩ | ⟨q, declared, rfl⟩⟩⟩)
    · exact unary (.symmetric declared)
    · exact unary (.inverseOf declared)
    · exact unary (.subPropertyOf declared)
    · exact unary (.equivalentProperty declared)
    · exact binary t other (.transitive declared meets alike) (by simp) held otherHeld
    · exact binary t other (.propertyChain declared meets) (by simp) held otherHeld
    · exact binary other t (.transitive declared meets alike) (by simp) otherHeld held
    · exact binary other t (.propertyChain declared meets) (by simp) otherHeld held
  · obtain ⟨s, p, d⟩ := result
    rintro ⟨⟨rule, reasons⟩, premises, ⟨applied, -⟩, among, all⟩
    cases applied with
    | symmetric declared =>
      obtain rfl := mem_singleton.mp among
      exact .inl (.inl ⟨declared, rfl⟩)
    | inverseOf declared =>
      obtain rfl := mem_singleton.mp among
      exact .inl (.inr (.inl ⟨_, declared, rfl⟩))
    | subPropertyOf declared =>
      obtain rfl := mem_singleton.mp among
      exact .inl (.inr (.inr (.inl ⟨_, declared, rfl⟩)))
    | equivalentProperty declared =>
      obtain rfl := mem_singleton.mp among
      exact .inl (.inr (.inr (.inr ⟨_, declared, rfl⟩)))
    | @transitive u v declared meets alike =>
      rcases mem_pair.mp among with rfl | rfl
      · exact .inr ⟨v, all v (by simp), .inl ⟨meets, .inl ⟨declared, alike, rfl⟩⟩⟩
      · exact .inr ⟨u, all u (by simp), .inr ⟨meets, .inl ⟨declared, alike, rfl⟩⟩⟩
    | @propertyChain u v _ declared meets =>
      rcases mem_pair.mp among with rfl | rfl
      · exact .inr ⟨v, all v (by simp), .inl ⟨meets, .inr ⟨_, declared, rfl⟩⟩⟩
      · exact .inr ⟨u, all u (by simp), .inr ⟨meets, .inr ⟨_, declared, rfl⟩⟩⟩

/-- The flags stored for an edge type; an edge type without a schema has none. -/
def edgeFlags (kv : KV) (space name : String) : SemanticFlags :=
  match kv.get (edge space name) with
  | some (.edgeSchema schema) => schema.semantics
  | _ => {}

theorem mem_listed_push {α : Type} {table : Table String (List α)} {key other : String} {value item : α} :
    item ∈ listed (push table key value) other ↔ item ∈ listed table other ∨ (other = key ∧ item = value) := by
  by_cases same : other = key <;> simp [listed, push, same]

/-- The index holds exactly the rules of the flags. -/
structure RelMeta.Reflects (rel : RelMeta) (flags : String → SemanticFlags) : Prop where
  transitive : ∀ p, p ∈ rel.transitive ↔ (flags p).transitive = true
  symmetric : ∀ p, p ∈ rel.symmetric ↔ (flags p).symmetric = true
  inverse : ∀ p q, q ∈ listed rel.inverse p ↔ (flags p).inverseOf = some q ∨ (flags q).inverseOf = some p
  superprops : ∀ p q, q ∈ listed rel.superprops p ↔ (flags p).subpropertyOf = some q
  equivalentProps : ∀ p q, q ∈ listed rel.equivalentProps p ↔
    (flags p).equivalentProperty = some q ∨ (flags q).equivalentProperty = some p
  domain : ∀ p c, rel.domain.get p = some c ↔ (flags p).domain = some c
  range : ∀ p c, rel.range.get p = some c ↔ (flags p).range = some c
  chainFirst : ∀ p1 q p2, (q, p2) ∈ listed rel.chainFirst p1 ↔ (flags q).propertyChain = some [p1, p2]
  chainSecond : ∀ p2 q p1, (q, p1) ∈ listed rel.chainSecond p2 ↔ (flags q).propertyChain = some [p1, p2]

theorem RelMeta.reflects_empty : RelMeta.empty.Reflects fun _ => {} := by
  constructor <;> simp [RelMeta.empty, listed]

section

/- Each kind of entry, for an edge type that had no flags before. -/
variable {sem : SemanticFlags} {table : Table String (List String)}

theorem mem_flagged {names : List String} {flag : SemanticFlags → Bool}
    (reflects : ∀ p, p ∈ names ↔ flag (flags p) = true) (unset : flag (flags name) = false) (p : String) :
    p ∈ (if flag sem then names.insert name else names) ↔ flag (Function.update flags name sem p) = true := by
  by_cases same : p = name
  · subst same
    have absent : p ∉ names := by simp [reflects, unset]
    by_cases set : flag sem = true <;> simp [set, absent]
  · by_cases set : flag sem = true <;> simp [set, same, reflects]

theorem mem_paired
    (reflects : ∀ p q, q ∈ listed table p ↔ field (flags p) = some q ∨ field (flags q) = some p)
    (unset : field (flags name) = none) (p q : String) :
    q ∈ listed (match field sem with
        | some r => push (push table name r) r name
        | none => table) p ↔
      field (Function.update flags name sem p) = some q ∨ field (Function.update flags name sem q) = some p := by
  cases set : field sem with
  | none =>
    by_cases atP : p = name <;> by_cases atQ : q = name <;> simp [atP, atQ, set, reflects, unset]
  | some r =>
    simp only [mem_listed_push, reflects]
    by_cases atP : p = name <;> by_cases atQ : q = name <;> simp [atP, atQ, set, unset] <;> grind

theorem mem_directed
    (reflects : ∀ p q, q ∈ listed table p ↔ field (flags p) = some q) (unset : field (flags name) = none)
    (p q : String) :
    q ∈ listed (match field sem with
        | some r => push table name r
        | none => table) p ↔
      field (Function.update flags name sem p) = some q := by
  cases set : field sem with
  | none => by_cases atP : p = name <;> simp [atP, set, reflects, unset]
  | some r =>
    simp only [mem_listed_push, reflects]
    by_cases atP : p = name <;> simp [atP, set, unset, eq_comm]

theorem get_declared {table : Table String String}
    (reflects : ∀ p c, table.get p = some c ↔ field (flags p) = some c) (unset : field (flags name) = none)
    (p c : String) :
    (match field sem with
        | some r => table.insert name r
        | none => table).get p = some c ↔
      field (Function.update flags name sem p) = some c := by
  cases set : field sem with
  | none => by_cases atP : p = name <;> simp [atP, set, reflects, unset]
  | some r => by_cases atP : p = name <;> simp [atP, set, reflects]

theorem mem_chain {table : Table String (List (String × String))} (place : String × String → String × String)
    (reflects : ∀ p q r, (q, r) ∈ listed table p ↔
      ∃ p1 p2, (flags q).propertyChain = some [p1, p2] ∧ place (p1, p2) = (p, r))
    (unset : (flags name).propertyChain = none)
    (chain : ∀ links, sem.propertyChain = some links → links.length = 2) :
    (q, r) ∈ listed (match sem.propertyChain with
        | some [p1, p2] => push table (place (p1, p2)).1 (name, (place (p1, p2)).2)
        | _ => table) p ↔
      ∃ p1 p2, (Function.update flags name sem q).propertyChain = some [p1, p2] ∧ place (p1, p2) = (p, r) := by
  cases set : sem.propertyChain with
  | none => by_cases atQ : q = name <;> simp [atQ, set, reflects, unset]
  | some links =>
    obtain ⟨p1, p2, rfl⟩ := length_eq_two.mp (chain links set)
    simp only [mem_listed_push, reflects]
    by_cases atQ : q = name
    · simp [atQ, set, unset, Prod.ext_iff, eq_comm]
    · simp [atQ]

end

theorem RelMeta.Reflects.register (reflects : rel.Reflects flags)
    {name : String} {sem : SemanticFlags} (unset : flags name = {})
    (chain : ∀ links, sem.propertyChain = some links → links.length = 2) :
    (rel.register name sem).Reflects (Function.update flags name sem) where
  transitive := mem_flagged reflects.transitive (by rw [unset])
  symmetric := mem_flagged reflects.symmetric (by rw [unset])
  inverse := mem_paired reflects.inverse (by rw [unset])
  superprops := mem_directed reflects.superprops (by rw [unset])
  equivalentProps := mem_paired reflects.equivalentProps (by rw [unset])
  domain := get_declared reflects.domain (by rw [unset])
  range := get_declared reflects.range (by rw [unset])
  chainFirst p1 q p2 := by
    have before : ∀ p q r, (q, r) ∈ listed rel.chainFirst p ↔
        ∃ p1 p2, (flags q).propertyChain = some [p1, p2] ∧ (p1, p2) = (p, r) := by
      simp [reflects.chainFirst]
    exact (mem_chain id before (by rw [unset]) chain).trans (by simp)
  chainSecond p2 q p1 := by
    have before : ∀ p q r, (q, r) ∈ listed rel.chainSecond p ↔
        ∃ p1 p2, (flags q).propertyChain = some [p1, p2] ∧ (p2, p1) = (p, r) := by
      simp [reflects.chainSecond]
    exact (mem_chain Prod.swap before (by rw [unset]) chain).trans (by simp)

/-- The flags after reading some entries, over those known before. -/
def flagsOver (space : String) (entries : List (Key × Val)) (flags : String → SemanticFlags)
    (name : String) : SemanticFlags :=
  match lastPut entries (edge space name) with
  | some (.edgeSchema schema) => schema.semantics
  | _ => flags name

theorem readEdgeSchema_ok {key : Key} {value : Val} {schema : EdgeSchema}
    (read : readEdgeSchema space key value = .ok schema) :
    value = .edgeSchema schema ∧ key = edge space schema.name ∧
      ∀ links, schema.semantics.propertyChain = some links → links.length = 2 := by
  cases value with
  | edgeSchema stored =>
    simp only [readEdgeSchema] at read
    split at read
    · cases read
    · split at read
      · cases read
      · rename_i matching
        split at read
        · rename_i chain links
          split at read
          · cases read
          · rename_i two
            cases read
            refine ⟨rfl, not_not.mp matching, ?_⟩
            intro other same
            rw [links] at same
            cases same
            exact not_not.mp two
        · rename_i noChain
          cases read
          refine ⟨rfl, not_not.mp matching, ?_⟩
          intro other same
          rw [noChain] at same
          cases same
  | _ => cases read

theorem edge_key_inj {name other : String} : edge space name = edge space other ↔ name = other := by
  simp [edge]

theorem wp_register_entries (reflects : rel.Reflects flags)
    (distinct : (entries.map Prod.fst).Nodup)
    (unset : ∀ name, edge space name ∈ entries.map Prod.fst → flags name = {}) :
    (entries.foldlM (fun rel entry => do
        let schema ← ofExcept (readEdgeSchema space entry.1 entry.2)
        pure (rel.register schema.name schema.semantics)) rel : Exec RelMeta).wp (handler env) allowed
      (fun rel' world' => rel'.Reflects (flagsOver space entries flags) ∧ world' = world) world := by
  induction entries generalizing rel flags with
  | nil => exact ⟨reflects, rfl⟩
  | cons entry rest ih =>
    obtain ⟨key, value⟩ := entry
    rw [map_cons, nodup_cons] at distinct
    rw [foldlM_cons, wp_bind, wp_bind, wp_ofExcept]
    intro schema read
    obtain ⟨rfl, rfl, chain⟩ := readEdgeSchema_ok read
    rw [wp_pure]
    have registered := reflects.register (unset schema.name (by simp)) chain
    have continued := ih registered distinct.2 (by
      intro name listed
      have apart : name ≠ schema.name := by
        rintro rfl
        exact distinct.1 listed
      rw [Function.update_of_ne apart]
      exact unset name (mem_cons_of_mem _ listed))
    refine wp_imp continued ?_
    rintro rel' world' ⟨reflects', rfl⟩
    refine ⟨?_, rfl⟩
    have same : flagsOver space rest (Function.update flags schema.name schema.semantics) =
        flagsOver space ((edge space schema.name, .edgeSchema schema) :: rest) flags := by
      funext name
      simp only [flagsOver, lastPut, edge_key_inj]
      by_cases atName : name = schema.name
      · rw [atName, lastPut_eq_none.mpr distinct.1]
        simp
      · rw [if_neg atName, Option.or_none, Function.update_of_ne atName]
    rw [← same]
    exact reflects'

/-- The index built from the stored schemas holds exactly the rules they declare. -/
theorem wp_loadRelMeta
    (reads : allowed world (.kv (.scanPrefix (edgePrefix space)))) :
    (loadRelMeta space).wp (handler env) allowed
      (fun rel world' => rel.Reflects (edgeFlags world.kv space) ∧ world' = world) world := by
  rw [loadRelMeta, wp_bind, wp_scanPrefix]
  refine ⟨reads, ?_⟩
  have arranged := env.arrange_perm (world.kv.select (Scoped.covers (edgePrefix space)))
  have distinct := world.kv.nodup_select (Scoped.covers (edgePrefix space))
  have listedOnce := (arranged.map Prod.fst).nodup_iff.mpr distinct
  refine wp_imp (wp_register_entries RelMeta.reflects_empty listedOnce fun _ _ => rfl) ?_
  rintro rel world' ⟨reflects, rfl⟩
  refine ⟨?_, rfl⟩
  have same : flagsOver space (env.arrange (world'.kv.select (Scoped.covers (edgePrefix space))))
      (fun _ => {}) = edgeFlags world'.kv space := by
    funext name
    have covered : (Scoped.covers (edgePrefix space) (edge space name) : Bool) = true :=
      covers_text.mpr ⟨[.word name], by simp, rfl⟩
    rw [flagsOver, Table.lastPut_perm arranged distinct, lastPut_select, if_pos covered]
    rfl
  exact same ▸ reflects

end ByoriDB.Executor
