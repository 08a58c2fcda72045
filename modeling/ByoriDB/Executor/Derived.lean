import ByoriDB.Executor.Entailment

/-! Asserted and inferred edges share the keys of a space; a marker property tells them apart. -/

namespace ByoriDB.Executor

open List Data Store ByoriDB.Graph

namespace Triple

def key (space : String) (t : Triple) (rank : Int) : Key := edgeData space t.s t.p t.d rank

def inKey (space : String) (t : Triple) (rank : Int) : Key := inEdgeData space t.d t.p t.s rank

@[simp] theorem key_inj {t u : Triple} : t.key space rank = u.key space other ↔ t = u ∧ rank = other := by
  cases t
  cases u
  simp [key, edgeData, and_assoc]

@[simp] theorem inKey_inj {t u : Triple} : t.inKey space rank = u.inKey space other ↔ t = u ∧ rank = other := by
  cases t
  cases u
  simp [inKey, inEdgeData]
  grind

@[simp] theorem kind_key (space : String) (t : Triple) (rank : Int) : (t.key space rank).kind space = some "edge" := by
  simp [key, edgeData, Key.kind]

@[simp] theorem kind_inKey (space : String) (t : Triple) (rank : Int) :
    (t.inKey space rank).kind space = some "in-edge" := by
  simp [inKey, inEdgeData, Key.kind]

end Triple

@[simp] theorem kind_vtype : (vtype space vid className).kind space = some "vtype" := by
  simp [vtype, Key.kind]

@[simp] theorem vtype_inj : vtype space vid className = vtype space other otherClass ↔
      vid = other ∧ className = otherClass := by
  simp [vtype]

section

variable (kv : KV) (space : String)

def Stored (t : Triple) : Prop := ∃ rank value, kv.get (t.key space rank) = some value

def Asserted (t : Triple) : Prop :=
  ∃ rank value, kv.get (t.key space rank) = some value ∧ value.isAsserted = true

end

/-- The kinds of keys that hold nothing but derived data. -/
def derivedKinds : List (Option String) := [some "in-edge", some "vtype", some "prov", some "prov-rev"]

/-- Between two states of the store only derived data of a space differ. -/
structure KeepsAssertions (space : String) (before after : KV) : Prop where
  asserted : ∀ key, key.kind space = some "edge" →
    (after.get key).filter Val.isAsserted = (before.get key).filter Val.isAsserted
  other : ∀ key, key.kind space ≠ some "edge" → key.kind space ∉ derivedKinds → after.get key = before.get key

namespace KeepsAssertions

variable {space : String} {before after final : KV}

theorem refl (space : String) (kv : KV) : KeepsAssertions space kv kv := ⟨fun _ _ => rfl, fun _ _ _ => rfl⟩

theorem trans (first : KeepsAssertions space before after)
    (second : KeepsAssertions space after final) : KeepsAssertions space before final where
  asserted key edge := (second.asserted key edge).trans (first.asserted key edge)
  other key edge derived := (second.other key edge derived).trans (first.other key edge derived)

section

variable (keeps : KeepsAssertions space before after)
include keeps

theorem symm : KeepsAssertions space after before where
  asserted key edge := (keeps.asserted key edge).symm
  other key edge derived := (keeps.other key edge derived).symm

theorem get_asserted (edge : key.kind space = some "edge") (value : Val) :
    (after.get key = some value ∧ value.isAsserted = true) ↔ (before.get key = some value ∧ value.isAsserted = true) := by
  rw [← Option.filter_eq_some_iff, ← Option.filter_eq_some_iff, keeps.asserted key edge]

theorem asserted_iff (t : Triple) : Asserted after space t ↔ Asserted before space t := by
  simp [Asserted, keeps.get_asserted (t.kind_key space _)]

theorem edgeFlags_eq : edgeFlags after space = edgeFlags before space := by
  have kind : ∀ name, (Key.edge space name).kind space = if "space" = space then some space else none := by
    intro name
    simp [Key.edge, Key.kind]
  funext name
  have same : after.get (Key.edge space name) = before.get (Key.edge space name) := by
    refine keeps.other _ ?_ ?_ <;> rw [kind] <;> split <;> simp [derivedKinds] <;> grind
  rw [edgeFlags, edgeFlags, same]

end

theorem insert {kv : KV} {key : Key} {value : Val} (derived : key.kind space ∈ derivedKinds ∨
      key.kind space = some "edge" ∧ (kv.get key).filter Val.isAsserted = none ∧
      value.isAsserted = false) : KeepsAssertions space kv (kv.insert key value) where
  asserted other edge := by
    rw [get_insert]
    split
    · rename_i same
      subst same
      rcases derived with kind | ⟨_, old, new⟩
      · simp [edge, derivedKinds] at kind
      · rw [old]
        simp [Option.filter, new]
    · rfl
  other other edge kind := by
    rw [get_insert]
    split
    · rename_i same
      subst same
      rcases derived with derived | ⟨other, _⟩
      · exact absurd derived kind
      · exact absurd other edge
    · rfl

theorem putAll (derived : ∀ put ∈ puts, put.1.kind space ∈ derivedKinds) :
    KeepsAssertions space kv (kv.putAll puts) := by
  induction puts generalizing kv with
  | nil => exact .refl space kv
  | cons put rest ih =>
    exact (insert (.inl (derived put mem_cons_self))).trans
      (ih fun other mem => derived other (mem_cons_of_mem _ mem))

end KeepsAssertions

/-- The store while the derived data of a space are rebuilt over the assertions
of `base`: `stored` are the triples with an edge, `typed` the inferred types. -/
structure Rederived (space : String) (base kv : KV) (stored : Triple → Prop)
    (typed : Int → String → Prop) : Prop where
  keeps : KeepsAssertions space base kv
  complete : ∀ t, Asserted base space t → stored t
  forward : ∀ t rank value, kv.get (t.key space rank) = some value ↔
    (base.get (t.key space rank) = some value ∧ value.isAsserted = true) ∨
      (stored t ∧ ¬ Asserted base space t ∧ rank = 0 ∧ value = .edge (inferredEdge t))
  reverse : ∀ (t : Triple) (rank : Int), kv.get (t.inKey space rank) = kv.get (t.key space rank)
  types : ∀ vid className, (kv.get (vtype space vid className)).isSome = true ↔ typed vid className

namespace Rederived

variable {space : String} {base kv : KV} {stored : Triple → Prop} {typed : Int → String → Prop}

theorem stored_iff (rederived : Rederived space base kv stored typed) (t : Triple) : Stored kv space t ↔ stored t := by
  constructor
  · rintro ⟨rank, value, found⟩
    rcases (rederived.forward t rank value).mp found with old | new
    · exact rederived.complete t ⟨rank, value, old⟩
    · exact new.1
  · intro held
    by_cases asserted : Asserted base space t
    · obtain ⟨rank, value, found⟩ := asserted
      exact ⟨rank, value, (rederived.forward t rank value).mpr (.inl found)⟩
    · exact ⟨0, _, (rederived.forward t 0 _).mpr (.inr ⟨held, asserted, rfl, rfl⟩)⟩

theorem keeps_of (before : Rederived space base kv stored typed)
    (after : Rederived space base kv' stored' typed') : KeepsAssertions space kv kv' :=
  before.keeps.symm.trans after.keeps

section

variable (rederived : Rederived space base kv stored typed)
include rederived

theorem congr (sameStored : ∀ t, stored t ↔ stored' t)
    (sameTyped : ∀ vid className, typed vid className ↔ typed' vid className) :
    Rederived space base kv stored' typed' := by
  have storedEq : stored = stored' := funext fun t => propext (sameStored t)
  have typedEq : typed = typed' := funext fun vid => funext fun className => propext (sameTyped vid className)
  exact storedEq ▸ typedEq ▸ rederived

theorem putProvenance
    (provenance : ∀ put ∈ puts, put.1.kind space ∈ [some "prov", some "prov-rev"]) :
    Rederived space base (kv.putAll puts) stored typed := by
  have untouched : ∀ {key : Key}, key.kind space ∉ [some "prov", some "prov-rev"] →
      (kv.putAll puts).get key = kv.get key := by
    intro key kind
    apply get_putAll_of_not_mem
    intro mem
    obtain ⟨put, listed, rfl⟩ := mem_map.mp mem
    exact kind (provenance put listed)
  refine ⟨rederived.keeps.trans (.putAll ?_), rederived.complete, ?_, ?_, ?_⟩
  · intro put listed
    have kind := provenance put listed
    simp only [mem_cons, not_mem_nil, or_false] at kind
    rcases kind with kind | kind <;> simp [kind, derivedKinds]
  · intro t rank value
    rw [untouched (by simp)]
    exact rederived.forward t rank value
  · intro t rank
    rw [untouched (by simp), untouched (by simp)]
    exact rederived.reverse t rank
  · intro vid className
    rw [untouched (by simp)]
    exact rederived.types vid className

theorem putType (vid : Int) (className : String) :
    Rederived space base (kv.insert (vtype space vid className) .empty) stored
      (fun other otherClass => typed other otherClass ∨ (other = vid ∧ otherClass = className)) := by
  have untouched : ∀ {key : Key}, key.kind space ≠ some "vtype" →
      (kv.insert (vtype space vid className) .empty).get key = kv.get key := by
    intro key kind
    rw [get_insert, if_neg]
    rintro rfl
    simp at kind
  refine ⟨rederived.keeps.trans (.insert (.inl (by simp [derivedKinds]))), rederived.complete, ?_, ?_, ?_⟩
  · intro t rank value
    rw [untouched (by simp)]
    exact rederived.forward t rank value
  · intro t rank
    rw [untouched (by simp), untouched (by simp)]
    exact rederived.reverse t rank
  · intro other otherClass
    rw [get_insert, ← rederived.types]
    by_cases same : other = vid ∧ otherClass = className <;> simp [same]

theorem putEdge (fresh : ¬ stored t) :
    Rederived space base ((kv.insert (t.key space 0) (.edge (inferredEdge t))).insert (t.inKey space 0)
      (.edge (inferredEdge t))) (fun other => stored other ∨ other = t) typed := by
  have unasserted : ¬ Asserted base space t := fun asserted => fresh (rederived.complete t asserted)
  have absent : kv.get (t.key space 0) = none := by
    cases found : kv.get (t.key space 0) with
    | none => rfl
    | some value => exact absurd ((rederived.stored_iff t).mp ⟨0, value, found⟩) fresh
  have marked : (Val.edge (inferredEdge t)).isAsserted = false := by
    simp [Val.isAsserted, EdgeData.isInferred, inferredEdge]
  have apart : ∀ (key other : Key), key.kind space ≠ other.kind space → key ≠ other := by
    rintro key _ kinds rfl
    exact kinds rfl
  refine ⟨?_, fun other asserted => .inl (rederived.complete other asserted), ?_, ?_, ?_⟩
  · refine rederived.keeps.trans (KeepsAssertions.trans (.insert (.inr ?_)) (.insert (.inl ?_)))
    · exact ⟨by simp, by rw [absent]; rfl, marked⟩
    · simp [derivedKinds]
  · intro other rank value
    rw [get_insert, if_neg (apart _ _ (by simp)), get_insert]
    by_cases here : other = t ∧ rank = 0
    · obtain ⟨rfl, rfl⟩ := here
      have before : ¬ (base.get (other.key space 0) = some value ∧ value.isAsserted = true) :=
        fun found => unasserted ⟨0, value, found⟩
      rw [if_pos rfl, Option.some.injEq]
      constructor
      · intro same
        exact .inr ⟨.inr rfl, unasserted, rfl, same.symm⟩
      · rintro (old | ⟨_, _, _, same⟩)
        · exact absurd old before
        · exact same.symm
    · rw [if_neg (by simpa using here), rederived.forward]
      grind
  · intro other rank
    have inApart := apart (other.inKey space rank) (t.key space 0) (by simp)
    have forwardApart := apart (other.key space rank) (t.inKey space 0) (by simp)
    simp [if_neg inApart, if_neg forwardApart, rederived.reverse]
  · intro vid className
    rw [get_insert, if_neg (apart _ _ (by simp)), get_insert, if_neg (apart _ _ (by simp))]
    exact rederived.types vid className

end

end Rederived

theorem provKey_inj : provKey space fact = provKey space other ↔ fact = other := by
  cases fact <;> cases other <;> simp [provKey, provEdge, provVtype]

@[simp] theorem kind_provKey : (provKey space fact).kind space = some "prov" := by
  cases fact <;> simp [provKey, provEdge, provVtype, Key.kind]

/-- The entry of a triple in the reverse index. -/
def Triple.revKey (space : String) (t : Triple) : Key := provRevEdge space t.s t.p t.d

@[simp] theorem Triple.revKey_inj {t u : Triple} : t.revKey space = u.revKey space ↔ t = u := by
  cases t
  cases u
  simp [Triple.revKey, provRevEdge]

@[simp] theorem Triple.kind_revKey (space : String) (t : Triple) : (t.revKey space).kind space = some "prov-rev" := by
  simp [Triple.revKey, provRevEdge, Key.kind]

/-- The reasons stored for each fact are those recorded for it, and the reverse entry
of a triple lists the facts that it is a premise of, each of them once. -/
structure Explains (space : String) (kv : KV) (recorded : Fact × Justification → Prop) : Prop where
  reasons : ∀ fact, ∃ justs, readJustifications (kv.get (provKey space fact)) = .ok justs ∧ justs.Nodup ∧
    ∀ reason, reason ∈ justs ↔ recorded (fact, reason)
  uses : ∀ t : Triple, ∃ facts, readFacts (kv.get (t.revKey space)) = .ok facts ∧ facts.Nodup ∧
    ∀ fact, fact ∈ facts ↔ ∃ reason, recorded (fact, reason) ∧ t.fact ∈ reason.premises

namespace Explains

variable {space : String} {kv : KV}

section

variable (explains : Explains space kv recorded)

include explains

theorem congr (same : ∀ outcome, recorded outcome ↔ recorded' outcome) :
    Explains space kv recorded' := by
  have equal : recorded = recorded' := funext fun outcome => propext (same outcome)
  exact equal ▸ explains

theorem keep (same : ∀ key : Key, key.kind space ∈ [some "prov", some "prov-rev"] →
      kv'.get key = kv.get key) : Explains space kv' recorded where
  reasons fact := by
    rw [same _ (by simp)]
    exact explains.reasons fact
  uses t := by
    rw [same _ (by simp)]
    exact explains.uses t

theorem insert (apart : key.kind space ∉ [some "prov", some "prov-rev"])
    (value : Val) : Explains space (kv.insert key value) recorded := by
  refine explains.keep fun other kind => ?_
  rw [get_insert, if_neg]
  rintro rfl
  exact apart kind

end

theorem none (missing : ∀ key : Key, key.kind space ∈ [some "prov", some "prov-rev"] → kv.get key = none) :
    Explains space kv fun _ => False where
  reasons fact := ⟨[], by rw [missing _ (by simp)]; rfl, .nil, by simp⟩
  uses t := ⟨[], by rw [missing _ (by simp)]; rfl, .nil, by simp⟩

end Explains

end ByoriDB.Executor
