import ByoriDB.Executor.Catalog
import ByoriDB.Executor.Runs

namespace ByoriDB.Executor

open List Data Program Store ByoriDB.Graph
open SchemaKey (edge tag)

variable {env : Env} {space name : String} {world : World} {fuel : Nat}

def Declared (space : String) (kv : KV) (name : String) (semantics : SemanticFlags) : Prop :=
  ∃ schema, kv.get (edge space name) = some (.edgeSchema schema) ∧ schema.semantics = semantics

def Intact (space : String) (kv : KV) : Prop :=
  ∀ name semantics, Declared space kv name semantics → Anchored space kv semantics

/-- What is dropped is not named by an edge type that stays. -/
def SchemaStatement.Respects (space : String) (kv : KV) : SchemaStatement → Prop
  | .dropEdge name _ => ¬ Dirty space kv → name ≠ sameasEdge →
      ∀ other semantics, other ≠ name → Declared space kv other semantics → name ∉ semantics.relatives
  | .dropTag name _ => ¬ Dirty space kv → ¬ IsClass space kv name →
      ∀ other semantics, Declared space kv other semantics → name ∉ semantics.endpoints
  | _ => True

theorem Anchored.mono (anchored : Anchored space kv semantics)
    (edges : ∀ target ∈ semantics.relatives, IsEdgeType space kv target → IsEdgeType space kv' target)
    (classes : ∀ target ∈ semantics.endpoints, IsClass space kv target ∨ IsTag space kv target →
      IsClass space kv' target ∨ IsTag space kv' target) : Anchored space kv' semantics :=
  ⟨fun target named => edges target named (anchored.1 target named),
    fun target named => classes target named (anchored.2 target named)⟩

theorem declared_congr (same : ∀ n, kv'.get (edge space n) = kv.get (edge space n)) :
    Declared space kv' = Declared space kv := by
  funext n semantics
  simp [Declared, same]

theorem isEdgeType_congr (same : ∀ n, kv'.get (edge space n) = kv.get (edge space n)) :
    IsEdgeType space kv' = IsEdgeType space kv := by
  funext n
  simp [IsEdgeType, same]

theorem Intact.of_edges (intact : Intact space kv)
    (same : ∀ n, kv'.get (edge space n) = kv.get (edge space n))
    (classes : ∀ other semantics, Declared space kv other semantics →
      ∀ target ∈ semantics.endpoints, IsClass space kv target ∨ IsTag space kv target →
      IsClass space kv' target ∨ IsTag space kv' target) : Intact space kv' := by
  intro other semantics declared
  rw [declared_congr same] at declared
  refine (intact other semantics declared).mono (fun target _ exists_ => ?_) (classes other semantics declared)
  rwa [isEdgeType_congr same]

theorem SameSchema.intact (same : SameSchema space kv kv') : Intact space kv' ↔ Intact space kv := by
  have edges : ∀ n, kv'.get (edge space n) = kv.get (edge space n) := fun n => same _ covers_schema
  have tags : ∀ n, kv'.get (tag space n) = kv.get (tag space n) := fun n => same _ covers_schema
  constructor
  · intro intact
    refine intact.of_edges (fun n => (edges n).symm) fun _ _ _ target _ exists_ => ?_
    simpa [IsClass, IsTag, same.class_, tags] using exists_
  · intro intact
    refine intact.of_edges edges fun _ _ _ target _ exists_ => ?_
    simpa [IsClass, IsTag, same.class_, tags] using exists_

theorem Intact.createTag (intact : Intact space kv) (props : List PropertyDef) :
    Intact space (kv.insert (.tag space name) (.tagSchema ⟨name, props, none⟩)) := by
  refine intact.of_edges (fun n => ?_) fun _ _ _ target _ exists_ => exists_.imp (fun class_ => ?_) fun tag => ?_
  · rw [get_insert, if_neg (by simp [edge, Key.tag])]
  · rwa [IsClass, get_insert, if_neg (by simp [SchemaKey.class_, Key.tag])]
  · rw [IsTag, get_insert]
    split
    · rfl
    · exact tag

theorem CreateClassPlan.mem_puts {plan : CreateClassPlan} (listed : key ∈ (plan.puts space kv).map Prod.fst) :
    key = Key.tag space plan.name ∨ ∃ n, key = SchemaKey.class_ space n := by
  rw [CreateClassPlan.puts, map_cons, map_cons, mem_cons, mem_cons] at listed
  rcases listed with tag | class_ | registered
  · exact .inl tag
  · exact .inr ⟨_, class_⟩
  · obtain ⟨pair, mem, rfl⟩ := mem_map.mp registered
    obtain ⟨_, group, mem⟩ := mem_flatten.mp mem
    obtain ⟨target, -, rfl⟩ := mem_map.mp group
    unfold registration at mem
    split at mem
    · split at mem
      · cases mem
      · cases mem_singleton.mp mem
        exact .inr ⟨target, rfl⟩
    · cases mem

section

variable (intact : Intact space kv)

include intact

theorem Intact.createClass (plan : CreateClassPlan) : Intact space (kv.putAll (plan.puts space kv)) := by
  refine intact.of_edges (fun n => get_putAll_of_not_mem fun listed => ?_) fun _ _ _ target _ exists_ => ?_
  · rcases CreateClassPlan.mem_puts listed with same | ⟨_, same⟩ <;> simp [edge, tag, class_] at same
  · rw [IsClass, IsTag, isSome_putAll, isSome_putAll]
    exact exists_.imp .inr .inr

theorem Intact.createEdge {plan : CreateEdgePlan} (anchored : Anchored space kv plan.semantics) :
    Intact space (kv.insert (edge space plan.name) (.edgeSchema ⟨plan.name, plan.props, plan.semantics, none⟩)) := by
  have grown : ∀ {semantics : SemanticFlags}, Anchored space kv semantics →
      Anchored space (kv.insert (edge space plan.name)
        (.edgeSchema ⟨plan.name, plan.props, plan.semantics, none⟩)) semantics := by
    refine fun anchored => anchored.mono (fun target _ exists_ => ?_) fun target _ exists_ => ?_
    · rw [IsEdgeType, get_insert]
      split
      · rfl
      · exact exists_
    · rwa [IsClass, IsTag, get_insert, if_neg (by simp [edge, class_]), get_insert, if_neg (by simp [edge, tag])]
  rintro other semantics ⟨schema, found, rfl⟩
  rw [get_insert] at found
  split at found
  · cases found
    exact grown anchored
  · exact grown (intact other _ ⟨schema, found, rfl⟩)

theorem intact_dropTag (plain : ¬ IsClass space kv name) : Intact space (kv.erase (.tag space name)) ↔
      ∀ other semantics, Declared space kv other semantics → name ∉ semantics.endpoints := by
  have edges : ∀ n, (kv.erase (.tag space name)).get (edge space n) = kv.get (edge space n) := by
    intro n
    rw [get_erase, if_neg (by simp [edge, Key.tag])]
  have classes : ∀ n, IsClass space (kv.erase (.tag space name)) n ↔ IsClass space kv n := by
    intro n
    rw [IsClass, get_erase, if_neg (by simp [SchemaKey.class_, Key.tag]), IsClass]
  constructor
  · intro intact' other semantics declared named
    rcases (intact' other semantics (declared_congr edges ▸ declared)).2 name named with class_ | tag
    · exact plain ((classes name).mp class_)
    · simp [IsTag] at tag
  · intro unnamed
    refine intact.of_edges edges fun other semantics declared target named exists_ =>
      exists_.imp (classes target).mpr fun tag => ?_
    have apart : target ≠ name := fun same => unnamed other semantics declared (same ▸ named)
    rwa [IsTag, get_erase, if_neg (by simpa [Key.tag] using apart)]

theorem Intact.dropClass (unreferenced : Unreferenced space kv name) :
    Intact space (kv.eraseAll [class_ space name, tag space name]) := by
  refine intact.of_edges (fun n => ?_) ?_
  · rw [get_eraseAll, if_neg (by simp [edge, class_, tag])]
  · rintro other _ ⟨schema, found, rfl⟩ target named exists_
    have apart : target ≠ name := fun same => unreferenced.edges other schema found (same ▸ named)
    rwa [IsClass, IsTag, get_eraseAll, if_neg (by simpa [class_, tag] using apart), get_eraseAll,
      if_neg (by simpa [class_, tag] using apart)]

theorem intact_dropEdge : Intact space (kv.erase (edge space name)) ↔ ∀ other semantics,
      other ≠ name → Declared space kv other semantics → name ∉ semantics.relatives := by
  have edges : ∀ n, (kv.erase (edge space name)).get (edge space n) =
      if n = name then none else kv.get (edge space n) := by
    intro n
    simp [edge]
  have declares : ∀ other semantics, Declared space (kv.erase (edge space name)) other semantics ↔
      other ≠ name ∧ Declared space kv other semantics := by
    intro other semantics
    rw [Declared, edges]
    split <;> simp_all [Declared]
  constructor
  · intro intact' other semantics apart declared named
    have exists_ := (intact' other semantics ((declares other semantics).mpr ⟨apart, declared⟩)).1 name named
    rw [IsEdgeType, edges, if_pos rfl] at exists_
    cases exists_
  · intro unnamed other semantics declared
    obtain ⟨apart, declared⟩ := (declares other semantics).mp declared
    refine (intact other semantics declared).mono (fun target named exists_ => ?_) fun target _ exists_ => ?_
    · have kept : target ≠ name := fun same => unnamed other semantics apart declared (same ▸ named)
      rw [IsEdgeType, edges, if_neg kept]
      exact exists_
    · rwa [IsClass, IsTag, get_erase, if_neg (by simp [edge, class_]), get_erase, if_neg (by simp [edge, tag])]

theorem Intact.edits {statement : SchemaStatement} (edits : statement.Edits space kv kv')
    (unmarked : ¬ Dirty space kv) : Intact space kv' ↔ statement.Respects space kv := by
  cases statement with
  | createTag name _ props =>
    rcases edits with ⟨-, rfl⟩ | ⟨-, rfl⟩
    · exact iff_of_true (intact.createTag props) trivial
    · exact iff_of_true intact trivial
  | createClass plan =>
    rcases edits with ⟨-, rfl⟩ | ⟨-, rfl⟩
    · exact iff_of_true (intact.createClass plan) trivial
    · exact iff_of_true intact trivial
  | createEdge plan =>
    rcases edits with ⟨accepted, rfl⟩ | ⟨-, rfl⟩
    · exact iff_of_true (intact.createEdge accepted.2.1) trivial
    · exact iff_of_true intact trivial
  | dropTag name _ =>
    rcases edits with ⟨⟨-, plain⟩, rfl⟩ | ⟨refused, rfl⟩
    · rw [intact_dropTag intact plain]
      exact ⟨fun unnamed _ _ => unnamed, fun respects => respects unmarked plain⟩
    · -- A name that is neither a class nor a tag is not named by an edge type.
      refine iff_of_true intact fun _ plain other semantics declared named => ?_
      rcases (intact other semantics declared).2 name named with class_ | tag
      · exact plain class_
      · exact refused ⟨tag, plain⟩
  | dropClass name _ =>
    rcases edits with rfl | ⟨unreferenced, rfl⟩
    · exact iff_of_true intact trivial
    · exact iff_of_true (intact.dropClass unreferenced) trivial
  | dropEdge name _ =>
    rcases edits with ⟨⟨plain, -⟩, rfl⟩ | ⟨refused, rfl⟩
    · rw [intact_dropEdge intact]
      exact ⟨fun unnamed _ _ => unnamed, fun respects => respects unmarked plain⟩
    · refine iff_of_true intact fun _ plain other semantics _ declared named => ?_
      exact refused ⟨plain, (intact other semantics declared).1 name named⟩

end

theorem Intact.after (env : Env) (fuel : Nat) {request : SchemaRequest} (selected : request.ctx.space = some space)
    (reads : ReadsClasses space world.kv) (intact : Intact space world.kv) :
    ReadsClasses space (request.after env fuel world).kv ∧
      (Intact space (request.after env fuel world).kv ↔ request.statement.Respects space world.kv) := by
  obtain ⟨kv', moves, same⟩ := after_moves selected reads
  rw [same.intact]
  rcases moves with ⟨marked, rfl⟩ | ⟨unmarked, edits⟩
  · refine ⟨reads.congr same.class_, iff_of_true intact ?_⟩
    cases request.statement with
    | dropTag name _ => exact fun unmarked => absurd marked unmarked
    | dropEdge name _ => exact fun unmarked => absurd marked unmarked
    | _ => trivial
  · exact ⟨(reads.edits edits).congr same.class_, intact.edits edits unmarked⟩

/-- Everything that an edge type names exists after every statement of a run exactly when
no edge type and no tag is dropped that another edge type names. -/
theorem schemaReferences_run (requests : List SchemaRequest)
    (selected : ∀ request ∈ requests, request.ctx.space = some space)
    (reads : ReadsClasses space world.kv) (intact : Intact space world.kv) : Throughout env fuel
      (fun world request => Intact space (request.after env fuel world).kv) world requests ↔
      Throughout env fuel
      (fun world request => request.statement.Respects space world.kv) world requests := by
  refine throughout_congr (fun world => ReadsClasses space world.kv ∧ Intact space world.kv) ?_ ⟨reads, intact⟩
  rintro request mem world ⟨reads, intact⟩
  obtain ⟨reads', respects⟩ := intact.after env fuel (selected request mem) reads
  exact ⟨respects, fun intact' => ⟨reads', intact'⟩⟩

def plainEdge (name : String) : SchemaRequest := ⟨graphCtx, .createEdge ⟨name, false, [], {}⟩⟩

def inverseEdge (name target : String) : SchemaRequest :=
  ⟨graphCtx, .createEdge ⟨name, false, [], { inverseOf := some target }⟩⟩

theorem intact_fresh : Intact "g" freshSpace.kv := by
  rintro name _ ⟨schema, found, rfl⟩
  have flags : edgeFlags freshSpace.kv "g" name = schema.semantics := by simp [edgeFlags, found]
  rw [edgeFlags_fresh] at flags
  rw [← flags]
  exact ⟨by simp [SemanticFlags.relatives], by simp [SemanticFlags.endpoints]⟩

theorem schemaReferences_run_inverse :
    Throughout graphEnv 10 (fun world request => Intact "g" (request.after graphEnv 10 world).kv) freshSpace
      [plainEdge "parent", inverseEdge "child" "parent"] :=
  (schemaReferences_run _ (by simp [plainEdge, inverseEdge, graphCtx]) (fun name value found => by
    cases found) intact_fresh).mpr ⟨trivial, trivial, trivial⟩

/-- An edge type has been dropped while another one is declared as its inverse. -/
def orphanedInverse : World :=
  [plainEdge "parent", inverseEdge "child" "parent",
    ⟨graphCtx, .dropEdge "parent" false⟩].foldl (SchemaRequest.after graphEnv 10) freshSpace

theorem schemaReferences_dangling : ¬ Intact "g" orphanedInverse.kv := by
  intro intact
  have found : orphanedInverse.kv.get (edge "g" "child") =
      some (.edgeSchema ⟨"child", [], { inverseOf := some "parent" }, none⟩) := by rfl
  have dropped : (orphanedInverse.kv.get (edge "g" "parent")).isSome = false := by decide +kernel
  have kept := (intact "child" _ ⟨_, found, rfl⟩).1 "parent" (by decide)
  cases kept

end ByoriDB.Executor
