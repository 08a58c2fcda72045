import ByoriDB.Executor.Catalog
import ByoriDB.Executor.Runs

/-! A class is refused when a superclass is too deep, but it is one link further away itself. -/

namespace ByoriDB.Executor

open List Data Program Store ByoriDB.Graph
open SchemaKey (tag)

variable {env : Env} {space name : String} {world : World} {kv kv' : KV} {fuel : Nat} {a b n : String}

/-- Class records can be read and name only classes that exist. -/
structure Hierarchy (space : String) (kv : KV) : Prop where
  reads : ReadsClasses space kv
  closed : ∀ a b, ClassLink space kv a b → IsClass space kv b

def AllWithin (space : String) (kv : KV) : Prop :=
  ∀ name, IsClass space kv name → WithinDepth (ClassLink space kv) name

def AllFindAncestors (env : Env) (space : String) (world : World) : Prop :=
  ∀ name, IsClass space world.kv name → FindsAncestors env space world name

theorem allFindAncestors_iff (reads : ReadsClasses space world.kv) :
    AllFindAncestors env space world ↔ AllWithin space world.kv :=
  forall₂_congr fun _ _ => findsAncestors_iff reads

section

variable (same : ∀ n, kv'.get (class_ space n) = kv.get (class_ space n))
include same

theorem classLink_congr : ClassLink space kv' = ClassLink space kv := by
  funext a b
  simp [ClassLink, same]

theorem isClass_congr : IsClass space kv' = IsClass space kv := by
  funext n
  simp [IsClass, same]

theorem Hierarchy.congr (hierarchy : Hierarchy space kv) : Hierarchy space kv' where
  reads := hierarchy.reads.congr same
  closed a b := by
    rw [classLink_congr same, isClass_congr same]
    exact hierarchy.closed a b

theorem allWithin_congr : AllWithin space kv' ↔ AllWithin space kv := by
  rw [AllWithin, AllWithin, classLink_congr same, isClass_congr same]

end

/-- The links when the class has been created: its own, and those back from the classes it
is equivalent to. -/
def GrownLink (space : String) (kv : KV) (plan : CreateClassPlan) (a b : String) : Prop :=
  ClassLink space kv a b ∨ (a = plan.name ∧ (b ∈ plan.superclasses ∨ b ∈ plan.equivalentClasses)) ∨
    (a ∈ plan.equivalentClasses ∧ b = plan.name)

section

variable {plan : CreateClassPlan} (creatable : Creatable space kv plan) (reads : ReadsClasses space kv)
include creatable reads

theorem isClass_created : IsClass space (kv.putAll (plan.puts space kv)) n ↔ n = plan.name ∨ IsClass space kv n := by
  rw [IsClass, get_created creatable reads]
  split
  · rename_i self
    simp [self]
  · rename_i other
    rw [or_iff_right other]
    split <;> simp [IsClass]

theorem classLink_created : ClassLink space (kv.putAll (plan.puts space kv)) = GrownLink space kv plan := by
  have fresh : ∀ definition, kv.get (class_ space plan.name) ≠ some (.classDef definition) := by
    intro definition found
    exact creatable.fresh.1 (by simp [IsClass, found])
  funext a b
  rw [eq_iff_iff, ClassLink, GrownLink, ClassLink, get_created creatable reads]
  by_cases self : a = plan.name
  · have other : a ∉ plan.equivalentClasses := fun mem => (creatable.equivalent a mem).1 self
    simp [self, fresh, CreateClassPlan.definition, self ▸ other]
  · by_cases named : a ∈ plan.equivalentClasses
    · obtain ⟨value, found⟩ := Option.isSome_iff_exists.mp (creatable.equivalent a named).2
      obtain ⟨definition, rfl, -⟩ := reads a value found
      simp only [self, named, found, if_false, if_true, Option.map_some, withEquivalent, Option.some.injEq, Val.classDef.injEq,
        exists_eq_left', false_and, true_and, false_or]
      split
      · rename_i listed
        rw [contains_iff_mem] at listed
        constructor
        · exact .inl
        · rintro (old | rfl)
          · exact old
          · exact mem_append_right _ listed
      · simp [or_assoc]
    · simp [self, named]

theorem Hierarchy.created (hierarchy : Hierarchy space kv) : Hierarchy space (kv.putAll (plan.puts space kv)) where
  reads := reads.created creatable
  closed a b := by
    rw [classLink_created creatable reads, isClass_created creatable reads]
    rintro (old | ⟨-, parent | equivalent⟩ | ⟨-, rfl⟩)
    · exact .inr (hierarchy.closed a b old)
    · exact .inr (creatable.superclasses b parent).1.2
    · exact .inr (creatable.equivalent b equivalent).2
    · exact .inl rfl

theorem allWithin_created : AllWithin space (kv.putAll (plan.puts space kv)) ↔
    ∀ n, n = plan.name ∨ IsClass space kv n → WithinDepth (GrownLink space kv plan) n := by
  rw [AllWithin, classLink_created creatable reads]
  exact forall_congr' fun n => imp_congr_left (isClass_created creatable reads)

end

section

variable (unreferenced : Unreferenced space kv name)

theorem get_dropped : (kv.eraseAll [class_ space name, tag space name]).get (class_ space n) =
    if n = name then none else kv.get (class_ space n) := by
  simp [class_, tag]

theorem isClass_dropped : IsClass space (kv.eraseAll [class_ space name, tag space name]) n ↔
    n ≠ name ∧ IsClass space kv n := by
  rw [IsClass, get_dropped]
  split <;> simp_all [IsClass]

theorem classLink_dropped : ClassLink space (kv.eraseAll [class_ space name, tag space name]) a b ↔
    a ≠ name ∧ ClassLink space kv a b := by
  simp only [ClassLink, get_dropped]
  split <;> simp_all

include unreferenced

theorem Hierarchy.dropped (hierarchy : Hierarchy space kv) :
    Hierarchy space (kv.eraseAll [class_ space name, tag space name]) where
  reads := by
    have edits : (SchemaStatement.dropClass name false).Edits space kv _ := .inr ⟨unreferenced, rfl⟩
    exact hierarchy.reads.edits edits
  closed a b := by
    rw [classLink_dropped, isClass_dropped]
    rintro ⟨apart, link⟩
    refine ⟨?_, hierarchy.closed a b link⟩
    rintro rfl
    exact unreferenced.classes a apart link

theorem AllWithin.dropped (within : AllWithin space kv) :
    AllWithin space (kv.eraseAll [class_ space name, tag space name]) := by
  intro start exists_ v far
  obtain ⟨apart, exists_⟩ := isClass_dropped.mp exists_
  have avoids : ∀ u, Relation.ReflTransGen (ClassLink space kv) start u → u ≠ name := by
    intro u reached
    induction reached with
    | refl => exact apart
    | tail _ link ih =>
      rintro rfl
      exact unreferenced.classes _ ih link
  refine within start exists_ v ((atDistance_congr fun u reached v => ?_).mp far)
  rw [classLink_dropped]
  exact and_iff_right (avoids u reached)

end

/-- A class that is created leaves all classes within the depth limit. -/
def SchemaStatement.KeepsDepth (space : String) (kv : KV) : SchemaStatement → Prop
  | .createClass plan => ¬ Dirty space kv → Creatable space kv plan →
      ∀ n, n = plan.name ∨ IsClass space kv n → WithinDepth (GrownLink space kv plan) n
  | _ => True

theorem Hierarchy.edits {statement : SchemaStatement} (hierarchy : Hierarchy space kv) (within : AllWithin space kv)
    (edits : statement.Edits space kv kv') (unmarked : ¬ Dirty space kv) :
    Hierarchy space kv' ∧ (AllWithin space kv' ↔ statement.KeepsDepth space kv) := by
  have kept : ∀ {kv'}, (∀ n, kv'.get (class_ space n) = kv.get (class_ space n)) →
      Hierarchy space kv' ∧ (AllWithin space kv' ↔ True) :=
    fun same => ⟨hierarchy.congr same, by simpa [allWithin_congr same] using within⟩
  cases statement with
  | createTag name _ props =>
    rcases edits with ⟨-, rfl⟩ | ⟨-, rfl⟩
    · exact kept fun n => by rw [get_insert, if_neg (by simp [class_, tag])]
    · exact kept fun _ => rfl
  | createClass plan =>
    rcases edits with ⟨creatable, rfl⟩ | ⟨refused, rfl⟩
    · refine ⟨hierarchy.created creatable hierarchy.reads, ?_⟩
      rw [allWithin_created creatable hierarchy.reads]
      exact ⟨fun all _ _ => all, fun fits => fits unmarked creatable⟩
    · exact ⟨hierarchy, fun _ _ creatable => absurd creatable refused, fun _ => within⟩
  | createEdge plan =>
    rcases edits with ⟨-, rfl⟩ | ⟨-, rfl⟩
    · exact kept fun n => by rw [get_insert, if_neg (by simp [class_, Key.edge])]
    · exact kept fun _ => rfl
  | dropTag name _ =>
    rcases edits with ⟨-, rfl⟩ | ⟨-, rfl⟩
    · exact kept fun n => by rw [get_erase, if_neg (by simp [class_, tag])]
    · exact kept fun _ => rfl
  | dropClass name _ =>
    rcases edits with rfl | ⟨unreferenced, rfl⟩
    · exact kept fun _ => rfl
    · exact ⟨hierarchy.dropped unreferenced, fun _ => trivial, fun _ => within.dropped unreferenced⟩
  | dropEdge name _ =>
    rcases edits with ⟨-, rfl⟩ | ⟨-, rfl⟩
    · exact kept fun n => by rw [get_erase, if_neg (by simp [class_, Key.edge])]
    · exact kept fun _ => rfl

theorem Hierarchy.after (env : Env) (fuel : Nat) {request : SchemaRequest}
    (selected : request.ctx.space = some space) (hierarchy : Hierarchy space world.kv)
    (within : AllWithin space world.kv) : Hierarchy space (request.after env fuel world).kv ∧
      (AllWithin space (request.after env fuel world).kv ↔
      request.statement.KeepsDepth space world.kv) := by
  obtain ⟨kv', moves, same⟩ := after_moves selected hierarchy.reads
  have reached : Hierarchy space kv' ∧ (AllWithin space kv' ↔ request.statement.KeepsDepth space world.kv) := by
    rcases moves with ⟨marked, rfl⟩ | ⟨unmarked, edits⟩
    · refine ⟨hierarchy, fun _ => ?_, fun _ => within⟩
      cases request.statement with
      | createClass plan => exact fun unmarked => absurd marked unmarked
      | _ => trivial
    · exact hierarchy.edits within edits unmarked
  exact ⟨reached.1.congr same.class_, (allWithin_congr same.class_).trans reached.2⟩

/-- The ancestors of all classes can be computed after every statement of a run exactly
when every class that the run creates keeps the depth limit. -/
theorem classAncestors_run (requests : List SchemaRequest) (selected : ∀ request ∈ requests, request.ctx.space = some space)
    (hierarchy : Hierarchy space world.kv) (initially : AllFindAncestors env space world) :
    Throughout env fuel (fun world request => AllFindAncestors env space (request.after env fuel world)) world requests ↔
      Throughout env fuel (fun world request => request.statement.KeepsDepth space world.kv) world requests := by
  refine throughout_congr (fun world => Hierarchy space world.kv ∧ AllWithin space world.kv) ?_
    ⟨hierarchy, (allFindAncestors_iff hierarchy.reads).mp initially⟩
  rintro request mem world ⟨hierarchy, within⟩
  obtain ⟨hierarchy', keeps⟩ := hierarchy.after env fuel (selected request mem) within
  rw [allFindAncestors_iff hierarchy'.reads]
  exact ⟨keeps, fun within' => ⟨hierarchy', within'⟩⟩

def subclass (name parent : String) : SchemaRequest := ⟨graphCtx, .createClass { name, superclasses := [parent] }⟩

def rootClass (name : String) : SchemaRequest := ⟨graphCtx, .createClass { name }⟩

/-- The first class reaches the third one over their equivalence with the second; the fourth is dropped. -/
def linkedClasses : List SchemaRequest :=
  [rootClass "a", subclass "b" "a", ⟨graphCtx, .createClass { name := "c", superclasses := ["b"], equivalentClasses := ["a"] }⟩,
    subclass "d" "c", ⟨graphCtx, .dropClass "d" false⟩]

def resolves (world : World) (entry : Key × Val) : Bool :=
  match entry.1 with
  | .text [.word _, .word _, .word "class", .word name] => ((classAncestorsOf "g" name).run (handler graphEnv) world).1.isOk
  | _ => true

theorem allFindAncestors_of_entries (entries : world.kv.toList.all (resolves world) = true) :
    AllFindAncestors graphEnv "g" world := by
  intro name exists_
  obtain ⟨value, found⟩ := Option.isSome_iff_exists.mp exists_
  obtain ⟨ancestors, ran⟩ := ran_of_isOk (all_eq_true.mp entries _ (mem_toList.mpr found))
  exact ⟨ancestors, by rw [ran]⟩

theorem classAncestors_run_linked :
    (linkedClasses.foldl (SchemaRequest.after graphEnv 10) freshSpace).kv.get (class_ "g" "d") =
      none ∧ Throughout graphEnv 10 (fun world request =>
      request.statement.KeepsDepth "g" world.kv) freshSpace linkedClasses := by
  have hierarchy : Hierarchy "g" freshSpace.kv := by
    refine ⟨fun name value found => ?_, ?_⟩
    · cases found
    · rintro a b ⟨definition, found, -⟩
      cases found
  have initially : AllFindAncestors graphEnv "g" freshSpace := allFindAncestors_of_entries (by decide +kernel)
  refine ⟨by decide +kernel, (classAncestors_run linkedClasses
    (by simp [linkedClasses, rootClass, subclass, graphCtx]) hierarchy initially).mp ?_⟩
  refine ⟨?_, ?_, ?_, ?_, ?_, trivial⟩ <;> exact allFindAncestors_of_entries (by decide +kernel)

example : ((classAncestorsOf "g" "a").run (handler graphEnv)
      (linkedClasses.foldl (SchemaRequest.after graphEnv 10) freshSpace)).1.toOption =
    some ["c", "b"] := by
  decide +kernel

def deepClasses : List SchemaRequest :=
  rootClass "a" :: List.zipWith subclass ["b", "c", "d", "e", "f", "g", "h", "i", "j", "k", "l", "m", "n", "o", "p", "q"]
    ["a", "b", "c", "d", "e", "f", "g", "h", "i", "j", "k", "l", "m", "n", "o", "p"]

/-- Every one of the classes is created, but the last one is too deep. -/
theorem classAncestors_deep : IsClass "g" (deepClasses.foldl (SchemaRequest.after graphEnv 0) freshSpace).kv "q" ∧
      ¬ FindsAncestors graphEnv "g" (deepClasses.foldl (SchemaRequest.after graphEnv 0) freshSpace) "q" := by
  refine ⟨by unfold IsClass; decide +kernel, ?_⟩
  rintro ⟨ancestors, found⟩
  have failed : ((classAncestorsOf "g" "q").run (handler graphEnv)
      (deepClasses.foldl (SchemaRequest.after graphEnv 0) freshSpace)).1.toOption = none := by decide +kernel
  rw [found] at failed
  cases failed

end ByoriDB.Executor
