import ByoriDB.Data.Levels
import ByoriDB.Executor.ClassDdl
import ByoriDB.Executor.Neighbors

namespace ByoriDB.Executor

open List Data Program
open Prog (Answers)
open Store ByoriDB.Graph

variable {name : String} {v : String}

theorem class_inj : class_ space left = class_ space right ↔ left = right := by
  simp [class_]

def IsClass (space : String) (kv : KV) (name : String) : Prop := (kv.get (class_ space name)).isSome = true

/-- The class names the other one among its superclasses or its equivalent classes. -/
def ClassLink (space : String) (kv : KV) (name target : String) : Prop :=
  ∃ definition, kv.get (class_ space name) = some (.classDef definition) ∧
    target ∈ definition.superclasses ++ definition.equivalentClasses

def ReadsClasses (space : String) (kv : KV) : Prop :=
  ∀ name value, kv.get (class_ space name) = some value → ∃ definition, value = .classDef definition ∧ definition.name = name

/-- What is done about a class named by the one that is visited. -/
def ClassSearch.meet (search : ClassSearch) (parent : String) : ClassSearch :=
  if search.seen.contains parent then search
  else ⟨search.ancestors ++ [parent], parent :: search.seen, search.next ++ [parent]⟩

/-- Where the search stands: these links from the classes of a level have been followed. -/
structure Climbing (link : String → String → Prop) (name : String)
    (k : Nat) (tried : String → String → Prop) (search : ClassSearch) : Prop where
  level : Level link name k tried (· ∈ search.seen) search.next
  distinct : search.ancestors.Nodup
  listed : ∀ v, v ∈ search.ancestors ↔ v ∈ search.seen ∧ v ≠ name

section

section

variable (climbing : Climbing link name k tried search)

include climbing

theorem Climbing.congr (same : ∀ a b, tried' a b ↔ tried a b) : Climbing link name k tried' search := by
  have : tried' = tried := by
    funext a b
    exact propext (same a b)
  exact this ▸ climbing

theorem Climbing.meet (here : AtDistance link name k u) (edge : link u v)
    (more : ∀ a b, tried' a b ↔ (a = u ∧ b = v) ∨ tried a b) : Climbing link name k tried' (search.meet v) := by
  unfold ClassSearch.meet
  split
  · rename_i known
    exact ⟨climbing.level.known (by simpa using known) more, climbing.distinct, climbing.listed⟩
  · rename_i unseen
    have unseen : v ∉ search.seen := by simpa using unseen
    have root : name ∈ search.seen := (climbing.level.met name).mpr (.inl ⟨0, Nat.zero_le k, atDistance_start link name⟩)
    have apart : v ≠ name := fun same => unseen (same ▸ root)
    refine ⟨climbing.level.fresh here edge unseen more (by simp), ?_, fun w => ?_⟩
    · refine nodup_append.mpr ⟨climbing.distinct, nodup_singleton v, ?_⟩
      rintro w mem _ last rfl
      rw [mem_singleton.mp last] at mem
      exact unseen ((climbing.listed v).mp mem).1
    · rw [mem_append, mem_singleton, climbing.listed, mem_cons]
      constructor
      · rintro (⟨known, other⟩ | rfl)
        · exact ⟨.inr known, other⟩
        · exact ⟨.inl rfl, apart⟩
      · rintro ⟨rfl | known, other⟩
        · exact .inr rfl
        · exact .inl ⟨known, other⟩

theorem Climbing.meets {parents : List String} (here : AtDistance link name k u)
    (edges : ∀ v ∈ parents, link u v) : Climbing link name k
      (fun a b => (a = u ∧ b ∈ parents) ∨ tried a b) (parents.foldl ClassSearch.meet search) := by
  induction parents generalizing tried search with
  | nil => exact climbing.congr (by simp)
  | cons parent rest ih =>
    refine (ih (climbing.meet here (edges parent (.head _)) fun _ _ => .rfl) fun v mem =>
      edges v (.tail _ mem)).congr fun a b => ?_
    rw [mem_cons]
    tauto

end

theorem answers_visitClass (reads : ReadsClasses space world.kv)
    (climbing : Climbing (ClassLink space world.kv) name k tried search)
    (here : AtDistance (ClassLink space world.kv) name k u) : (visitClass space search u).Answers
      (handler env) world raise (Climbing (ClassLink space world.kv) name k fun a b =>
      (a = u ∧ ClassLink space world.kv a b) ∨ tried a b) := by
  refine answers_bind (answers_get ?_)
  cases found : world.kv.get (class_ space u) with
  | none =>
    refine answers_pure (climbing.congr fun a b => ⟨?_, .inr⟩)
    rintro (⟨rfl, definition, stored, -⟩ | old)
    · rw [found] at stored
      cases stored
    · exact old
  | some value =>
    obtain ⟨definition, rfl, -⟩ := reads u value found
    have edges : ∀ v ∈ definition.superclasses ++ definition.equivalentClasses, ClassLink
      space world.kv u v := fun v mem => ⟨definition, found, mem⟩
    refine answers_pure ((climbing.meets here edges).congr fun a b => or_congr_left (and_congr_right ?_))
    rintro rfl
    constructor
    · rintro ⟨_, stored, mem⟩
      rw [found] at stored
      cases stored
      exact mem
    · exact edges b

end

/-- No class is sixteen links away: all that can be reached is nearer. -/
def WithinDepth (link : String → String → Prop) (name : String) : Prop := ∀ v, ¬ AtDistance link name 16 v

/-- Everything the links lead to from the class, apart from the class itself. -/
def IsAncestor (link : String → String → Prop) (name : String) (v : String) : Prop :=
  Relation.ReflTransGen link name v ∧ v ≠ name

def tooDeep (name : String) : ExecutionError :=
  .invalidOperation s!"class hierarchy of {name} exceeds the maximum depth of 16"

theorem Climbing.finish (climbing : Climbing link name k (fun _ _ => False) search)
    (bounded : k ≤ 16) (past : ∀ v, ¬ AtDistance link name k v) (empty : search.next = []) :
    WithinDepth link name ∧ Enumerates search.ancestors (IsAncestor link name) := by
  have nearer : ∀ {n v}, AtDistance link name n v → n ≤ k := by
    intro n v far
    by_contra above
    obtain ⟨u, layer⟩ := far.layer (show k ≤ n by omega)
    exact past u layer
  refine ⟨fun v far => ?_, climbing.distinct, fun v => ?_⟩
  · obtain ⟨u, layer⟩ := far.layer bounded
    exact past u layer
  · rw [climbing.listed, climbing.level.met, empty, IsAncestor, reflTransGen_iff_atDistance]
    refine and_congr_left fun _ => ⟨?_, ?_⟩
    · rintro (⟨n, -, far⟩ | impossible)
      · exact ⟨n, far⟩
      · cases impossible
    · rintro ⟨n, far⟩
      exact .inl ⟨n, nearer far, far⟩

theorem answers_climbClasses {frontier : List String} (reads : ReadsClasses space world.kv) (bounded : k + depth = 16)
    (distinct : frontier.Nodup) (members : ∀ v, v ∈ frontier ↔ AtDistance (ClassLink space world.kv) name k v)
    (climbing : Climbing (ClassLink space world.kv) name k (fun _ _ => False) { search with next := [] }) :
    (climbClasses space name depth frontier search).Answers (handler env) world
      (fun reason => reason = tooDeep name ∧ ¬ WithinDepth (ClassLink space world.kv) name)
      (fun ancestors => WithinDepth (ClassLink space world.kv) name ∧
        Enumerates ancestors (IsAncestor (ClassLink space world.kv) name)) := by
  induction depth generalizing k frontier search with
  | zero =>
    obtain rfl : k = 16 := by omega
    cases frontier with
    | nil => exact answers_pure (climbing.finish (Nat.le_refl _) (by simpa using members) rfl)
    | cons first rest =>
      refine answers_fail ⟨rfl, fun within => ?_⟩
      exact within first ((members first).mp (.head _))
  | succ depth ih =>
    rw [climbClasses]
    split
    · rename_i empty
      rw [List.isEmpty_iff] at empty
      subst empty
      exact answers_pure (climbing.finish (by omega) (by simpa using members) rfl)
    · refine answers_seq (answers_foldlM_done (fun done => Climbing (ClassLink space world.kv) name k
        fun a b => done a ∧ ClassLink space world.kv a b) distinct (climbing.congr (by simp)) ?_) ?_
      · intro class_ mem done search _ climbing'
        refine answers_imp (answers_visitClass reads climbing' ((members class_).mp mem)) fun search' next => ?_
        exact next.congr fun a b => or_and_right
      · intro search' climbing'
        have all : ∀ a b, AtDistance (ClassLink space world.kv) name k a → ClassLink space world.kv a b →
            a ∈ frontier ∧ ClassLink space world.kv a b := fun a b near edge => ⟨(members a).mpr near, edge⟩
        refine ih (by omega) climbing'.level.distinct (climbing'.level.mem_next all) ⟨?_, climbing'.distinct, climbing'.listed⟩
        exact climbing'.level.advance all

theorem answers_classAncestorsOf (reads : ReadsClasses space world.kv) :
    (classAncestorsOf space name).Answers (handler env) world
      (fun reason => reason = tooDeep name ∧ ¬ WithinDepth (ClassLink space world.kv) name)
      (fun ancestors => WithinDepth (ClassLink space world.kv) name ∧
        Enumerates ancestors (IsAncestor (ClassLink space world.kv) name)) := by
  refine answers_climbClasses reads (Nat.zero_add 16) (nodup_singleton name) (fun v => ?_) ⟨Level.init _ (by simp), .nil, by simp⟩
  rw [mem_singleton]
  exact ⟨fun same => same ▸ atDistance_start _ _, fun far => far.eq_start⟩

def FindsAncestors (env : Env) (space : String) (world : World) (name : String) : Prop :=
  ∃ ancestors, ((classAncestorsOf space name).run (handler env) world).1 = .ok ancestors

theorem findsAncestors_iff (reads : ReadsClasses space world.kv) :
    FindsAncestors env space world name ↔ WithinDepth (ClassLink space world.kv) name := by
  have answers : Answers (handler env) world _ _ (classAncestorsOf space name) := answers_classAncestorsOf reads
  have result := answers.2
  unfold FindsAncestors
  cases ran : ((classAncestorsOf space name).run (handler env) world).1 with
  | ok ancestors =>
    rw [ran] at result
    exact ⟨fun _ => result.1, fun _ => ⟨ancestors, rfl⟩⟩
  | error reason =>
    rw [ran] at result
    refine ⟨?_, fun within => absurd within result.2⟩
    rintro ⟨ancestors, impossible⟩
    cases impossible

end ByoriDB.Executor
