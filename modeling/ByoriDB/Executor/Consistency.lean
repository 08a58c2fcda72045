import ByoriDB.Executor.Hierarchy
import ByoriDB.Executor.MatchNode
import Mathlib.Data.String.Basic

/-! A vertex belongs to the classes it is tagged with or inferred to have, and to all their ancestors. -/

namespace ByoriDB.Executor

open List Data Program
open Prog (Answers)
open Store ByoriDB.Graph

/-- A class that is new to the set brings its ancestors. -/
def addClass (space : String) (set : List String) (class_ : String) : Exec (List String) :=
  if set.contains class_ then pure set
  else do
    let ancestors ← classAncestorsOf space class_
    pure (ancestors.foldl (fun set ancestor => set.insert ancestor) (set.insert class_))

def vertexClassSet (space : String) (vid : Int) : Exec (Option (List String)) := do
  match ← get (SchemaKey.vertex space vid) with
  | none => pure none
  | some blob => do
    let vertex ← ofExcept (decodeVertex vid blob)
    let entries ← scanPrefix (vtypePrefix space vid)
    let direct := vertex.tags.map TagData.name ++ entries.filterMap fun entry => vtypeClassFromKey entry.1
    let set ← direct.foldlM (addClass space) []
    pure (some set)

abbrev DisjointMap := Table String (List String)

section

variable (space : String) (vidType : SpaceVidType) (disjoint : DisjointMap) (vid : Int)

def DisjointMap.relate (a b : String) : DisjointMap :=
  Table.insert disjoint a (((Table.get disjoint a).getD []).insert b)

/-- Disjointness holds in both directions; records that do not decode are skipped. -/
def DisjointMap.register (entry : Key × Val) : DisjointMap :=
  match entry.2 with
  | .classDef definition =>
    definition.disjoint.foldl (fun disjoint other =>
      (disjoint.relate definition.name other).relate other definition.name) disjoint
  | _ => disjoint

def vidFromVertexKey : Key → Option Int
  | .text segments =>
    match segments.getLast? with
    | some (.num vid) => some vid
    | _ => none
  | .raw _ => none

structure ConflictReport where
  reported : List (String × String)
  rows : List (List Value)

def orderedPair (c t : String) : String × String := if c < t then (c, t) else (t, c)

/-- A pair of classes of the vertex is reported once, whichever class comes first. -/
def reportPair (classes : List String) (c : String) (report : ConflictReport)
    (t : String) : Exec ConflictReport :=
  if !classes.contains t then pure report
  else
    let pair := orderedPair c t
    if report.reported.contains pair then pure report
    else do
      let shown ← displayVid space vidType vid
      pure ⟨report.reported ++ [pair], report.rows ++ [[shown, .string pair.1, .string pair.2]]⟩

def reportClass (disjoint : DisjointMap) (classes : List String)
    (report : ConflictReport) (c : String) : Exec ConflictReport :=
  match Table.get disjoint c with
  | none => pure report
  | some targets => targets.foldlM (reportPair space vidType vid classes c) report

def reportVertex (rows : List (List Value)) (entry : Key × Val) : Exec (List (List Value)) :=
  match vidFromVertexKey entry.1 with
  | none => pure rows
  | some vid => do
    match ← vertexClassSet space vid with
    | none => pure rows
    | some classes => do
      let report ← classes.foldlM (reportClass space vidType vid disjoint classes) ⟨[], rows⟩
      pure report.rows

end

def executeCheckConsistency (ctx : Ctx) : Exec Response := do
  let space ← ctx.requireSpace
  let columns := ["vid", "class_a", "class_b"]
  let records ← scanPrefix (classPrefix space)
  let disjoint := records.foldl DisjointMap.register Table.empty
  if disjoint.toList.isEmpty then pure ⟨columns, []⟩
  else do
    let vidType ← spaceVidType space
    let vertices ← scanPrefix (vertexPrefix space)
    let rows ← vertices.foldlM (reportVertex space vidType disjoint) []
    pure ⟨columns, rows⟩

section

variable {env : Env} {space : String} {world : World} {vid : Int}

def HasType (space : String) (kv : KV) (vid : Int) (c : String) : Prop :=
  HasTag space kv vid c ∨ (kv.get (vtype space vid c)).isSome = true

/-- The links of the hierarchy lead from a type of the vertex to the class. -/
def Belongs (space : String) (kv : KV) (vid : Int) (c : String) : Prop :=
  ∃ direct, HasType space kv vid direct ∧ Relation.ReflTransGen (ClassLink space kv) direct c

theorem mem_foldl_insert {set more : List String} :
    c ∈ more.foldl (fun set item => set.insert item) set ↔ c ∈ set ∨ c ∈ more := by
  induction more generalizing set with
  | nil => simp
  | cons item rest ih =>
    rw [foldl_cons, ih, mem_insert_iff, mem_cons]
    tauto

theorem nodup_foldl_insert {set : List String} (nodup : set.Nodup) (more : List String) :
    (more.foldl (fun set item => set.insert item) set).Nodup := by
  induction more generalizing set with
  | nil => exact nodup
  | cons item rest ih => exact ih nodup.insert

/-- A set of classes without repetition that holds the ancestors of its members. -/
structure ClosedSet (link : String → String → Prop) (set : List String) : Prop where
  nodup : set.Nodup
  closed : ∀ a ∈ set, ∀ b, link a b → b ∈ set

theorem ClosedSet.reach {set : List String} (closed : ClosedSet link set) (mem : a ∈ set)
    (reached : Relation.ReflTransGen link a b) : b ∈ set := by
  induction reached with
  | refl => exact mem
  | tail _ edge ih => exact closed.closed _ ih _ edge

theorem answers_addClass (reads : ReadsClasses space world.kv) {set : List String} {class_ : String}
    (within : WithinDepth (ClassLink space world.kv) class_)
    (closed : ClosedSet (ClassLink space world.kv) set) : (addClass space set class_).Answers
      (handler env) world raise fun set' => ClosedSet (ClassLink space world.kv) set' ∧
      ∀ c, c ∈ set' ↔ c ∈ set ∨ Relation.ReflTransGen (ClassLink space world.kv) class_ c := by
  unfold addClass
  split
  · rename_i known
    rw [contains_iff_mem] at known
    refine answers_pure ⟨closed, fun c => ⟨.inl, ?_⟩⟩
    rintro (mem | reached)
    · exact mem
    · exact closed.reach known reached
  · refine answers_bind (answers_mono (answers_classAncestorsOf reads) (fun _ deep => absurd within deep.2) ?_)
    rintro ancestors ⟨-, listed⟩
    have members : ∀ c, c ∈ ancestors.foldl (fun set ancestor => set.insert ancestor) (set.insert class_) ↔
        c ∈ set ∨ Relation.ReflTransGen (ClassLink space world.kv) class_ c := by
      intro c
      rw [mem_foldl_insert, mem_insert_iff, listed.mem, IsAncestor]
      constructor
      · rintro ((rfl | mem) | ⟨reached, -⟩)
        · exact .inr .refl
        · exact .inl mem
        · exact .inr reached
      · rintro (mem | reached)
        · exact .inl (.inr mem)
        · by_cases self : c = class_
          · exact .inl (.inl self)
          · exact .inr ⟨reached, self⟩
    refine answers_pure ⟨⟨nodup_foldl_insert closed.nodup.insert _, fun a mem b edge => ?_⟩, members⟩
    rw [members] at mem ⊢
    exact mem.imp (fun old => closed.closed a old b edge) fun reached => reached.tail edge

theorem answers_addClasses (reads : ReadsClasses space world.kv) {direct : List String}
    (within : ∀ class_ ∈ direct, WithinDepth (ClassLink space world.kv) class_) :
    (direct.foldlM (addClass space) []).Answers (handler env) world raise fun set => Enumerates set
      fun c => ∃ class_ ∈ direct, Relation.ReflTransGen (ClassLink space world.kv) class_ c := by
  refine answers_imp (answers_foldlM (fun rest set => (∀ class_ ∈ rest, class_ ∈ direct) ∧
    ClosedSet (ClassLink space world.kv) set ∧
    ∀ c, (c ∈ set ∨ ∃ class_ ∈ rest, Relation.ReflTransGen (ClassLink space world.kv) class_ c) ↔
      ∃ class_ ∈ direct, Relation.ReflTransGen (ClassLink space world.kv) class_ c) ?_ ?_) ?_
  · exact ⟨fun _ => id, ⟨.nil, by simp⟩, by simp⟩
  · rintro class_ rest set ⟨among, closed, covers⟩
    refine answers_imp (answers_addClass reads (within class_ (among class_ (.head _))) closed) ?_
    rintro set' ⟨closed', members⟩
    refine ⟨fun other mem => among other (.tail _ mem), closed', fun c => ?_⟩
    rw [← covers, members]
    simp [or_assoc]
  · rintro set ⟨-, closed, covers⟩
    exact ⟨closed.nodup, fun c => by simpa using covers c⟩

/-- The entries of a space stand under their keys, and its vertices have external ids. -/
structure Checkable (env : Env) (space : String) (vidType : SpaceVidType) (world : World) : Prop where
  classes : ∀ key value, (classPrefix space).covers key = true → world.kv.get key = some value →
    ∃ definition, value = .classDef definition ∧ key = class_ space definition.name
  vertices : ∀ key value, key.kind space = some "vertex" → world.kv.get key = some value →
    ∃ vertex, value = .vertex vertex ∧ key = SchemaKey.vertex space vertex.vid
  types : ∀ key value, key.kind space = some "vtype" → world.kv.get key = some value → ∃ vid c, key = vtype space vid c
  type : vidTypeAt space world.kv = some vidType
  shown : ∀ vid, (world.kv.get (SchemaKey.vertex space vid)).isSome = true →
    (displayVid space vidType vid).Answers (handler env) world (fun _ => False) fun _ => True

variable {vidType : SpaceVidType}

section

variable (checkable : Checkable env space vidType world)
include checkable

theorem Checkable.reads : ReadsClasses space world.kv := by
  intro name value found
  obtain ⟨definition, rfl, same⟩ := checkable.classes _ value (covers_text.mpr ⟨[.word name], by simp, rfl⟩) found
  exact ⟨definition, rfl, (class_inj.mp same).symm⟩

theorem Checkable.mem_types :
    c ∈ (env.arrange (world.kv.select (vtypePrefix space vid).covers)).filterMap (fun entry =>
      vtypeClassFromKey entry.1) ↔ (world.kv.get (vtype space vid c)).isSome = true := by
  rw [mem_filterMap]
  constructor
  · rintro ⟨⟨key, value⟩, scanned, decoded⟩
    obtain ⟨found, covered⟩ := mem_scan.mp scanned
    obtain ⟨rest, nonempty, rfl⟩ := covers_text.mp covered
    obtain ⟨vid', c', same⟩ := checkable.types _ value (by simp [Key.kind]) found
    obtain ⟨rfl, rfl⟩ := same
    simp only [vtypeClassFromKey, cons_append, nil_append,
      List.getLast?_cons_cons, List.getLast?_singleton, Option.some.injEq] at decoded
    subst decoded
    exact Option.isSome_iff_exists.mpr ⟨value, found⟩
  · intro exists_
    obtain ⟨value, found⟩ := Option.isSome_iff_exists.mp exists_
    refine ⟨(vtype space vid c, value), mem_scan.mpr ⟨found, ?_⟩, by simp [vtypeClassFromKey, vtype]⟩
    exact covers_text.mpr ⟨[.word c], by simp, rfl⟩

theorem answers_vertexClassSet
    (found : world.kv.get (.vertex space vid) = some value)
    (within : ∀ c, HasType space world.kv vid c → WithinDepth (ClassLink space world.kv) c) :
    (vertexClassSet space vid).Answers (handler env) world raise fun result =>
      ∃ set, result = some set ∧ Enumerates set (Belongs space world.kv vid) := by
  obtain ⟨vertex, rfl, same⟩ := checkable.vertices _ _ (kind_vertex space vid) found
  have own : vertex.vid = vid := by simpa [Key.vertex, eq_comm] using same
  refine answers_bind (answers_get ?_)
  rw [found]
  refine answers_bind (answers_ofExcept ?_)
  rw [decodeVertex, if_pos own]
  refine answers_bind (answers_scanPrefix ?_)
  have types : ∀ c, c ∈ vertex.tags.map TagData.name ++
      (env.arrange (world.kv.select (vtypePrefix space vid).covers)).filterMap (fun entry => vtypeClassFromKey entry.1) ↔
      HasType space world.kv vid c := by
    intro c
    rw [mem_append, checkable.mem_types, HasType, HasTag]
    refine or_congr_left ⟨fun tagged => ⟨vertex, found, tagged⟩, ?_⟩
    rintro ⟨_, stored, tagged⟩
    rw [found] at stored
    cases stored
    exact tagged
  refine answers_seq (answers_addClasses checkable.reads fun c listed => within c ((types c).mp listed)) fun set listed => ?_
  refine answers_pure ⟨set, rfl, listed.nodup, fun c => (listed.mem c).trans ?_⟩
  simp [types, Belongs]

end

def DeclaresDisjoint (space : String) (kv : KV) (a b : String) : Prop :=
  ∃ definition, kv.get (class_ space a) = some (.classDef definition) ∧ b ∈ definition.disjoint

def Opposed (space : String) (kv : KV) (a b : String) : Prop :=
  DeclaresDisjoint space kv a b ∨ DeclaresDisjoint space kv b a

/-- The map lists what each class is disjoint with. -/
structure Lists (disjoint : DisjointMap) (opposed : String → String → Prop) : Prop where
  nodup : ∀ a, ((Table.get disjoint a).getD []).Nodup
  mem : ∀ a b, b ∈ (Table.get disjoint a).getD [] ↔ opposed a b

variable {disjoint : DisjointMap} {opposed : String → String → Prop}

theorem Lists.congr (lists : Lists disjoint opposed) (same : ∀ a b, opposed' a b ↔ opposed a b) : Lists disjoint opposed' :=
  ⟨lists.nodup, fun a b => (lists.mem a b).trans (same a b).symm⟩

theorem Lists.relate (lists : Lists disjoint opposed) (a b : String) :
    Lists (disjoint.relate a b) fun x y => (x = a ∧ y = b) ∨ opposed x y := by
  constructor
  · intro x
    rw [DisjointMap.relate, get_insert]
    split
    · exact (lists.nodup a).insert
    · exact lists.nodup x
  · intro x y
    rw [DisjointMap.relate, get_insert]
    split
    · rename_i same
      rw [Option.getD_some, mem_insert_iff, lists.mem, same]
      simp
    · rename_i other
      rw [lists.mem]
      simp [other]

/-- What the record of a class says about two classes. -/
def States (definition : ClassDef) (a b : String) : Prop :=
  (a = definition.name ∧ b ∈ definition.disjoint) ∨ (b = definition.name ∧ a ∈ definition.disjoint)

theorem Lists.register (lists : Lists disjoint opposed) (key : Key) (definition : ClassDef) :
    Lists (disjoint.register (key, .classDef definition)) fun a b => States definition a b ∨ opposed a b := by
  obtain ⟨name, superclasses, others, equivalentClasses⟩ := definition
  simp only [DisjointMap.register, States]
  induction others generalizing disjoint opposed with
  | nil => exact lists.congr (by simp)
  | cons other rest ih =>
    refine (ih ((lists.relate name other).relate other name)).congr fun a b => ?_
    simp only [mem_cons]
    tauto

theorem Lists.registers {records : List (Key × Val)} (lists : Lists disjoint opposed)
    (decode : ∀ entry ∈ records, ∃ definition, entry.2 = .classDef definition) :
    Lists (records.foldl DisjointMap.register disjoint) fun a b =>
      (∃ entry ∈ records, ∃ definition, entry.2 = .classDef definition ∧ States definition a b) ∨ opposed a b := by
  induction records generalizing disjoint opposed with
  | nil => exact lists.congr (by simp)
  | cons entry rest ih =>
    obtain ⟨key, value⟩ := entry
    obtain ⟨definition, rfl⟩ := decode _ (.head _)
    refine (ih (lists.register key definition) fun other mem => decode other (.tail _ mem)).congr fun a b => ?_
    simp only [mem_cons, exists_eq_or_imp, Val.classDef.injEq, exists_eq_left']
    rw [or_assoc, or_left_comm]

theorem Checkable.lists (checkable : Checkable env space vidType world) :
    Lists ((env.arrange (world.kv.select (classPrefix space).covers)).foldl
      DisjointMap.register Table.empty) (Opposed space world.kv) := by
  have empty : Lists Table.empty fun _ _ => False := ⟨by simp, by simp⟩
  have records : ∀ entry ∈ env.arrange (world.kv.select (classPrefix space).covers),
      ∃ definition, entry = (class_ space definition.name, .classDef definition) := by
    rintro ⟨key, value⟩ scanned
    obtain ⟨found, covered⟩ := mem_scan.mp scanned
    obtain ⟨definition, rfl, rfl⟩ := checkable.classes key value covered found
    exact ⟨definition, rfl⟩
  refine (empty.registers fun entry mem => ?_).congr fun a b => ?_
  · obtain ⟨definition, rfl⟩ := records entry mem
    exact ⟨definition, rfl⟩
  · have listed : ∀ name definition, world.kv.get (class_ space name) = some (.classDef definition) →
        definition.name = name ∧ (class_ space name, Val.classDef definition) ∈
          env.arrange (world.kv.select (classPrefix space).covers) := by
      intro name definition found
      obtain ⟨_, same, named⟩ := checkable.reads name _ found
      cases same
      exact ⟨named, mem_scan.mpr ⟨found, covers_text.mpr ⟨[.word name], by simp, rfl⟩⟩⟩
    constructor
    · rintro (⟨definition, found, other⟩ | ⟨definition, found, other⟩)
      · obtain ⟨named, mem⟩ := listed a definition found
        exact .inl ⟨_, mem, definition, rfl, .inl ⟨named.symm, other⟩⟩
      · obtain ⟨named, mem⟩ := listed b definition found
        exact .inl ⟨_, mem, definition, rfl, .inr ⟨named.symm, other⟩⟩
    · rintro (⟨entry, mem, definition, decoded, stated⟩ | impossible)
      · obtain ⟨_, rfl⟩ := records entry mem
        cases decoded
        obtain ⟨found, -⟩ := mem_scan.mp mem
        rcases stated with ⟨rfl, other⟩ | ⟨rfl, other⟩
        · exact .inl ⟨definition, found, other⟩
        · exact .inr ⟨definition, found, other⟩
      · exact impossible.elim

/-- The pairs that have been tried and belong to the vertex are reported once each. -/
structure Reports (classes : List String) (rows : List (List Value))
    (shown : Value) (tried : String → String → Prop) (report : ConflictReport) : Prop where
  nodup : report.reported.Nodup
  mem : ∀ pair, pair ∈ report.reported ↔ ∃ c t, tried c t ∧ t ∈ classes ∧ pair = orderedPair c t
  rows : report.rows = rows ++ report.reported.map fun pair => [shown, .string pair.1, .string pair.2]

variable {classes : List String} {rows : List (List Value)} {shown : Value} {report : ConflictReport}

theorem Reports.congr (reports : Reports classes rows shown tried report)
    (same : ∀ c t, tried' c t ↔ tried c t) : Reports classes rows shown tried' report := by
  have : tried' = tried := by
    funext c t
    exact propext (same c t)
  exact this ▸ reports

/-- The value under which the vertex is shown. -/
def DisplaysAs (env : Env) (space : String) (vidType : SpaceVidType) (world : World) (vid : Int) (shown : Value) : Prop :=
  (displayVid space vidType vid).Answers (handler env) world (fun _ => False) (· = shown)

section

variable (displays : DisplaysAs env space vidType world vid shown)

include displays

theorem answers_reportPair (reports : Reports classes rows shown tried report) :
    (reportPair space vidType vid classes c report t).Answers (handler env) world raise
      (Reports classes rows shown fun a b => (a = c ∧ b = t) ∨ tried a b) := by
  have grown : ∀ pair, (∃ a b, ((a = c ∧ b = t) ∨ tried a b) ∧ b ∈ classes ∧ pair = orderedPair a b) ↔
      (t ∈ classes ∧ pair = orderedPair c t) ∨ pair ∈ report.reported := by
    intro pair
    rw [reports.mem]
    constructor
    · rintro ⟨a, b, ⟨rfl, rfl⟩ | old, mem, same⟩
      · exact .inl ⟨mem, same⟩
      · exact .inr ⟨a, b, old, mem, same⟩
    · rintro (⟨mem, same⟩ | ⟨a, b, old, mem, same⟩)
      · exact ⟨c, t, .inl ⟨rfl, rfl⟩, mem, same⟩
      · exact ⟨a, b, .inr old, mem, same⟩
  unfold reportPair
  split
  · rename_i absent
    refine answers_pure ⟨reports.nodup, fun pair => ?_, reports.rows⟩
    rw [grown, or_iff_right fun here => ?_]
    simp [here.1] at absent
  · rename_i mem
    have mem : t ∈ classes := by simpa using mem
    dsimp only
    split
    · rename_i known
      rw [contains_iff_mem] at known
      refine answers_pure ⟨reports.nodup, fun pair => ?_, reports.rows⟩
      rw [grown, or_iff_right_of_imp]
      rintro ⟨-, rfl⟩
      exact known
    · rename_i unknown
      rw [contains_iff_mem] at unknown
      refine answers_bind (answers_mono displays (fun _ impossible => impossible.elim) ?_)
      rintro _ rfl
      refine answers_pure ⟨?_, fun pair => ?_, by simp [reports.rows]⟩
      · refine nodup_append.mpr ⟨reports.nodup, nodup_singleton _, ?_⟩
        rintro pair old _ last rfl
        rw [mem_singleton.mp last] at old
        exact unknown old
      · rw [grown, mem_append, mem_singleton, or_comm, and_iff_right mem]

theorem answers_reportClass (lists : Lists disjoint opposed)
    (reports : Reports classes rows shown tried report) :
    (reportClass space vidType vid disjoint classes report c).Answers (handler env) world raise
      (Reports classes rows shown fun a b => (a = c ∧ opposed a b) ∨ tried a b) := by
  have listed := lists.mem c
  have distinct := lists.nodup c
  unfold reportClass
  cases found : Table.get disjoint c with
  | none =>
    rw [found] at listed
    refine answers_pure (reports.congr fun a b => or_iff_right ?_)
    rintro ⟨rfl, opposes⟩
    cases (listed b).mpr opposes
  | some targets =>
    rw [found, Option.getD_some] at listed distinct
    refine answers_imp (answers_foldlM_done (fun done => Reports classes rows shown fun a b => (a = c ∧ done b) ∨ tried a b)
      distinct (reports.congr (by simp)) ?_) fun report' reports' => ?_
    · intro t _ done report' _ reports'
      refine answers_imp (answers_reportPair displays reports') fun _ next => next.congr fun a b => ?_
      tauto
    · refine reports'.congr fun a b => or_congr_left (and_congr_right ?_)
      rintro rfl
      exact (listed b).symm

theorem answers_reportClasses (lists : Lists disjoint opposed) (distinct : classes.Nodup) :
    (classes.foldlM (reportClass space vidType vid disjoint classes) ⟨[], rows⟩).Answers (handler env) world raise
      (Reports classes rows shown fun a b => a ∈ classes ∧ opposed a b) := by
  refine answers_foldlM_done (fun done => Reports classes rows shown fun a b => done a ∧
    opposed a b) distinct ⟨.nil, by simp, by simp⟩ ?_
  intro c _ done report _ reports
  refine answers_imp (answers_reportClass displays lists reports) fun _ next => next.congr fun a b => ?_
  tauto

end

theorem opposed_comm : Opposed space kv a b ↔ Opposed space kv b a := or_comm

/-- Two classes of the vertex that exclude each other, in order. -/
structure Conflicts (space : String) (kv : KV) (vid : Int) (a b : String) : Prop where
  ordered : a ≤ b
  both : Belongs space kv vid a ∧ Belongs space kv vid b
  opposed : Opposed space kv a b

theorem mem_reported (mem : ∀ c, c ∈ classes ↔ Belongs space kv vid c)
    (reports : Reports classes rows shown (fun a b => a ∈ classes ∧ Opposed space kv a b) report) :
    (a, b) ∈ report.reported ↔ Conflicts space kv vid a b := by
  rw [reports.mem]
  constructor
  · rintro ⟨c, t, ⟨first, opposes⟩, second, same⟩
    rw [mem] at first second
    unfold orderedPair at same
    split at same
    · rename_i below
      cases same
      exact ⟨le_of_lt below, ⟨first, second⟩, opposes⟩
    · rename_i above
      cases same
      exact ⟨not_lt.mp above, ⟨second, first⟩, opposed_comm.mp opposes⟩
  · rintro ⟨ordered, ⟨first, second⟩, opposes⟩
    rcases lt_or_eq_of_le ordered with below | same
    · exact ⟨a, b, ⟨(mem a).mpr first, opposes⟩, (mem b).mpr second, (if_pos below).symm⟩
    · subst same
      refine ⟨a, a, ⟨(mem a).mpr first, opposes⟩, (mem a).mpr first, ?_⟩
      rw [orderedPair, if_neg (lt_irrefl a)]

/-- One row of the answer: the vertex under its external id, and the two classes. -/
def IsConflictRow (env : Env) (space : String) (vidType : SpaceVidType)
    (world : World) (vid : Int) (pair : String × String) (row : List Value) : Prop :=
  Conflicts space world.kv vid pair.1 pair.2 ∧
    ∃ shown, DisplaysAs env space vidType world vid shown ∧ row = [shown, .string pair.1, .string pair.2]

theorem DisplaysAs.unique (first : DisplaysAs env space vidType world vid shown)
    (second : DisplaysAs env space vidType world vid shown') : shown = shown' := by
  obtain ⟨_, rfl, rfl⟩ := (first.both second).exists
  rfl

theorem Reports.collects (displays : DisplaysAs env space vidType world vid shown)
    (mem : ∀ c, c ∈ classes ↔ Belongs space world.kv vid c)
    (reports : Reports classes rows shown (fun a b => a ∈ classes ∧
      Opposed space world.kv a b) report) :
    Collects (IsConflictRow env space vidType world vid) rows report.rows := by
  refine ⟨report.reported.map fun pair => (pair, [shown, .string pair.1, .string pair.2]), ⟨?_, ?_⟩, by simp [reports.rows]⟩
  · exact reports.nodup.map fun left right same => (Prod.mk.inj same).1
  · rintro ⟨⟨a, b⟩, row⟩
    rw [mem_map]
    constructor
    · rintro ⟨pair, listed, same⟩
      obtain ⟨rfl, rfl⟩ := Prod.mk.inj same
      exact ⟨(mem_reported mem reports).mp listed, shown, displays, rfl⟩
    · rintro ⟨conflicts, shown', displays', same⟩
      dsimp only at conflicts same
      subst same
      exact ⟨(a, b), (mem_reported mem reports).mpr conflicts, by rw [displays.unique displays']⟩

theorem Checkable.displays (checkable : Checkable env space vidType world)
    (found : (world.kv.get (.vertex space vid)).isSome = true) : ∃ shown, DisplaysAs env space vidType world vid shown := by
  obtain ⟨same, result⟩ := checkable.shown vid found
  cases ran : ((displayVid space vidType vid).run (handler env) world).1 with
  | error reason =>
    rw [ran] at result
    exact result.elim
  | ok shown =>
    refine ⟨shown, same, ?_⟩
    rw [ran]

/-- Every type of the vertex has its ancestors within the depth limit. -/
def TypesWithinDepth (space : String) (kv : KV) : Prop :=
  ∀ vid, (kv.get (SchemaKey.vertex space vid)).isSome = true → ∀ c, HasType space kv vid c → WithinDepth (ClassLink space kv) c

theorem answers_reportVertex (checkable : Checkable env space vidType world)
    (within : TypesWithinDepth space world.kv) (lists : Lists disjoint (Opposed space world.kv))
    (found : world.kv.get (.vertex space vid) = some value) :
    (reportVertex space vidType disjoint rows (.vertex space vid, value)).Answers
      (handler env) world raise (Collects (IsConflictRow env space vidType world vid) rows) := by
  have exists_ : (world.kv.get (.vertex space vid)).isSome = true := by rw [found]; rfl
  obtain ⟨shown, displays⟩ := checkable.displays exists_
  refine answers_seq (answers_vertexClassSet checkable found (within vid exists_)) ?_
  rintro _ ⟨set, rfl, listed⟩
  refine answers_seq (answers_reportClasses displays lists listed.nodup) fun report reports => ?_
  exact answers_pure (reports.collects displays listed.mem)

/-- The answer has one row for every vertex and every pair of its classes that exclude
each other. -/
def IsConflictAnswer (env : Env) (space : String) (vidType : SpaceVidType)
    (world : World) (rows : List (List Value)) : Prop :=
  Collects (fun (find : Int × String × String) row => (world.kv.get (SchemaKey.vertex space find.1)).isSome = true ∧
    IsConflictRow env space vidType world find.1 find.2 row) [] rows

theorem answers_reportVertices (checkable : Checkable env space vidType world)
    (within : TypesWithinDepth space world.kv) (lists : Lists disjoint (Opposed space world.kv)) :
    ((env.arrange (world.kv.select (vertexPrefix space).covers)).foldlM
      (reportVertex space vidType disjoint) []).Answers
      (handler env) world (fun _ => False) (IsConflictAnswer env space vidType world) := by
  have entries : ∀ entry ∈ env.arrange (world.kv.select (vertexPrefix space).covers), ∃ vid value,
      entry = (.vertex space vid, value) ∧ world.kv.get (.vertex space vid) = some value := by
    rintro ⟨key, value⟩ scanned
    obtain ⟨found, covered⟩ := mem_scan.mp scanned
    obtain ⟨vertex, -, rfl⟩ := checkable.vertices key value (covers_kind.mp covered) found
    exact ⟨vertex.vid, value, rfl, found⟩
  have distinct : (env.arrange (world.kv.select (vertexPrefix space).covers)).Nodup :=
    (env.arrange_perm _).nodup_iff.mpr (nodup_select _ _).of_map
  -- The find of an entry is named by the vertex whose key it has.
  let vidOf : Key × Val → Int := fun entry => (vidFromVertexKey entry.1).getD 0
  have vidOf_eq : ∀ vid value, vidOf (.vertex space vid, value) = vid := fun _ _ => rfl
  have step : ∀ entry ∈ env.arrange (world.kv.select (vertexPrefix space).covers), ∀ rows,
      (reportVertex space vidType disjoint rows entry).Answers (handler env) world
        (fun reason => False ∨ (reason = .outOfFuel ∧
          Overfull (fun _ => False) (IsConflictRow env space vidType world (vidOf entry)) rows.length))
        (Collects (IsConflictRow env space vidType world (vidOf entry)) rows) := by
    intro entry listed rows
    obtain ⟨vid, value, rfl, found⟩ := entries entry listed
    exact answers_reportVertex checkable within lists found
  refine answers_mono (answers_collect distinct step) ?_ fun rows collects => ?_
  · rintro _ (impossible | ⟨-, _, -, -, impossible⟩) <;> exact impossible
  have renames : Renames (fun find : (Key × Val) × String × String => (vidOf find.1, find.2))
      (fun find row => find.1 ∈ env.arrange (world.kv.select (vertexPrefix space).covers) ∧
        IsConflictRow env space vidType world (vidOf find.1) find.2 row)
      (fun find row => (world.kv.get (.vertex space find.1)).isSome = true ∧
        IsConflictRow env space vidType world find.1 find.2 row) := by
    refine ⟨?_, ?_, ?_⟩
    · rintro ⟨entry, pair⟩ ⟨entry', pair'⟩ row row' ⟨listed, -⟩ ⟨listed', -⟩ same
      obtain ⟨vid, value, rfl, found⟩ := entries entry listed
      obtain ⟨vid', value', rfl, found'⟩ := entries entry' listed'
      obtain ⟨sameVid, samePair⟩ := Prod.mk.inj same
      rw [vidOf_eq, vidOf_eq] at sameVid
      subst sameVid samePair
      rw [found] at found'
      cases found'
      rfl
    · rintro ⟨entry, pair⟩ row ⟨listed, conflict⟩
      obtain ⟨vid, value, rfl, found⟩ := entries entry listed
      exact ⟨Option.isSome_iff_exists.mpr ⟨value, found⟩, conflict⟩
    · rintro ⟨vid, pair⟩ row ⟨exists_, conflict⟩
      obtain ⟨value, found⟩ := Option.isSome_iff_exists.mp exists_
      refine ⟨((.vertex space vid, value), pair), rfl, ?_, conflict⟩
      exact mem_scan.mpr ⟨found, covers_kind.mpr (kind_vertex space vid)⟩
  exact collects.rename renames

/-- The least set of classes that contains the types of the vertex and is closed under the
links of the hierarchy. -/
structure IsClassSet (space : String) (kv : KV) (vid : Int) (set : List String) : Prop where
  nodup : set.Nodup
  types : ∀ c, HasType space kv vid c → c ∈ set
  closed : ∀ c ∈ set, ∀ d, ClassLink space kv c d → d ∈ set
  least : ∀ other : String → Prop, (∀ c, HasType space kv vid c → other c) → (∀ c d, other c → ClassLink space kv c d → other d) →
    ∀ c ∈ set, other c

theorem isClassSet_of_enumerates {set : List String}
    (listed : Enumerates set (Belongs space kv vid)) : IsClassSet space kv vid set where
  nodup := listed.nodup
  types c type := (listed.mem c).mpr ⟨c, type, .refl⟩
  closed c mem d link := by
    obtain ⟨direct, type, reached⟩ := (listed.mem c).mp mem
    exact (listed.mem d).mpr ⟨direct, type, reached.tail link⟩
  least other types closed c mem := by
    obtain ⟨direct, type, reached⟩ := (listed.mem c).mp mem
    induction reached with
    | refl => exact types _ type
    | tail reached link ih => exact closed _ _ (ih ((listed.mem _).mpr ⟨direct, type, reached⟩)) link

/-- Within the depth limit, the classes of a vertex are the least set that contains its
types and is closed under the links, and the answer to `CHECK CONSISTENCY` has exactly
one row for every vertex and every unordered pair of its classes that are declared
disjoint in either direction. -/
theorem checkConsistency_exact {ctx : Ctx} (selected : ctx.space = some space)
    (checkable : Checkable env space vidType world) (within : TypesWithinDepth space world.kv) :
    (∀ vid, (world.kv.get (Key.vertex space vid)).isSome = true →
      (vertexClassSet space vid).Answers (handler env) world (fun _ => False) fun result =>
        ∃ set, result = some set ∧ (∀ c, c ∈ set ↔ Belongs space world.kv vid c) ∧
        IsClassSet space world.kv vid set) ∧ (executeCheckConsistency ctx).Answers
      (handler env) world (fun _ => False) fun response => response.columns =
      ["vid", "class_a", "class_b"] ∧ IsConflictAnswer env space vidType world response.rows := by
  constructor
  · intro vid exists_
    obtain ⟨value, found⟩ := Option.isSome_iff_exists.mp exists_
    refine answers_imp (answers_vertexClassSet checkable found (within vid exists_)) ?_
    rintro _ ⟨set, rfl, listed⟩
    exact ⟨set, rfl, listed.mem, isClassSet_of_enumerates listed⟩
  · have required : ctx.requireSpace = pure space := by rw [Ctx.requireSpace, selected]
    have lists := checkable.lists
    rw [executeCheckConsistency, required, pure_bind_eq]
    refine answers_bind (answers_scanPrefix ?_)
    dsimp only
    split
    · rename_i empty
      -- Without a declaration there is no pair of classes to report.
      refine answers_pure ⟨rfl, .none ?_⟩
      rintro find row ⟨-, conflicts, -⟩
      have listed := (lists.mem find.2.1 find.2.2).mpr conflicts.opposed
      rw [List.isEmpty_iff] at empty
      cases found : Table.get (List.foldl DisjointMap.register Table.empty
          (env.arrange (world.kv.select (classPrefix space).covers))) find.2.1 with
      | none =>
        rw [found] at listed
        cases listed
      | some targets =>
        have mem := mem_toList.mpr found
        rw [empty] at mem
        cases mem
    · refine answers_bind (answers_spaceVidType checkable.type (answers_bind (answers_scanPrefix ?_)))
      exact answers_seq (answers_reportVertices checkable within lists) fun rows answer => answers_pure ⟨rfl, answer⟩

end

def tornWorld : World where
  content := ⟨Table.ofList [
    (SchemaKey.space "g", .space ⟨1, "g", .int64⟩),
    (class_ "g" "person", .classDef ⟨"person", [], [], []⟩),
    (class_ "g" "city", .classDef ⟨"city", [], ["person"], []⟩),
    (class_ "g" "capital", .classDef ⟨"capital", ["city"], [], []⟩),
    (SchemaKey.vertex "g" 2, .vertex ⟨2, [⟨"person", .empty⟩]⟩),
    (vtype "g" 2 "capital", .empty)], .empty⟩
  lastTx := 0
  readings := 0

theorem classLink_torn (link : ClassLink "g" tornWorld.kv a b) : a = "capital" ∧ b = "city" := by
  obtain ⟨definition, found, mem⟩ := link
  have listed := mem_of_ofList found
  simp [class_, Key.space, Key.vertex, vtype] at listed
  rcases listed with ⟨rfl, rfl⟩ | ⟨rfl, rfl⟩ | ⟨rfl, rfl⟩ <;> simp_all

theorem checkConsistency_exact_torn :
    (executeCheckConsistency graphCtx).Answers (handler graphEnv) tornWorld (fun _ => False) fun response =>
      response.columns = ["vid", "class_a", "class_b"] ∧ IsConflictAnswer graphEnv "g" .int64 tornWorld response.rows := by
  have checkable : Checkable graphEnv "g" .int64 tornWorld := by
    refine ⟨fun key value covered found => ?_, fun key value kind found => ?_, fun key value kind found => ?_, by rfl,
      fun vid _ => answers_pure trivial⟩ <;> have listed := mem_of_ofList found <;>
      simp only [mem_cons, Prod.mk.injEq, not_mem_nil, or_false] at listed <;>
      obtain ⟨rfl, rfl⟩ | ⟨rfl, rfl⟩ | ⟨rfl, rfl⟩ | ⟨rfl, rfl⟩ | ⟨rfl, rfl⟩ | ⟨rfl, rfl⟩ := listed
    case refine_1.inl | refine_1.inr.inr.inr.inr.inl | refine_1.inr.inr.inr.inr.inr =>
      simp [classPrefix, Key.space, Key.vertex, vtype, Prefix.covers] at covered
    case refine_2.inr.inr.inr.inr.inl => exact ⟨_, rfl, rfl⟩
    case refine_3.inr.inr.inr.inr.inr => exact ⟨2, "capital", rfl⟩
    all_goals first
      | exact ⟨_, rfl, rfl⟩
      | simp [Key.space, class_, Key.vertex, vtype, Key.kind] at kind
  have within : TypesWithinDepth "g" tornWorld.kv := by
    intro vid _ c _ v far
    obtain ⟨u, near, link⟩ := far.prev
    obtain ⟨w, -, link'⟩ := near.prev
    have impossible := (classLink_torn link).1.symm.trans (classLink_torn link').2
    exact absurd impossible (by decide)
  exact (checkConsistency_exact rfl checkable within).2

example : ((executeCheckConsistency graphCtx).run (handler graphEnv) tornWorld).1.toOption.map (·.rows.length) = some 1 := by
  decide +kernel

end ByoriDB.Executor
