import ByoriDB.Executor.MatchCandidates
import ByoriDB.Executor.MatchWalks

namespace ByoriDB.Executor

open List Data Program
open Prog (Answers Returns)
open Store ByoriDB.Graph

variable {env : Env} {world : World} {space : String} {kv : KV} {raise : ExecutionError → Prop} {vidType : SpaceVidType}
  {ctx : QueryCtx} {node : NodePattern} {vid : Int}

/-- A store that statements can read: its entries stand under their keys, and every
stored vertex has an external id. -/
structure Presentable (env : Env) (space : String) (vidType : SpaceVidType) (world : World) : Prop where
  tidy : Tidy space world.kv
  type : vidTypeAt space world.kv = some vidType
  shown : ∀ vid, (world.kv.get (SchemaKey.vertex space vid)).isSome = true →
    (displayVid space vidType vid).Answers (handler env) world (fun _ => False) fun _ => True

def storeVertex (space : String) (kv : KV) (vertex : VertexData) : KV :=
  (kv.putAll (vertex.tags.map fun tag => (tagvid space tag.name vertex.vid, .empty))).insert
    (SchemaKey.vertex space vertex.vid) (.vertex vertex)

def named (name : String) : Props := Table.ofList [("name", .string name)]

/-- An index of the space with the id 7. -/
def byName : IndexDef := ⟨1, 7, "by_name", .tag, "Person", ["name"]⟩

def friends : World where
  content := ⟨(storeVertex "g" (storeVertex "g" (storeEdges "g" [⟨1, 2, "knows", 0, .empty⟩]) ⟨1, [⟨"Person", named "ann"⟩]⟩)
    ⟨2, [⟨"Person", named "bob"⟩]⟩).putAll [(indexDef 7 1, .indexDef byName),
      (tagIndexKey 1 [.string "ann"] 1, .empty), (tagIndexKey 1 [.string "bob"] 2, .empty)], .empty⟩
  lastTx := 0
  readings := 0

theorem mem_friends (found : friends.kv.get key = some value) : (key, value) ∈ [
    (tagIndexKey 1 [.string "ann"] 1, .empty), (tagIndexKey 1 [.string "bob"] 2, .empty),
      (indexDef 7 1, .indexDef byName), (edgeData "g" 1 "knows" 2 0, .edge ⟨1,
      2, "knows", 0, .empty⟩), (inEdgeData "g" 2 "knows" 1 0, .edge ⟨1, 2, "knows", 0, .empty⟩),
    (tagvid "g" "Person" 1, .empty), (tagvid "g" "Person" 2, .empty), (.vertex "g" 1, .vertex ⟨1,
      [⟨"Person", named "ann"⟩]⟩), (.vertex "g" 2, .vertex ⟨2, [⟨"Person", named "bob"⟩]⟩)] :=
  mem_toList.mpr found

theorem vertex_friends {value : Val} (found : friends.kv.get (.vertex "g" vid) = some value) :
    vid ∈ [1, 2] ∧ value = .vertex ⟨vid, [⟨"Person", named (if vid = 1 then "ann" else "bob")⟩]⟩ := by
  have listed := mem_friends found
  simp [edgeData, inEdgeData, tagvid, Key.vertex, tagIndexKey, indexDef] at listed
  rcases listed with ⟨rfl, rfl⟩ | ⟨rfl, rfl⟩ <;> simp

theorem presentable_friends : Presentable graphEnv "g" .int64 friends where
  tidy := by
    refine ⟨⟨decodes_of_entries (by decide +kernel), fun t rank => ?_⟩,
      fun key value kind found => ?_, fun key value kind found => ?_, fun vid tag => ?_⟩
    case refine_1 =>
      simp [friends, storeVertex, storeEdges, EdgeData.key,
        EdgeData.inKey, Triple.key, Triple.inKey, Key.vertex, tagvid, edgeData,
        inEdgeData, tagIndexKey, indexDef, and_left_comm, and_comm, and_assoc]
    case refine_4 =>
      constructor
      · intro stored
        obtain ⟨value, found⟩ := Option.isSome_iff_exists.mp stored
        have listed := mem_friends found
        simp [tagvid, edgeData, inEdgeData, Key.vertex, tagIndexKey, indexDef] at listed
        rcases listed with ⟨⟨rfl, rfl⟩, -⟩ | ⟨⟨rfl, rfl⟩, -⟩ <;> exact ⟨_, rfl, .head _⟩
      · rintro ⟨vertex, found, has⟩
        obtain ⟨listed, same⟩ := vertex_friends found
        cases same
        simp at listed has
        subst has
        rcases listed with rfl | rfl <;> rfl
    all_goals
      have listed := mem_friends found
      simp only [mem_cons, Prod.mk.injEq, not_mem_nil, or_false] at listed
      rcases listed with ⟨rfl, rfl⟩ | ⟨rfl, rfl⟩ | ⟨rfl,
        rfl⟩ | ⟨rfl, rfl⟩ | ⟨rfl, rfl⟩ | ⟨rfl, rfl⟩ | ⟨rfl, rfl⟩ | ⟨rfl, rfl⟩ | ⟨rfl, rfl⟩
    all_goals first
      | exact ⟨_, rfl, rfl⟩
      | exact ⟨_, _, rfl⟩
      | exact absurd kind (by decide)
  type := by rfl
  shown _ _ := answers_pure trivial

def StoredRow (space : String) (kv : KV) (row : MatchBindings) : Prop :=
  (∀ name vid, row.values.get name = some (.int vid) → (kv.get (SchemaKey.vertex space vid)).isSome = true) ∧
    ∀ name edge, row.edges.get name = some edge → (kv.get (SchemaKey.vertex space edge.srcVid)).isSome = true ∧
      (kv.get (SchemaKey.vertex space edge.dstVid)).isSome = true

theorem answers_validateMatchVidMappings (presentable : Presentable env space vidType world)
    {rows : List MatchBindings} (stored : ∀ row ∈ rows, StoredRow space world.kv row) :
    (validateMatchVidMappings space vidType rows).Answers (handler env) world raise fun _ => True :=
      by
  unfold validateMatchVidMappings
  split
  · exact answers_pure trivial
  · refine Prog.answers_forM fun vid listed => ?_
    have present : (world.kv.get (.vertex space vid)).isSome = true := by
      obtain ⟨row, mem, among⟩ := mem_flatMap.mp (mem_distinct.mp listed)
      rcases mem_append.mp among with bound | ends
      · obtain ⟨⟨name, value⟩, entry, isVid⟩ := mem_filterMap.mp bound
        have same : value = .int vid := by
          cases value <;> simp at isVid
          exact congrArg Value.int isVid
        exact (stored row mem).1 name vid (same ▸ mem_toList.mp entry)
      · obtain ⟨⟨name, edge⟩, entry, isEnd⟩ := mem_flatMap.mp ends
        have both := (stored row mem).2 name edge (mem_toList.mp entry)
        simp only [mem_cons, not_mem_nil, or_false] at isEnd
        rcases isEnd with rfl | rfl
        · exact both.1
        · exact both.2
    exact answers_seq (answers_mono (presentable.shown vid present) (fun _ => False.elim) fun _ => id) fun _ _ =>
      answers_pure trivial

theorem optionalRows_nil (fuel : Nat) (ctx : QueryCtx) (space : String)
    (rows : List MatchBindings) : optionalRows fuel ctx space [] rows = pure rows := by
  have from' : ∀ (rows done : List MatchBindings), rows.foldlM (fun expanded row => do
      pure (expanded ++ (← ([] : List Pattern).foldlM
        (extendOptional fuel ctx space) [row]))) done = (pure (done ++ rows) : Exec _) := by
    intro rows
    induction rows with
    | nil => simp
    | cons row rest ih =>
      intro done
      have step : (rest.foldlM (fun expanded row => do
        pure (expanded ++ (← ([] : List Pattern).foldlM (extendOptional fuel ctx space) [row]))) (done ++ [row])) =
          (pure (done ++ row :: rest) : Exec _) := by
        rw [ih, append_assoc]
        rfl
      exact step
  exact from' rows []

def startRow (node : NodePattern) (vid : Int) : MatchBindings :=
  ⟨Table.empty.insert (node.variableName.getD anonymousStart) (.int vid), .empty⟩

theorem startRow_injective (node : NodePattern) : Function.Injective (startRow node) := by
  intro left right same
  have values := congrArg (fun row : MatchBindings => row.values.get (node.variableName.getD anonymousStart)) same
  simpa [startRow] using values

theorem bindStart_empty (node : NodePattern) : bindStart .empty node vid = .ok (some (startRow node vid)) := by
  unfold bindStart startRow
  cases node.variableName with
  | none => rfl
  | some name => simp [bindVertexVariable, MatchBindings.empty]

def Accepted (space : String) (kv : KV) (node : NodePattern) (vid : Int) : Prop :=
  ∃ value, kv.get (SchemaKey.vertex space vid) = some value ∧ matchesNode vid value node = .ok true

def NodePattern.isLiteral (node : NodePattern) : Prop :=
  ∀ prop ∈ node.props, (expressionAsValue prop.2).isSome = true

theorem NodePattern.isLiteral.allowed (literal : node.isLiteral) : NodeAllowed raise (fun _ => True) node where
  named _ _ := trivial
  literal prop listed missing := by
    have value := literal prop listed
    simp [missing] at value

theorem accepted_iff (tidy : Tidy space kv) (literal : node.isLiteral) :
    Accepted space kv node vid ↔ NodeFits space kv node vid := by
  have returns : ∀ {value : Val}, kv.get (.vertex space vid) = some value →
      Returns (fun _ => False) (fun result => result = true ↔ NodeFits space kv node vid) (matchesNode vid value node) :=
    fun found => matchesNode_returns tidy literal.allowed found
  constructor
  · rintro ⟨value, found, accepts⟩
    exact ((returns found).value accepts).mp rfl
  · intro fits
    obtain ⟨vertex, found, -⟩ := id fits
    refine ⟨_, found, ?_⟩
    cases result : matchesNode vid (.vertex vertex) node with
    | error reason => exact ((returns found).raised result).elim
    | ok accepts => rw [((returns found).value result).mpr fits]

def nodeMatch (node : NodePattern) (columns : List ReturnColumn) : MatchPlan where
  pattern := .path { start := node }
  returnClause := some columns

/-- Below the limits: neither the vertices that are read nor the rows are too many. -/
structure Affordable (ctx : QueryCtx) (space : String) (kv : KV) (node : NodePattern) : Prop where
  short : ¬ TooLong ctx space kv
  few : ∀ vids : List Int, vids.Nodup → (∀ vid ∈ vids, Accepted space kv node vid) →
    ¬ TooMany ctx.toCtx vids.length ∧ vids.length ≤ 9223372036854775807

section

variable {holds : Int → Prop} (inside : ∀ vid, holds vid → Accepted space world.kv node vid)
  (affordable : Affordable ctx space world.kv node)

include inside affordable

theorem answers_matchSingle (fuel : Nat)
    (finds : (findNodeCandidates ctx space node).Answers (handler env) world raise fun vids => Enumerates vids holds) :
    (matchFlatPattern fuel ctx space ⟨node, []⟩ .empty none none).Answers (handler env) world raise
      fun rows => ∃ vids, Enumerates vids holds ∧ rows = vids.map (startRow node) := by
  unfold matchFlatPattern
  have proceeds : startBinding .empty node = .ok true := by
    unfold startBinding
    split <;> simp [MatchBindings.empty]
  rw [proceeds]
  refine answers_bind (answers_pure ?_)
  refine answers_seq finds fun vids listed => ?_
  refine answers_imp (answers_foldlM (fun rest rows => ∃ done, done ++ rest = vids ∧ rows = done.map (startRow node))
    ⟨[], rfl, rfl⟩ ?_) ?_
  · rintro vid rest rows ⟨done, whole, rfl⟩
    have sofar : (done ++ [vid]).Sublist vids := by
      rw [← whole]
      exact (List.Sublist.refl done).append (singleton_sublist.mpr (.head _))
    have budget := (affordable.few (done ++ [vid]) (listed.nodup.sublist sofar) fun other mem =>
      inside other ((listed.mem other).mp (sofar.subset mem))).1
    simp only [rowLimitReached, Option.any_none, Bool.false_eq_true, if_false, bindStart_empty]
    refine answers_bind (answers_pure ?_)
    refine answers_imp (answers_ofExcept (pushRow_returns fun many => (budget (by simpa using many)).elim)) ?_
    rintro _ rfl
    exact ⟨done ++ [vid], by rw [← whole, append_assoc]; rfl, by simp⟩
  · rintro rows ⟨done, whole, rfl⟩
    rw [append_nil] at whole
    exact ⟨done, whole ▸ listed, rfl⟩

theorem answers_executeMatch_single (presentable : Presentable env space vidType world)
    (selected : ctx.space = some space) (fuel : Nat)
    {columns : List ReturnColumn} (plain : (nodeMatch node columns).simpleCount = none)
    (finds : (findNodeCandidates ctx space node).Answers (handler env) world raise fun vids =>
      Enumerates vids holds) : (executeMatchUnfenced fuel ctx (nodeMatch node columns)).Answers
      (handler env) world raise fun outcome => ∃ vids, Enumerates vids holds ∧
      outcome = .bound (vids.map (startRow node)) := by
  refine answers_bind (answers_pure ?_)
  rw [Ctx.requireSpace, selected]
  refine answers_bind (answers_pure ?_)
  refine answers_bind (answers_spaceVidType presentable.type ?_)
  refine answers_bind (answers_pure ?_)
  rw [plain]
  have unlimited : (nodeMatch node columns).rowLimit (nodeMatch node columns).limit = none := by
    unfold MatchPlan.rowLimit
    split <;> rfl
  rw [unlimited]
  refine answers_seq (answers_matchSingle inside affordable fuel finds) ?_
  rintro _ ⟨vids, listed, rfl⟩
  have budget : Returns raise (fun _ => True) (checkRowBudget ctx.toCtx (vids.map (startRow node))) :=
    checkRowBudget_returns fun many => ((affordable.few vids listed.nodup fun vid mem =>
      inside vid ((listed.mem vid).mp mem)).1 (by simpa using many)).elim
  refine answers_seq (answers_ofExcept budget) fun _ _ => ?_
  refine answers_bind (answers_pure ?_)
  rw [show (nodeMatch node columns).optionalPatterns = [] from rfl, optionalRows_nil]
  refine answers_bind (answers_pure ?_)
  refine answers_seq (answers_ofExcept budget) fun _ _ => ?_
  refine answers_seq (answers_validateMatchVidMappings presentable ?_) fun _ _ => answers_pure ⟨vids, listed, rfl⟩
  intro row mem
  obtain ⟨vid, among, rfl⟩ := mem_map.mp mem
  obtain ⟨value, found, -⟩ := inside vid ((listed.mem vid).mp among)
  refine ⟨fun name bound same => ?_, by simp [startRow]⟩
  rw [startRow, get_insert] at same
  split at same
  · cases same
    simp [found]
  · simp at same

end

theorem Selects.tallies (selects : ∀ vid, NodeFits space kv node vid → Selects env ctx.toCtx space kv node vid)
    (fits : NodeFits space kv node vid) : Tallies space kv node vid :=
  fun bare simple label labelled => (selects vid fits simple label labelled).1 (by simp [literalProps, bare])

/-- A single node binds and counts all vertices that the matcher accepts if and only
if each of them is read. -/
theorem matchNode_exact_iff (presentable : Presentable env space vidType world)
    (selected : ctx.space = some space) (literal : node.isLiteral) (fit : VidsFit space world.kv)
    (exact : ∀ index ∈ tagIndexesOf env ctx.toCtx world.kv, IndexExact space world.kv index)
    (affordable : Affordable ctx space world.kv node) (fuel : Nat) :
    ((∀ columns, (nodeMatch node columns).simpleCount = none →
        (executeMatchUnfenced fuel ctx (nodeMatch node columns)).Answers (handler env) world
        (fun _ => False) fun outcome => ∃ vids, Enumerates vids (Accepted space world.kv node) ∧
          outcome = .bound (vids.map (startRow node))) ∧ ∀ name, (executeMatchUnfenced
      fuel ctx (nodeMatch node [⟨name, .countStar⟩])).Answers (handler env) world (fun _ => False)
        fun outcome => ∃ vids, Enumerates vids (Accepted space world.kv node) ∧
          outcome = .counted ⟨[name], [[.int vids.length]]⟩) ↔
    ∀ vid, Accepted space world.kv node vid → Selects env ctx.toCtx space world.kv node vid := by
  have tidy := presentable.tidy
  have finds : (findNodeCandidates ctx space node).Answers
    (handler env) world (fun _ => False) fun vids => Enumerates vids fun vid =>
      NodeFits space world.kv node vid ∧ Selects env ctx.toCtx space world.kv node vid :=
    answers_findNodeCandidates tidy literal.allowed (fun _ => affordable.short) (fun _ => fit) exact
  have same : ∀ vid, Accepted space world.kv node vid ↔ NodeFits space world.kv node vid :=
    fun _ => accepted_iff tidy literal
  simp only [← same] at finds
  constructor
  · rintro ⟨binds, -⟩ vid accepted
    have found := @answers_executeMatch_single _ _ _ _ _ _ _ _
      (fun _ => And.left) affordable presentable selected fuel [] rfl finds
    obtain ⟨outcome, ⟨all, listed, rfl⟩, read, chosen, rows⟩ := ((binds [] rfl).both found).exists
    rw [MatchOutcome.bound.injEq] at rows
    have vids : all = read := map_injective_iff.mpr (startRow_injective node) rows
    exact ((chosen.mem vid).mp (vids ▸ (listed.mem vid).mpr accepted)).2
  · intro all
    have read : ∀ vid, Accepted space world.kv node vid ∧ Selects env ctx.toCtx space world.kv node vid ↔
        Accepted space world.kv node vid := fun vid => and_iff_left_of_imp (all vid)
    simp only [read] at finds
    refine ⟨fun columns plain => answers_executeMatch_single
      (fun _ => id) affordable presentable selected fuel plain finds, fun name => ?_⟩
    have tallied : ∀ vid, NodeFits space world.kv node vid ∧ Tallies space world.kv node vid ↔
        Accepted space world.kv node vid := by
      intro vid
      rw [same, and_iff_left_of_imp]
      exact Selects.tallies fun vid fits => all vid ((same vid).mpr fits)
    have counts : (countNodeMatchesBounded ctx space node).Answers (handler env) world (fun _ => False) _ :=
      answers_countNodeMatchesBounded tidy literal.allowed (fun vid fits => presentable.shown vid fits.stored)
        (fun _ => affordable.short) presentable.type
    simp only [tallied] at counts
    refine answers_bind (answers_pure ?_)
    rw [Ctx.requireSpace, selected]
    refine answers_bind (answers_pure ?_)
    refine answers_bind (answers_spaceVidType presentable.type ?_)
    refine answers_bind (answers_pure ?_)
    refine answers_bind (answers_seq counts ?_)
    rintro count ⟨vids, listed, rfl⟩
    have fits := (affordable.few vids listed.nodup fun vid => (listed.mem vid).mp).2
    rw [if_neg (by omega)]
    exact answers_pure (answers_pure ⟨vids, listed, rfl⟩)

def person : NodePattern := { variableName := some "n", labels := ["Person"] }

/-- Any number of vertices can be read, and any number of rows kept. -/
def freeCtx : QueryCtx := ⟨graphCtx, 0, 0⟩

/-- In the space with the index. -/
def indexCtx : QueryCtx := { freeCtx with spaceId := some 7 }

/-- The pattern `(n:Person {name: "ann"})`. -/
def ann : NodePattern := { person with props := [("name", .literal (.string "ann"))] }

theorem affordable_friends (id : Option Nat) (node : NodePattern) :
    Affordable { freeCtx with spaceId := id } "g" friends.kv node where
  short := by simp [TooLong, freeCtx]
  few vids nodup accepted := by
    have inside : vids ⊆ [1, 2] := by
      intro vid mem
      obtain ⟨value, found, -⟩ := accepted vid mem
      exact (vertex_friends found).1
    have short := (nodup.subperm inside).length_le
    refine ⟨by simp [TooMany, Ctx.memoryCap, freeCtx, graphCtx], short.trans ?_⟩
    simp

theorem vidsFit_friends : VidsFit "g" friends.kv := by
  intro vid present
  obtain ⟨value, found⟩ := Option.isSome_iff_exists.mp present
  have listed := (vertex_friends found).1
  simp only [mem_cons, not_mem_nil, or_false] at listed
  rcases listed with rfl | rfl <;> rfl

theorem indexExact_friends : IndexExact "g" friends.kv byName := by
  intro key entry
  constructor
  · intro present
    obtain ⟨value, found⟩ := Option.isSome_iff_exists.mp present
    have listed := mem_friends found
    simp only [mem_cons, Prod.mk.injEq, not_mem_nil, or_false] at listed
    rcases listed with ⟨rfl, -⟩ | ⟨rfl, -⟩ | others
    · exact ⟨⟨1, [⟨"Person", named "ann"⟩]⟩, rfl, rfl⟩
    · exact ⟨⟨2, [⟨"Person", named "bob"⟩]⟩, rfl, rfl⟩
    · obtain ⟨rest, rfl⟩ := entry
      simp [edgeData, inEdgeData, tagvid, Key.vertex, indexDef] at others
  · rintro ⟨⟨vid, tags⟩, found, own⟩
    dsimp only at found
    obtain ⟨listed, same⟩ := vertex_friends found
    cases same
    simp only [mem_cons, not_mem_nil, or_false] at listed
    rcases listed with rfl | rfl
    · cases own
      rfl
    · cases own
      rfl

theorem indexesExact_friends :
    ∀ index ∈ tagIndexesOf graphEnv indexCtx.toCtx friends.kv, IndexExact "g" friends.kv index := by
  have one : tagIndexesOf graphEnv indexCtx.toCtx friends.kv = [byName] := by rfl
  simpa [one] using indexExact_friends

theorem matchNode_exact_iff_friends : ((∀ columns, (nodeMatch ann columns).simpleCount = none →
        (executeMatchUnfenced 0 indexCtx (nodeMatch ann columns)).Answers (handler graphEnv) friends
        (fun _ => False) fun outcome => ∃ vids, Enumerates vids (Accepted "g" friends.kv ann) ∧
          outcome = .bound (vids.map (startRow ann))) ∧ ∀ name, (executeMatchUnfenced 0 indexCtx
      (nodeMatch ann [⟨name, .countStar⟩])).Answers (handler graphEnv) friends (fun _ => False)
        fun outcome => ∃ vids, Enumerates vids (Accepted "g" friends.kv ann) ∧
          outcome = .counted ⟨[name], [[.int vids.length]]⟩) ↔ ∀ vid,
      Accepted "g" friends.kv ann vid → Selects graphEnv indexCtx.toCtx "g" friends.kv ann vid := by
  refine matchNode_exact_iff presentable_friends rfl
    (by simp [NodePattern.isLiteral, ann, expressionAsValue]) ?_ ?_ (affordable_friends _ _) 0
  · exact vidsFit_friends
  · exact indexesExact_friends

/-- A space with two tags that differ in their spelling only. -/
def spelledTags : World :=
  { freshSpace with content := { freshSpace.content with
      kv := freshSpace.kv.putAll [
        (SchemaKey.tag "g" "Person", .tagSchema ⟨"Person", [], none⟩),
        (SchemaKey.tag "g" "person", .tagSchema ⟨"person", [], none⟩)] } }

def insertTagged (vid : Int) (tag : String) : Plan := .mutate (.insert (.vertex "g" [⟨.int vid, [⟨tag, .empty⟩]⟩]))

def spelledPeople : World := after (after spelledTags (insertTagged 1 "Person")) (insertTagged 2 "person")

/-- Both vertices are accepted, but only the one whose tag is spelled like the label is
bound and counted. -/
theorem matchNode_spelling : Runs graphEnv "g" spelledTags spelledPeople ∧
      Accepted "g" spelledPeople.kv person 1 ∧ Accepted "g" spelledPeople.kv person 2 ∧
    (executeMatchUnfenced 0 freeCtx (nodeMatch person [])).run (handler graphEnv) spelledPeople =
      (.ok (.bound [startRow person 1]), spelledPeople) ∧
    (executeMatchUnfenced 0 freeCtx (nodeMatch person [⟨"count", .countStar⟩])).run
      (handler graphEnv) spelledPeople = (.ok (.counted ⟨["count"], [[.int 1]]⟩), spelledPeople) :=
  ⟨runs_after _ rfl rfl (runs_after _ rfl rfl .refl), ⟨_, rfl, rfl⟩, ⟨_, rfl, rfl⟩, rfl, rfl⟩

end ByoriDB.Executor
