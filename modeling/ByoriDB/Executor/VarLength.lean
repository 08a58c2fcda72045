import ByoriDB.Executor.MatchHops

namespace ByoriDB.Executor

open List Data Program
open Prog (Answers Returns)
open Store ByoriDB.Graph
open SchemaKey (vertex)

variable {env : Env} {world : World} {space : String} {kv : KV} {raise : ExecutionError → Prop} {next : List Int}

section

variable (space) (kv) (edge : EdgePattern)

def Adjacent (u v : Int) : Prop :=
  ∃ own, IsNeighbor space kv edge.edgeTypes edge.direction u ⟨v, own⟩ ∧ PropsFit (EdgeData.holds own) edge.props

/-- A simple path; all of its vertices but the first are known to be stored. -/
structure Route (path : List Int) : Prop where
  chain : path.IsChain (Adjacent space kv edge)
  simple : path.Nodup
  stored : ∀ vid ∈ path.tail, (kv.get (vertex space vid)).isSome = true

/-- A path of one of the lengths leads to the vertex. -/
def Spans (min max : Nat) (start v : Int) : Prop :=
  ∃ rest, Route space kv edge (start :: rest) ∧ rest.getLast? = some v ∧ min ≤ rest.length ∧ rest.length ≤ max

end

variable {edge : EdgePattern} {min max depth : Nat} {path : List Int}

structure Reached (kv : KV) (space : String) (min max depth : Nat)
    (path : List Int) (next : List Int) (before after : Expansion) : Prop where
  nodup : before.terminals.Nodup → after.terminals.Nodup
  terminals : ∀ vid, vid ∈ after.terminals ↔ vid ∈ before.terminals ∨
    (vid ∈ next ∧ (kv.get (vertex space vid)).isSome = true ∧ min ≤ depth + 1)
  stack : ∀ entry, entry ∈ after.stack ↔ entry ∈ before.stack ∨
    (depth + 1 < max ∧ ∃ vid ∈ next, (kv.get (vertex space vid)).isSome = true ∧ entry = (vid, depth + 1, path ++ [vid]))

theorem reach_returns (anything : ∀ reason, raise reason) (expansion : Expansion) :
    Returns raise (Reached kv space min max depth path next expansion) ((next.map fun vid => (vid,
      kv.get (.vertex space vid))).foldlM (Expansion.reach min max depth path) expansion) := by
  induction next generalizing expansion with
  | nil => exact ⟨id, by simp, by simp⟩
  | cons vid rest ih =>
    rw [map_cons, foldlM_cons]
    cases found : kv.get (.vertex space vid) with
    | none =>
      refine (ih expansion).mono fun after reached => ⟨reached.nodup, fun other => ?_, fun entry => ?_⟩
      · rw [reached.terminals, mem_cons]
        grind
      · rw [reached.stack]
        simp [found]
    | some value =>
      simp only [Expansion.reach]
      cases decoded : decodeVertex vid value with
      | error reason => exact anything reason
      | ok vertex =>
        refine (ih _).mono fun after reached => ⟨fun once => reached.nodup ?_, fun other => ?_, fun entry => ?_⟩
        · split
          · rename_i new
            exact once.append (nodup_singleton _) (by simpa using new.2)
          · exact once
        · rw [reached.terminals, mem_cons]
          grind
        · rw [reached.stack]
          grind

structure Expanding (space : String) (kv : KV) (edge : EdgePattern) (min max : Nat) (start : Int)
    (expansion : Expansion) : Prop where
  entries : ∀ entry ∈ expansion.stack, ∃ rest, entry.2.2 = start :: rest ∧ entry.2.1 = rest.length ∧
    Route space kv edge (start :: rest) ∧ (start :: rest).getLast? = some entry.1
  nodup : expansion.terminals.Nodup
  sound : ∀ v ∈ expansion.terminals, Spans space kv edge min max start v
  complete : ∀ rest v, Route space kv edge (start :: rest) → rest.getLast? = some v → min ≤ rest.length → rest.length ≤ max →
    v ∈ expansion.terminals ∨ ∃ entry ∈ expansion.stack, ∃ more, more ≠ [] ∧ start :: rest = entry.2.2 ++ more

theorem Route.extend {start vid next : Int} {rest : List Int}
    (route : Route space kv edge (start :: rest)) (last : (start :: rest).getLast? = some vid)
    (adjacent : Adjacent space kv edge vid next) (fresh : next ∉ start :: rest)
    (stored : (kv.get (.vertex space next)).isSome = true) :
    Route space kv edge (start :: (rest ++ [next])) where
  chain := by
    rw [← cons_append, isChain_append]
    refine ⟨route.chain, by simp, fun left isLast right isHead => ?_⟩
    rw [last, Option.mem_def, Option.some.injEq] at isLast
    rw [List.head?_cons, Option.mem_def, Option.some.injEq] at isHead
    rw [← isLast, ← isHead]
    exact adjacent
  simple := by
    exact route.simple.append (nodup_singleton _) (by simpa using fresh)
  stored other mem := by
    rcases mem_append.mp (show other ∈ rest ++ [next] from mem) with early | late
    · exact route.stored other early
    · rw [mem_singleton.mp late]
      exact stored

theorem Route.step {next : Int} (route : Route space kv edge (start :: (rest ++ next :: more)))
    (last : (start :: rest).getLast? = some vid) :
    Adjacent space kv edge vid next ∧ next ∉ start :: rest ∧ (kv.get (.vertex space next)).isSome = true := by
  have chain := route.chain
  have simple := route.simple
  rw [← cons_append, isChain_append] at chain
  rw [← cons_append, nodup_append] at simple
  refine ⟨chain.2.2 vid (by simp [last]) next (by simp), fun mem => ?_, route.stored next (by simp)⟩
  exact simple.2.2 next mem next (by simp) rfl

section

variable {start vid : Int} {expansion after : Expansion} {stack : List (Int × Nat × List Int)}

section

variable (expanding : Expanding space kv edge min max start expansion)

include expanding

theorem Expanding.done (empty : expansion.stack = []) :
    Enumerates expansion.terminals (Spans space kv edge min max start) := by
  refine ⟨expanding.nodup, fun v => ⟨expanding.sound v, ?_⟩⟩
  rintro ⟨rest, route, last, long, short⟩
  rcases expanding.complete rest v route last long short with found | ⟨entry, mem, -⟩
  · exact found
  · simp [empty] at mem

theorem Expanding.skip (top : expansion.stack = (vid, depth, path) :: stack) (deep : max ≤ depth) :
    Expanding space kv edge min max start { expansion with stack } where
  entries entry mem := expanding.entries entry (by rw [top]; exact .tail _ mem)
  nodup := expanding.nodup
  sound := expanding.sound
  complete rest v route last long short := by
    refine (expanding.complete rest v route last long short).imp_right ?_
    rintro ⟨entry, mem, more, nonempty, continues⟩
    rw [top] at mem
    rcases mem_cons.mp mem with rfl | mem
    · obtain ⟨own, same, length, -⟩ := expanding.entries _ (by rw [top]; exact .head _)
      rw [same] at continues
      have lengths := congrArg List.length continues
      have positive := length_pos_iff.mpr nonempty
      simp only [length_cons, length_append] at lengths
      dsimp only at length
      omega
    · exact ⟨entry, mem, more, nonempty, continues⟩

theorem Expanding.expand (top : expansion.stack = (vid, depth, path) :: stack) (shallow : depth < max)
    (neighbors : ∀ v, v ∈ next ↔ Adjacent space kv edge vid v ∧ v ∉ path)
    (reached : Reached kv space min max depth path next { expansion with stack } after) :
    Expanding space kv edge min max start after := by
  obtain ⟨own, same, length, route, last⟩ := expanding.entries _ (by rw [top]; exact .head _)
  dsimp only at same length last
  have grown : ∀ v ∈ next, (kv.get (.vertex space v)).isSome = true → Route space kv edge (start :: (own ++ [v])) := by
    intro v mem stored
    obtain ⟨adjacent, fresh⟩ := (neighbors v).mp mem
    exact route.extend last adjacent (same ▸ fresh) stored
  refine ⟨fun entry mem => ?_, reached.nodup expanding.nodup, fun v mem => ?_, fun rest v whole isLast long short => ?_⟩
  · rcases (reached.stack entry).mp mem with old | ⟨-, v, listed, stored, rfl⟩
    · exact expanding.entries entry (by rw [top]; exact .tail _ old)
    · exact ⟨own ++ [v], by simp [same], by simp [length], grown v listed stored, by rw [← cons_append, List.getLast?_concat]⟩
  · rcases (reached.terminals v).mp mem with old | ⟨listed, stored, long⟩
    · exact expanding.sound v old
    · exact ⟨own ++ [v], grown v listed stored, by simp, by simp; omega, by simp; omega⟩
  · rcases expanding.complete rest v whole isLast long short with found | ⟨entry, mem, more, nonempty, continues⟩
    · exact .inl ((reached.terminals v).mpr (.inl found))
    rw [top] at mem
    rcases mem_cons.mp mem with rfl | mem
    · -- The path extends the one that is expanded here, by at least one vertex.
      obtain ⟨first, later, rfl⟩ := exists_cons_of_ne_nil nonempty
      rw [same, cons_append, List.cons.injEq] at continues
      obtain ⟨-, rfl⟩ := continues
      obtain ⟨adjacent, fresh, stored⟩ := whole.step last
      have listed : first ∈ next := (neighbors first).mpr ⟨adjacent, same ▸ fresh⟩
      cases later with
      | nil =>
        left
        obtain rfl : first = v := by simpa using isLast
        refine (reached.terminals first).mpr (.inr ⟨listed, stored, ?_⟩)
        simp at long
        omega
      | cons second later =>
        right
        refine ⟨_, (reached.stack _).mpr (.inr ⟨?_, first, listed, stored, rfl⟩), second :: later, by simp, by simp [same]⟩
        simp at short
        omega
    · exact .inr ⟨entry, (reached.stack entry).mpr (.inl mem), more, nonempty, continues⟩

end

end

section

variable (legible : Legible space world.kv) (anything : ∀ reason, raise reason) (allowed : EdgeAllowed raise edgeNames edge)

include legible anything allowed

theorem answers_expandLoop {expansion : Expansion}
    (expanding : Expanding space world.kv edge min max start expansion) :
    (expandLoop ctx space edge min max fuel expansions expansion).Answers (handler env) world raise
      fun terminals => Enumerates terminals (Spans space world.kv edge min max start) := by
  induction fuel generalizing expansions expansion with
  | zero =>
    unfold expandLoop
    split
    · rename_i empty
      exact answers_pure (expanding.done empty)
    · exact answers_fail (anything _)
  | succ fuel ih =>
    unfold expandLoop
    split
    · rename_i empty
      exact answers_pure (expanding.done empty)
    · rename_i vid depth path stack top
      dsimp only
      split
      · rename_i deep
        exact ih (expanding.skip top deep)
      · split
        · exact answers_fail (anything _)
        · refine answers_seq (answers_neighborsForDirection legible vid edge.edgeTypes edge.direction) fun neighbors listed => ?_
          refine answers_seq (surviving_answers allowed neighbors) fun fitting kept => ?_
          refine answers_bind (answers_batchGet ?_)
          rw [map_map, ← map_prod_left_eq_zip]
          refine answers_seq (answers_ofExcept (reach_returns anything _)) fun after reached => ?_
          refine ih (expanding.expand top (by omega) (fun v => ?_) reached)
          rw [mem_filter, mem_map]
          constructor
          · rintro ⟨⟨neighbor, mem, rfl⟩, fresh⟩
            obtain ⟨among, fits⟩ := (kept.2 neighbor).mp mem
            exact ⟨⟨neighbor.edge, (listed.mem neighbor).mp among, fits⟩, by simpa using fresh⟩
          · rintro ⟨⟨own, isNeighbor, fits⟩, fresh⟩
            exact ⟨⟨⟨v, own⟩, (kept.2 _).mpr ⟨(listed.mem _).mpr isNeighbor, fits⟩, rfl⟩, by simpa using fresh⟩

/-- A ranged hop reports the ends of the paths of its lengths, each of them once. -/
theorem answers_expandVarLength (fuel : Nat) (ctx : QueryCtx) (start : Int) (range : Nat × Nat) :
    (expandVarLength fuel ctx space start edge range).Answers (handler env) world raise
      fun terminals => Enumerates terminals (Spans space world.kv edge range.1 range.2 start) := by
  unfold expandVarLength
  dsimp only
  split
  · exact answers_fail (anything _)
  split
  · exact answers_fail (anything _)
  split
  · exact answers_fail (anything _)
  · refine answers_expandLoop legible anything allowed ⟨?_, .nil, by simp, fun rest v _ last _ _ => .inr ?_⟩
    · intro entry mem
      obtain rfl := mem_singleton.mp mem
      exact ⟨[], rfl, rfl, ⟨by simp, by simp, by simp⟩, rfl⟩
    · refine ⟨_, .head _, rest, ?_, rfl⟩
      rintro rfl
      simp at last

end

/-- The vertex exists and is the end of a path of one of the lengths, which may be its start. -/
def Ends (space : String) (kv : KV) (edge : EdgePattern) (min max : Nat) (start v : Int) : Prop :=
  (kv.get (vertex space v)).isSome = true ∧ ∃ rest, Route space kv edge (start :: rest) ∧
    (start :: rest).getLast? = some v ∧ min ≤ rest.length ∧ rest.length ≤ max

theorem ends_iff {start v : Int} : Ends space kv edge min max start v ↔
    Spans space kv edge min max start v ∨ (min = 0 ∧ v = start ∧ (kv.get (.vertex space start)).isSome = true) := by
  constructor
  · rintro ⟨stored, rest, route, last, long, short⟩
    cases rest with
    | nil =>
      obtain rfl : start = v := by simpa using last
      exact .inr ⟨Nat.le_zero.mp long, rfl, stored⟩
    | cons next rest => exact .inl ⟨next :: rest, route, by simpa using last, long, short⟩
  · rintro (⟨rest, route, last, long, short⟩ | ⟨rfl, rfl, stored⟩)
    · exact ⟨route.stored v (mem_of_getLast? last), rest, route, by simp [getLast?_cons, last], long, short⟩
    · exact ⟨stored, [], ⟨by simp, by simp, by simp⟩, rfl, Nat.le_refl _, Nat.zero_le _⟩

/-- The start is never reported, although the path of no edges ends there. -/
theorem expandVarLength_exact_iff (legible : Legible space world.kv)
    (fuel : Nat) (ctx : QueryCtx) (start : Int) (edge : EdgePattern) (range : Nat × Nat) :
    (expandVarLength fuel ctx space start edge range).Answers (handler env) world (fun _ => True)
      fun terminals => (Enumerates terminals (Ends space world.kv edge range.1 range.2 start) ↔
        (range.1 = 0 → world.kv.get (vertex space start) = none)) := by
  have allowed : EdgeAllowed (fun _ => True) (fun _ => True) edge :=
    ⟨fun _ _ => trivial, fun _ _ _ => trivial, fun _ _ => trivial⟩
  refine answers_imp (answers_expandVarLength legible (fun _ => trivial) allowed fuel ctx start range) ?_
  intro terminals spans
  constructor
  · intro exact_ none
    by_contra stored
    have found := (exact_.mem start).mpr (ends_iff.mpr (.inr ⟨none, rfl, Option.isSome_iff_ne_none.mpr stored⟩))
    obtain ⟨rest, route, last, -⟩ := (spans.mem start).mp found
    exact (nodup_cons.mp route.simple).1 (mem_of_getLast? last)
  · intro absent
    refine ⟨spans.nodup, fun v => ?_⟩
    rw [spans.mem, ends_iff, or_iff_left]
    rintro ⟨zero, -, stored⟩
    rw [absent zero] at stored
    cases stored

def ring : World := { acquaintances with content := ⟨acquaintances.kv.putAll
  ([1, 2, 3, 4].map fun vid => (vertex "g" vid, .vertex ⟨vid, []⟩)), .empty⟩ }

theorem legible_ring : Legible "g" ring.kv where
  toDecodes := decodes_of_entries (by decide +kernel)
  mirrored t rank := by
    simpa [ring, Table.putAll, Triple.key, Triple.inKey, edgeData, inEdgeData, Key.vertex]
      using legible_acquaintances.mirrored t rank

/-- Two of the three ends have two paths, around the cycle and over its chord. -/
theorem expandVarLength_exact_ring :
    (expandVarLength 9 ⟨graphCtx, 0, 0⟩ "g" 1 {} (1, 3)).Answers (handler graphEnv) ring (fun _ => True) fun terminals =>
      (Enumerates terminals (Ends "g" ring.kv {} 1 3 1) ↔ (1 = 0 → ring.kv.get (vertex "g" 1) = none)) :=
  expandVarLength_exact_iff legible_ring 9 ⟨graphCtx, 0, 0⟩ 1 {} (1, 3)

example : ((expandVarLength 9 ⟨graphCtx, 0, 0⟩ "g" 1 {} (1, 3)).run (handler graphEnv) ring).1.toOption = some [2, 3, 4] := by
  decide +kernel

def lonely : World := { acquaintances with content := ⟨.ofList [(vertex "g" 1, .vertex ⟨1, []⟩)], .empty⟩ }

theorem expandVarLength_omits_start : ((expandVarLength 9 ⟨graphCtx, 0, 0⟩ "g" 1 {} (0,
      2)).run (handler graphEnv) lonely).1.toOption = some [] ∧ Ends "g" lonely.kv {} 0 2 1 1 :=
  ⟨by decide +kernel, ends_iff.mpr (.inr ⟨rfl, rfl, by decide +kernel⟩)⟩

end ByoriDB.Executor
