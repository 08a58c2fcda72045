import ByoriDB.Executor.Sound

namespace ByoriDB.Executor

open List Data Program Store ByoriDB.Graph

theorem get_fillProps (own others : Props) (name : String) :
    (fillProps own others).get name = (own.get name).or (others.get name) := by
  have general : ∀ (entries : List (String × Value)) (own : Props), (entries.map Prod.fst).Nodup →
      (entries.foldl (fun props entry =>
        if (props.get entry.1).isSome then props else props.insert entry.1 entry.2) own).get name =
        (own.get name).or (lastPut entries name) := by
    intro entries
    induction entries with
    | nil => simp [lastPut]
    | cons entry rest ih =>
      intro own distinct
      rw [map_cons, nodup_cons] at distinct
      rw [foldl_cons, ih _ distinct.2, lastPut]
      by_cases here : name = entry.1
      · have unlisted : lastPut rest name = none := lastPut_eq_none.mpr (here ▸ distinct.1)
        subst here
        cases held : own.get entry.1 <;> simp [held, unlisted]
      · cases own.get entry.1 <;> simp [here]
  have distinct : (others.toList.map Prod.fst).Nodup := by
    simpa [select_toList] using others.nodup_select fun _ => true
  have listed : lastPut others.toList name = others.get name := by
    simpa [select_toList] using others.lastPut_select (fun _ => true) name
  rw [fillProps, general _ _ distinct, listed]

def combined : List EdgeData → Option EdgeData
  | [] => none
  | edge :: rest => some (rest.foldl combineEdges edge)

/-- The value of a property that the first edge with it gives. -/
def firstValue (edges : List EdgeData) (name : String) : Option Value :=
  edges.findSome? fun edge => edge.properties.get name

def assertedOf (edges : List EdgeData) : List EdgeData := edges.filter fun edge => !edge.isInferred

theorem foldl_combineEdges (rest : List EdgeData) (edge : EdgeData) :
    (assertedOf (edge :: rest) = [] ∧ rest.foldl combineEdges edge = edge) ∨
      (rest.foldl combineEdges edge).isInferred = false ∧
        ∀ name, (rest.foldl combineEdges edge).properties.get name = firstValue (assertedOf (edge :: rest)) name := by
  induction rest generalizing edge with
  | nil =>
    cases inferred : edge.isInferred with
    | true => exact .inl ⟨by simp [assertedOf, inferred], rfl⟩
    | false => exact .inr ⟨inferred, by simp [assertedOf, inferred, firstValue]⟩
  | cons next rest ih =>
    rw [foldl_cons]
    cases second : next.isInferred with
    | true =>
      have stays : combineEdges edge next = edge := by simp [combineEdges, second]
      have same : assertedOf (edge :: next :: rest) = assertedOf (edge :: rest) := by simp [assertedOf, filter_cons, second]
      rw [stays, same]
      exact ih edge
    | false =>
      cases first : edge.isInferred with
      | true =>
        have wins : combineEdges edge next = next := by simp [combineEdges, first, second]
        have same : assertedOf (edge :: next :: rest) = assertedOf (next :: rest) := by simp [assertedOf, first]
        rw [wins, same]
        refine .inr ((ih next).resolve_left fun both => ?_)
        simp [assertedOf, second] at both
      | false =>
        have both : (combineEdges edge next).isInferred = false := by simp [isInferred_combineEdges, first, second]
        have props : (combineEdges edge next).properties = fillProps edge.properties next.properties := by
          simp [combineEdges, first, second]
        have listed : assertedOf (combineEdges edge next :: rest) = combineEdges edge next :: assertedOf rest := by
          simp [assertedOf, both]
        rcases ih (combineEdges edge next) with ⟨none, -⟩ | ⟨asserted, values⟩
        · rw [listed] at none
          cases none
        · refine .inr ⟨asserted, fun name => ?_⟩
          rw [values, listed, firstValue, List.findSome?_cons, props, get_fillProps]
          have expanded : assertedOf (edge :: next :: rest) = edge :: next :: assertedOf rest := by
            simp [assertedOf, first, second]
          rw [expanded, firstValue, List.findSome?_cons, List.findSome?_cons]
          cases edge.properties.get name <;> cases next.properties.get name <;> rfl

/-- An edge has the properties of its sources, with their values, and no others. -/
structure Unites (sources : EdgeData → Prop) (edge : EdgeData) : Prop where
  source : ∃ source, sources source
  names : ∀ source, sources source → ∀ name, (source.properties.get name).isSome = true →
    (edge.properties.get name).isSome = true
  values : ∀ name value, edge.properties.get name = some value →
    ∃ source, sources source ∧ source.properties.get name = some value

theorem Unites.self (edge : EdgeData) : Unites (fun source => source = edge) edge where
  source := ⟨edge, rfl⟩
  names := by
    rintro source rfl name present
    exact present
  values name value found := ⟨edge, rfl, found⟩

theorem Unites.congr (unites : Unites sources edge)
    (same : ∀ source, sources source ↔ others source) : Unites others edge := by
  have equal : sources = others := funext fun source => propext (same source)
  exact equal ▸ unites

theorem Unites.trans {sources : EdgeData → Prop} {deeper : EdgeData → EdgeData → Prop}
    {edge : EdgeData} (unites : Unites sources edge)
    (each : ∀ source, sources source → Unites (deeper source) source) :
    Unites (fun deep => ∃ source, sources source ∧ deeper source deep) edge where
  source := by
    obtain ⟨source, given⟩ := unites.source
    obtain ⟨deep, found⟩ := (each source given).source
    exact ⟨deep, source, given, found⟩
  names := by
    rintro deep ⟨source, given, found⟩ name present
    exact unites.names source given name ((each source given).names deep found name present)
  values name value found := by
    obtain ⟨source, given, held⟩ := unites.values name value found
    obtain ⟨deep, reached, has⟩ := (each source given).values name value held
    exact ⟨deep, ⟨source, given, reached⟩, has⟩

/-- Combining edges gives an asserted one exactly if one of them is asserted, and
then it unites their properties. -/
theorem combined_spec (result : combined edges = some edge) :
    (edge.isInferred = false ↔ ∃ source ∈ edges, source.isInferred = false) ∧ (edge.isInferred =
      false → Unites (fun source => source ∈ edges ∧ source.isInferred = false) edge) := by
  cases edges with
  | nil => cases result
  | cons first rest =>
    cases result
    have mem_asserted : ∀ source, source ∈ assertedOf (first :: rest) ↔
        source ∈ first :: rest ∧ source.isInferred = false := by
      intro source
      simp [assertedOf, mem_filter]
    rcases foldl_combineEdges rest first with ⟨none, same⟩ | ⟨asserted, values⟩
    · have all : ∀ source ∈ first :: rest, source.isInferred = true := by
        simpa [assertedOf] using none
      rw [same]
      have inferred := all first mem_cons_self
      refine ⟨⟨fun impossible => by simp [inferred] at impossible, ?_⟩, fun impossible => by simp [inferred] at impossible⟩
      rintro ⟨source, mem, impossible⟩
      rw [all source mem] at impossible
      cases impossible
    · have someSource : ∃ source ∈ first :: rest, source.isInferred = false := by
        by_contra absent
        have all : ∀ source ∈ first :: rest, source.isInferred = true := by
          intro source mem
          cases inferred : source.isInferred with
          | true => rfl
          | false => exact absurd ⟨source, mem, inferred⟩ absent
        have keeps : ∀ (edges : List EdgeData) (edge : EdgeData), edge.isInferred = true →
            (∀ other ∈ edges, other.isInferred = true) → (edges.foldl combineEdges edge).isInferred = true := by
          intro edges
          induction edges with
          | nil => exact fun _ inferred _ => inferred
          | cons other rest ih =>
            intro edge inferred others
            rw [forall_mem_cons] at others
            exact ih _ (by rw [isInferred_combineEdges, inferred, others.1]; rfl) others.2
        rw [keeps rest first (all first mem_cons_self) fun other mem => all other (mem_cons_of_mem _ mem)] at asserted
        cases asserted
      refine ⟨⟨fun _ => someSource, fun _ => asserted⟩, fun _ => ⟨someSource, ?_, ?_⟩⟩
      · rintro source listed name present
        rw [values, firstValue, List.findSome?_isSome_iff]
        exact ⟨source, (mem_asserted source).mpr listed, present⟩
      · intro name value found
        rw [values, firstValue] at found
        obtain ⟨source, mem, has⟩ := List.exists_of_findSome?_eq_some found
        exact ⟨source, (mem_asserted source).mp mem, has⟩

section

def edgeAt (kv : KV) (key : Key) : Option EdgeData :=
  match kv.get key with
  | some (.edge edge) => some edge
  | _ => none

theorem Keyed.get_eq_edgeAt (keyed : Keyed space kv) (t : Triple) (rank : Int) :
    kv.get (t.key space rank) = (edgeAt kv (t.key space rank)).map Val.edge := by
  unfold edgeAt
  cases found : kv.get (t.key space rank) with
  | none => rfl
  | some value =>
    obtain ⟨edge, rfl, -⟩ := keyed.edges t rank value found
    rfl

theorem Keyed.lands (keyed : Keyed space kv) (edge : EdgeData) : Lands space kv edge :=
  fun value found => keyed.edges (tripleOf edge) edge.ranking value found

def Aside (space : String) (key : Key) : Prop := ¬ EdgeKey space key ∧ ¬ EdgeEntry key

theorem aside_vertex (space : String) (vid : Int) : Aside space (.vertex space vid) :=
  ⟨by simp [EdgeKey], not_edgeEntry space (by simp)⟩

theorem get_retired_aside (aside : Aside space key) : (retired space indexes kv edge).get key = kv.get key := by
  rw [retired, get_eraseAll, if_neg]
  intro mem
  simp only [retiredKeys, mem_append, mem_cons, not_mem_nil, or_false] at mem
  rcases mem with entry | rfl | rfl
  · exact aside.2 (edgeEntry_edgeEntries entry)
  · exact aside.1 (.inl (kind_edgeKey space edge))
  · exact aside.1 (.inr (kind_edgeInKey space edge))

theorem get_landed_aside (aside : Aside space key) : (landed space indexes kv edge).get key = kv.get key := by
  refine Content.get_batch ?_ fun mem => aside.2 (edgeEntry_landingDeletes mem)
  intro mem
  obtain ⟨put, listed, rfl⟩ := mem_map.mp mem
  rcases mem_edgePuts listed with pair | entry
  · rcases (mem_edgePair pair).2 with same | same <;> rw [same] at aside
    · exact aside.1 (.inl (kind_edgeKey space _))
    · exact aside.1 (.inr (kind_edgeInKey space _))
  · exact aside.2 entry

theorem get_movedEdges_aside (aside : Aside space key) (edges : List EdgeData) :
    (movedEdges space indexes winner loser kv edges).get key = kv.get key := by
  have retiredAll : ∀ (edges : List EdgeData) (kv : KV), (edges.foldl (retired space indexes) kv).get key = kv.get key := by
    intro edges
    induction edges with
    | nil => exact fun _ => rfl
    | cons edge rest ih => exact fun kv => (ih _).trans (get_retired_aside aside)
  have landedAll : ∀ (edges : List EdgeData) (kv : KV), (edges.foldl (landed space indexes) kv).get key = kv.get key := by
    intro edges
    induction edges with
    | nil => exact fun _ => rfl
    | cons edge rest ih => exact fun kv => (ih _).trans (get_landed_aside aside)
  rw [movedEdges, landedAll, retiredAll]

theorem get_retired_edge (edge : EdgeData) (t : Triple) (rank : Int) :
    (retired space indexes kv edge).get (t.key space rank) =
      if t.key space rank = edge.key space then none else kv.get (t.key space rank) := by
  have entity : (t.key space rank).isEntity = true := by simp [Triple.key, edgeData, Key.isEntity]
  simp [retired, get_eraseAll, mem_retiredKeys entity]

theorem get_retiredAll_edge (edges : List EdgeData) (t : Triple) (rank : Int) :
    (edges.foldl (retired space indexes) kv).get (t.key space rank) =
      if t.key space rank ∈ edges.map (EdgeData.key space) then none else kv.get (t.key space rank) := by
  induction edges generalizing kv with
  | nil => simp
  | cons edge rest ih =>
    rw [foldl_cons, ih, get_retired_edge]
    by_cases here : t.key space rank = edge.key space <;>
      by_cases later : t.key space rank ∈ rest.map (EdgeData.key space) <;> simp [here, later]

theorem get_landed_edge (keyed : Keyed space kv) (edge : EdgeData) (t : Triple) (rank : Int) :
    (landed space indexes kv edge).get (t.key space rank) =
      if edge.key space = t.key space rank then some (.edge (landing space kv edge)) else kv.get (t.key space rank) := by
  have kept : t.key space rank ∉ landingDeletes space indexes kv edge :=
    fun mem => not_edgeKey_of_region (region_landingDeletes mem) (.inl (t.kind_key space rank))
  have entries : lastPut ((edgeEntries indexes (landing space kv edge)).map fun key => (key, Val.empty))
      (t.key space rank) = none := by
    refine lastPut_of_kind (t.kind_key space rank) fun put mem kind => ?_
    obtain ⟨key, listed, rfl⟩ := mem_map.mp mem
    exact not_edgeKey_of_region (region_edgeEntries space listed) (.inl kind)
  rw [landed, get_eraseAll, if_neg kept, get_putAll, edgePuts, lastPut_append, entries, Option.none_or]
  have sameKey := key_landing (keyed.lands edge)
  have reverse : t.key space rank ≠ (landing space kv edge).inKey space := by
    rw [edge_inKey_eq]
    simp
  by_cases here : edge.key space = t.key space rank
  · simp [edgePair, lastPut, sameKey, here, reverse]
  · simp [edgePair, lastPut, sameKey, here, Ne.symm here, reverse]

theorem landing_eq (edge : EdgeData) : landing space kv edge =
      ((edgeAt kv (edge.key space)).map fun existing => combineEdges existing edge).getD edge := by
  unfold landing edgeAt
  cases kv.get (edge.key space) with
  | none => rfl
  | some value => cases value <;> rfl

theorem Keyed.landed (keyed : Keyed space kv) (edge : EdgeData) : Keyed space (landed space indexes kv edge) where
  edges t rank value found := by
    rw [get_landed_edge keyed] at found
    split at found
    · rename_i here
      cases found
      exact ⟨_, rfl, (key_landing (keyed.lands edge)).trans here⟩
    · exact keyed.edges t rank value found
  vertices vid value found := by
    rw [get_landed_aside (aside_vertex space vid)] at found
    exact keyed.vertices vid value found

theorem Keyed.retired (keyed : Keyed space kv) (edge : EdgeData) : Keyed space (retired space indexes kv edge) where
  edges t rank value found := by
    rw [get_retired_edge] at found
    split at found
    · cases found
    · exact keyed.edges t rank value found
  vertices vid value found := by
    rw [get_retired_aside (aside_vertex space vid)] at found
    exact keyed.vertices vid value found

theorem Keyed.foldl (keeps : ∀ (kv : KV) (edge : EdgeData), Keyed space kv → Keyed space (effect kv edge))
    (edges : List EdgeData) (keyed : Keyed space kv) : Keyed space (edges.foldl effect kv) := by
  induction edges generalizing kv with
  | nil => exact keyed
  | cons edge rest ih => exact ih (keeps kv edge keyed)

theorem edgeAt_landedAll (edges : List EdgeData) (keyed : Keyed space kv)
    (t : Triple) (rank : Int) : edgeAt (edges.foldl (landed space indexes) kv) (t.key space rank) =
      combined ((edgeAt kv (t.key space rank)).toList ++ edges.filter fun edge => edge.key space =
      t.key space rank) := by
  induction edges generalizing kv with
  | nil =>
    cases found : edgeAt kv (t.key space rank) <;> simp [combined, found]
  | cons edge rest ih =>
    have get : (landed space indexes kv edge).get (t.key space rank) = _ := get_landed_edge keyed edge t rank
    rw [foldl_cons, ih (keyed.landed edge)]
    by_cases here : edge.key space = t.key space rank
    · have now : edgeAt (landed space indexes kv edge) (t.key space rank) = some (landing space kv edge) := by
        rw [edgeAt, get, if_pos here]
      rw [now, landing_eq, here]
      cases edgeAt kv (t.key space rank) <;> simp [combined, here]
    · have now : edgeAt (landed space indexes kv edge) (t.key space rank) = edgeAt kv (t.key space rank) := by
        rw [edgeAt, get, if_neg here, edgeAt]
      rw [now]
      simp [here]

end

end ByoriDB.Executor
