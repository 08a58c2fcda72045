import ByoriDB.Executor.MatchAssignments

namespace ByoriDB.Executor

open List Data Program
open Prog (Answers Returns)
open Store ByoriDB.Graph

variable {env : Env} {world : World} {space : String} {names : String → Prop} {ctx : QueryCtx} {flat : FlatPattern}
  {row next : MatchBindings} {trail : Trail}

/-- The trail fits, repeated variables agree, and none of them stands for anything else
in the row. -/
structure Agrees (space : String) (kv : KV) (flat : FlatPattern) (row : MatchBindings) (trail : Trail) : Prop where
  fits : Fits space kv flat trail
  coherent : Coherent (flat.naming trail)
  admits : ∀ pair ∈ flat.naming trail, Admits row pair.1 pair.2

section

variable (own : Separates space kv names flat)

include own

theorem Matches.agrees (sane : Sane space kv row) (matched : Matches space kv flat row trail next) :
    Agrees space kv flat row trail ∧ Carries names row (flat.naming trail) next := by
  obtain ⟨fits, bound⟩ := matched
  rw [bindTrail_naming] at bound
  have named : ∀ pair ∈ flat.naming trail, names pair.1 := fun pair mem => own.listed _ (mem_naming mem)
  obtain ⟨carries, admits⟩ := bindNaming_carries ((carries_refl names).trailStart own fits) sane (by simpa using fits.storedEdges)
    named (by simp) bound
  exact ⟨⟨fits, carries.coherent named, admits⟩, carries⟩

theorem Agrees.matches (agrees : Agrees space kv flat row trail) : ∃ next, Matches space kv flat row trail next := by
  obtain ⟨next, bound⟩ := bindNaming_coherent ((carries_refl names).trailStart own agrees.fits)
    (by simpa using agrees.fits.storedEdges) (fun pair mem => own.listed _ (mem_naming mem)) (by simpa using agrees.coherent)
    agrees.admits
  exact ⟨next, agrees.fits, by rw [bindTrail_naming, bound]⟩

end

theorem bindElement_cases (bound : bindElement bindings name element = some next) :
    next = bindings ∨ (Unbound bindings name ∧ Shows next name element ∧ ∀ other, other ≠ name →
      next.values.get other = bindings.values.get other ∧ next.edges.get other = bindings.edges.get other) := by
  by_cases unbound : Unbound bindings name
  · obtain ⟨next', binds, shows, elsewhere⟩ := bindElement_unbound unbound element
    rw [bound] at binds
    cases binds
    exact .inr ⟨unbound, shows, elsewhere⟩
  · left
    cases element with
    | vertex vid =>
      have result := join_eq_some bound
      unfold bindVertexVariable at result
      split at result
      · cases result
      · rename_i noEdge
        split at result
        · split at result <;> cases result
          rfl
        · cases result
        · cases result
        · rename_i noValue
          exact (unbound ⟨noValue, by simpa using noEdge⟩).elim
    | edge edge =>
      have result := join_eq_some bound
      unfold bindEdgeVariable at result
      split at result
      · split at result <;> cases result
        rfl
      · rename_i noEdge
        split at result
        · cases result
        · cases result
        · rename_i noValue
          exact (unbound ⟨noValue, noEdge⟩).elim

/-- The bindings of a row are sane, and no edge is bound under the name of a start
without a variable. -/
structure Bindable (names : String → Prop) (space : String) (kv : KV) (row : MatchBindings) : Prop where
  sane : Sane space kv row
  apart : ¬ names anonymousStart → row.edges.get anonymousStart = none

theorem Sane.extend (sane : Sane space kv bindings) (shows : Shows next name element)
    (stored : ∀ edge, element = .edge edge → HasEdge space kv edge)
    (elsewhere : ∀ other, other ≠ name → next.values.get other = bindings.values.get other ∧
      next.edges.get other = bindings.edges.get other) : Sane space kv next := by
  intro other
  by_cases here : other = name
  · subst here
    exact .inr (.inr ⟨element, shows, stored⟩)
  · obtain ⟨values, edges⟩ := elsewhere other here
    rcases sane other with unbound | isNull | ⟨own, showsOwn, storedOwn⟩
    · exact .inl ⟨values.trans unbound.1, edges.trans unbound.2⟩
    · exact .inr (.inl ⟨values.trans isNull.1, edges.trans isNull.2⟩)
    · refine .inr (.inr ⟨own, ?_, storedOwn⟩)
      cases own <;> simpa [Shows, values, edges] using showsOwn

theorem Bindable.element (bindable : Bindable names space kv bindings) {element : Element}
    (named : names name) (stored : ∀ edge, element = .edge edge → HasEdge space kv edge)
    (bound : bindElement bindings name element = some next) : Bindable names space kv next := by
  rcases bindElement_cases bound with rfl | ⟨-, shows, elsewhere⟩
  · exact bindable
  · refine ⟨bindable.sane.extend shows stored elsewhere, fun unnamed => ?_⟩
    have other : anonymousStart ≠ name := by
      rintro rfl
      exact unnamed named
    exact (elsewhere _ other).2.trans (bindable.apart unnamed)

theorem Bindable.trailStart (bindable : Bindable names space kv bindings)
    (own : Separates space kv names flat) (fits : Fits space kv flat trail) :
    Bindable names space kv (trailStart bindings flat trail) := by
  unfold Executor.trailStart
  split
  · exact bindable
  · rename_i unnamed
    have noEdge := bindable.apart (own.apart _ fits.1 unnamed)
    have shows : Shows { bindings with
      values := bindings.values.insert anonymousStart (.int trail.1) } anonymousStart (.vertex trail.1) :=
      ⟨by simp, noEdge⟩
    exact ⟨bindable.sane.extend shows (by simp) fun other apart => ⟨by simp [get_insert, apart], rfl⟩, fun _ => noEdge⟩

theorem Matches.bindable (bindable : Bindable names space kv row) (own : Separates space kv names flat)
    (matched : Matches space kv flat row trail next) : Bindable names space kv next := by
  obtain ⟨fits, bound⟩ := matched
  rw [bindTrail_naming] at bound
  refine bindNaming_keeps (bindable.trailStart own fits) (fun pair mem _ _ kept => ?_) bound
  refine kept.element (own.listed _ (mem_naming mem)) fun edge same => ?_
  have stored := fits.exists mem
  rw [same] at stored
  exact stored.1

def Reaches (row next : MatchBindings) : Prop :=
  ∀ name, (next.values.get name = none → row.values.get name = none) ∧ (next.edges.get name = none → row.edges.get name = none)

theorem Reaches.merge (reaches : Reaches row next) : row.merge next = next := by
  have values : row.values.putAll next.values.toList = next.values := by
    refine Table.ext fun name => ?_
    rw [get_putAll, lastPut_toList]
    cases found : next.values.get name with
    | none => rw [(reaches name).1 found, Option.none_or]
    | some value => rfl
  have edges : row.edges.putAll next.edges.toList = next.edges := by
    refine Table.ext fun name => ?_
    rw [get_putAll, lastPut_toList]
    cases found : next.edges.get name with
    | none => rw [(reaches name).2 found, Option.none_or]
    | some value => rfl
  rw [MatchBindings.merge, values, edges]

theorem Reaches.element (reaches : Reaches row bindings) {element : Element}
    (bound : bindElement bindings name element = some next) : Reaches row next := by
  rcases bindElement_cases bound with rfl | ⟨unbound, -, elsewhere⟩
  · exact reaches
  · intro other
    by_cases here : other = name
    · subst here
      exact ⟨fun _ => (reaches other).1 unbound.1, fun _ => (reaches other).2 unbound.2⟩
    · rw [(elsewhere other here).1, (elsewhere other here).2]
      exact reaches other

/-- The rows of a match hold what the row held, so that nothing is left to merge. -/
theorem Matches.merge (matched : Matches space kv flat row trail next) : row.merge next = next := by
  obtain ⟨-, bound⟩ := matched
  rw [bindTrail_naming] at bound
  refine Reaches.merge (bindNaming_keeps ?_ (fun _ _ _ _ reaches => reaches.element) bound)
  unfold trailStart
  split
  · exact fun _ => ⟨id, id⟩
  · intro name
    refine ⟨fun missing => ?_, id⟩
    rw [get_insert] at missing
    split at missing
    · cases missing
    · exact missing

/-- The unbound variables of the pattern are null, and everything else is as before. -/
def Nulls (flat : FlatPattern) (row next : MatchBindings) : Prop :=
  ∀ name, next.edges.get name = row.edges.get name ∧
    (name ∈ flat.variables → row.values.get name = none → next.values.get name = some .null) ∧
    ((name ∉ flat.variables ∨ row.values.get name ≠ none) → next.values.get name = row.values.get name)

theorem get_orNull (row : MatchBindings) (listed : List String) (name : String) : (row.orNull listed).values.get name =
      if name ∈ listed ∧ row.values.get name = none then some .null else row.values.get name := by
  unfold MatchBindings.orNull
  generalize row.values = values
  induction listed generalizing values with
  | nil => simp
  | cons first rest ih =>
    rw [foldl_cons, ih]
    split
    · rename_i bound
      by_cases here : name = first
      · subst here
        rw [Option.isSome_iff_ne_none] at bound
        simp [bound]
      · simp [here]
    · rename_i unbound
      by_cases here : name = first
      · subst here
        simp at unbound
        simp [unbound]
      · simp [here, get_insert]

theorem nulls_orNull (flat : FlatPattern) (row : MatchBindings) : Nulls flat row (row.orNull flat.variables) := by
  refine fun name => ⟨rfl, fun listed missing => ?_, fun kept => ?_⟩
  · rw [get_orNull, if_pos ⟨listed, missing⟩]
  · rw [get_orNull, if_neg]
    rintro ⟨listed, missing⟩
    exact kept.elim (fun unlisted => unlisted listed) fun bound => bound missing

theorem Bindable.nulls (bindable : Bindable names space kv row)
    (nulls : Nulls flat row next) : Bindable names space kv next := by
  refine ⟨fun name => ?_, fun unnamed => (nulls anonymousStart).1.trans (bindable.apart unnamed)⟩
  obtain ⟨edges, null, kept⟩ := nulls name
  by_cases missing : row.values.get name = none
  · have noEdge : row.edges.get name = none := by
      rcases bindable.sane name with unbound | ⟨-, noEdge⟩ | ⟨element, shows, -⟩
      · exact unbound.2
      · exact noEdge
      · cases element <;> simp [Shows, missing] at shows
    by_cases listed : name ∈ flat.variables
    · exact .inr (.inl ⟨null listed missing, edges.trans noEdge⟩)
    · exact .inl ⟨(kept (.inl listed)).trans missing, edges.trans noEdge⟩
  · have values := kept (.inr missing)
    rcases bindable.sane name with unbound | isNull | ⟨element, shows, stored⟩
    · exact (missing unbound.1).elim
    · exact .inr (.inl ⟨values.trans isNull.1, edges.trans isNull.2⟩)
    · refine .inr (.inr ⟨element, ?_, stored⟩)
      cases element <;> simpa [Shows, values, edges] using shows

/-- What an optional pattern makes of a row: one row for each match that agrees with
it, which shows the match and leaves the other variables alone; or, without a match,
the row with nulls. -/
inductive Extends (names : String → Prop) (space : String) (kv : KV)
    (flat : FlatPattern) (row : MatchBindings) : List MatchBindings → Prop where
  | matched {trails : List Trail} {rows : List MatchBindings} (found : trails ≠ [])
      (enumerates : Enumerates trails (Agrees space kv flat row))
      (shows : Forall₂ (fun trail next => Carries names row (flat.naming trail) next) trails rows) :
      Extends names space kv flat row rows
  | unmatched {next : MatchBindings} (missing : ∀ trail, ¬ Agrees space kv flat row trail) (nulls : Nulls flat row next) :
      Extends names space kv flat row [next]

def Preserves (names : String → Prop) (row next : MatchBindings) : Prop :=
  ∀ name, names name → ¬ Unbound row name →
    next.values.get name = row.values.get name ∧ next.edges.get name = row.edges.get name

theorem Sane.kinds (sane : Sane space kv row) : Kinds (fun _ => True) (fun _ => True) row := by
  refine ⟨fun _ _ _ => trivial, fun name value found noEdge => ?_⟩
  rcases sane name with unbound | isNull | ⟨element, shows, -⟩
  · rw [unbound.1] at found
    cases found
  · rw [isNull.1] at found
    exact .inr (Option.some.inj found).symm
  · cases element with
    | vertex vid =>
      rw [shows.1] at found
      exact .inl ⟨vid, (Option.some.inj found).symm, trivial⟩
    | edge edge =>
      rw [shows.2] at noEdge
      cases noEdge

theorem Extends.preserves (bindable : Bindable names space kv row) (extended : Extends names space kv flat row rows) :
    rows ≠ [] ∧ ∀ next ∈ rows, Preserves names row next := by
  cases extended with
  | matched found enumerates shows =>
    constructor
    · rintro rfl
      cases shows
      exact found rfl
    · intro next mem name named bound
      obtain ⟨trail, listed, carries⟩ := exists_of_forall₂ shows mem
      by_cases place : ∃ element, (name, element) ∈ flat.naming trail
      · obtain ⟨element, place⟩ := place
        have now := (carries name named).1 element place
        have before := (((enumerates.mem trail).mp listed).admits _ place).resolve_left bound
        cases element <;> exact ⟨now.1.trans before.1.symm, now.2.trans before.2.symm⟩
      · exact (carries name named).2 fun element here => place ⟨element, here⟩
  | unmatched _ nulls =>
    refine ⟨by simp, fun next mem name _ bound => ?_⟩
    rw [mem_singleton.mp mem]
    obtain ⟨edges, -, kept⟩ := nulls name
    refine ⟨kept (.inr fun missing => bound ⟨missing, ?_⟩), edges⟩
    rcases bindable.sane name with unbound | isNull | ⟨element, shows, -⟩
    · exact unbound.2
    · exact isNull.2
    · cases element <;> simp [Shows, missing] at shows

/-- No pattern limits what may be called what, or which errors may be raised. -/
theorem flatAllowed_any : FlatAllowed space kv (fun _ => True) (fun _ => True) (fun _ => True) flat :=
  ⟨⟨fun _ _ => trivial, fun _ _ _ => trivial⟩, fun _ _ _ => trivial, fun _ _ =>
    ⟨⟨fun _ _ => trivial, fun _ _ _ => trivial, fun _ _ => trivial⟩, fun _ _ => trivial, fun _ _ _ => trivial⟩⟩

section

variable (tidy : Tidy space world.kv) (finds : Finds env ctx space world (fun _ => True) flat)

include tidy finds

theorem answers_extendRow (own : Separates space world.kv names flat)
    (bindable : Bindable names space world.kv row) (fuel : Nat) :
    (extendRow fuel ctx space flat row).Answers (handler env) world (fun _ => True) fun rows =>
      Extends names space world.kv flat row rows ∧
      ∀ next ∈ rows, Bindable names space world.kv next := by
  have matching := answers_matchFlatPattern tidy (fun _ _ _ => trivial) fuel ctx flatAllowed_any bindable.sane.kinds finds
  refine answers_seq (answers_mono matching (fun _ _ => trivial) fun _ => id) ?_
  rintro _ ⟨found, listed, rfl⟩
  rw [nil_append]
  have fitting : ∀ find ∈ found, Matches space world.kv flat row find.1 find.2 := fun find => (listed.mem find).mp
  cases none : found.isEmpty with
  | true =>
    rw [List.isEmpty_iff] at none
    subst none
    have nulls := nulls_orNull flat row
    refine answers_pure ⟨.unmatched (fun trail agrees => ?_) nulls, fun next mem => ?_⟩
    · obtain ⟨next, matched⟩ := agrees.matches own
      have mem := (listed.mem (trail, next)).mpr matched
      simp at mem
    · rw [mem_singleton.mp mem]
      exact bindable.nulls nulls
  | false =>
    have merged : (found.map Prod.snd).map row.merge = found.map Prod.snd := by
      rw [map_map, map_inj_left]
      exact fun find mem => (fitting find mem).merge
    rw [isEmpty_map, none, if_neg Bool.false_ne_true, merged]
    have enumerates : Enumerates (found.map Prod.fst) (Agrees space world.kv flat row) := by
      refine ⟨listed.nodup.map_on ?_, fun trail => ?_⟩
      · rintro ⟨trail, next⟩ here ⟨_, next'⟩ there rfl
        exact Prod.ext rfl (Option.some.inj ((fitting _ here).2.symm.trans (fitting _ there).2))
      · rw [mem_map]
        constructor
        · rintro ⟨find, mem, rfl⟩
          exact ((fitting find mem).agrees own bindable.sane).1
        · intro agrees
          obtain ⟨next, matched⟩ := agrees.matches own
          exact ⟨(trail, next), (listed.mem _).mpr matched, rfl⟩
    refine answers_pure ⟨.matched (by simpa using none) enumerates ?_, ?_⟩
    · rw [forall₂_map_left_iff, forall₂_map_right_iff, forall₂_same]
      exact fun find mem => ((fitting find mem).agrees own bindable.sane).2
    · rintro _ mem
      obtain ⟨find, among, rfl⟩ := mem_map.mp mem
      exact (fitting find among).bindable bindable own

end

/-- Each pattern extends every row that the former ones made. -/
inductive Chained (names : String → Prop) (space : String) (kv : KV) :
    List FlatPattern → List MatchBindings → List MatchBindings → Prop where
  | nil (rows : List MatchBindings) : Chained names space kv [] rows rows
  | cons {flat : FlatPattern} {flats : List FlatPattern} {rows final : List MatchBindings} {parts : List (List MatchBindings)}
      (extended : Forall₂ (Extends names space kv flat) rows parts) (rest : Chained names space kv flats parts.flatten final) :
      Chained names space kv (flat :: flats) rows final

theorem Chained.append (first : Chained names space kv flats rows final)
    (second : Chained names space kv flats rows' final') :
    Chained names space kv flats (rows ++ rows') (final ++ final') := by
  induction first generalizing rows' final' with
  | nil rows =>
    cases second
    exact .nil _
  | cons extended _ ih =>
    cases second with
    | cons extended' rest' => exact .cons (rel_append extended extended') (flatten_append ▸ ih rest')

theorem chained_flatten (all : Forall₂ (fun row part => Chained names space kv flats [row] part) rows parts) :
    Chained names space kv flats rows parts.flatten := by
  induction all with
  | nil =>
    induction flats with
    | nil => exact .nil _
    | cons _ _ ih => exact .cons .nil ih
  | cons first _ ih => exact first.append ih

theorem Preserves.trans (first : Preserves names row next) (second : Preserves names next last) :
    Preserves names row last := by
  intro name named bound
  obtain ⟨values, edges⟩ := first name named bound
  obtain ⟨values', edges'⟩ := second name named fun unbound => bound ⟨values ▸ unbound.1, edges ▸ unbound.2⟩
  exact ⟨values'.trans values, edges'.trans edges⟩

def Flattens (patterns : List Pattern) (flats : List FlatPattern) : Prop :=
  Forall₂ (fun pattern flat => flattenPattern pattern = .ok flat) patterns flats

section

variable {flats : List FlatPattern} (tidy : Tidy space world.kv)
  (finds : ∀ flat ∈ flats, Finds env ctx space world (fun _ => True) flat)

include tidy finds

theorem answers_extendOptional (own : ∀ flat ∈ flats, Separates space world.kv names flat)
    (flattens : Flattens patterns flats)
    (bindable : ∀ next ∈ rows, Bindable names space world.kv next) (found : rows ≠ [])
    (kept : ∀ next ∈ rows, Preserves names row next) (fuel : Nat) :
    (patterns.foldlM (extendOptional fuel ctx space) rows).Answers (handler env) world
      (fun _ => True) fun final => Chained names space world.kv flats rows final ∧
      final ≠ [] ∧ ∀ next ∈ final, Preserves names row next := by
  induction flattens generalizing rows with
  | nil => exact answers_pure ⟨.nil rows, found, kept⟩
  | @cons pattern flat patterns flats flattens _ ih =>
    rw [foldlM_cons]
    unfold extendOptional
    rw [flattens]
    refine answers_bind (answers_bind (answers_pure ?_))
    refine answers_imp (Prog.answers_concat _ fun next mem =>
      answers_extendRow tidy (finds flat (.head _)) (own flat (.head _)) (bindable next mem) fuel) ?_
    rintro _ ⟨parts, extended, rfl⟩
    have lists : ∀ next ∈ parts.flatten, ∃ before ∈ rows, ∃ part, next ∈ part ∧ Extends names space world.kv flat before part ∧
        Bindable names space world.kv next := by
      intro next mem
      obtain ⟨part, among, inside⟩ := mem_flatten.mp mem
      obtain ⟨before, listed, extension, ready⟩ := exists_of_forall₂ extended among
      exact ⟨before, listed, part, inside, extension, ready next inside⟩
    have rest := @ih (fun other mem => finds other (.tail _ mem)) parts.flatten fun other mem => own other (.tail _ mem)
    refine answers_imp (rest ?_ ?_ ?_) fun final chained =>
      ⟨.cons (extended.imp fun _ _ => And.left) chained.1, chained.2⟩
    · exact fun next mem => (lists next mem).choose_spec.2.choose_spec.2.2
    · obtain ⟨before, listed⟩ := exists_mem_of_ne_nil rows found
      obtain ⟨part, among, extension, -⟩ := exists_of_forall₂_left extended listed
      obtain ⟨next, inside⟩ := exists_mem_of_ne_nil part (extension.preserves (bindable before listed)).1
      exact ne_nil_of_mem (mem_flatten_of_mem among inside)
    · intro next mem
      obtain ⟨before, listed, part, inside, extension, -⟩ := lists next mem
      exact (kept before listed).trans ((extension.preserves (bindable before listed)).2 next inside)

theorem answers_optionalRows (flattens : Flattens patterns flats) (own : ∀ row ∈ rows,
      (∀ flat ∈ flats, Separates space world.kv names flat) ∧ Bindable names space world.kv row)
    (fuel : Nat) : (optionalRows fuel ctx space patterns rows).Answers
      (handler env) world (fun _ => True) fun final =>
      Chained names space world.kv flats rows final ∧ ∃ parts, final = parts.flatten ∧ Forall₂
        (fun row part => part ≠ [] ∧ ∀ next ∈ part, Preserves names row next) rows parts := by
  have each : ∀ row ∈ rows, Answers (handler env) world (fun _ => True)
      (fun part => Chained names space world.kv flats [row] part ∧ part ≠ [] ∧ ∀ next ∈ part, Preserves names row next)
      (patterns.foldlM (extendOptional fuel ctx space) [row]) := by
    intro row listed
    obtain ⟨apart, bindable⟩ := own row listed
    refine answers_extendOptional tidy finds apart flattens (by simpa using bindable) (by simp) ?_ fuel
    intro next mem name _ _
    rw [mem_singleton.mp mem]
    exact ⟨rfl, rfl⟩
  refine answers_imp (Prog.answers_concat _ each) ?_
  rintro _ ⟨parts, all, rfl⟩
  exact ⟨chained_flatten (all.imp fun _ _ => And.left), parts, rfl, all.imp fun _ _ => And.right⟩

end

theorem Joined.bindable (own : ∀ flat ∈ flats, Separates space kv names flat)
    (joined : Joined space kv flats trails row) : Bindable names space kv row := by
  have start : Bindable names space kv .empty :=
    ⟨fun _ => .inl ⟨by simp [MatchBindings.empty], by simp [MatchBindings.empty]⟩, fun _ => by simp [MatchBindings.empty]⟩
  exact bindTrails_keeps joined.1 (fun flat listed _ _ _ fits ready bound =>
    Matches.bindable ready (own flat listed) ⟨fits, bound⟩)
    start joined.2

/-- Optional patterns behind those of the statement extend each of its rows, keep what
is bound, null included, and lose no row. -/
theorem optional_rows (tidy : Tidy space world.kv) {mandatory flats : List FlatPattern}
    {rows : List MatchBindings} (distinguished : rows ≠ [] → Distinguished (fun flat => ∃ vid,
      NodeFits space world.kv flat.start vid) (mandatory ++ flats)) (fit : VidsFit space world.kv)
    (exact : ∀ index ∈ tagIndexesOf env ctx.toCtx world.kv, IndexExact space world.kv index)
    (read : ∀ flat ∈ flats, ∀ vid, NodeFits space world.kv flat.start vid →
      Selects env ctx.toCtx space world.kv flat.start vid)
    {patterns : List Pattern} (flattens : Flattens patterns flats)
    (bound : ∀ row ∈ rows, ∃ trails, Joined space world.kv mandatory trails row) (fuel : Nat) :
    (optionalRows fuel ctx space patterns rows).Answers (handler env) world (fun _ => True)
      fun final => Chained (variablesOf (mandatory ++ flats)) space world.kv flats rows final ∧
      ∃ parts, final = parts.flatten ∧ Forall₂ (fun row part => part ≠ [] ∧
        ∀ next ∈ part, Preserves (variablesOf (mandatory ++ flats)) row next) rows parts := by
  refine answers_optionalRows tidy ?_ flattens ?_ fuel
  · intro flat listed
    have start : NodeAllowed (fun _ => True) (fun _ => True) flat.start := ⟨fun _ _ => trivial, fun _ _ _ => trivial⟩
    refine answers_imp (answers_findNodeCandidates tidy start
      (fun _ _ => trivial) (fun _ => fit) exact) fun vids found => ⟨found.nodup, fun vid => ?_⟩
    rw [found.mem, and_iff_left_of_imp (read flat listed vid)]
  · intro row listed
    obtain ⟨trails, joined⟩ := bound row listed
    have own : ∀ flat ∈ mandatory ++ flats, Separates space world.kv (variablesOf (mandatory ++ flats)) flat := fun flat among =>
      ⟨fun _ named => ⟨flat, among, named⟩, fun vid fits unnamed ⟨other, inside, named⟩ =>
        distinguished (ne_nil_of_mem listed) ⟨flat, among, unnamed, vid, fits⟩ other inside named⟩
    exact ⟨fun flat among => own flat (mem_append_right _ among),
      joined.bindable fun flat among => own flat (mem_append_left _ among)⟩

/-- The pattern `(n)-[:knows]->(b)`. -/
def knownPath : PathPattern :=
  ⟨{ variableName := some "n" }, [{ edgeTypes := ["knows"] }], [{ variableName := some "b" }]⟩

/-- `(n:Person)` and, of those whom it knows, `(b)`. -/
theorem optional_rows_friends :
    (optionalRows 0 indexCtx "g" [.path knownPath] [startRow person 1, startRow person 2]).Answers
    (handler graphEnv) friends (fun _ => True) fun final =>
      Chained (variablesOf [⟨person, []⟩, knownPath.flatten]) "g" friends.kv [knownPath.flatten]
        [startRow person 1, startRow person 2] final ∧ ∃ parts, final = parts.flatten ∧
        Forall₂ (fun row part => part ≠ [] ∧ ∀ next ∈ part, Preserves (variablesOf [⟨person, []⟩,
          knownPath.flatten]) row next) [startRow person 1, startRow person 2] parts := by
  have named : Distinguished (fun flat => ∃ vid, NodeFits "g" friends.kv flat.start vid)
    ([⟨person, []⟩] ++ [knownPath.flatten]) := by
    rintro ⟨flat, listed, unnamed, -⟩
    simp only [cons_append, nil_append, mem_cons, not_mem_nil, or_false] at listed
    rcases listed with rfl | rfl <;> simp [person, knownPath, PathPattern.flatten] at unnamed
  refine optional_rows presentable_friends.tidy (fun _ => named) vidsFit_friends ?_ ?_ (.cons rfl .nil) ?_ 0
  · exact indexesExact_friends
  · intro flat listed vid fits simple label first
    rw [mem_singleton.mp listed] at first
    simp [knownPath, PathPattern.flatten] at first
  · intro row listed
    simp only [mem_cons, not_mem_nil, or_false] at listed
    rcases listed with rfl | rfl
    · exact ⟨[(1, [])], .cons ⟨⟨_, rfl, rfl, by simp [PropsFit, person]⟩, trivial⟩ .nil, rfl⟩
    · exact ⟨[(2, [])], .cons ⟨⟨_, rfl, rfl, by simp [PropsFit, person]⟩, trivial⟩ .nil, rfl⟩

/-- The pattern `()-[:knows]->(b)`. -/
def unnamedPath : PathPattern := ⟨{}, [{ edgeTypes := ["knows"] }], [{ variableName := some "b" }]⟩

/-- The row in which a variable is the second vertex comes back with the first. -/
theorem optional_overwrites : Runs graphEnv "g" spelledTags storedFriends ∧ ∃ row next,
    Joined "g" storedFriends.kv [⟨{ variableName := some anonymousStart }, []⟩] [(2, [])] row ∧
    (optionalRows 0 freeCtx "g" [.path unnamedPath] [row]).run (handler graphEnv) storedFriends = (.ok [next], storedFriends) ∧
    row.values.get anonymousStart = some (.int 2) ∧ next.values.get anonymousStart = some (.int 1) := by
  refine ⟨runs_storedFriends, ⟨Table.empty.insert anonymousStart (.int 2), .empty⟩, _,
    ⟨.cons ⟨⟨_, rfl, rfl, by simp [PropsFit]⟩, trivial⟩ .nil, rfl⟩, rfl, rfl, rfl⟩

end ByoriDB.Executor
