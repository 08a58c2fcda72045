import ByoriDB.Executor.MatchWalks

/-! A trail gives each variable of its pattern a vertex or an edge, once for every place where it stands. -/

namespace ByoriDB.Executor

open List Data Program
open Prog (Answers Returns)
open Store ByoriDB.Graph

inductive Element where
  | vertex (vid : Int)
  | edge (edge : EdgeData)

/-- The places of variables, with what stands there. -/
abbrev Naming := List (String × Element)

/-- A repeated variable stands for one element. -/
def Coherent (naming : Naming) : Prop :=
  ∀ name left right, (name, left) ∈ naming → (name, right) ∈ naming → left = right

def NodePattern.naming (node : NodePattern) (vid : Int) : Naming :=
  node.variableName.toList.map fun name => (name, .vertex vid)

def EdgePattern.naming (pattern : EdgePattern) (taken : Option EdgeData) : Naming :=
  pattern.variableName.toList.flatMap fun name => taken.toList.map fun edge => (name, .edge edge)

def hopNaming (hop : Hop) (step : HopStep) : Naming := hop.1.naming step.1 ++ hop.2.naming step.2

def hopsNaming : List Hop → List HopStep → Naming
  | hop :: hops, step :: steps => hopNaming hop step ++ hopsNaming hops steps
  | _, _ => []

def FlatPattern.naming (flat : FlatPattern) (trail : Trail) : Naming :=
  flat.start.naming trail.1 ++ hopsNaming flat.hops trail.2

def bindElement (bindings : MatchBindings) (name : String) : Element → Option MatchBindings
  | .vertex vid => (bindVertexVariable bindings name vid).toOption.join
  | .edge edge => (bindEdgeVariable bindings name edge).toOption.join

def bindNaming : MatchBindings → Naming → Option MatchBindings
  | bindings, [] => some bindings
  | bindings, (name, element) :: rest => (bindElement bindings name element).bind fun next => bindNaming next rest

theorem bindNaming_append (first second : Naming) : bindNaming bindings (first ++ second) =
      (bindNaming bindings first).bind fun next => bindNaming next second := by
  induction first generalizing bindings with
  | nil => rfl
  | cons pair rest ih => simp [bindNaming, ih, Option.bind_assoc]

theorem bindNaming_keeps {inv : MatchBindings → Prop} (holds : inv bindings)
    (keeps : ∀ pair ∈ naming, ∀ {bindings next}, inv bindings → bindElement bindings pair.1 pair.2 =
      some next → inv next) (bound : bindNaming bindings naming = some row) : inv row := by
  induction naming generalizing bindings with
  | nil =>
    cases bound
    exact holds
  | cons pair rest ih =>
    obtain ⟨here, later⟩ := forall_mem_cons.mp keeps
    obtain ⟨next, first, more⟩ := Option.bind_eq_some_iff.mp bound
    exact ih (here holds first) later more

section

variable (bindings : MatchBindings)

theorem bindNode_naming (node : NodePattern) (vid : Int) :
    (bindNode bindings node vid).toOption.join = bindNaming bindings (node.naming vid) := by
  unfold bindNode NodePattern.naming
  cases node.variableName with
  | none => rfl
  | some name => simp [bindNaming, bindElement]

theorem bindEdge_naming (pattern : EdgePattern) (edge : EdgeData) :
    (bindEdge bindings pattern edge).toOption.join = bindNaming bindings (pattern.naming (some edge)) := by
  unfold bindEdge EdgePattern.naming
  cases pattern.variableName with
  | none => rfl
  | some name => simp [bindNaming, bindElement]

theorem bindStep_naming (hop : Hop) (step : HopStep) :
    bindStep bindings hop step = bindNaming bindings (hopNaming hop step) := by
  obtain ⟨taken, vid⟩ := step
  rw [hopNaming, bindNaming_append]
  unfold bindStep
  cases taken with
  | none =>
    have nothing : hop.1.naming none = [] := by simp [EdgePattern.naming]
    rw [nothing]
    exact bindNode_naming bindings hop.2 vid
  | some edge =>
    rw [← bindEdge_naming]
    simp only [bindHop]
    cases bound : bindEdge bindings hop.1 edge with
    | error reason => rfl
    | ok next =>
      cases next with
      | none => rfl
      | some next => exact bindNode_naming next hop.2 vid

theorem bindSteps_naming (hops : List Hop) (steps : List HopStep) :
    bindSteps bindings hops steps = bindNaming bindings (hopsNaming hops steps) := by
  induction hops generalizing bindings steps with
  | nil => rfl
  | cons hop hops ih =>
    cases steps with
    | nil => rfl
    | cons step steps => simp [bindSteps, hopsNaming, bindNaming_append, bindStep_naming, ih]

/-- The bindings from which the variables of a trail are bound: those before, and the
start if it has no variable. -/
def trailStart (flat : FlatPattern) (trail : Trail) : MatchBindings :=
  match flat.start.variableName with
  | some _ => bindings
  | none => { bindings with values := bindings.values.insert anonymousStart (.int trail.1) }

theorem bindTrail_naming (flat : FlatPattern) (trail : Trail) :
    bindTrail bindings flat trail = bindNaming (trailStart bindings flat trail) (flat.naming trail) := by
  unfold bindTrail trailStart FlatPattern.naming NodePattern.naming bindStart
  cases flat.start.variableName with
  | none => simp [bindSteps_naming, Except.toOption]
  | some name => simp [bindNaming, bindElement, bindSteps_naming]

end

def Shows (bindings : MatchBindings) (name : String) : Element → Prop
  | .vertex vid => bindings.values.get name = some (.int vid) ∧ bindings.edges.get name = none
  | .edge edge => bindings.values.get name = some (.int edge.dstVid) ∧ bindings.edges.get name = some edge

theorem Shows.unique (first : Shows bindings name left) (second : Shows bindings name right) : left = right := by
  cases left <;> cases right <;> simp_all [Shows]

def Unbound (bindings : MatchBindings) (name : String) : Prop :=
  bindings.values.get name = none ∧ bindings.edges.get name = none

/-- The variable is unbound, null, or bound to a vertex or a stored edge. -/
def Sane (space : String) (kv : KV) (bindings : MatchBindings) : Prop :=
  ∀ name, Unbound bindings name ∨ (bindings.values.get name = some .null ∧ bindings.edges.get name = none) ∨
    ∃ element, Shows bindings name element ∧ ∀ edge, element = .edge edge → HasEdge space kv edge

def Admits (bindings : MatchBindings) (name : String) (element : Element) : Prop :=
  Unbound bindings name ∨ Shows bindings name element

theorem unbound_empty : Unbound .empty name := ⟨by simp [MatchBindings.empty], by simp [MatchBindings.empty]⟩

theorem sane_empty : Sane space kv .empty := fun _ => .inl unbound_empty

/-- Nothing but the places so far has changed the bindings of these variables. -/
def Carries (names : String → Prop) (start : MatchBindings) (naming : Naming) (bindings : MatchBindings) : Prop :=
  ∀ name, names name → (∀ element, (name, element) ∈ naming → Shows bindings name element) ∧
    ((∀ element, (name, element) ∉ naming) →
      bindings.values.get name = start.values.get name ∧ bindings.edges.get name = start.edges.get name)

def StoredEdges (space : String) (kv : KV) (naming : Naming) : Prop :=
  ∀ name edge, (name, Element.edge edge) ∈ naming → HasEdge space kv edge

theorem carries_refl (names : String → Prop) : Carries names start [] start :=
  fun _ _ => ⟨fun _ mem => by simp at mem, fun _ => ⟨rfl, rfl⟩⟩

section

variable {bindings : MatchBindings} {next : MatchBindings}

theorem Carries.coherent (carries : Carries names start naming bindings)
    (named : ∀ pair ∈ naming, names pair.1) : Coherent naming := by
  intro name left right first second
  have shows := (carries name (named _ first)).1
  exact (shows left first).unique (shows right second)

/-- One more place, which shows its element and leaves the other variables alone. -/
theorem Carries.extend (carries : Carries names start naming bindings)
    (here : Shows next name element) (agrees : ∀ other, (name, other) ∈ naming → other = element)
    (elsewhere : ∀ other, other ≠ name → next.values.get other = bindings.values.get other ∧
      next.edges.get other = bindings.edges.get other) :
    Carries names start (naming ++ [(name, element)]) next := by
  intro other among
  by_cases same : other = name
  · subst same
    refine ⟨fun own mem => ?_, fun nowhere => (nowhere element (by simp)).elim⟩
    rcases mem_append.mp mem with before | now
    · exact agrees own before ▸ here
    · simp only [mem_singleton, Prod.mk.injEq, true_and] at now
      exact now ▸ here
  · have old : ∀ own, (other, own) ∈ naming ++ [(name, element)] ↔ (other, own) ∈ naming := by simp [same]
    obtain ⟨values, edges⟩ := elsewhere other same
    refine ⟨fun own mem => ?_, fun nowhere => ?_⟩
    · have shows := (carries other among).1 own ((old own).mp mem)
      cases own <;> simpa [Shows, values, edges] using shows
    · rw [values, edges]
      exact (carries other among).2 fun own mem => nowhere own ((old own).mpr mem)

theorem bindElement_bound (shows : Shows bindings name own)
    (stored : ∀ edge, own = .edge edge → HasEdge space kv edge)
    (storedHere : ∀ edge, element = .edge edge → HasEdge space kv edge) :
    (own = element → bindElement bindings name element = some bindings) ∧
      (own ≠ element → bindElement bindings name element = none) := by
  cases own with
  | vertex vid =>
    obtain ⟨value, noEdge⟩ := shows
    cases element with
    | vertex vid' =>
      simp only [bindElement, bindVertexVariable, noEdge, value, Element.vertex.injEq, ne_eq]
      constructor
      · rintro rfl
        simp [Except.toOption]
      · intro apart
        simp [apart, Except.toOption]
    | edge edge => simp [bindElement, bindEdgeVariable, noEdge, value, Except.toOption]
  | edge edge =>
    obtain ⟨value, isEdge⟩ := shows
    cases element with
    | vertex vid => simp [bindElement, bindVertexVariable, isEdge, Except.toOption]
    | edge edge' =>
      simp only [bindElement, bindEdgeVariable, isEdge, Element.edge.injEq, ne_eq]
      constructor
      · rintro rfl
        simp [Except.toOption]
      · intro apart
        have identities : EdgeData.identity edge ≠ EdgeData.identity edge' :=
          fun same => apart (identity_eq (stored edge rfl) (storedHere edge' rfl) same)
        simp [identities, Except.toOption]

theorem bindElement_null (isNull : bindings.values.get name = some .null) (noEdge : bindings.edges.get name = none)
    (element : Element) : bindElement bindings name element = none := by
  cases element <;> simp [bindElement, bindVertexVariable, bindEdgeVariable, isNull, noEdge, Except.toOption]

theorem bindElement_unbound (unbound : Unbound bindings name) (element : Element) :
    ∃ next, bindElement bindings name element = some next ∧ Shows next name element ∧ ∀ other, other ≠ name →
      next.values.get other = bindings.values.get other ∧ next.edges.get other = bindings.edges.get other := by
  obtain ⟨noValue, noEdge⟩ := unbound
  cases element with
  | vertex vid =>
    refine ⟨{ bindings with values := bindings.values.insert name (.int vid) },
      by simp [bindElement, bindVertexVariable, noEdge, noValue, Except.toOption], ⟨by simp, noEdge⟩, ?_⟩
    exact fun other apart => ⟨by simp [get_insert, apart], rfl⟩
  | edge edge =>
    refine ⟨⟨bindings.values.insert name (.int edge.dstVid), bindings.edges.insert name edge⟩,
      by simp [bindElement, bindEdgeVariable, noEdge, noValue, Except.toOption], ⟨by simp, by simp⟩, ?_⟩
    exact fun other apart => ⟨by simp [get_insert, apart], by simp [get_insert, apart]⟩

variable (carries : Carries names start naming bindings) (sane : Sane space kv start) (stored : StoredEdges space kv naming)
  {name : String} (named : names name) {element : Element} (storedHere : ∀ edge, element = .edge edge → HasEdge space kv edge)

include carries named storedHere

/-- A variable is bound if it stands for nothing else, neither before nor so far. -/
theorem bindElement_agrees (agrees : ∀ own, (name, own) ∈ naming → own = element)
    (admits : Admits start name element) : ∃ next, bindElement bindings name element = some next ∧
      Carries names start (naming ++ [(name, element)]) next := by
  have kept : Shows bindings name element → ∃ next, bindElement bindings name element = some next ∧
      Carries names start (naming ++ [(name, element)]) next := fun shows =>
    ⟨bindings, (bindElement_bound shows storedHere storedHere).1 rfl, carries.extend shows agrees fun _ _ => ⟨rfl, rfl⟩⟩
  by_cases bound : ∃ own, (name, own) ∈ naming
  · obtain ⟨own, before⟩ := bound
    exact kept (agrees own before ▸ (carries name named).1 own before)
  · obtain ⟨values, edges⟩ := (carries name named).2 fun own before => bound ⟨own, before⟩
    rcases admits with ⟨noValue, noEdge⟩ | shows
    · obtain ⟨next, binds, here, elsewhere⟩ := bindElement_unbound ⟨values.trans noValue, edges.trans noEdge⟩ element
      exact ⟨next, binds, carries.extend here agrees elsewhere⟩
    · refine kept ?_
      cases element <;> simpa [Shows, values, edges] using shows

include sane stored

theorem bindElement_agreed (admitted : ∀ pair ∈ naming, Admits start pair.1 pair.2)
    (binds : bindElement bindings name element = some next) :
    (∀ own, (name, own) ∈ naming → own = element) ∧ Admits start name element := by
  have agrees : ∀ own, (name, own) ∈ naming → own = element := by
    intro own before
    by_contra apart
    have shows := (carries name named).1 own before
    rw [(bindElement_bound shows (fun edge same => stored name edge (same ▸ before)) storedHere).2 apart] at binds
    cases binds
  refine ⟨agrees, ?_⟩
  by_cases bound : ∃ own, (name, own) ∈ naming
  · obtain ⟨own, before⟩ := bound
    exact agrees own before ▸ admitted _ before
  · obtain ⟨values, edges⟩ := (carries name named).2 fun own before => bound ⟨own, before⟩
    rcases sane name with unbound | ⟨isNull, noEdge⟩ | ⟨own, shows, storedOwn⟩
    · exact .inl unbound
    · rw [bindElement_null (values.trans isNull) (edges.trans noEdge)] at binds
      cases binds
    · right
      have here : Shows bindings name own := by cases own <;> simpa [Shows, values, edges] using shows
      by_contra apart
      have other : own ≠ element := fun same => apart (same ▸ shows)
      rw [(bindElement_bound here storedOwn storedHere).2 other] at binds
      cases binds

end

section

variable {bindings : MatchBindings} (carries : Carries names start naming bindings) (sane : Sane space kv start)
  (stored : StoredEdges space kv (naming ++ more)) (named : ∀ pair ∈ more, names pair.1)

include carries stored named

theorem bindNaming_coherent (coherent : Coherent (naming ++ more)) (admits : ∀ pair ∈ more, Admits start pair.1 pair.2) :
    ∃ row, bindNaming bindings more = some row := by
  induction more generalizing naming bindings with
  | nil => exact ⟨bindings, rfl⟩
  | cons pair rest ih =>
    obtain ⟨name, element⟩ := pair
    have here : ∀ edge, element = .edge edge → HasEdge space kv edge :=
      fun edge same => stored name edge (mem_append_right _ (by simp [same]))
    have agrees : ∀ own, (name, own) ∈ naming → own = element :=
      fun own mem => coherent name own element (mem_append_left _ mem) (mem_append_right _ (.head _))
    obtain ⟨next, first, carries'⟩ := bindElement_agrees carries (named _ (.head _)) here agrees (admits _ (.head _))
    rw [append_cons] at stored coherent
    obtain ⟨row, later⟩ := ih carries' stored (fun other listed => named other (.tail _ listed)) coherent
      fun other listed => admits other (.tail _ listed)
    exact ⟨row, by simp [bindNaming, first, later]⟩

include sane

theorem bindNaming_carries (admitted : ∀ pair ∈ naming, Admits start pair.1 pair.2)
    (bound : bindNaming bindings more = some row) :
    Carries names start (naming ++ more) row ∧ ∀ pair ∈ naming ++ more, Admits start pair.1 pair.2 := by
  induction more generalizing naming bindings with
  | nil =>
    cases bound
    rw [append_nil]
    exact ⟨carries, admitted⟩
  | cons pair rest ih =>
    obtain ⟨name, element⟩ := pair
    obtain ⟨next, first, later⟩ := Option.bind_eq_some_iff.mp bound
    have before : StoredEdges space kv naming := fun name edge mem => stored name edge (mem_append_left _ mem)
    have here : ∀ edge, element = .edge edge → HasEdge space kv edge :=
      fun edge same => stored name edge (mem_append_right _ (by simp [same]))
    obtain ⟨agrees, admits⟩ := bindElement_agreed carries sane before (named _ (.head _)) here admitted first
    obtain ⟨next', first', carries'⟩ := bindElement_agrees carries (named _ (.head _)) here agrees admits
    rw [first] at first'
    cases first'
    rw [append_cons] at stored ⊢
    refine ih carries' stored (fun other listed => named other (.tail _ listed)) ?_ later
    intro pair mem
    rcases mem_append.mp mem with old | new
    · exact admitted pair old
    · rw [mem_singleton.mp new]
      exact admits

end

end ByoriDB.Executor
