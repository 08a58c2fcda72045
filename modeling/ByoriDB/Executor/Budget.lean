import ByoriDB.Executor.Neighbors
import ByoriDB.Program.Failures
import Mathlib.Data.Finite.Prod
import Mathlib.Data.Set.Finite.Lattice

namespace ByoriDB.Executor

open List Data Program
open Prog (Answers)
open Store ByoriDB.Graph

variable {env : Env} {space : String} {world : World} {base kv : KV} {recorded : Fact × Justification → Prop}
  {chase : Chase}

theorem Decodes.decode {incoming : Bool} (decodes : Decodes space kv) (found : kv.get key = some value)
    (kind : key.kind space = some (if incoming then "in-edge" else "edge")) : ∃ edge, decodeQueryEdge key value = .ok edge := by
  obtain ⟨edge, own, named⟩ := decodes.entry incoming key value kind found
  cases own
  exact ⟨edge, decode_edgeEntry incoming named⟩

theorem Decodes.scan {incoming : Bool} (decodes : Decodes space kv) (env : Env) {scope : Prefix}
    (edges : ∀ key, scope.covers key = true → key.kind space = some (if incoming then "in-edge" else "edge")) :
    ∃ edges, (env.arrange (kv.select scope.covers)).mapM (fun entry => decodeQueryEdge entry.1 entry.2) = .ok edges := by
  refine mapM_ok fun entry mem => ?_
  obtain ⟨found, covered⟩ := mem_scan.mp mem
  exact decodes.decode found (edges entry.1 covered)

theorem Decodes.adds {kv' : KV} {triples : Triple → Prop} (decodes : Decodes space kv)
    (adds : Adds space triples kv kv') (named : ∀ t, triples t → t.p ≠ "") : Decodes space kv' := by
  refine ⟨fun incoming key value kind found => ?_⟩
  rcases adds key (by cases incoming <;> simp [kind]) with same | ⟨t, listed, own, stored⟩
  · exact decodes.entry incoming key value kind (same.symm.trans found)
  · cases stored.symm.trans found
    refine ⟨_, Prod.ext ?_ rfl, named t listed⟩
    rcases own with rfl | rfl <;> cases incoming <;> first | rfl | simp at kind

section

variable (decodes : Decodes space world.kv)
include decodes

theorem answers_inferenceNeighbors (vid : Int) (edgeType : String) (incoming : Bool) :
    (inferenceNeighbors space vid edgeType incoming).Answers (handler env) world (fun _ => False) fun _ => True := by
  refine answers_bind (answers_scanPrefix ?_)
  obtain ⟨decoded, ok⟩ := decodes.scan env fun key => @kind_of_edgesAt space incoming vid key
  rw [ok]
  exact answers_bind (answers_pure (answers_pure trivial))

theorem answers_tripleExists (t : Triple) :
    (tripleExists space t).Answers (handler env) world (fun _ => False) fun _ => True := by
  have edges : ∀ key, (edgeDataTriplePrefix space t.s t.p t.d).covers key = true →
      key.kind space = some (if false then "in-edge" else "edge") := by
    intro key covered
    obtain ⟨rest, -, rfl⟩ := covers_text.mp covered
    exact kind_text space "edge" (.num t.s) _
  refine answers_bind (answers_scanPrefix ?_)
  obtain ⟨decoded, ok⟩ := decodes.scan env edges
  rw [ok]
  exact answers_bind (answers_pure (answers_pure trivial))

theorem answers_derivations (rel : RelMeta) (t : Triple) :
    (derivations space rel t).Answers (handler env) world (fun _ => False) fun _ => True := by
  have links : ∀ (items : List (String × String)) (f : String × String → Exec (List (Triple × Justification))),
      (∀ link, (f link).Answers (handler env) world (fun _ => False) fun _ => True) →
      (do let groups ← items.mapM f; pure groups.flatten : Exec (List (Triple × Justification))).Answers (handler env) world
        (fun _ => False) fun _ => True :=
    fun items f each => answers_seq (answers_mapM (fun _ _ => True) fun link _ => each link) fun _ _ => answers_pure trivial
  have transitive : (transitiveDerivations space rel t).Answers (handler env) world (fun _ => False) fun _ => True := by
    unfold transitiveDerivations
    split
    · exact answers_seq (answers_inferenceNeighbors decodes _ _ _) fun _ _ =>
        answers_seq (answers_inferenceNeighbors decodes _ _ _) fun _ _ => answers_pure trivial
    · exact answers_pure trivial
  refine answers_seq transitive fun _ _ => answers_seq (links _ _ ?_) fun _ _ =>
    answers_seq (links _ _ ?_) fun _ _ => answers_pure trivial
  · exact fun link => answers_seq (answers_inferenceNeighbors decodes _ _ _) fun _ _ => answers_pure trivial
  · exact fun link => answers_seq (answers_inferenceNeighbors decodes _ _ _) fun _ _ => answers_pure trivial

end

theorem answers_provenancePuts (explains : Explains space world.kv recorded) :
    (provenancePuts space fact justification).Answers (handler env) world (fun _ => False) fun _ => True := by
  obtain ⟨justs, read, -, -⟩ := explains.reasons fact
  refine answers_bind (answers_get ?_)
  rw [read]
  refine answers_bind (answers_pure ?_)
  split
  · exact answers_pure trivial
  · refine answers_seq (answers_foldlM (fun _ _ => True) trivial fun premise _ puts _ => ?_) fun _ _ => answers_pure trivial
    cases premise with
    | vtype vid className => exact answers_pure trivial
    | edge s p d =>
      obtain ⟨facts, readFacts, -, -⟩ := explains.uses ⟨s, p, d⟩
      refine answers_bind (answers_get ?_)
      rw [show provRevEdge space s p d = Triple.revKey space ⟨s, p, d⟩ from rfl, readFacts]
      refine answers_bind (answers_pure ?_)
      split <;> exact answers_pure trivial

def overBudget (cap : Nat) : ExecutionError :=
  .resourceExhausted s!"Inference closure exceeds max_traversal_nodes ({cap}); assertions/history may already be committed. Inference remains dirty; increase the budget and run REPAIR INFERENCE."

def Entailed (base : KV) (space : String) : Triple → Prop :=
  (entailment (edgeFlags base space)).Closure (Asserted base space)

def Classified (base : KV) (space : String) (type : Int × String) : Prop :=
  ∃ t, Entailed base space t ∧ typing (edgeFlags base space) t type.1 type.2

def Sorted (base : KV) (space : String) (typed : Int → String → Prop) : Prop :=
  ∀ vid className, typed vid className → Classified base space (vid, className)

theorem Sorted.type (sorted : Sorted base space typed)
    (new : ∀ given, className = some given → Classified base space (vid, given)) :
    Sorted base space fun other otherClass => typed other otherClass ∨ (other = vid ∧ className = some otherClass) := by
  rintro other otherClass (old | ⟨rfl, declared⟩)
  · exact sorted other otherClass old
  · exact new otherClass declared

/-- There are more new edges and types in the closure than the budget allows. -/
def Overruns (base : KV) (space : String) (cap : Nat) : Prop :=
  cap ≠ 0 ∧ ∃ (edges : List Triple) (types : List (Int × String)), edges.Nodup ∧ types.Nodup ∧
    (∀ t ∈ edges, Entailed base space t ∧ ¬ Asserted base space t) ∧ (∀ type ∈ types, Classified base space type) ∧
    cap < edges.length + types.length

/-- What was paid is the number of new edges and types. -/
def Tallied (base : KV) (space : String) (seen : List Triple) (typed : Int → String → Prop) (written : Nat) : Prop :=
  ∃ edges types, Enumerates edges (fun t => t ∈ seen ∧ ¬ Asserted base space t) ∧
    Enumerates types (fun type : Int × String => typed type.1 type.2) ∧ written = edges.length + types.length

section

variable {seen : List Triple} {typed : Int → String → Prop} {written cap : Nat}

theorem Tallied.type (tallied : Tallied base space seen typed written)
    (cost : Charged cap written charged (∃ given ∈ className, ¬ typed vid given)) :
    Tallied base space seen (fun other otherClass =>
      typed other otherClass ∨ (other = vid ∧ className = some otherClass)) charged := by
  obtain ⟨edges, types, isNew, isTyped, rfl⟩ := tallied
  by_cases new : ∃ given ∈ className, ¬ typed vid given
  · obtain ⟨given, named, untyped⟩ := new
    refine ⟨edges, (vid, given) :: types, isNew, ⟨nodup_cons.mpr ⟨?_, isTyped.nodup⟩, fun type => ?_⟩, ?_⟩
    · rwa [isTyped.mem]
    · rw [mem_cons, isTyped.mem, Prod.ext_iff]
      rw [Option.mem_def] at named
      grind
    · rw [cost.added ⟨given, named, untyped⟩, length_cons, Nat.add_assoc]
  · refine ⟨edges, types, isNew, ⟨isTyped.nodup, fun type => ?_⟩, cost.kept new⟩
    rw [isTyped.mem]
    refine (or_iff_left_of_imp ?_).symm
    rintro ⟨rfl, named⟩
    exact not_not.mp fun untyped => new ⟨type.2, named, untyped⟩

theorem Tallied.advance (tallied : Tallied base space chase.seen typed chase.written)
    (complete : ∀ t, Asserted base space t → t ∈ chase.seen) (t : Triple) :
    Tallied base space (chase.advance t).seen typed (chase.advance t).written := by
  unfold Chase.advance
  split
  · exact tallied
  · rename_i unseen
    obtain ⟨edges, types, isNew, isTyped, paid⟩ := tallied
    refine ⟨t :: edges, types, ⟨nodup_cons.mpr ⟨?_, isNew.nodup⟩, fun other => ?_⟩, isTyped, ?_⟩
    · rw [isNew.mem]
      exact fun known => unseen known.1
    · rw [mem_cons, mem_cons, isNew.mem]
      have fresh : ¬ Asserted base space t := fun asserted => unseen (complete t asserted)
      grind
    · simp only [length_cons, paid]
      omega

theorem Tallied.advanceAll (chase : Chase) (tallied : Tallied base space chase.seen typed chase.written)
    (complete : ∀ t, Asserted base space t → t ∈ chase.seen) (triples : List Triple) :
    Tallied base space (triples.foldl Chase.advance chase).seen typed (triples.foldl Chase.advance chase).written := by
  induction triples generalizing chase with
  | nil => exact tallied
  | cons t rest ih =>
    exact ih _ (tallied.advance complete t)
      fun other asserted => mem_advance.mpr (.inl (complete other asserted))

theorem Tallied.congr (tallied : Tallied base space seen typed written)
    (same : ∀ vid className, typed vid className ↔ typed' vid className) : Tallied base space seen typed' written := by
  have equal : typed = typed' := funext fun vid => funext fun className => propext (same vid className)
  exact equal ▸ tallied

theorem Tallied.overruns (tallied : Tallied base space seen typed written)
    (capped : cap ≠ 0) (spent : cap ≤ written)
    (stored : ∀ t ∈ seen, Entailed base space t) (classes : Sorted base space typed)
    (new : (∃ t, Entailed base space t ∧ ¬ Asserted base space t ∧ t ∉ seen) ∨
      ∃ type, Classified base space type ∧ ¬ typed type.1 type.2) : Overruns base space cap := by
  obtain ⟨edges, types, isNew, isTyped, rfl⟩ := tallied
  have fresh : ∀ t ∈ edges, Entailed base space t ∧ ¬ Asserted base space t :=
    fun t listed => ⟨stored t ((isNew.mem t).mp listed).1, ((isNew.mem t).mp listed).2⟩
  have known : ∀ type ∈ types, Classified base space type := fun type listed => classes _ _ ((isTyped.mem type).mp listed)
  rcases new with ⟨t, entailed, unasserted, unseen⟩ | ⟨type, classified, untyped⟩
  · refine ⟨capped, t :: edges, types, nodup_cons.mpr ⟨?_, isNew.nodup⟩, isTyped.nodup, ?_, known, ?_⟩
    · rw [isNew.mem]
      exact fun mem => unseen mem.1
    · exact forall_mem_cons.mpr ⟨⟨entailed, unasserted⟩, fresh⟩
    · rw [length_cons]
      omega
  · refine ⟨capped, edges, type :: types, isNew.nodup, nodup_cons.mpr ⟨?_, isTyped.nodup⟩, fresh, ?_, ?_⟩
    · rwa [isTyped.mem]
    · exact forall_mem_cons.mpr ⟨classified, known⟩
    · rw [length_cons]
      omega

end

theorem fails_chargeInference (cap written : Nat) (isNew : Bool) : (chargeInference cap written isNew).Fails (handler env)
    (fun reason => reason = overBudget cap ∧ cap ≠ 0 ∧ cap ≤ written ∧ isNew = true) world := by
  unfold chargeInference
  split
  · rename_i new
    split
    · rename_i spent
      exact Prog.fails_fail ⟨rfl, spent.1, spent.2, new⟩
    · exact fails_pure _
  · exact fails_pure _

section

variable {stored : Triple → Prop} {typed : Int → String → Prop} {cap : Nat}

theorem fails_typeVertex (rederived : Rederived space base world.kv stored typed)
    (explains : Explains space world.kv recorded) (rule : RuleKind) :
    (typeVertex space cap premise rule vid className written).Fails (handler env)
      (fun reason => reason = overBudget cap ∧ cap ≠ 0 ∧ cap ≤ written ∧
      ∃ given ∈ className, ¬ typed vid given) world := by
  cases className with
  | none => exact fails_pure _
  | some className =>
    have newIff : (world.kv.get (vtype space vid className)).isNone = true ↔
        ∃ given ∈ some className, ¬ typed vid given := by
      simp [← rederived.types]
    refine fails_perform (fails_seq ?_ (@wp_chargeInference env space _ cap written _) ?_)
    · exact fails_mono (fails_chargeInference cap written _) fun reason => by
        rintro ⟨same, capped, spent, new⟩
        exact ⟨same, capped, spent, newIff.mp new⟩
    · rintro charged world ⟨rfl, -⟩
      refine fails_answers (answers_provenancePuts explains) (wp_provenancePuts explains) ?_
      rintro puts world ⟨rfl, -⟩
      exact fails_perform (fails_pure _)

theorem fails_storeDerived (decodes : Decodes space world.kv)
    (rederived : Rederived space base world.kv (· ∈ chase.seen) typed)
    (explains : Explains space world.kv recorded) :
    (storeDerived space cap chase derived).Fails (handler env) (fun reason => reason =
      overBudget cap ∧ cap ≠ 0 ∧ cap ≤ chase.written ∧ derived.1 ∉ chase.seen) world := by
  refine fails_answers (answers_tripleExists decodes derived.1) wp_tripleExists ?_
  rintro found world ⟨rfl, foundIff⟩
  rw [rederived.stored_iff] at foundIff
  refine fails_seq ?_ (@wp_chargeInference env space _ cap chase.written _) ?_
  · exact fails_mono (fails_chargeInference cap chase.written _) fun reason => by
      rintro ⟨same, capped, spent, new⟩
      refine ⟨same, capped, spent, fun seen => ?_⟩
      rw [foundIff.mpr seen] at new
      cases new
  · rintro charged world ⟨rfl, -⟩
    refine fails_answers (answers_provenancePuts explains) (wp_provenancePuts explains) ?_
    rintro puts world ⟨rfl, -⟩
    refine fails_perform ?_
    split
    · exact fails_pure _
    · split <;> exact fails_pure _

end

section

variable {rel : RelMeta} {taken : Triple → Prop} {cap : Nat}

theorem fails_storeAll (derived : List (Triple × Justification)) (decodes : Decodes space world.kv)
    (rederived : Rederived space base world.kv (· ∈ chase.seen) typed)
    (explains : Explains space world.kv recorded)
    (tallied : Tallied base space chase.seen typed chase.written)
    (stored : ∀ t ∈ chase.seen, Entailed base space t)
    (classes : Sorted base space typed) (entailed : ∀ item ∈ derived, Entailed base space item.1)
    (named : ∀ t, Entailed base space t → t.p ≠ "") :
    (derived.foldlM (storeDerived space cap) chase).Fails (handler env)
      (fun reason => reason = overBudget cap ∧ Overruns base space cap) world := by
  induction derived generalizing chase world recorded with
  | nil => exact fails_pure _
  | cons item rest ih =>
    obtain ⟨here, later⟩ := forall_mem_cons.mp entailed
    refine fails_seq ?_ (wp_storeDerived rederived explains) ?_
    · refine fails_mono (fails_storeDerived decodes rederived explains) ?_
      rintro reason ⟨same, capped, spent, unseen⟩
      have fresh : ¬ Asserted base space item.1 := fun asserted => unseen (rederived.complete _ asserted)
      exact ⟨same, tallied.overruns capped spent stored classes (.inl ⟨item.1, here, fresh, unseen⟩)⟩
    · rintro next middle ⟨rfl, rederived', explains', adds, -⟩
      refine ih (decodes.adds adds ?_) rederived' explains' (tallied.advance rederived.complete item.1) ?_ later
      · rintro _ rfl
        exact named _ here
      · intro t mem
        rcases mem_advance.mp mem with old | rfl
        · exact stored t old
        · exact here

/-- Where the worklist stands: what it holds and what it has paid for. -/
structure Accounted (space : String) (base : KV) (cap : Nat)
    (taken : Triple → Prop) (chase : Chase) (kv : KV) : Prop where
  chasing : Chasing space base (edgeFlags base space) taken chase kv
  explaining : Explaining space (edgeFlags base space) taken chase kv
  decodes : Decodes space kv
  tallied : Tallied base space chase.seen (fun vid className => ∃ t, taken t ∧
    typing (edgeFlags base space) t vid className) chase.written
  within : cap ≠ 0 → chase.written ≤ cap

variable (reflects : rel.Reflects (edgeFlags base space)) (named : ∀ t, Entailed base space t → t.p ≠ "")

include reflects named

theorem meets_processTriple (next : chase.worklist = t :: rest)
    (accounted : Accounted space base cap taken chase world.kv) :
    (processTriple space cap rel { chase with worklist := rest } t).Meets (handler env) (Rebuilds env space)
      (fun reason => reason = overBudget cap ∧ Overruns base space cap)
      (fun chase' world' => Accounted space base cap (fun other => taken other ∨ other = t) chase' world'.kv ∧
        ∃ (triples : List Triple) (charged : Nat), chase' = triples.foldl Chase.advance ⟨rest, chase.seen, charged⟩) world := by
  obtain ⟨chasing, explaining, decodes, tallied, within⟩ := accounted
  have whole := @wp_processTriple env space world base
    (edgeFlags base space) rel taken t rest chase cap reflects next chasing explaining
  obtain ⟨recorded, explains, recording⟩ := explaining
  have held : t ∈ chase.seen := chasing.agenda.pending t (by simp [next])
  have stored : ∀ t ∈ chase.seen, Entailed base space t := chasing.progress.sound
  have classes : Sorted base space fun vid className => ∃ t, taken t ∧ typing (edgeFlags base space) t vid className := by
    rintro vid className ⟨u, was, types⟩
    exact ⟨u, stored u (chasing.progress.takenStored u was), types⟩
  have domain : ∀ {given}, rel.domain.get t.p = some given → Classified base space (t.s, given) :=
    fun declared => ⟨t, stored t held, .inl ⟨(reflects.domain _ _).mp declared, rfl⟩⟩
  have range : ∀ {given}, rel.range.get t.p = some given → Classified base space (t.d, given) :=
    fun declared => ⟨t, stored t held, .inr ⟨(reflects.range _ _).mp declared, rfl⟩⟩
  have paid : (processTriple space cap rel { chase with worklist := rest } t).Meets (handler env) (Rebuilds env space)
      (fun reason => reason = overBudget cap ∧ Overruns base space cap)
      (fun chase' world' => Decodes space world'.kv ∧ (cap ≠ 0 → chase'.written ≤ cap) ∧
        Tallied base space chase'.seen (fun vid className => ∃ u, (taken u ∨ u = t) ∧
          typing (edgeFlags base space) u vid className)
          chase'.written ∧
        ∃ (triples : List Triple) (charged : Nat), chase' = triples.foldl Chase.advance ⟨rest, chase.seen, charged⟩) world := by
    refine meets_seq ⟨Prog.fails_of_answers (answers_derivations decodes rel t),
      wp_derivations reflects chasing.rederived held⟩ ?_
    rintro derived world ⟨rfl, fires⟩
    refine meets_seq ⟨fails_mono (fails_typeVertex chasing.rederived explains .domain) ?_,
      wp_typeVertex chasing.rederived explains cap t.fact .domain t.s _ _⟩ ?_
    · rintro reason ⟨same, capped, spent, given, declared, untyped⟩
      exact ⟨same, tallied.overruns capped spent stored classes (.inr ⟨(t.s, given), domain declared, untyped⟩)⟩
    rintro charged domainWorld ⟨byDomain, domainReasons, domainAdds, domainCost⟩
    have tallied := tallied.type domainCost
    have decodes := decodes.adds domainAdds (by simp)
    have classes := classes.type fun given => domain
    refine meets_seq ⟨fails_mono (fails_typeVertex byDomain domainReasons .range) ?_,
      wp_typeVertex byDomain domainReasons cap t.fact .range t.d _ _⟩ ?_
    · rintro reason ⟨same, capped, spent, given, declared, untyped⟩
      exact ⟨same, tallied.overruns capped spent stored classes (.inr ⟨(t.d, given), range declared, untyped⟩)⟩
    rintro charged' rangeWorld ⟨byRange, rangeReasons, rangeAdds, rangeCost⟩
    have tallied := tallied.type rangeCost
    have decodes := decodes.adds rangeAdds (by simp)
    have classes := classes.type fun given => range
    have entailed : ∀ item ∈ derived, Entailed base space item.1 := fun item mem =>
      Rules.follows_sound chasing.progress held ((follows_iff_fires held).mpr ⟨item.2, (fires item).mp mem⟩)
    refine ⟨fails_storeAll derived decodes byRange rangeReasons tallied stored classes entailed named,
      wp_imp (wp_storeAll derived byRange rangeReasons) ?_⟩
    rintro final world' ⟨rfl, rederived, -, adds, withinAll⟩
    have total : Tallied base space ((derived.map Prod.fst).foldl Chase.advance ⟨rest, chase.seen, charged'⟩).seen _
        ((derived.map Prod.fst).foldl Chase.advance ⟨rest, chase.seen, charged'⟩).written :=
      Tallied.advanceAll ⟨rest, chase.seen, charged'⟩ tallied byRange.complete _
    refine ⟨decodes.adds adds ?_, fun capped => ?_, total.congr fun vid className => ?_, _, _, rfl⟩
    · intro u mem
      obtain ⟨item, among, rfl⟩ := mem_map.mp mem
      exact named _ (entailed item among)
    · exact withinAll capped (rangeCost.within capped (domainCost.within capped (within capped)))
    · simp only [typing, reflects.domain, reflects.range]
      grind
  refine ⟨paid.1, wp_imp (wp_and whole paid.2) ?_⟩
  rintro chase' world' ⟨⟨chasing, explaining⟩, decodes, within, tallied, shape⟩
  exact ⟨⟨chasing, explaining, decodes, tallied, within⟩, shape⟩

omit reflects named in
theorem Accounted.start (seen : ∀ t, Asserted base space t ↔ t ∈ seeds)
    (cleared : Rederived space base kv (Asserted base space) fun _ _ => False)
    (unexplained : Explains space kv fun _ => False) (decodes : Decodes space kv) :
    Accounted space base cap (· ∈ []) ⟨seeds, seeds, 0⟩ kv := by
  have none : (fun t : Triple => t ∈ ([] : List Triple)) = fun _ => False := by
    funext t
    simp
  rw [none]
  refine ⟨⟨cleared.congr seen (by simp), .start _ fun t => (seen t).symm, fun _ => id, fun _ => .inr⟩,
    ⟨_, unexplained, .start not_concludes_nil⟩, decodes, ⟨[], [], ⟨.nil, fun t => ?_⟩, ⟨.nil, by simp⟩, rfl⟩, by simp⟩
  simp only [not_mem_nil, false_iff, not_and, not_not]
  exact (seen t).mpr

omit reflects named in
theorem Accounted.finish (accounted : Accounted space base cap taken chase kv)
    (empty : chase.worklist = []) :
    ∃ edges types, Enumerates edges (fun t => Entailed base space t ∧ ¬ Asserted base space t) ∧
      Enumerates types (Classified base space) ∧ (cap ≠ 0 → edges.length + types.length ≤ cap) := by
  obtain ⟨edges, types, isNew, isTyped, paid⟩ := accounted.tallied
  have progress := accounted.chasing.progress
  have all : ∀ t, t ∈ chase.seen → taken t := by
    intro t member
    have covered := accounted.chasing.agenda.covered t member
    rwa [empty, mem_nil_iff, or_false] at covered
  have closure : ∀ t, t ∈ chase.seen ↔ Entailed base space t := progress.finish all
  refine ⟨edges, types, ⟨isNew.nodup, fun t => ?_⟩, ⟨isTyped.nodup, fun type => ?_⟩, fun capped => paid ▸ accounted.within capped⟩
  · rw [isNew.mem, closure]
  · rw [isTyped.mem]
    refine exists_congr fun t => and_congr_left fun _ => ?_
    exact ⟨fun was => (closure t).mp (progress.takenStored t was), fun entailed => all t ((closure t).mpr entailed)⟩

omit reflects named in
theorem nodup_advance (chase : Chase) (seen : ∀ t ∈ done ++ chase.worklist, t ∈ chase.seen)
    (nodup : (done ++ chase.worklist).Nodup) (triples : List Triple) :
    (done ++ (triples.foldl Chase.advance chase).worklist).Nodup := by
  induction triples generalizing chase with
  | nil => exact nodup
  | cons t rest ih =>
    rw [foldl_cons]
    unfold Chase.advance
    split
    · exact ih _ seen nodup
    · rename_i unseen
      refine ih _ ?_ ?_
      · intro other member
        rw [← append_assoc, mem_append, mem_singleton] at member
        rcases member with old | rfl
        · exact .tail _ (seen other old)
        · exact .head _
      · rw [← append_assoc]
        exact concat_eq_append ▸ nodup.concat fun member => unseen (seen t member)

/-- The worklist loop ends once every triple of the closure has been taken. -/
theorem meets_chaseLoop {all : List Triple} (finite : ∀ t, Entailed base space t → t ∈ all)
    {done : List Triple} (accounted : Accounted space base cap (· ∈ done) chase world.kv)
    (nodup : (done ++ chase.worklist).Nodup) (enough : all.length ≤ fuel + done.length) :
    (chaseLoop space cap rel fuel chase).Meets (handler env) (Rebuilds env space)
      (fun reason => reason = overBudget cap ∧ Overruns base space cap)
      (fun _ _ => ∃ edges types, Enumerates edges (fun t => Entailed base space t ∧ ¬ Asserted base space t) ∧
        Enumerates types (Classified base space) ∧ (cap ≠ 0 → edges.length + types.length ≤ cap)) world := by
  have seen : ∀ {chase : Chase} {done : List Triple} {kv : KV}, Accounted space base cap (· ∈ done) chase kv →
      ∀ t ∈ done ++ chase.worklist, t ∈ chase.seen := by
    intro chase done kv accounted t mem
    exact (mem_append.mp mem).elim (accounted.chasing.progress.takenStored t) (accounted.chasing.agenda.pending t)
  induction fuel generalizing chase done world with
  | zero =>
    unfold chaseLoop
    cases pending : chase.worklist with
    | nil => exact ⟨fails_pure _, accounted.finish pending⟩
    | cons t rest =>
      have inside : done ++ chase.worklist ⊆ all :=
        fun other mem => finite other (accounted.chasing.progress.sound other (seen accounted other mem))
      have short := (nodup.subperm inside).length_le
      rw [pending, length_append, length_cons] at short
      omega
  | succ fuel ih =>
    unfold chaseLoop
    cases pending : chase.worklist with
    | nil => exact ⟨fails_pure _, accounted.finish pending⟩
    | cons t rest =>
      refine meets_seq (meets_processTriple reflects named pending accounted) ?_
      rintro chase' world' ⟨accounted', triples, charged, rfl⟩
      have same : (fun other => other ∈ done ∨ other = t) = (· ∈ done ++ [t]) := by
        funext other
        simp
      rw [same] at accounted'
      have listed : done ++ [t] ++ rest = done ++ chase.worklist := by simp [pending]
      refine ih accounted' (nodup_advance ⟨rest, chase.seen, charged⟩ ?_ (listed ▸ nodup) triples) (by simp; omega)
      exact listed ▸ seen accounted

end

/-- The schemas of the edge types can be read, and name edge types. -/
structure Declaring (space : String) (kv : KV) : Prop where
  readable : ∀ key value, (edgePrefix space).covers key = true → kv.get key = some value →
    ∃ schema, readEdgeSchema space key value = .ok schema
  named : ∀ p, (edgeFlags kv space p).inverseOf ≠ some "" ∧ (edgeFlags kv space p).subpropertyOf ≠ some "" ∧
    (edgeFlags kv space p).equivalentProperty ≠ some ""

theorem edgeFlags_of_missing (missing : kv.get (.edge space p) = none) : edgeFlags kv space p = {} := by
  rw [edgeFlags, missing]

theorem Declaring.unnamed (declaring : Declaring space kv) : edgeFlags kv space "" = {} := by
  cases found : kv.get (.edge space "") with
  | none => exact edgeFlags_of_missing found
  | some value =>
    obtain ⟨schema, read⟩ := declaring.readable (.edge space "") value
      (covers_text.mpr ⟨[.word ""], by simp, rfl⟩) found
    obtain ⟨rfl, key, -⟩ := readEdgeSchema_ok read
    rw [edge_key_inj] at key
    simp [readEdgeSchema, ← key] at read

theorem Entailed.named (declaring : Declaring space base) (decodes : Decodes space base)
    (entailed : Entailed base space t) : t.p ≠ "" := by
  have own : ∀ {q name : String} (field : SemanticFlags → Option String), field {} = none →
    field (edgeFlags base space q) = some name →
      q ≠ "" := by
    rintro q name field unset declared rfl
    rw [declaring.unnamed, unset] at declared
    cases declared
  induction entailed with
  | base given =>
    obtain ⟨rank, value, found, -⟩ := given
    obtain ⟨edge, -, rfl, -, named⟩ := decodes.triple found
    exact named
  | unary _ rule named =>
    rcases rule with ⟨-, rfl⟩ | ⟨q, declared | declared, rfl⟩ | ⟨q, declared, rfl⟩ | ⟨q, declared | declared, rfl⟩
    · exact named
    · rintro rfl
      exact (declaring.named _).1 declared
    · exact own SemanticFlags.inverseOf rfl declared
    · rintro rfl
      exact (declaring.named _).2.1 declared
    · rintro rfl
      exact (declaring.named _).2.2 declared
    · exact own SemanticFlags.equivalentProperty rfl declared
  | binary _ _ rule named _ =>
    obtain ⟨-, ⟨-, -, rfl⟩ | ⟨q, declared, rfl⟩⟩ := rule
    · exact named
    · rintro rfl
      rw [declaring.unnamed] at declared
      cases declared

theorem finite_keys (kv : KV) : {key | kv.get key ≠ none}.Finite := by
  refine (finite_toSet (kv.toList.map Prod.fst)).subset fun key found => ?_
  obtain ⟨value, stored⟩ := Option.ne_none_iff_exists'.mp found
  exact mem_map.mpr ⟨(key, value), mem_toList.mpr stored, rfl⟩

theorem finite_asserted (kv : KV) (space : String) : {t | Asserted kv space t}.Finite := by
  have injective : Function.Injective fun place : Triple × Int => place.1.key space place.2 := by
    rintro ⟨t, rank⟩ ⟨u, rank'⟩ same
    obtain ⟨rfl, rfl⟩ := Triple.key_inj.mp same
    rfl
  refine (((finite_keys kv).preimage injective.injOn).image Prod.fst).subset ?_
  rintro t ⟨rank, value, found, -⟩
  exact ⟨(t, rank), by simp [found], rfl⟩

def mentioned (sem : SemanticFlags) : List String :=
  sem.inverseOf.toList ++ sem.subpropertyOf.toList ++ sem.equivalentProperty.toList

/-- The closure stays within the vertices of the assertions, and within the edge types
that are asserted, declared or mentioned. -/
theorem Entailed.within {ends : Set Int} {names : Set String}
    (asserted : ∀ t, Asserted kv space t → t.s ∈ ends ∧ t.p ∈ names ∧ t.d ∈ ends)
    (declared : ∀ p, kv.get (.edge space p) ≠ none → p ∈ names)
    (mentions : ∀ p, ∀ q ∈ mentioned (edgeFlags kv space p), q ∈ names)
    (entailed : Entailed kv space t) : t.s ∈ ends ∧ t.p ∈ names ∧ t.d ∈ ends := by
  have flagged : ∀ {p : String}, edgeFlags kv space p ≠ {} → p ∈ names :=
    fun {p} set => declared p fun missing => set (edgeFlags_of_missing missing)
  have mention : ∀ {p q : String}, (edgeFlags kv space p).inverseOf = some q ∨ (edgeFlags kv space p).subpropertyOf = some q ∨
      (edgeFlags kv space p).equivalentProperty = some q → q ∈ names := by
    intro p q declared
    refine mentions p q ?_
    simpa [mentioned, or_assoc] using declared
  induction entailed with
  | base given => exact asserted _ given
  | unary _ rule held =>
    obtain ⟨source, name, target⟩ := held
    rcases rule with ⟨-, rfl⟩ | ⟨q, declared | declared, rfl⟩ | ⟨q, declared, rfl⟩ | ⟨q, declared | declared, rfl⟩
    · exact ⟨target, name, source⟩
    · exact ⟨target, mention (.inl declared), source⟩
    · exact ⟨target, flagged fun unset => by simp [unset] at declared, source⟩
    · exact ⟨source, mention (.inr (.inl declared)), target⟩
    · exact ⟨source, mention (.inr (.inr declared)), target⟩
    · exact ⟨source, flagged fun unset => by simp [unset] at declared, target⟩
  | binary _ _ rule left right =>
    obtain ⟨-, ⟨-, -, rfl⟩ | ⟨q, declared, rfl⟩⟩ := rule
    · exact ⟨left.1, left.2.1, right.2.2⟩
    · exact ⟨left.1, flagged fun unset => by simp [unset] at declared, right.2.2⟩

theorem finite_entailed (kv : KV) (space : String) : {t | Entailed kv space t}.Finite := by
  have asserted := finite_asserted kv space
  have declared : {p | kv.get (Key.edge space p) ≠ none}.Finite := by
    have injective : Function.Injective (Key.edge space) := fun _ _ => edge_key_inj.mp
    exact (finite_keys kv).preimage injective.injOn
  have mentions : (⋃ p ∈ {p | kv.get (Key.edge space p) ≠ none}, {q | q ∈ mentioned (edgeFlags kv space p)}).Finite :=
    declared.biUnion fun p _ => finite_toSet _
  have ends := (asserted.image Triple.s).union (asserted.image Triple.d)
  have names := ((asserted.image Triple.p).union declared).union mentions
  refine ((ends.prod (names.prod ends)).image fun place => (⟨place.1, place.2.1, place.2.2⟩ : Triple)).subset ?_
  intro t entailed
  refine ⟨(t.s, t.p, t.d), Entailed.within (fun t given => ?_)
    (fun p found => .inl (.inr found)) (fun p q mention => .inr ?_) entailed, rfl⟩
  · exact ⟨.inl ⟨t, given, rfl⟩, .inl (.inl ⟨t, given, rfl⟩), .inr ⟨t, given, rfl⟩⟩
  · refine Set.mem_iUnion₂.mpr ⟨p, fun missing => ?_, mention⟩
    rw [edgeFlags_of_missing missing] at mention
    simp [mentioned] at mention

theorem finite_classified (kv : KV) (space : String) : {type | Classified kv space type}.Finite := by
  have each : ∀ t ∈ {t | Entailed kv space t}, {type : Int × String | typing (edgeFlags kv space) t type.1 type.2}.Finite := by
    intro t _
    have listed := finite_toSet ((edgeFlags kv space t.p).domain.toList.map (t.s, ·) ++
      (edgeFlags kv space t.p).range.toList.map (t.d, ·))
    refine listed.subset ?_
    rintro ⟨vid, className⟩ (⟨declared, rfl⟩ | ⟨declared, rfl⟩) <;> simp [declared]
  refine ((finite_entailed kv space).biUnion each).subset ?_
  rintro type ⟨t, entailed, types⟩
  exact Set.mem_iUnion₂.mpr ⟨t, entailed, types⟩

theorem enumerates_of_finite (finite : {item | holds item}.Finite) : ∃ items, Enumerates items holds :=
  ⟨finite.toFinset.toList, finite.toFinset.nodup_toList, fun item => by simp⟩

theorem answers_loadRelMeta (declaring : Declaring space world.kv) :
    (loadRelMeta space).Answers (handler env) world (fun _ => False) fun _ => True := by
  refine answers_bind (answers_scanPrefix ?_)
  have listed : ∀ entry ∈ env.arrange (world.kv.select (edgePrefix space).covers), ∃ schema,
      readEdgeSchema space entry.1 entry.2 = .ok schema := by
    intro entry mem
    obtain ⟨found, covered⟩ := mem_scan.mp mem
    exact declaring.readable entry.1 entry.2 covered found
  generalize env.arrange (world.kv.select (edgePrefix space).covers) = entries at listed
  refine answers_imp (answers_foldlM (fun rest _ => ∀ entry ∈ rest, ∃ schema, readEdgeSchema space entry.1 entry.2 = .ok schema)
    listed ?_) fun _ _ => trivial
  intro entry rest rel all
  obtain ⟨⟨schema, read⟩, later⟩ := forall_mem_cons.mp all
  rw [read]
  exact answers_bind (answers_pure (answers_pure later))

theorem surveyEdge_total {entries : List (Key × Val)}
    (decodes : ∀ entry ∈ entries, ∃ edge, decodeQueryEdge entry.1 entry.2 = .ok edge)
    (survey : Survey) : ∃ survey', entries.foldlM (surveyEdge space) survey = .ok survey' := by
  induction entries generalizing survey with
  | nil => exact ⟨survey, rfl⟩
  | cons entry rest ih =>
    obtain ⟨⟨edge, decoded⟩, later⟩ := forall_mem_cons.mp decodes
    rw [foldlM_cons]
    have step : ∃ next, surveyEdge space survey entry = .ok next := by
      unfold surveyEdge
      rw [decoded]
      by_cases inferred : edge.isInferred = true
      · exact ⟨_, if_pos inferred⟩
      · exact ⟨_, if_neg inferred⟩
    obtain ⟨next, surveyed⟩ := step
    rw [surveyed]
    exact ih later next

section

variable {survey : Survey} (surveyed : Surveyed space kv survey) {deletes : List Key} (removed : ∀ key, key ∈ deletes ↔
  (key ∈ survey.deletes ∨ (kv.get key).isSome = true ∧ key.kind space ∈ derivedKinds) ∧ key ∉ survey.puts.map Prod.fst)

include surveyed removed

theorem Surveyed.decodes (decodes : Decodes space kv) : Decodes space ((kv.putAll survey.puts).eraseAll deletes) := by
  refine ⟨fun incoming key value kind found => ?_⟩
  cases incoming with
  | false =>
    rw [get_eraseAll] at found
    split at found
    · cases found
    · rw [get_putAll_of_not_mem] at found
      · exact decodes.entry false key value kind found
      · intro mem
        simp [surveyed.kind_put mem] at kind
  | true =>
    by_cases mem : key ∈ survey.puts.map Prod.fst
    · rw [get_eraseAll, if_neg fun deleted => ((removed key).mp deleted).2 mem, get_putAll] at found
      cases last : lastPut survey.puts key with
      | none => exact absurd mem (lastPut_eq_none.mp last)
      | some stored =>
        rw [last, Option.some_or] at found
        cases found
        obtain ⟨t, rank, rfl, found, -⟩ := (surveyed.puts _ _).mp (mem_of_lastPut last)
        obtain ⟨edge, rfl, rfl, rfl, named⟩ := decodes.triple found
        exact ⟨edge, rfl, named⟩
    · rw [erased_of_kind removed (by simp [kind, derivedKinds]) mem] at found
      cases found

end

theorem meets_scan (rest : (f (env.arrange (world.kv.select scope.covers))).Meets
      (handler env) (Rebuilds env space) raise post world) :
    (scanPrefix scope >>= f).Meets (handler env) (Rebuilds env space) raise post world :=
  Prog.meets_perform (.read rfl) rest

theorem meets_rematerializeSpace {all : List Triple}
    (finite : ∀ t, Entailed world.kv space t → t ∈ all) (enough : all.length ≤ fuel)
    (declaring : Declaring space world.kv) (decodes : Decodes space world.kv) (ctx : Ctx) :
    (rematerializeSpace fuel ctx space).Meets (handler env) (Rebuilds env space) (fun reason =>
      reason = overBudget ctx.maxTraversalNodes ∧ Overruns world.kv space ctx.maxTraversalNodes)
      (fun _ _ => ∃ edges types, Enumerates edges (fun t => Entailed world.kv space t ∧
      ¬ Asserted world.kv space t) ∧ Enumerates types (Classified world.kv space) ∧
        (ctx.maxTraversalNodes ≠ 0 → edges.length + types.length ≤ ctx.maxTraversalNodes)) world :=
        by
  refine meets_seq ⟨Prog.fails_of_answers (answers_loadRelMeta declaring), wp_loadRelMeta (.read rfl)⟩ ?_
  rintro rel world' ⟨reflects, rfl⟩
  have inEdges : ∀ key, (inEdgeDataSpacePrefix space).covers key = true →
      key.kind space = some (if true then "in-edge" else "edge") := fun key => covers_kind.mp
  have listed : ∀ entry ∈ env.arrange (world'.kv.select (edgeDataSpacePrefix space).covers), ∃ edge,
      decodeQueryEdge entry.1 entry.2 = .ok edge :=
    fun entry mem => decodes.decode (mem_scan.mp mem).1
      (show _ = some (if false then _ else _) from covers_kind.mp (mem_scan.mp mem).2)
  obtain ⟨survey, ran⟩ := surveyEdge_total listed ⟨[], [], []⟩
  obtain ⟨reverse, decoded⟩ := decodes.scan env inEdges
  have found := surveyed ran
  have cleared := found.cleared (mem_removed env survey)
  have unexplained := found.unexplained (mem_removed env survey)
  have legible := found.decodes (mem_removed env survey) decodes
  have seen : ∀ t, Asserted world'.kv space t ↔ t ∈ survey.asserted.eraseDups := by
    intro t
    rw [mem_eraseDups, found.asserted]
  refine meets_scan ?_
  rw [ran]
  refine meets_scan ?_
  rw [decoded]
  refine meets_scan (meets_scan (meets_scan (Prog.meets_perform (.batchApply cleared.keeps) ?_)))
  exact meets_chaseLoop reflects (fun t => Entailed.named declaring decodes) finite (.start seen cleared unexplained legible)
    (nodup_eraseDups _) enough

theorem overruns_iff (isNew : Enumerates edges fun t => Entailed kv space t ∧ ¬ Asserted kv space t)
    (isTyped : Enumerates types (Classified kv space)) :
    Overruns kv space cap ↔ cap ≠ 0 ∧ cap < edges.length + types.length := by
  constructor
  · rintro ⟨capped, some, others, nodup, nodup', news, typed, many⟩
    have first := (nodup.subperm fun t mem => (isNew.mem t).mpr (news t mem)).length_le
    have second := (nodup'.subperm fun type mem => (isTyped.mem type).mpr (typed type mem)).length_le
    exact ⟨capped, by omega⟩
  · rintro ⟨capped, many⟩
    exact ⟨capped, edges, types, isNew.nodup, isTyped.nodup, fun t => (isNew.mem t).mp, fun type => (isTyped.mem type).mp, many⟩

/-- The new edges and types can be counted.  With as many steps as the closure has
edges, in whatever order the scans list their entries, a rebuild returns exactly if no
budget is set or they are within it, and otherwise says that they are not. -/
theorem rematerializeSpace_budget (before : World) (declaring : Declaring space before.kv)
    (decodes : Decodes space before.kv) (ctx : Ctx) :
    ∃ (edges : List Triple) (types : List (Int × String)) (enough : Nat), Enumerates edges
      (fun t => (entailment (edgeFlags before.kv space)).Closure (Asserted before.kv space) t ∧
        ¬ Asserted before.kv space t) ∧ Enumerates types (fun type =>
      ∃ t, (entailment (edgeFlags before.kv space)).Closure (Asserted before.kv space) t ∧
        typing (edgeFlags before.kv space) t type.1 type.2) ∧ ∀ (env : Env) (fuel : Nat),
      enough ≤ fuel → (((rematerializeSpace fuel ctx space).run (handler env) before).1 = .ok () ↔
          ctx.maxTraversalNodes = 0 ∨ edges.length + types.length ≤ ctx.maxTraversalNodes) ∧
        (((rematerializeSpace fuel ctx space).run (handler env) before).1 = .ok () ∨
          ((rematerializeSpace fuel ctx space).run (handler env) before).1 =
          .error (overBudget ctx.maxTraversalNodes)) := by
  have finite := finite_entailed before.kv space
  have typesFinite := finite_classified before.kv space
  obtain ⟨all, isEntailed⟩ := enumerates_of_finite finite
  obtain ⟨edges, isNew⟩ := enumerates_of_finite
    (finite.subset fun t (new : Entailed before.kv space t ∧ ¬ Asserted before.kv space t) => new.1)
  obtain ⟨types, isTyped⟩ := enumerates_of_finite typesFinite
  refine ⟨edges, types, all.length, isNew, isTyped, fun env fuel enough => ?_⟩
  have meets := @meets_rematerializeSpace env space before fuel all (fun t => (isEntailed.mem t).mpr) enough declaring decodes ctx
  cases ran : (rematerializeSpace fuel ctx space).run (handler env) before with
  | mk result after =>
    cases result with
    | ok value =>
      obtain ⟨edges', types', isNew', isTyped', within⟩ := wp_run meets.2 ran
      rw [isNew'.length_eq isNew, isTyped'.length_eq isTyped] at within
      refine ⟨iff_of_true rfl ?_, .inl rfl⟩
      exact or_iff_not_imp_left.mpr within
    | error reason =>
      obtain ⟨rfl, overruns⟩ := meets.1 reason (by rw [ran])
      obtain ⟨capped, many⟩ := (overruns_iff isNew isTyped).mp overruns
      refine ⟨iff_of_false (by simp) ?_, .inr rfl⟩
      omega

theorem edgeFlags_chain (p : String) : edgeFlags chainWorld.kv "g" p =
    { transitive := p = "anc", range := if p = "anc" then some "elder" else none } := by
  by_cases anc : p = "anc" <;>
    simp [edgeFlags, chainWorld, lastPut, SchemaKey.edge, edgeData, anc]

theorem entailed_chain : Entailed chainWorld.kv "g" t ↔ t ∈ [⟨1, "anc", 2⟩, ⟨2, "anc", 3⟩, ⟨1, "anc", 3⟩] := by
  constructor
  · intro entailed
    induction entailed with
    | base given => exact mem_append_left [⟨1, "anc", 3⟩] (asserted_chain.mp given)
    | unary _ rule ih =>
      simp only [mem_cons, not_mem_nil, or_false] at ih
      rcases ih with rfl | rfl | rfl <;> simp [entailment, edgeFlags_chain] at rule
    | binary _ _ rule left right =>
      simp only [mem_cons, not_mem_nil, or_false] at left right
      rcases left with rfl | rfl | rfl <;> rcases right with rfl | rfl | rfl <;>
        simp [entailment, edgeFlags_chain] at rule
      simp [rule]
  · have direct : ∀ t ∈ [⟨1, "anc", 2⟩, ⟨2, "anc", 3⟩], Entailed chainWorld.kv "g" t :=
      fun t listed => .base (asserted_chain.mpr listed)
    simp only [mem_cons, not_mem_nil, or_false]
    rintro (rfl | rfl | rfl)
    · exact direct _ (.head _)
    · exact direct _ (.tail _ (.head _))
    · exact .binary (direct _ (.head _)) (direct _ (.tail _ (.head _))) (by simp [entailment, edgeFlags_chain])

/-- Two classes and an edge are new in the chain: it is rebuilt within a budget of three, but not of two. -/
theorem rematerializeSpace_budget_chain : ∃ enough, ∀ (env : Env) (fuel : Nat), enough ≤ fuel →
    ((rematerializeSpace fuel { graphCtx with maxTraversalNodes := 3 } "g").run (handler env) chainWorld).1 = .ok () ∧
    ((rematerializeSpace fuel { graphCtx with maxTraversalNodes := 2 } "g").run (handler env) chainWorld).1 =
      .error (overBudget 2) := by
  have decodes : Decodes "g" chainWorld.kv := decodes_of_entries (by decide +kernel)
  have declaring : Declaring "g" chainWorld.kv := by
    refine ⟨fun key value covered found => ?_, fun p => ?_⟩
    · have listed := mem_of_ofList found
      simp only [mem_cons, Prod.mk.injEq, not_mem_nil, or_false] at listed
      obtain ⟨rfl, rfl⟩ | ⟨rfl, rfl⟩ | ⟨rfl, rfl⟩ | ⟨rfl, rfl⟩ := listed
      · exact ⟨_, rfl⟩
      all_goals simp [edgePrefix, edgeData, Prefix.covers] at covered
    · simp [edgeFlags_chain]
  have isNew : Enumerates [⟨1, "anc", 3⟩] fun t => Entailed chainWorld.kv "g" t ∧ ¬ Asserted chainWorld.kv "g" t := by
    refine ⟨by decide, fun t => ?_⟩
    rw [entailed_chain, asserted_chain]
    simp only [mem_cons, not_mem_nil, or_false]
    constructor
    · rintro rfl
      decide
    · tauto
  have isTyped : Enumerates [(2, "elder"), (3, "elder")] (Classified chainWorld.kv "g") := by
    refine ⟨by decide, fun type => ⟨fun listed => ?_, fun classified => ?_⟩⟩
    · simp only [mem_cons, not_mem_nil, or_false] at listed
      rcases listed with rfl | rfl
      · exact ⟨_, entailed_chain.mpr (.head _), .inr (by simp [edgeFlags_chain])⟩
      · exact ⟨_, entailed_chain.mpr (.tail _ (.head _)), .inr (by simp [edgeFlags_chain])⟩
    · obtain ⟨t, entailed, typed⟩ := classified
      rw [entailed_chain] at entailed
      simp only [mem_cons, not_mem_nil, or_false] at entailed
      rcases entailed with rfl | rfl | rfl <;> simp_all [typing, edgeFlags_chain, Prod.ext_iff]
  obtain ⟨edges, types, enough, newEdges, newTypes, within⟩ :=
    rematerializeSpace_budget chainWorld declaring decodes { graphCtx with maxTraversalNodes := 3 }
  obtain ⟨edges', types', enough', newEdges', newTypes', beyond⟩ :=
    rematerializeSpace_budget chainWorld declaring decodes { graphCtx with maxTraversalNodes := 2 }
  refine ⟨max enough enough', fun env fuel many => ?_⟩
  refine ⟨(within env fuel (by omega)).1.mpr ?_, (beyond env fuel (by omega)).2.resolve_left ?_⟩
  · rw [newEdges.length_eq isNew, newTypes.length_eq isTyped]
    decide
  · rw [(beyond env fuel (by omega)).1, newEdges'.length_eq isNew, newTypes'.length_eq isTyped]
    decide

end ByoriDB.Executor
