import ByoriDB.Executor.Derived
import ByoriDB.Program.Collect

/-! Each step of the worklist stores what follows from a triple and the triples before it. -/

namespace ByoriDB.Executor

open List Data Program Store ByoriDB.Graph
open Scoped (covers)

variable {env : Env} {space : String} {world : World}

/-- What a rebuild may do: it writes derived data only, and no history. -/
structure Rebuilds (env : Env) (space : String) (world : World) (op : Op Key Val) : Prop where
  keeps : KeepsAssertions space world.kv (handler env op world).2.kv
  history : (handler env op world).2.content.history = world.content.history

theorem Rebuilds.read (leaves : op.leavesContent = true) : Rebuilds env space world op := by
  have same : (handler env op world).2.content = world.content := World.handler_leavesContent leaves
  constructor
  · rw [World.kv, World.kv, same]
    exact .refl space _
  · rw [same]

theorem Rebuilds.batchApply
    (keeps : KeepsAssertions space world.kv ((world.kv.putAll puts).eraseAll deletes)) :
    Rebuilds env space world (.kv (.batchApply puts deletes [])) := ⟨keeps, rfl⟩

theorem mem_scan {kv : KV} :
    entry ∈ env.arrange (kv.select selects) ↔ kv.get entry.1 = some entry.2 ∧ selects entry.1 = true :=
  (env.arrange_perm _).mem_iff.trans mem_select

/-- The key under which an edge to or from a neighbour is found. -/
def neighborKey (space : String) (vid : Int) (edgeType : String) (incoming : Bool) (other rank : Int) : Key :=
  if incoming then inEdgeData space vid edgeType other rank
  else edgeData space vid edgeType other rank

theorem wp_inferenceNeighbors :
    (inferenceNeighbors space vid edgeType incoming).wp (handler env) (Rebuilds env space)
      (fun vids world' => world' = world ∧ ∀ other, other ∈ vids ↔ ∃ rank value,
        world.kv.get (neighborKey space vid edgeType incoming other rank) = some value) world := by
  simp only [inferenceNeighbors, wp_bind, wp_scanPrefix, wp_ofExcept, wp_pure, true_and]
  refine ⟨.read rfl, ?_⟩
  intro edges decoded
  obtain ⟨defined, listed⟩ := mem_of_mapM_ok decoded
  intro other
  simp only [mem_map, mem_filter, listed, mem_scan, decide_eq_true_eq]
  constructor
  · rintro ⟨edge, ⟨⟨⟨key, value⟩, ⟨found, covered⟩, ok⟩, rfl⟩, rfl⟩
    obtain ⟨rfl, owner, keys⟩ := decodeQueryEdge_ok ok
    refine ⟨edge.ranking, .edge edge, ?_⟩
    rcases keys with rfl | rfl <;> cases incoming <;>
      simp_all [neighborKey, covers, Prefix.covers, edgeData, inEdgeData, edgeDataSrcPrefix, inEdgeDataDstPrefix]
  · rintro ⟨rank, value, found⟩
    have covered : Prefix.covers (if incoming then inEdgeDataDstPrefix space vid
        else edgeDataSrcPrefix space vid) (neighborKey space vid edgeType incoming other rank) = true := by
      cases incoming <;> simp [neighborKey, Prefix.covers, edgeData, inEdgeData, edgeDataSrcPrefix, inEdgeDataDstPrefix]
    obtain ⟨edge, ok⟩ := defined (neighborKey space vid edgeType incoming other rank, value)
      (mem_scan.mpr ⟨found, covered⟩)
    obtain ⟨_, owner, keys⟩ := decodeQueryEdge_ok ok
    refine ⟨edge, ⟨⟨(neighborKey space vid edgeType incoming other rank, value), ⟨found, covered⟩, ok⟩, ?_⟩, ?_⟩ <;>
      cases incoming <;> simp [neighborKey, edgeData, inEdgeData] at keys ⊢ <;> grind

theorem wp_tripleExists : (tripleExists space t).wp (handler env) (Rebuilds env space)
      (fun found world' => world' = world ∧ (found = true ↔ Stored world.kv space t)) world := by
  simp only [tripleExists, wp_bind, wp_scanPrefix, wp_ofExcept, wp_pure, true_and]
  refine ⟨.read rfl, ?_⟩
  intro edges decoded
  obtain ⟨defined, _⟩ := mem_of_mapM_ok decoded
  rw [Bool.not_eq_true', isEmpty_eq_false_iff_exists_mem]
  constructor
  · rintro ⟨⟨key, value⟩, mem⟩
    obtain ⟨edge, ok⟩ := defined _ mem
    obtain ⟨found, covered⟩ := mem_scan.mp mem
    obtain ⟨rfl, owner, keys⟩ := decodeQueryEdge_ok ok
    refine ⟨edge.ranking, .edge edge, ?_⟩
    rcases keys with rfl | rfl <;>
      simp_all [covers, Prefix.covers, edgeData, inEdgeData, edgeDataTriplePrefix, Triple.key]
  · rintro ⟨rank, value, found⟩
    refine ⟨(_, value), mem_scan.mpr ⟨found, ?_⟩⟩
    simp [covers, Prefix.covers, edgeDataTriplePrefix]

theorem wp_reversePut {deps : Triple → List Fact}
    (read : ∀ t : Triple, readFacts (world.kv.get (t.revKey space)) = .ok (deps t)) :
    (reversePut space fact puts premise).wp (handler env) (Rebuilds env space)
      (fun puts' world' => world' = world ∧ (puts' = puts ∧
      (∀ t : Triple, premise = t.fact → fact ∈ deps t) ∨ ∃ t : Triple, premise = t.fact ∧
        fact ∉ deps t ∧ puts' = puts ++ [(t.revKey space, .facts (deps t ++ [fact]))])) world := by
  cases premise with
  | vtype vid className => exact ⟨rfl, .inl ⟨rfl, fun t same => by cases same⟩⟩
  | edge s p d =>
    simp only [reversePut, wp_bind, wp_get, wp_ofExcept]
    refine ⟨.read rfl, ?_⟩
    intro stored found
    obtain rfl : stored = deps ⟨s, p, d⟩ := Except.ok.inj (found.symm.trans (read ⟨s, p, d⟩))
    split
    · rename_i known
      refine ⟨rfl, .inl ⟨rfl, ?_⟩⟩
      rintro ⟨_, _, _⟩ same
      cases same
      exact contains_iff_mem.mp known
    · rename_i unknown
      exact ⟨rfl, .inr ⟨⟨s, p, d⟩, rfl, mt contains_iff_mem.mpr unknown, rfl⟩⟩

section

variable {recorded : Fact × Justification → Prop}

theorem wp_provenancePuts (explains : Explains space world.kv recorded) :
    (provenancePuts space fact justification).wp (handler env) (Rebuilds env space)
      (fun puts world' => world' = world ∧ (∀ put ∈ puts, put.1.kind space ∈ [some "prov", some "prov-rev"]) ∧
        Explains space (world.kv.putAll puts) fun outcome => recorded outcome ∨ outcome = (fact, justification)) world := by
  simp only [provenancePuts, wp_bind, wp_get, wp_ofExcept]
  refine ⟨.read rfl, ?_⟩
  intro justs read
  obtain ⟨known, found, nodup, listed⟩ := explains.reasons fact
  obtain rfl : known = justs := Except.ok.inj (found.symm.trans read)
  split
  · rename_i before
    refine ⟨rfl, by simp, explains.congr fun outcome => ?_⟩
    refine (or_iff_left_of_imp ?_).symm
    rintro rfl
    exact (listed _).mp (contains_iff_mem.mp before)
  · rename_i unknown
    choose deps readDeps depsNodup depsListed using explains.uses
    rw [wp_bind]
    -- The premises are distinct, so that the entry of each is read and written once.
    refine wp_imp (wp_foldlM (fun rest puts world' => world' = world ∧ rest.Nodup ∧ rest ⊆ justification.premises ∧
      (∀ put ∈ puts, put.1.kind space = some "prov-rev") ∧
      ∀ t : Triple, readFacts ((world.kv.putAll puts).get (t.revKey space)) =
        .ok (if t.fact ∈ justification.premises ∧ t.fact ∉ rest ∧ fact ∉ deps t then deps t ++ [fact] else deps t)) ?_ ?_) ?_
    · rintro premise rest puts _ ⟨rfl, nodup, subset, reversed, entries⟩
      obtain ⟨apart, distinct⟩ := nodup_cons.mp nodup
      obtain ⟨given, among⟩ := cons_subset.mp subset
      refine wp_imp (wp_reversePut readDeps) ?_
      rintro _ _ ⟨rfl, ⟨rfl, known⟩ | ⟨u, rfl, fresh, rfl⟩⟩
      · refine ⟨rfl, distinct, among, reversed, fun t => ?_⟩
        rw [entries]
        by_cases here : t.fact = premise
        · simp [known t here.symm]
        · simp [here]
      · refine ⟨rfl, distinct, among, ?_, fun t => ?_⟩
        · intro put mem
          rcases mem_append.mp mem with old | new
          · exact reversed put old
          · simp [mem_singleton.mp new]
        · rw [putAll_append, putAll_cons, putAll_nil, get_insert]
          by_cases here : t = u
          · subst here
            simp [readFacts, given, apart, fresh]
          · have other : t.fact ≠ u.fact := fun same => here (by cases t; cases u; simpa [Triple.fact] using same)
            rw [if_neg (by simpa using here), entries]
            simp [other]
    · refine ⟨rfl, nodup_eraseDups _, fun _ => mem_eraseDups.mp, by simp, fun t => ?_⟩
      rw [putAll_nil, readDeps, if_neg]
      rintro ⟨used, unused, -⟩
      exact unused (mem_eraseDups.mpr used)
    · rintro puts world' ⟨rfl, -, -, reversed, entries⟩
      have elsewhere : ∀ {key : Key}, key.kind space ≠ some "prov-rev" →
          (world'.kv.putAll puts).get key = world'.kv.get key := by
        intro key kind
        refine get_putAll_of_not_mem fun mem => ?_
        obtain ⟨put, listed, rfl⟩ := mem_map.mp mem
        exact kind (reversed put listed)
      refine ⟨rfl, fun put mem => ?_, ⟨fun other => ?_, fun t => ?_⟩⟩
      · rcases mem_append.mp mem with old | new
        · simp [reversed put old]
        · simp [mem_singleton.mp new]
      · rw [putAll_append, putAll_cons, putAll_nil, get_insert]
        by_cases here : other = fact
        · subst here
          refine ⟨known ++ [justification], by rw [if_pos rfl]; rfl, ?_, fun reason => ?_⟩
          · exact concat_eq_append ▸ nodup.concat (mt contains_iff_mem.mpr unknown)
          · simp [listed]
        · rw [if_neg (by simpa [provKey_inj] using here), elsewhere (by simp)]
          obtain ⟨others, readOthers, distinct, holds⟩ := explains.reasons other
          exact ⟨others, readOthers, distinct, fun reason => by simp [holds, here]⟩
      · have apart : t.revKey space ≠ provKey space fact := by
          intro same
          simpa using congrArg (Key.kind space) same
        rw [putAll_append, putAll_cons, putAll_nil, get_insert, if_neg apart]
        refine ⟨_, entries t, ?_, fun other => ?_⟩
        · split
          · rename_i new
            exact concat_eq_append ▸ (depsNodup t).concat new.2.2
          · exact depsNodup t
        · have uses : (∃ reason, (recorded (other, reason) ∨
            (other, reason) = (fact, justification)) ∧ t.fact ∈ reason.premises) ↔
              other ∈ deps t ∨ (other = fact ∧ t.fact ∈ justification.premises) := by
            simp [depsListed, or_and_right, exists_or]
          split <;> grind

end

/-- What a fact costs: one unit if it is new, within the budget. -/
structure Charged (cap before after : Nat) (isNew : Prop) : Prop where
  added : isNew → after = before + 1
  kept : ¬ isNew → after = before
  within : cap ≠ 0 → before ≤ cap → after ≤ cap

theorem wp_chargeInference (cap written : Nat) (isNew : Bool) :
    (chargeInference cap written isNew).wp (handler env) (Rebuilds env space) (fun charged world' =>
      world' = world ∧ Charged cap written charged (isNew = true)) world := by
  rw [chargeInference]
  split
  · rename_i new
    split
    · trivial
    · exact ⟨rfl, fun _ => rfl, fun old => absurd new old, fun _ _ => by omega⟩
  · rename_i old
    exact ⟨rfl, fun new => absurd new old, fun _ => rfl, fun _ within => within⟩

section

variable {base : KV} {stored : Triple → Prop} {typed : Int → String → Prop} {recorded : Fact × Justification → Prop}

theorem wp_after (rederived : Rederived space base world.kv stored typed) :
    (inferenceNeighbors space vid edgeType false).wp (handler env) (Rebuilds env space)
      (fun vids world' => world' = world ∧ ∀ other, other ∈ vids ↔ stored ⟨vid, edgeType, other⟩) world := by
  refine wp_imp wp_inferenceNeighbors ?_
  rintro vids _ ⟨rfl, listed⟩
  refine ⟨rfl, fun other => (listed other).trans ?_⟩
  exact rederived.stored_iff ⟨vid, edgeType, other⟩

theorem wp_before (rederived : Rederived space base world.kv stored typed) :
    (inferenceNeighbors space vid edgeType true).wp (handler env) (Rebuilds env space)
      (fun vids world' => world' = world ∧ ∀ other, other ∈ vids ↔ stored ⟨other, edgeType, vid⟩) world := by
  refine wp_imp wp_inferenceNeighbors ?_
  rintro vids _ ⟨rfl, listed⟩
  refine ⟨rfl, fun other => (listed other).trans ?_⟩
  rw [← rederived.stored_iff]
  simp only [Stored, ← rederived.reverse]
  rfl

theorem mem_flatten_of_forall₂ {α β : Type} {items : List α} {groups : List (List β)} {gives : α → β → Prop}
    (each : Forall₂ (fun item group => ∀ result, result ∈ group ↔ gives item result) items groups)
    (result : β) : result ∈ groups.flatten ↔ ∃ item ∈ items, gives item result := by
  induction each with
  | nil => simp
  | cons first _ ih => rw [flatten_cons, mem_append, ih, first, exists_mem_cons_iff]

section

variable {flags : String → SemanticFlags} {rel : RelMeta} (reflects : rel.Reflects flags)
include reflects

theorem mem_unaryDerivations : item ∈ unaryDerivations rel t ↔
      ((flags t.p).symmetric = true ∧ item = (⟨t.d, t.p, t.s⟩, ⟨.symmetric, [t.fact]⟩)) ∨
      (∃ q, ((flags t.p).inverseOf = some q ∨ (flags q).inverseOf = some t.p) ∧
      item = (⟨t.d, q, t.s⟩, ⟨.inverseOf, [t.fact]⟩)) ∨ (∃ q, (flags t.p).subpropertyOf = some q ∧
      item = (⟨t.s, q, t.d⟩, ⟨.subPropertyOf, [t.fact]⟩)) ∨
      (∃ q, ((flags t.p).equivalentProperty = some q ∨ (flags q).equivalentProperty = some t.p) ∧
        item = (⟨t.s, q, t.d⟩, ⟨.equivalentProperty, [t.fact]⟩)) := by
  simp only [unaryDerivations, mem_append, mem_map, reflects.inverse, reflects.superprops, reflects.equivalentProps,
    contains_iff_mem, reflects.symmetric]
  by_cases flagged : (flags t.p).symmetric = true <;> simp [flagged, eq_comm, or_assoc]

variable (rederived : Rederived space base world.kv stored typed)
include rederived

theorem wp_transitiveDerivations (t : Triple) :
    (transitiveDerivations space rel t).wp (handler env) (Rebuilds env space)
      (fun items world' => world' = world ∧ ∀ item, item ∈ items ↔ (flags t.p).transitive = true ∧
        ((∃ x, stored ⟨t.d, t.p, x⟩ ∧ item = (⟨t.s, t.p, x⟩, ⟨.transitive, [t.fact, .edge t.d t.p x]⟩)) ∨
          ∃ y, stored ⟨y, t.p, t.s⟩ ∧ item = (⟨y, t.p, t.d⟩, ⟨.transitive, [.edge y t.p t.s, t.fact]⟩))) world := by
  rw [transitiveDerivations]
  split
  · rename_i declared
    have flagged := (reflects.transitive t.p).mp (contains_iff_mem.mp declared)
    refine wp_seq (wp_after rederived) ?_
    rintro after _ ⟨rfl, isAfter⟩
    refine wp_seq (wp_before rederived) ?_
    rintro before _ ⟨rfl, isBefore⟩
    exact ⟨rfl, by simp [flagged, isAfter, isBefore, eq_comm]⟩
  · rename_i declared
    have unflagged : ¬ (flags t.p).transitive = true :=
      fun flagged => declared (contains_iff_mem.mpr ((reflects.transitive t.p).mpr flagged))
    exact ⟨rfl, by simp [unflagged]⟩

theorem wp_chainFirstDerivations (t : Triple) : (chainFirstDerivations space rel t).wp (handler env)
      (Rebuilds env space) (fun items world' => world' = world ∧ ∀ item, item ∈ items ↔
      ∃ q p2, (flags q).propertyChain = some [t.p, p2] ∧ ∃ b, stored ⟨t.d, p2, b⟩ ∧
        item = (⟨t.s, q, b⟩, ⟨.propertyChain, [t.fact, .edge t.d p2 b]⟩)) world := by
  refine wp_seq (Prog.wp_mapM (fun link items => ∀ item, item ∈ items ↔ ∃ b, stored ⟨t.d, link.2, b⟩ ∧
    item = (⟨t.s, link.1, b⟩, ⟨.propertyChain, [t.fact, .edge t.d link.2 b]⟩)) ?_) ?_
  · rintro ⟨q, p2⟩ _
    refine wp_seq (wp_after rederived) ?_
    rintro after _ ⟨rfl, isAfter⟩
    exact ⟨rfl, by simp [isAfter, eq_comm]⟩
  · rintro groups _ ⟨rfl, each⟩
    exact ⟨rfl, fun item => by simp [mem_flatten_of_forall₂ each, reflects.chainFirst]⟩

theorem wp_chainSecondDerivations (t : Triple) :
    (chainSecondDerivations space rel t).wp (handler env) (Rebuilds env space)
      (fun items world' => world' = world ∧ ∀ item, item ∈ items ↔
      ∃ q p1, (flags q).propertyChain = some [p1, t.p] ∧ ∃ a, stored ⟨a, p1, t.s⟩ ∧
        item = (⟨a, q, t.d⟩, ⟨.propertyChain, [.edge a p1 t.s, t.fact]⟩)) world := by
  refine wp_seq (Prog.wp_mapM (fun link items => ∀ item, item ∈ items ↔ ∃ a, stored ⟨a, link.2, t.s⟩ ∧
    item = (⟨a, link.1, t.d⟩, ⟨.propertyChain, [.edge a link.2 t.s, t.fact]⟩)) ?_) ?_
  · rintro ⟨q, p1⟩ _
    refine wp_seq (wp_before rederived) ?_
    rintro before _ ⟨rfl, isBefore⟩
    exact ⟨rfl, by simp [isBefore, eq_comm]⟩
  · rintro groups _ ⟨rfl, each⟩
    exact ⟨rfl, fun item => by simp [mem_flatten_of_forall₂ each, reflects.chainSecond]⟩

theorem wp_derivations (held : stored t) : (derivations space rel t).wp (handler env)
      (Rebuilds env space) (fun items world' => world' = world ∧ ∀ item : Triple × Justification,
      item ∈ items ↔ Fires flags stored t (item.1.fact, item.2)) world := by
  refine wp_seq (wp_transitiveDerivations reflects rederived t) ?_
  rintro transitive _ ⟨rfl, byTransitive⟩
  refine wp_seq (wp_chainFirstDerivations reflects rederived t) ?_
  rintro first _ ⟨rfl, byFirst⟩
  refine wp_seq (wp_chainSecondDerivations reflects rederived t) ?_
  rintro second _ ⟨rfl, bySecond⟩
  refine ⟨rfl, ?_⟩
  rintro ⟨⟨s, p, d⟩, rule, reasons⟩
  simp only [mem_append, mem_unaryDerivations reflects, byTransitive, byFirst, bySecond, or_assoc]
  constructor
  · have alone : ∀ {rule fact}, RuleInstance flags rule [t] fact → Fires flags stored t (fact, ⟨rule, [t.fact]⟩) :=
      fun applied => ⟨[t], ⟨applied, rfl⟩, by simp, by simpa using held⟩
    have both : ∀ u v {rule fact}, RuleInstance flags rule [u, v] fact → t ∈ [u, v] → stored u → stored v →
        Fires flags stored t (fact, ⟨rule, [u.fact, v.fact]⟩) :=
      fun u v {_ _} applied among first second => ⟨[u, v], ⟨applied, rfl⟩, among, by simp [first, second]⟩
    rintro (⟨declared, same⟩ | ⟨q, declared, same⟩ | ⟨q, declared, same⟩ | ⟨q, declared, same⟩ |
      ⟨declared, ⟨x, other, same⟩ | ⟨y, other, same⟩⟩ | ⟨q,
        p2, declared, b, other, same⟩ | ⟨q, p1, declared, a, other, same⟩) <;> cases same
    · exact alone (.symmetric declared)
    · exact alone (.inverseOf declared)
    · exact alone (.subPropertyOf declared)
    · exact alone (.equivalentProperty declared)
    · exact both t ⟨t.d, t.p, d⟩ (.transitive declared rfl rfl) (by simp) held other
    · exact both ⟨s, t.p, t.s⟩ t (.transitive declared rfl rfl) (by simp) other held
    · exact both t ⟨t.d, p2, d⟩ (.propertyChain declared rfl) (by simp) held other
    · exact both ⟨s, p1, t.s⟩ t (.propertyChain declared rfl) (by simp) other held
  · rintro ⟨premises, ⟨applied, same⟩, among, all⟩
    subst same
    cases applied with
    | symmetric declared =>
      obtain rfl := mem_singleton.mp among
      exact .inl ⟨declared, rfl⟩
    | inverseOf declared =>
      obtain rfl := mem_singleton.mp among
      exact .inr (.inl ⟨_, declared, rfl⟩)
    | subPropertyOf declared =>
      obtain rfl := mem_singleton.mp among
      exact .inr (.inr (.inl ⟨_, declared, rfl⟩))
    | equivalentProperty declared =>
      obtain rfl := mem_singleton.mp among
      exact .inr (.inr (.inr (.inl ⟨_, declared, rfl⟩)))
    | @transitive u v declared meets alike =>
      obtain ⟨s, p, d⟩ := u
      obtain ⟨s', p', d'⟩ := v
      dsimp only at meets alike declared
      subst meets alike
      rcases mem_pair.mp among with rfl | rfl
      · exact .inr (.inr (.inr (.inr (.inl ⟨declared, .inl ⟨d', all _ (by simp), rfl⟩⟩))))
      · exact .inr (.inr (.inr (.inr (.inl ⟨declared, .inr ⟨s, all _ (by simp), rfl⟩⟩))))
    | @propertyChain u v _ declared meets =>
      obtain ⟨s, p, d⟩ := u
      obtain ⟨s', p', d'⟩ := v
      subst meets
      rcases mem_pair.mp among with rfl | rfl
      · exact .inr (.inr (.inr (.inr (.inr (.inl ⟨_, p', declared, d', all _ (by simp), rfl⟩)))))
      · exact .inr (.inr (.inr (.inr (.inr (.inr ⟨_, p, declared, s, all _ (by simp), rfl⟩)))))

end

def Adds (space : String) (triples : Triple → Prop) (kv kv' : KV) : Prop :=
  ∀ key : Key, key.kind space = some "edge" ∨ key.kind space = some "in-edge" → kv'.get key = kv.get key ∨
    ∃ t, triples t ∧ (key = t.key space 0 ∨ key = t.inKey space 0) ∧ kv'.get key = some (.edge (inferredEdge t))

theorem Adds.trans (first : Adds space triples kv kv') (second : Adds space triples kv' kv'') :
    Adds space triples kv kv'' := by
  intro key kind
  rcases second key kind with same | added
  · rcases first key kind with same' | ⟨t, listed, place, found⟩
    · exact .inl (same.trans same')
    · exact .inr ⟨t, listed, place, same.trans found⟩
  · exact .inr added

theorem Adds.mono (adds : Adds space triples kv kv') (weaker : ∀ t, triples t → triples' t) :
    Adds space triples' kv kv' :=
  fun key kind => (adds key kind).imp_right fun ⟨t, listed, rest⟩ => ⟨t, weaker t listed, rest⟩

theorem adds_provenance (provenance : ∀ put ∈ puts, put.1.kind space ∈ [some "prov", some "prov-rev"]) :
    Adds space triples kv (kv.putAll puts) := by
  intro key kind
  refine .inl (get_putAll_of_not_mem fun mem => ?_)
  obtain ⟨put, listed, rfl⟩ := mem_map.mp mem
  have other := provenance put listed
  rcases kind with kind | kind <;> simp [kind] at other

theorem adds_type : Adds space triples kv (kv.insert (vtype space vid className) .empty) := by
  intro key kind
  rw [get_insert, if_neg]
  · exact .inl rfl
  · rintro rfl
    simp at kind

theorem adds_edge (kv : KV) (t : Triple) : Adds space (· = t) kv
    ((kv.insert (t.key space 0) (.edge (inferredEdge t))).insert (t.inKey space 0) (.edge (inferredEdge t))) := by
  intro key kind
  rw [get_insert, get_insert]
  split
  · rename_i here
    exact .inr ⟨t, rfl, .inr here, rfl⟩
  · split
    · rename_i here
      exact .inr ⟨t, rfl, .inl here, rfl⟩
    · exact .inl rfl

theorem wp_typeVertex (rederived : Rederived space base world.kv stored typed)
    (explains : Explains space world.kv recorded) (cap : Nat)
    (premise : Fact) (rule : RuleKind) (vid : Int) (className : Option String) (written : Nat) :
    (typeVertex space cap premise rule vid className written).wp (handler env) (Rebuilds env space)
      (fun charged world' => (Rederived space base world'.kv stored fun other otherClass =>
          typed other otherClass ∨ (other = vid ∧ className = some otherClass)) ∧
        (Explains space world'.kv fun outcome =>
          recorded outcome ∨ ∃ given ∈ className, outcome = (.vtype vid given, ⟨rule, [premise]⟩)) ∧
        Adds space (fun _ => False) world.kv world'.kv ∧
        Charged cap written charged (∃ given ∈ className, ¬ typed vid given)) world := by
  cases className with
  | none =>
    exact ⟨rederived.congr (fun _ => Iff.rfl) (by simp),
      explains.congr (by simp), fun _ _ => .inl rfl, by simp, by simp, fun _ => id⟩
  | some className =>
    rw [typeVertex, wp_bind, wp_get]
    refine ⟨.read rfl, ?_⟩
    refine wp_seq (wp_chargeInference cap written _) ?_
    rintro charged world ⟨rfl, cost⟩
    refine wp_seq (wp_provenancePuts explains) ?_
    rintro puts world ⟨rfl, provenance, explained⟩
    have kept := rederived.putProvenance provenance
    have reasons : Explains space (world.kv.putAll puts) fun outcome =>
        recorded outcome ∨ ∃ given ∈ some className, outcome = (.vtype vid given, ⟨rule, [premise]⟩) := explained.congr (by simp)
    have newIff : (world.kv.get (vtype space vid className)).isNone = true ↔
        ∃ given ∈ some className, ¬ typed vid given := by
      simp [← rederived.types]
    rw [newIff] at cost
    by_cases isNew : (world.kv.get (vtype space vid className)).isNone = true
    · rw [if_pos isNew]
      have same : (world.putAll (puts ++ [(vtype space vid className, .empty)])).kv =
          (world.kv.putAll puts).insert (vtype space vid className) .empty :=
        putAll_append _ _ _
      have added := kept.putType vid className
      have kind : (vtype space vid className).kind space ∉ [some "prov", some "prov-rev"] := by simp
      have reasons := reasons.insert kind .empty
      have adds : Adds space (fun _ => False) world.kv
          ((world.kv.putAll puts).insert (vtype space vid className) .empty) :=
        (adds_provenance provenance).trans adds_type
      rw [← same] at added reasons adds
      refine ⟨.batchApply (rederived.keeps_of added), added.congr (fun _ => Iff.rfl) ?_, reasons, adds, cost⟩
      simp [eq_comm]
    · rw [if_neg isNew]
      have present : typed vid className := by
        rw [← rederived.types]
        simpa [Option.isNone_iff_eq_none, Option.isSome_iff_ne_none] using isNew
      refine ⟨.batchApply (rederived.keeps_of kept), kept.congr (fun _ => Iff.rfl) ?_, reasons, adds_provenance provenance, cost⟩
      intro other otherClass
      constructor
      · exact .inl
      · rintro (old | ⟨rfl, same⟩)
        · exact old
        · cases same
          exact present

/-- A triple that has not been seen is put on the worklist, and paid for. -/
def Chase.advance (chase : Chase) (t : Triple) : Chase :=
  if t ∈ chase.seen then chase else ⟨chase.worklist ++ [t], t :: chase.seen, chase.written + 1⟩

theorem wp_storeDerived (rederived : Rederived space base world.kv (· ∈ chase.seen) typed)
    (explains : Explains space world.kv recorded) : (storeDerived space cap chase derived).wp
      (handler env) (Rebuilds env space) (fun chase' world' => chase' = chase.advance derived.1 ∧
      Rederived space base world'.kv (· ∈ chase'.seen) typed ∧
        (Explains space world'.kv fun outcome => recorded outcome ∨
        outcome = (derived.1.fact, derived.2)) ∧ Adds space (· = derived.1) world.kv world'.kv ∧
        (cap ≠ 0 → chase.written ≤ cap → chase'.written ≤ cap)) world := by
  obtain ⟨t, justification⟩ := derived
  refine wp_seq wp_tripleExists ?_
  rintro found world ⟨rfl, foundIff⟩
  rw [rederived.stored_iff] at foundIff
  refine wp_seq (wp_chargeInference cap chase.written _) ?_
  rintro charged world ⟨rfl, cost⟩
  refine wp_seq (wp_provenancePuts explains) ?_
  rintro puts world ⟨rfl, provenance, explained⟩
  have kept := rederived.putProvenance provenance
  rw [wp_bind, wp_putAll]
  by_cases seen : t ∈ chase.seen
  · have stored : found = true := foundIff.mpr seen
    obtain rfl : charged = chase.written := cost.kept (by simp [stored])
    rw [if_pos stored, if_pos (contains_iff_mem.mpr seen)]
    exact ⟨.batchApply (rederived.keeps_of kept), (if_pos seen).symm, kept, explained, adds_provenance provenance, cost.within⟩
  · have unstored : ¬ found = true := fun stored => seen (foundIff.mp stored)
    obtain rfl : charged = chase.written + 1 := cost.added (by simp [unstored])
    have added := kept.putEdge seen
    have same : (world.putAll (puts ++ [((inferredEdge t).key space, .edge (inferredEdge t)),
        ((inferredEdge t).inKey space, .edge (inferredEdge t))])).kv =
        ((world.kv.putAll puts).insert (t.key space 0) (.edge (inferredEdge t))).insert (t.inKey space 0)
          (.edge (inferredEdge t)) := putAll_append _ _ _
    have edgeKind : (t.key space 0).kind space ∉ [some "prov", some "prov-rev"] := by simp
    have inKind : (t.inKey space 0).kind space ∉ [some "prov", some "prov-rev"] := by simp
    have reasons := (explained.insert edgeKind (.edge (inferredEdge t))).insert inKind (.edge (inferredEdge t))
    have adds := Adds.trans (adds_provenance provenance) (adds_edge (world.kv.putAll puts) t)
    rw [← same] at added reasons adds
    rw [if_neg unstored, if_neg (mt contains_iff_mem.mp seen), if_neg unstored]
    refine ⟨.batchApply (rederived.keeps_of added), (if_neg seen).symm, added.congr ?_ (fun _ _ => Iff.rfl), reasons,
      adds, cost.within⟩
    simp [or_comm]

/-- The worklist holds the seen triples that are still to be taken. -/
structure Agenda (taken : Triple → Prop) (chase : Chase) : Prop where
  pending : ∀ t ∈ chase.worklist, t ∈ chase.seen
  covered : ∀ t ∈ chase.seen, taken t ∨ t ∈ chase.worklist

theorem mem_advance {chase : Chase} : other ∈ (chase.advance t).seen ↔ other ∈ chase.seen ∨ other = t := by
  unfold Chase.advance
  split
  · rename_i seen
    refine (or_iff_left_of_imp ?_).symm
    rintro rfl
    exact seen
  · simp [or_comm]

theorem mem_foldl_advance {chase : Chase} {triples : List Triple} :
    other ∈ (triples.foldl Chase.advance chase).seen ↔ other ∈ chase.seen ∨ other ∈ triples := by
  induction triples generalizing chase with
  | nil => simp
  | cons t rest ih => rw [foldl_cons, ih, mem_advance, mem_cons, or_assoc]

theorem Agenda.advance (agenda : Agenda taken chase) (triples : List Triple) :
    Agenda taken (triples.foldl Chase.advance chase) := by
  induction triples generalizing chase with
  | nil => exact agenda
  | cons t rest ih =>
    refine ih ?_
    unfold Chase.advance
    split
    · exact agenda
    · constructor
      · intro other mem
        rcases mem_append.mp mem with old | new
        · exact .tail _ (agenda.pending other old)
        · exact mem_singleton.mp new ▸ .head _
      · intro other mem
        rw [mem_append, mem_singleton]
        rcases mem_cons.mp mem with rfl | old
        · exact .inr (.inr rfl)
        · exact (agenda.covered other old).imp_right .inl

theorem wp_storeAll (derived : List (Triple × Justification))
    (rederived : Rederived space base world.kv (· ∈ chase.seen) typed)
    (explains : Explains space world.kv recorded) :
    (derived.foldlM (storeDerived space cap) chase).wp (handler env) (Rebuilds env space)
      (fun chase' world' => chase' = (derived.map Prod.fst).foldl Chase.advance chase ∧
        Rederived space base world'.kv (· ∈ chase'.seen) typed ∧
        (Explains space world'.kv fun outcome => recorded outcome ∨ ∃ item ∈ derived, outcome =
        (item.1.fact, item.2)) ∧ Adds space (· ∈ derived.map Prod.fst) world.kv world'.kv ∧
        (cap ≠ 0 → chase.written ≤ cap → chase'.written ≤ cap)) world := by
  induction derived generalizing chase world recorded with
  | nil => exact ⟨rfl, rederived, explains.congr (by simp), fun _ _ => .inl rfl, fun _ => id⟩
  | cons item rest ih =>
    refine wp_seq (wp_storeDerived rederived explains) ?_
    rintro next middle ⟨rfl, rederived', explains', adds, within⟩
    refine wp_imp (ih rederived' explains') ?_
    rintro final world' ⟨rfl, rederived'', explains'', adds', within'⟩
    refine ⟨rfl, rederived'', explains''.congr fun outcome => ?_, (adds.mono ?_).trans (adds'.mono ?_), fun capped start => ?_⟩
    · rw [exists_mem_cons_iff, or_assoc]
    · rintro _ rfl
      exact .head _
    · exact fun _ => .tail _
    · exact within' capped (within capped start)

end

section

variable {base : KV} {flags : String → SemanticFlags} {rel : RelMeta} {taken : Triple → Prop}

/-- Where the worklist stands: the triples it has seen are those stored, and the
types are those of the triples it has taken. -/
structure Chasing (space : String) (base : KV) (flags : String → SemanticFlags)
    (taken : Triple → Prop) (chase : Chase) (kv : KV) : Prop where
  rederived : Rederived space base kv (· ∈ chase.seen) fun vid className => ∃ t, taken t ∧ typing flags t vid className
  progress : (entailment flags).Progress (Asserted base space) (· ∈ chase.seen) taken
  agenda : Agenda taken chase

/-- The reasons that are stored are those of the rules that fired. -/
def Explaining (space : String) (flags : String → SemanticFlags) (taken : Triple → Prop) (chase : Chase) (kv : KV) : Prop :=
  ∃ recorded, Explains space kv recorded ∧ Recording (Concludes flags) (· ∈ chase.seen) taken recorded

/-- A rule fires for a derived triple, or for a type of one of the ends. -/
theorem fires_iff (held : stored t) (outcome : Fact × Justification) :
    Fires flags stored t outcome ↔
      (∃ item : Triple × Justification, outcome = (item.1.fact, item.2) ∧ Fires flags stored t outcome) ∨
      (∃ className ∈ (flags t.p).domain, outcome = (.vtype t.s className, ⟨.domain, [t.fact]⟩)) ∨
      ∃ className ∈ (flags t.p).range, outcome = (.vtype t.d className, ⟨.range, [t.fact]⟩) := by
  obtain ⟨fact, rule, reasons⟩ := outcome
  constructor
  · intro fired
    cases fact with
    | edge s p d => exact .inl ⟨(⟨s, p, d⟩, ⟨rule, reasons⟩), rfl, fired⟩
    | vtype vid className =>
      obtain ⟨premises, ⟨applied, same⟩, among, -⟩ := fired
      subst same
      cases applied with
      | domain declared =>
        obtain rfl := mem_singleton.mp among
        exact .inr (.inl ⟨className, declared, rfl⟩)
      | range declared =>
        obtain rfl := mem_singleton.mp among
        exact .inr (.inr ⟨className, declared, rfl⟩)
  · rintro (⟨-, -, fired⟩ | ⟨className, declared, same⟩ | ⟨className, declared, same⟩)
    · exact fired
    · cases same
      exact ⟨[t], ⟨.domain declared, rfl⟩, by simp, by simpa using held⟩
    · cases same
      exact ⟨[t], ⟨.range declared, rfl⟩, by simp, by simpa using held⟩

theorem wp_processTriple (reflects : rel.Reflects flags) (next : chase.worklist = t :: rest)
    (chasing : Chasing space base flags taken chase world.kv)
    (explaining : Explaining space flags taken chase world.kv) :
    (processTriple space cap rel { chase with worklist := rest } t).wp (handler env) (Rebuilds env space)
      (fun chase' world' =>
        Chasing space base flags (fun other => taken other ∨ other = t) chase' world'.kv ∧
        Explaining space flags (fun other => taken other ∨ other = t) chase' world'.kv) world := by
  obtain ⟨recorded, explains, recording⟩ := explaining
  have held : t ∈ chase.seen := chasing.agenda.pending t (by simp [next])
  refine wp_seq (wp_derivations reflects chasing.rederived held) ?_
  rintro derived _ ⟨rfl, fires⟩
  refine wp_seq (wp_typeVertex chasing.rederived explains cap t.fact .domain t.s _ _) ?_
  rintro charged domainWorld ⟨byDomain, domainReasons, -, -⟩
  refine wp_seq (wp_typeVertex byDomain domainReasons cap t.fact .range t.d _ _) ?_
  rintro charged' rangeWorld ⟨byRange, rangeReasons, -, -⟩
  have agenda : Agenda (fun other => taken other ∨ other = t) { chase with worklist := rest, written := charged' } := by
    constructor
    · intro other mem
      exact chasing.agenda.pending other (by simp [next, mem])
    · intro other mem
      have covered := chasing.agenda.covered other mem
      rw [next, mem_cons] at covered
      rwa [or_assoc]
  refine wp_imp (wp_storeAll derived byRange rangeReasons) ?_
  rintro final world' ⟨rfl, rederived, reasons, -, -⟩
  have seen : ∀ other, other ∈ ((derived.map Prod.fst).foldl Chase.advance
    { chase with worklist := rest, written := charged' }).seen ↔
      other ∈ chase.seen ∨ other ∈ derived.map Prod.fst := fun _ => mem_foldl_advance
  refine ⟨⟨rederived.congr (fun _ => Iff.rfl) ?_, ?_, agenda.advance _⟩, _, reasons, recording.take ?_ ?_ ?_⟩
  · intro vid className
    simp only [typing, reflects.domain, reflects.range]
    grind
  · refine chasing.progress.take held ?_
    intro result
    rw [seen, follows_iff_fires held, mem_map]
    refine or_congr_right ⟨?_, ?_⟩
    · rintro ⟨item, mem, rfl⟩
      exact ⟨item.2, (fires item).mp mem⟩
    · rintro ⟨reason, fired⟩
      exact ⟨(result, reason), (fires _).mpr fired, rfl⟩
  · exact fun other old => (seen other).mpr (.inl old)
  · rintro other (was | rfl)
    · exact chasing.progress.takenStored other was
    · exact held
  · intro outcome
    have derivedIff : (∃ item ∈ derived, outcome = (item.1.fact, item.2)) ↔
        ∃ item : Triple × Justification, outcome = (item.1.fact, item.2) ∧ Fires flags (· ∈ chase.seen) t outcome := by
      refine exists_congr fun item => ?_
      rw [fires, and_comm]
      exact and_congr_right fun same => by rw [same]
    have typedIff : ∀ {declared given : Option String} {vid rule}, (∀ c, declared = some c ↔ given = some c) →
        ((∃ c ∈ declared, outcome = (Fact.vtype vid c, ⟨rule, [t.fact]⟩)) ↔
          ∃ c ∈ given, outcome = (Fact.vtype vid c, ⟨rule, [t.fact]⟩)) :=
      fun same => exists_congr fun c => and_congr_left fun _ => same c
    rw [derivedIff, typedIff (reflects.domain t.p), typedIff (reflects.range t.p), or_assoc, or_assoc]
    refine or_congr_right (Iff.trans ?_ (fires_iff held outcome).symm)
    rw [← or_assoc, or_comm]

/-- The edges are the closure of the assertions of `base`, and the types are those
of the closure. -/
def Materialized (space : String) (base kv : KV) : Prop :=
  let closure := (entailment (edgeFlags base space)).Closure (Asserted base space)
  Rederived space base kv closure fun vid className => ∃ t, closure t ∧ typing (edgeFlags base space) t vid className

/-- The reasons are the applications of the rules to the closure. -/
def Explained (space : String) (base kv : KV) : Prop :=
  Explains space kv fun outcome => ∃ premises, Concludes (edgeFlags base space) premises outcome ∧
    ∀ t ∈ premises, (entailment (edgeFlags base space)).Closure (Asserted base space) t

theorem Chasing.finish (done : chase.worklist = [])
    (chasing : Chasing space base (edgeFlags base space) taken chase kv)
    (explaining : Explaining space (edgeFlags base space) taken chase kv) :
    Materialized space base kv ∧ Explained space base kv := by
  obtain ⟨recorded, explains, recording⟩ := explaining
  have all : ∀ t, t ∈ chase.seen → taken t := by
    intro t mem
    have covered := chasing.agenda.covered t mem
    rwa [done, mem_nil_iff, or_false] at covered
  have closure := chasing.progress.finish all
  refine ⟨chasing.rederived.congr closure ?_, explains.congr fun outcome => ?_⟩
  · intro vid className
    refine exists_congr fun t => and_congr_left fun _ => ?_
    exact ⟨fun was => (closure t).mp (chasing.progress.takenStored t was), fun derived => all t ((closure t).mpr derived)⟩
  · rw [recording.finish all]
    simp [closure]

theorem wp_chaseLoop (reflects : rel.Reflects (edgeFlags base space))
    (chasing : Chasing space base (edgeFlags base space) taken chase world.kv)
    (explaining : Explaining space (edgeFlags base space) taken chase world.kv) :
    (chaseLoop space cap rel fuel chase).wp (handler env) (Rebuilds env space) (fun _ world' =>
      Materialized space base world'.kv ∧ Explained space base world'.kv) world := by
  induction fuel generalizing chase taken world with
  | zero =>
    unfold chaseLoop
    cases pending : chase.worklist with
    | nil => exact chasing.finish pending explaining
    | cons t rest => trivial
  | succ fuel ih =>
    unfold chaseLoop
    cases pending : chase.worklist with
    | nil => exact chasing.finish pending explaining
    | cons t rest =>
      exact wp_seq (wp_processTriple reflects pending chasing explaining) fun _ _ next => ih next.1 next.2

end

section

variable {kv : KV}

theorem surveyEdge_ok (ran : surveyEdge space survey entry = .ok survey') :
    ∃ edge, decodeQueryEdge entry.1 entry.2 = .ok edge ∧
      survey' = if edge.isInferred then { survey with deletes := survey.deletes ++ [entry.1] }
        else { survey with
          asserted := survey.asserted ++ [⟨edge.srcVid, edge.edgeType, edge.dstVid⟩]
          puts := survey.puts ++ [(edge.inKey space, entry.2)] } := by
  obtain ⟨edge, decoded, rest⟩ := bind_eq_ok ran
  refine ⟨edge, decoded, ?_⟩
  split at rest <;> cases rest <;> simp_all

theorem mem_survey {entries : List (Key × Val)} {survey survey' : Survey}
    (ran : entries.foldlM (surveyEdge space) survey = .ok survey') :
    (∀ entry ∈ entries, ∃ edge, decodeQueryEdge entry.1 entry.2 = .ok edge) ∧
    (∀ t, t ∈ survey'.asserted ↔ t ∈ survey.asserted ∨ ∃ entry ∈ entries, ∃ edge,
      decodeQueryEdge entry.1 entry.2 = .ok edge ∧ edge.isInferred = false ∧ t = ⟨edge.srcVid, edge.edgeType, edge.dstVid⟩) ∧
    (∀ put, put ∈ survey'.puts ↔ put ∈ survey.puts ∨ ∃ entry ∈ entries, ∃ edge,
      decodeQueryEdge entry.1 entry.2 = .ok edge ∧ edge.isInferred = false ∧ put = (edge.inKey space, entry.2)) ∧
    (∀ key, key ∈ survey'.deletes ↔ key ∈ survey.deletes ∨ ∃ entry ∈ entries, ∃ edge,
      decodeQueryEdge entry.1 entry.2 = .ok edge ∧ edge.isInferred = true ∧ key = entry.1) := by
  induction entries generalizing survey with
  | nil =>
    cases ran
    simp
  | cons entry rest ih =>
    obtain ⟨between, first, ran⟩ := bind_eq_ok ran
    obtain ⟨edge, decoded, rfl⟩ := surveyEdge_ok first
    obtain ⟨defined, asserted, puts, deletes⟩ := ih ran
    refine ⟨forall_mem_cons.mpr ⟨⟨edge, decoded⟩, defined⟩, ?_, ?_, ?_⟩
    · intro t
      rw [asserted, exists_mem_cons_iff]
      by_cases inferred : edge.isInferred = true <;> simp [inferred, decoded, or_assoc]
    · intro put
      rw [puts, exists_mem_cons_iff]
      by_cases inferred : edge.isInferred = true <;> simp [inferred, decoded, or_assoc]
    · intro key
      rw [deletes, exists_mem_cons_iff]
      by_cases inferred : edge.isInferred = true <;> simp [inferred, decoded, or_assoc]

structure Surveyed (space : String) (kv : KV) (survey : Survey) : Prop where
  shaped : ∀ key value, key.kind space = some "edge" → kv.get key = some value → ∃ t rank, key = Triple.key space t rank
  asserted : ∀ t, t ∈ survey.asserted ↔ Asserted kv space t
  puts : ∀ key value, (key, value) ∈ survey.puts ↔
    ∃ t rank, key = Triple.inKey space t rank ∧ kv.get (t.key space rank) = some value ∧ value.isAsserted = true
  deletes : ∀ key, key ∈ survey.deletes ↔
    key.kind space = some "edge" ∧ ∃ value, kv.get key = some value ∧ value.isAsserted = false

theorem decoded_key (kind : key.kind space = some "edge") (decoded : decodeQueryEdge key value = .ok edge) :
    value = .edge edge ∧ key = Triple.key space ⟨edge.srcVid, edge.edgeType, edge.dstVid⟩ edge.ranking := by
  obtain ⟨rfl, owner, rfl | rfl⟩ := decodeQueryEdge_ok decoded
  · simp only [edgeData, Key.kind, ite_eq_left_iff, reduceCtorEq, imp_false, not_not] at kind
    exact ⟨rfl, by rw [kind]; rfl⟩
  · simp [inEdgeData, Key.kind] at kind

theorem surveyed
    (ran : (env.arrange (kv.select (covers (edgeDataSpacePrefix space)))).foldlM (surveyEdge space)
      ⟨[], [], []⟩ = .ok survey) : Surveyed space kv survey := by
  have listed : ∀ entry : Key × Val, entry ∈ env.arrange (kv.select (covers (edgeDataSpacePrefix space))) ↔
        kv.get entry.1 = some entry.2 ∧ entry.1.kind space = some "edge" := by
    intro entry
    rw [mem_scan]
    exact and_congr_right fun _ => covers_kind
  obtain ⟨defined, asserted, puts, deletes⟩ := mem_survey ran
  have inverted : ∀ {key value}, kv.get key = some value → key.kind space = some "edge" → ∃ edge,
      decodeQueryEdge key value = .ok edge ∧ value = .edge edge ∧
        key = Triple.key space ⟨edge.srcVid, edge.edgeType, edge.dstVid⟩ edge.ranking := by
    intro key value found kind
    obtain ⟨edge, decoded⟩ := defined (key, value) ((listed _).mpr ⟨found, kind⟩)
    exact ⟨edge, decoded, decoded_key kind decoded⟩
  refine ⟨?_, ?_, ?_, ?_⟩
  · intro key value kind found
    obtain ⟨edge, _, _, shape⟩ := inverted found kind
    exact ⟨_, _, shape⟩
  · intro t
    simp only [asserted, not_mem_nil, false_or, listed, Prod.exists]
    constructor
    · rintro ⟨key, value, ⟨found, kind⟩, edge, decoded, marker, rfl⟩
      obtain ⟨rfl, rfl⟩ := decoded_key kind decoded
      exact ⟨_, _, found, by simp [Val.isAsserted, marker]⟩
    · rintro ⟨rank, value, found, assertion⟩
      obtain ⟨edge, decoded, rfl, shape⟩ := inverted found (t.kind_key space rank)
      rw [Triple.key_inj] at shape
      exact ⟨_, _, ⟨found, t.kind_key space rank⟩, edge, decoded, by simpa [Val.isAsserted] using assertion, shape.1⟩
  · intro key value
    simp only [puts, not_mem_nil, false_or, listed, Prod.exists, Prod.mk.injEq]
    constructor
    · rintro ⟨key, value, ⟨found, kind⟩, edge, decoded, marker, rfl, rfl⟩
      obtain ⟨rfl, rfl⟩ := decoded_key kind decoded
      exact ⟨_, _, rfl, found, by simp [Val.isAsserted, marker]⟩
    · rintro ⟨t, rank, rfl, found, assertion⟩
      obtain ⟨edge, decoded, rfl, shape⟩ := inverted found (t.kind_key space rank)
      obtain ⟨rfl, rfl⟩ := Triple.key_inj.mp shape
      exact ⟨_, _, ⟨found, Triple.kind_key _ _ _⟩, edge, decoded, by simpa [Val.isAsserted] using assertion, rfl, rfl⟩
  · intro key
    simp only [deletes, not_mem_nil, false_or, listed, Prod.exists]
    constructor
    · rintro ⟨key, value, ⟨found, kind⟩, edge, decoded, marker, rfl⟩
      obtain ⟨rfl, _⟩ := decoded_key kind decoded
      exact ⟨kind, _, found, by simp [Val.isAsserted, marker]⟩
    · rintro ⟨kind, value, found, unasserted⟩
      obtain ⟨edge, decoded, rfl, _⟩ := inverted found kind
      exact ⟨_, _, ⟨found, kind⟩, edge, decoded, by simpa [Val.isAsserted] using unasserted, rfl⟩

section

variable {survey : Survey} (surveyed : Surveyed space kv survey) {deletes : List Key} (removed : ∀ key, key ∈ deletes ↔
  (key ∈ survey.deletes ∨ (kv.get key).isSome = true ∧ key.kind space ∈ derivedKinds) ∧ key ∉ survey.puts.map Prod.fst)

theorem Surveyed.kind_put (surveyed : Surveyed space kv survey)
    (mem : key ∈ survey.puts.map Prod.fst) : key.kind space = some "in-edge" := by
  obtain ⟨⟨_, value⟩, listed, rfl⟩ := mem_map.mp mem
  obtain ⟨t, rank, same, _⟩ := (surveyed.puts _ _).mp listed
  rw [same, Triple.kind_inKey]

include removed

theorem erased_of_kind (derived : key.kind space ∈ derivedKinds) (unput : key ∉ survey.puts.map Prod.fst) :
    ((kv.putAll survey.puts).eraseAll deletes).get key = none := by
  rw [get_eraseAll, get_putAll_of_not_mem unput]
  simp only [removed]
  cases found : kv.get key with
  | none => simp
  | some value => simp [derived, unput]

include surveyed

theorem Surveyed.unexplained : Explains space ((kv.putAll survey.puts).eraseAll deletes) fun _ => False := by
  refine .none fun key kind => erased_of_kind removed ?_ fun mem => ?_
  · simp only [mem_cons, not_mem_nil, or_false] at kind
    rcases kind with kind | kind <;> simp [kind, derivedKinds]
  · simp [surveyed.kind_put mem] at kind

/-- After the first batch only the assertions and their reverse edges are left. -/
theorem Surveyed.cleared :
    Rederived space kv ((kv.putAll survey.puts).eraseAll deletes) (Asserted kv space) fun _ _ => False := by
  have putKind : ∀ {key}, key ∈ survey.puts.map Prod.fst → key.kind space = some "in-edge" := surveyed.kind_put
  have untouched : ∀ {key : Key}, key.kind space ≠ some "edge" → key.kind space ∉ derivedKinds →
      ((kv.putAll survey.puts).eraseAll deletes).get key = kv.get key := by
    intro key edge derived
    rw [get_eraseAll, if_neg, get_putAll_of_not_mem]
    · intro mem
      exact derived (by simp [putKind mem, derivedKinds])
    · rw [removed, surveyed.deletes]
      rintro ⟨old | old, _⟩
      · exact edge old.1
      · exact derived old.2
  have forward : ∀ {key : Key}, key.kind space = some "edge" →
      ((kv.putAll survey.puts).eraseAll deletes).get key = (kv.get key).filter Val.isAsserted := by
    intro key edge
    have unput : key ∉ survey.puts.map Prod.fst := fun mem => by simp [putKind mem] at edge
    rw [get_eraseAll, get_putAll_of_not_mem unput]
    simp only [removed, surveyed.deletes]
    cases found : kv.get key with
    | none => simp
    | some value => by_cases assertion : value.isAsserted = true <;> simp [Option.filter, assertion, edge, unput, derivedKinds]
  have gone : ∀ key : Key, key.kind space ∈ derivedKinds → key ∉ survey.puts.map Prod.fst →
      ((kv.putAll survey.puts).eraseAll deletes).get key = none := fun _ => erased_of_kind removed
  refine ⟨⟨?_, ?_⟩, fun _ asserted => asserted, ?_, ?_, ?_⟩
  · intro key edge
    rw [forward edge, Option.filter_filter]
    simp
  · intro key edge derived
    exact untouched edge derived
  · intro t rank value
    rw [forward (t.kind_key space rank), Option.filter_eq_some_iff]
    constructor
    · exact .inl
    · rintro (asserted | ⟨asserted, unasserted, _⟩)
      · exact asserted
      · exact absurd asserted unasserted
  · intro t rank
    rw [forward (t.kind_key space rank)]
    by_cases mem : t.inKey space rank ∈ survey.puts.map Prod.fst
    · have kept : t.inKey space rank ∉ deletes := fun deleted => ((removed _).mp deleted).2 mem
      cases last : lastPut survey.puts (t.inKey space rank) with
      | none => exact absurd mem (lastPut_eq_none.mp last)
      | some value =>
        obtain ⟨u, otherRank, same, found, assertion⟩ := (surveyed.puts _ _).mp (mem_of_lastPut last)
        obtain ⟨rfl, rfl⟩ := Triple.inKey_inj.mp same
        rw [get_eraseAll, if_neg kept, get_putAll, last, found]
        simp [Option.filter, assertion]
    · rw [gone _ (by simp [derivedKinds]) mem, eq_comm, Option.filter_eq_none_iff]
      intro value found assertion
      have listed := (surveyed.puts _ _).mpr ⟨t, rank, rfl, found, assertion⟩
      exact mem (mem_map_of_mem listed)
  · intro vid className
    have unput : vtype space vid className ∉ survey.puts.map Prod.fst :=
      fun mem => by simpa using putKind mem
    simp [gone (vtype space vid className) (by simp [derivedKinds]) unput]

end

theorem mem_removed (env : Env) (survey : Survey) (key : Key) :
    key ∈ (survey.deletes ++ (env.arrange (kv.select (covers (inEdgeDataSpacePrefix space))) ++
      env.arrange (kv.select (covers (vtypeSpacePrefix space))) ++
      env.arrange (kv.select (covers (provPrefix space))) ++
      env.arrange (kv.select (covers (provRevPrefix space)))).map Prod.fst).filter
        (fun key => !(survey.puts.map Prod.fst).contains key) ↔
      (key ∈ survey.deletes ∨ (kv.get key).isSome = true ∧ key.kind space ∈ derivedKinds) ∧
        key ∉ survey.puts.map Prod.fst := by
  have scanned : ∀ kind : String, key ∈ (env.arrange (kv.select (covers
      (Prefix.text [.word space, .word kind])))).map Prod.fst ↔ (kv.get key).isSome = true ∧ key.kind space = some kind := by
    intro kind
    simp only [mem_map, Prod.exists, exists_and_right, exists_eq_right, mem_scan, Option.isSome_iff_exists]
    exact and_congr_right fun _ => covers_kind
  rw [mem_filter, Bool.not_eq_true', ← Bool.not_eq_true, contains_iff_mem]
  refine and_congr_left fun _ => ?_
  simp only [map_append, mem_append, inEdgeDataSpacePrefix, vtypeSpacePrefix,
    provPrefix, provRevPrefix, scanned, derivedKinds, mem_cons, not_mem_nil, or_false]
  grind

end

theorem wp_runMaterialization (reflects : rel.Reflects (edgeFlags base space)) (fuel : Nat) (ctx : Ctx)
    (asserted : ∀ t, t ∈ seeds ↔ Asserted base space t)
    (cleared : Rederived space base world.kv (Asserted base space) fun _ _ => False)
    (unexplained : Explains space world.kv fun _ => False) :
    (runMaterialization fuel ctx space seeds rel).wp (handler env) (Rebuilds env space)
      (fun _ world' => Materialized space base world'.kv ∧ Explained space base world'.kv) world := by
  have seen : ∀ t, Asserted base space t ↔ t ∈ seeds.eraseDups := by
    intro t
    rw [mem_eraseDups, asserted]
  have start : Chasing space base (edgeFlags base space) (fun _ => False) ⟨seeds.eraseDups, seeds.eraseDups, 0⟩
      world.kv :=
    ⟨cleared.congr seen (by simp), .start _ fun t => (seen t).symm, fun _ mem => mem, fun _ mem => .inr mem⟩
  exact wp_chaseLoop reflects start ⟨_, unexplained, .start not_concludes_nil⟩

theorem wp_rematerializeSpace (fuel : Nat) (ctx : Ctx) :
    (rematerializeSpace fuel ctx space).wp (handler env) (Rebuilds env space) (fun _ world' =>
      Materialized space world.kv world'.kv ∧ Explained space world.kv world'.kv) world := by
  refine wp_seq (wp_loadRelMeta (.read rfl)) ?_
  rintro rel _ ⟨reflects, rfl⟩
  simp only [wp_bind, wp_scanPrefix, wp_ofExcept, wp_batchApply]
  refine ⟨.read rfl, ?_⟩
  intro survey ran
  refine ⟨.read rfl, ?_⟩
  intro reverse _
  refine ⟨.read rfl, .read rfl, .read rfl, ?_⟩
  have found := surveyed ran
  have cleared := found.cleared (mem_removed env survey)
  have unexplained := found.unexplained (mem_removed env survey)
  exact ⟨.batchApply cleared.keeps, wp_runMaterialization reflects fuel ctx found.asserted cleared unexplained⟩

/-- A rebuild that returns has stored exactly the closure of the asserted
triples: each derived triple once, with rank 0 and the marker, next to the
asserted edges, which it keeps; and the types that the closure entails.  Nothing
is assumed about the derived data found, nor about the order of the scans. -/
theorem rematerializeSpace_closure {fuel : Nat} {ctx : Ctx} {before after : World}
    (returned : (rematerializeSpace fuel ctx space).run (handler env) before = (.ok (), after)) :
    let closure := (entailment (edgeFlags before.kv space)).Closure (Asserted before.kv space)
    (∀ t, Stored after.kv space t ↔ closure t) ∧
    (∀ t, closure t → ¬ Asserted before.kv space t → ∀ rank value,
      after.kv.get (t.key space rank) = some value ↔ rank = 0 ∧ value = .edge (inferredEdge t)) ∧
    (∀ t, Asserted before.kv space t → ∀ rank value, after.kv.get (t.key space rank) = some value ↔
      before.kv.get (t.key space rank) = some value ∧ value.isAsserted = true) ∧
    (∀ vid className, (after.kv.get (vtype space vid className)).isSome = true ↔
      ∃ t, closure t ∧ typing (edgeFlags before.kv space) t vid className) := by
  have materialized := (wp_run (wp_rematerializeSpace fuel ctx) returned).1
  refine ⟨materialized.stored_iff, ?_, ?_, materialized.types⟩
  · intro t derived unasserted rank value
    rw [materialized.forward]
    constructor
    · rintro (old | new)
      · exact absurd ⟨rank, value, old⟩ unasserted
      · exact new.2.2
    · intro new
      exact .inr ⟨derived, unasserted, new⟩
  · intro t asserted rank value
    rw [materialized.forward]
    constructor
    · rintro (old | new)
      · exact old
      · exact absurd asserted new.2.1
    · exact .inl

/-- A space with a transitive edge type, two asserted edges and a stale inferred
one. -/
def chainWorld : World where
  content := ⟨Table.ofList [
    (SchemaKey.edge "g" "anc", .edgeSchema ⟨"anc", [], { transitive := true, range := some "elder" }, none⟩),
    (edgeData "g" 1 "anc" 2 0, .edge ⟨1, 2, "anc", 0, .empty⟩),
    (edgeData "g" 2 "anc" 3 7, .edge ⟨2, 3, "anc", 7, .empty⟩),
    (edgeData "g" 3 "anc" 1 0, .edge (inferredEdge ⟨3, "anc", 1⟩))], .empty⟩
  lastTx := 0
  readings := 0

/-- An administrator's context on the space `g`, without bounds. -/
def graphCtx : Ctx := ⟨some "g", none, true, 0, 0, fun _ => 0, fun _ => none, fun _ => ""⟩

theorem asserted_chain : Asserted chainWorld.kv "g" t ↔ t ∈ [⟨1, "anc", 2⟩, ⟨2, "anc", 3⟩] := by
  constructor
  · rintro ⟨rank, value, found, asserted⟩
    have listed := mem_of_ofList found
    simp only [mem_cons, Prod.mk.injEq, not_mem_nil, or_false] at listed
    obtain ⟨s, p, d⟩ := t
    obtain ⟨same, rfl⟩ | ⟨same, rfl⟩ | ⟨same, rfl⟩ | ⟨same, rfl⟩ := listed
    · simp [Triple.key, edgeData, SchemaKey.edge] at same
    · simp_all [Triple.key, edgeData]
    · simp_all [Triple.key, edgeData]
    · cases asserted
  · intro listed
    simp only [mem_cons, not_mem_nil, or_false] at listed
    rcases listed with rfl | rfl
    · exact ⟨0, .edge ⟨1, 2, "anc", 0, .empty⟩, by rfl, by rfl⟩
    · exact ⟨7, .edge ⟨2, 3, "anc", 7, .empty⟩, by rfl, by rfl⟩

theorem returned_chain : ((rematerializeSpace 10 graphCtx "g").run (handler ⟨recordLayout, fun _ => 0⟩) chainWorld).1 =
    .ok () := by
  decide +kernel

theorem rematerializeSpace_closure_chain :
    Stored ((rematerializeSpace 10 graphCtx "g").run (handler ⟨recordLayout, fun _ => 0⟩)
      chainWorld).2.kv "g" ⟨1, "anc", 3⟩ := by
  refine ((rematerializeSpace_closure (Prod.ext returned_chain rfl)).1 _).mpr ?_
  exact .binary (.base (asserted_chain.mpr (.head _))) (.base (asserted_chain.mpr (.tail _ (.head _))))
    ⟨rfl, .inl ⟨by rfl, rfl, rfl⟩⟩

/-- A rebuild that returns has stored for each fact, derived or asserted, the
applications of the rules to the closure that conclude it, and for each triple the
facts that one of its applications concludes; each of them once. -/
theorem rematerializeSpace_provenance {fuel : Nat} {ctx : Ctx} {before after : World}
    (returned : (rematerializeSpace fuel ctx space).run (handler env) before = (.ok (), after)) :
    let flags := edgeFlags before.kv space
    let closure := (entailment flags).Closure (Asserted before.kv space)
    (∀ fact, ∃ justs, readJustifications (after.kv.get (provKey space fact)) = .ok justs ∧ justs.Nodup ∧
      ∀ reason, reason ∈ justs ↔ ∃ premises, RuleInstance flags reason.rule premises fact ∧
        reason.premises = premises.map Triple.fact ∧ ∀ t ∈ premises, closure t) ∧
    (∀ t : Triple, ∃ facts, readFacts (after.kv.get (provRevEdge space t.s t.p t.d)) = .ok facts ∧ facts.Nodup ∧
      ∀ fact, fact ∈ facts ↔ ∃ justs, readJustifications (after.kv.get (provKey space fact)) = .ok justs ∧
        ∃ reason ∈ justs, t.fact ∈ reason.premises) := by
  intro flags closure
  have explained := (wp_run (wp_rematerializeSpace fuel ctx) returned).2
  refine ⟨fun fact => ?_, fun t => ?_⟩
  · obtain ⟨justs, read, nodup, listed⟩ := explained.reasons fact
    exact ⟨justs, read, nodup, fun reason => by simp [listed, Concludes, and_assoc, flags, closure]⟩
  · obtain ⟨facts, read, nodup, listed⟩ := explained.uses t
    refine ⟨facts, read, nodup, fun fact => (listed fact).trans ?_⟩
    obtain ⟨justs, readJusts, -, reasons⟩ := explained.reasons fact
    simp [readJusts, Except.ok.injEq, exists_eq_left', reasons]

/-- The derived ancestor is explained by the two edges it follows from. -/
theorem rematerializeSpace_provenance_chain : ∃ justs,
    readJustifications (((rematerializeSpace 10 graphCtx "g").run (handler ⟨recordLayout,
      fun _ => 0⟩) chainWorld).2.kv.get (provKey "g" (.edge 1 "anc" 3))) = .ok justs ∧
      ⟨.transitive, [.edge 1 "anc" 2, .edge 2 "anc" 3]⟩ ∈ justs := by
  obtain ⟨justs, read, -, listed⟩ := (rematerializeSpace_provenance (Prod.ext returned_chain rfl)).1 (.edge 1 "anc" 3)
  refine ⟨justs, read, (listed _).mpr ⟨[⟨1, "anc", 2⟩, ⟨2, "anc", 3⟩], ?_, rfl, ?_⟩⟩
  · exact @RuleInstance.transitive _ ⟨1, "anc", 2⟩ ⟨2, "anc", 3⟩ (by rfl) rfl rfl
  · exact fun t listed => .base (asserted_chain.mpr listed)

end ByoriDB.Executor
