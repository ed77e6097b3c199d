import HpForest.Proofs.History.Change
import HpForest.Proofs.Strategy
import Mathlib.Logic.Relation

/-! # Elements stay in the collection

An operation takes the element indices of the leaves from the leaves before it (`Draws`): a split cell hands
its own to its children, a merged cell takes one of its children's, and what a split cell keeps in store is
never read. Only markings and strategies bring in indices, those of a collection. So leaves within a collection
stay within it while a forest is adapted with the collection, and none of its indices is ever refused. -/

namespace HpForest

/-- The operation adapts with the given collection, and the elements that it names are in it. -/
def Operation.Uses {P N : Type} (fe : Collection) : Operation P N → Prop
  | addRoot index => index < fe.size
  | setFuture _ index => index < fe.size
  | setElement _ index => index < fe.size
  | execute used => used = fe
  | assign used _ => used = fe
  | hpAdapt used _ _ => used = fe
  | _ => True

namespace Forest
variable {D : Nat} {F G H : Forest D} {fe : Collection} {id : CellId} {ids : List CellId} {l : Leaf} {index : Nat}

/-! ### Where indices come from -/

/-- Every element index at a leaf of `G` is in the collection or stands at a leaf of `F`. -/
def Draws (fe : Collection) (F G : Forest D) : Prop :=
  ∀ ⦃id m⦄, G.leaf? id = some m → ∀ i ∈ m.indices, i < fe.size ∨ ∃ k l, F.leaf? k = some l ∧ i ∈ l.indices

namespace Draws

theorem refl (F : Forest D) : Draws fe F F := fun _ _ hm _ hi => Or.inr ⟨_, _, hm, hi⟩

theorem trans (h₁ : Draws fe F G) (h₂ : Draws fe G H) : Draws fe F H := fun _ _ hm i hi => by
  rcases h₂ hm i hi with valid | ⟨k, l, hl, hi⟩
  · exact Or.inl valid
  · exact h₁ hl i hi

theorem within (h : Draws fe F G) (within : F.Within fe) : G.Within fe := fun m hm i hi => by
  rcases h (mem_leaves_iff.mp hm) i hi with valid | ⟨k, l, hl, hi⟩
  · exact valid
  · exact within l (mem_leaves_of_leaf? hl) i hi

theorem remark {f : Leaf → Markers}
    (valid : ∀ l ∈ F.leaves, ∀ i, (f l).future = some i → l.future = some i ∨ i < fe.size) :
    Draws fe F (F.remark f) := fun id m hm i hi => by
  rw [leaf?_remark] at hm
  obtain ⟨l, hl, rfl⟩ := Option.map_eq_some_iff.mp hm
  rcases Leaf.mem_indices.mp hi with element | future
  · exact Or.inr ⟨id, l, hl, Leaf.mem_indices.mpr (Or.inl element)⟩
  · rcases valid l (mem_leaves_of_leaf? hl) i future with kept | valid
    · exact Or.inr ⟨id, l, hl, Leaf.mem_indices.mpr (Or.inr kept)⟩
    · exact Or.inl valid

theorem modify {g : Markers → Markers} (valid : ∀ m i, (g m).future = some i → m.future = some i ∨ i < fe.size) :
    Draws fe F (F.modify id (Cell.mapMarkers g)) := by
  rw [modify_eq_remark]
  refine remark fun l _ i future => ?_
  split at future
  · exact valid l.markers i future
  · exact Or.inl future

theorem setElement (valid : index < fe.size) : Draws fe F (F.modify id fun c => { c with element := index }) :=
    fun j m hm i hi => by
  by_cases same : id = j
  · subst same
    obtain ⟨c, hc, active⟩ := Option.bind_eq_some_iff.mp hm
    rw [cell?_modify, if_pos rfl] at hc
    obtain ⟨b, hb, rfl⟩ := Option.map_eq_some_iff.mp hc
    obtain ⟨markers, role, rfl⟩ := Cell.leaf?_eq_some.mp active
    rcases Leaf.mem_indices.mp hi with rfl | future
    · exact Or.inl valid
    · exact Or.inr ⟨id, _, leaf?_of_role hb role, Leaf.mem_indices.mpr (Or.inr future)⟩
  · rw [leaf?, cell?_modify, if_neg same] at hm
    exact Or.inr ⟨j, m, hm, hi⟩

theorem addRoot (valid : index < fe.size) : Draws fe F (F.addRoot index).1 := fun id m hm i hi => by
  obtain ⟨-, hc⟩ := leaf?_eq_some.mp hm
  rcases cell?_append_eq_some.mp hc with old | ⟨-, root⟩
  · exact Or.inr ⟨m.id, m, leaf?_eq_some.mpr ⟨rfl, leaf?_id hm ▸ old⟩, hi⟩
  · obtain ⟨id, level, parent, element, markers⟩ := m
    cases root
    obtain rfl := Leaf.eq_of_mem_indices rfl hi
    exact Or.inl valid

theorem switched : Draws fe F F.switched := fun id m hm i hi => by
  rw [leaf?_switched] at hm
  obtain ⟨l, hl, rfl⟩ := Option.map_eq_some_iff.mp hm
  obtain rfl := Leaf.eq_of_mem_indices rfl hi
  exact Or.inr ⟨id, l, hl, l.target_mem_indices⟩

end Draws

theorem Refined.draws (refined : Refined F ids G) (leaves : ∀ id ∈ ids, ∃ l, F.leaf? id = some l) : Draws fe F G :=
    fun id m hm i hi => by
  have hc := cell?_of_leaf? hm
  by_cases old : id.slot < F.slots.size
  · by_cases split : id ∈ ids
    · obtain ⟨l, hl⟩ := leaves id split
      cases congrArg (Option.map Cell.role) (hc.symm.trans (refined.parent split hl))
    · rw [leaf?, refined.kept old split] at hm
      exact Or.inr ⟨id, m, hm, hi⟩
  · obtain ⟨p, hp, listed⟩ := refined.cover (Nat.le_of_not_lt old) (slot_lt_size hc)
    obtain ⟨l, hl⟩ := leaves p hp
    have child := hc.symm.trans (refined.child hp hl listed)
    obtain ⟨id, level, parent, element, markers⟩ := m
    cases child
    obtain rfl := Leaf.eq_of_mem_indices rfl hi
    exact Or.inr ⟨p, l, hl, Leaf.mem_indices.mpr (Or.inl rfl)⟩

theorem Executed.draws (e : Executed F G) (h : F.Linked) : Draws fe F G := fun id m hm i hi => by
  obtain ⟨k, l, hl, target, -⟩ := e.origin h hm
  obtain rfl := Leaf.eq_of_mem_indices (congrArg Markers.future (e.bare h hm)) hi
  exact Or.inr ⟨k, l, hl, target ▸ l.target_mem_indices⟩

/-! ### What each operation draws -/

section
variable {P N : Type} [Scalar P] [Scalar N] [RoundsTo P N]

theorem Draws.ofMarking {α : Type} {asked : Except AdaptError α} {f : Cell → Cell}
    (draws : Draws fe F (F.modify id f)) :
    Draws fe F (Outcome.ofMarking F (do let _ ← asked; return F.modify id f)).forest := by
  cases asked with
  | error e => exact refl F
  | ok a => exact draws

theorem Linked.draws_execute (h : F.Linked) (used : Collection) : Draws fe F (F.execute used).forest := by
  rcases h.execute_cases used with same | ⟨ids, leaves, refined⟩ | ⟨summary, -, executed⟩
  · rw [same]
    exact .refl F
  · exact Draws.switched.trans (refined.draws leaves)
  · exact executed.draws h

theorem Linked.draws_resolve (h : F.Linked) (decision : Decision) : Draws fe F (decision.apply F).forest := by
  obtain ⟨n, -, forest⟩ := decision_accepts h decision
  rw [forest]
  exact .remark fun _ _ _ kept => Or.inl (decided_future kept)

theorem Draws.apply (s : Strategy P N) : Draws fe F (s.apply F fe).forest := by
  cases planned : s.plan F fe with
  | error e =>
    rw [Strategy.apply_of_plan_error planned]
    exact refl F
  | ok leaves =>
    rw [(Strategy.apply_of_plan planned).2]
    exact remark fun l hl _ future => Leaf.scheduledOn_future ((Strategy.within_of_plan planned).element hl) future

theorem Linked.draws_hpAdapt (h : F.Linked) (s : Strategy P N) (decision : Decision) :
    Draws fe F (F.hpAdapt fe s decision).forest := by
  have scheduled : (s.apply F fe).forest.Linked ∧ Draws fe F (s.apply F fe).forest :=
    ⟨(SameLinks.apply s fe).linked h, .apply s⟩
  -- The decision is accepted on linked forests only, so the links are carried along.
  refine Outcome.andThen_keeps (I := fun G => G.Linked ∧ Draws fe F G) scheduled (fun {_ G} before => ?_) |>.2
  obtain ⟨linked, draws⟩ := before
  have resolved : (decision.apply G).forest.Linked ∧ Draws fe F (decision.apply G).forest :=
    ⟨(SameCells.resolve linked decision).links.linked linked, draws.trans (linked.draws_resolve decision)⟩
  exact Outcome.andThen_keeps (I := fun G => G.Linked ∧ Draws fe F G) resolved fun same => same

theorem Linked.draws_run (h : F.Linked) {op : Operation P N} (uses : op.Uses fe) : Draws fe F (op.run F).forest := by
  cases op with
  | addRoot index => exact .addRoot uses
  | refineCell id =>
    obtain ⟨ids, leaves, refined⟩ := F.exists_refined id
    exact refined.draws leaves
  | setFlag | clearFlag => exact .ofMarking (.modify fun _ _ same => Or.inl same)
  | setFuture id index => exact .ofMarking (.modify fun _ _ same => Or.inr (Option.some.inj same ▸ uses))
  | clearFuture id => exact .ofMarking (.modify fun _ _ none => by cases none)
  | setElement id index => exact .ofMarking (.setElement uses)
  | clean => exact .remark fun _ _ _ kept => Or.inl (cleanMarkers_future ▸ kept)
  | execute used => exact h.draws_execute used
  | resolve decision => exact h.draws_resolve decision
  | choose =>
    obtain ⟨-, forest⟩ := chooseP_accepts h
    have chosen : F.chooseP.forest = F.remark (F.decided .chooseP) := forest
    show Draws fe F F.chooseP.forest
    rw [chosen]
    exact .remark fun _ _ _ kept => Or.inl (decided_future kept)
  | assign used s =>
    obtain rfl := uses
    exact .apply s
  | hpAdapt used s decision =>
    obtain rfl := uses
    exact h.draws_hpAdapt s decision

/-! ### What each operation refuses -/

theorem cell_finds : FindsElements (F.cell id) := by
  unfold cell
  split
  · exact .ok _
  · exact nofun

theorem leaf_finds : FindsElements (F.leaf id) := by
  refine cell_finds.bind fun c _ => ?_
  split
  · exact .ok _
  · exact nofun

theorem refineCell_finds : FindsElements (F.refineCell id) := by
  refine leaf_finds.bind fun l _ => ?_
  split
  · exact .ok _
  · exact nofun

theorem ofMarking_finds {α : Type} {asked : Except AdaptError α} {f : Cell → Cell} (h : FindsElements asked) :
    FindsElements (Outcome.ofMarking F (do let _ ← asked; return F.modify id f)).answer := by
  cases asked with
  | error e => exact h
  | ok a => exact .ok Answer.done

theorem Linked.execute_finds (h : F.Linked) (within : F.Within fe) : FindsElements (F.execute fe).answer := by
  rcases execute_ends h fe with ⟨foreign, -⟩ | ⟨-, -, l, -, answer⟩ | ⟨-, ⟨summary, answer⟩, -⟩
  · exact absurd within foreign
  · rw [answer]
    exact nofun
  · rw [answer]
    exact .ok summary

theorem Linked.hpAdapt_finds (h : F.Linked) (within : F.Within fe) (s : Strategy P N) (decision : Decision) :
    FindsElements (F.hpAdapt fe s decision).answer := by
  have linked : (s.apply F fe).forest.Linked := (SameLinks.apply s fe).linked h
  obtain ⟨n, decided, -⟩ := decision_accepts linked decision
  refine (Strategy.apply_finds within).andThen fun _ => FindsElements.andThen ?_ fun _ => .ok _
  rw [decided]
  exact .ok n

theorem Linked.finds_run (h : F.Linked) (within : F.Within fe) {op : Operation P N} (uses : op.Uses fe) :
    FindsElements (op.run F).answer := by
  cases op with
  | addRoot | clean => exact .ok _
  | refineCell id => exact refineCell_finds.ofExcept.map _
  | setFlag | setFuture | setElement => exact ofMarking_finds leaf_finds
  | clearFlag | clearFuture => exact ofMarking_finds cell_finds
  | execute used =>
    obtain rfl := uses
    exact (h.execute_finds within).map _
  | resolve decision =>
    obtain ⟨n, accepted, -⟩ := decision_accepts h decision
    have decided : FindsElements (decision.apply F).answer := accepted ▸ .ok n
    exact decided.map _
  | choose =>
    obtain ⟨accepted, -⟩ := chooseP_accepts h
    have chosen : FindsElements F.chooseP.answer := accepted ▸ .ok _
    exact chosen.map _
  | assign used s =>
    obtain rfl := uses
    exact (Strategy.apply_finds within).map _
  | hpAdapt used s decision =>
    obtain rfl := uses
    exact (h.hpAdapt_finds within s decision).map _

end

end Forest

/-! ### Adapting with a collection -/

variable {D : Nat}

/-- A step of adapting with a collection: a call that uses it, refused or not, or a new element. -/
inductive Adapts : Forest D × Collection → Forest D × Collection → Prop
  | call {F : Forest D} {fe : Collection} (call : Call) (uses : call.op.Uses fe) :
    Adapts (F, fe) ((call.run F).forest, fe)
  | push {F : Forest D} {fe grown : Collection} (x : Element) (pushed : fe.push x = .ok grown) :
    Adapts (F, fe) (F, grown)

namespace Adapts
variable {s t : Forest D × Collection}

theorem keeps (step : Adapts s t) (before : s.1.Linked ∧ s.1.Within s.2) : t.1.Linked ∧ t.1.Within t.2 := by
  obtain ⟨linked, within⟩ := before
  cases step with
  | call call uses => exact ⟨linked.run call.op, (linked.draws_run uses).within within⟩
  | push x pushed =>
    refine ⟨linked, fun l hl i hi => ?_⟩
    rw [Collection.push_size pushed]
    exact Nat.lt_succ_of_lt (within l hl i hi)

theorem run_keeps (run : Relation.ReflTransGen Adapts s t) (before : s.1.Linked ∧ s.1.Within s.2) :
    t.1.Linked ∧ t.1.Within t.2 := by
  induction run with
  | refl => exact before
  | tail _ step ih => exact step.keeps ih

end Adapts

namespace Forest
variable {F G : Forest D} {fe grown : Collection}

/-- While a forest whose leaves use a collection is adapted with it, they go on to use it, and no step refuses
an element index, whatever split cells keep in store. -/
theorem within_of_adapts (reached : Reachable F) (within : F.Within fe)
    (run : Relation.ReflTransGen Adapts (F, fe) (G, grown)) : G.Within grown ∧
      ∀ call : Call, call.op.Uses grown → ∀ i n, (call.run G).answer ≠ .error (.invalidElement i n) := by
  obtain ⟨linked, within⟩ := Adapts.run_keeps run ⟨reached.linked, within⟩
  exact ⟨within, fun call uses => (linked.finds_run within uses).ne⟩

/-- A split root that keeps an element which a collection of two does not have. -/
def staleRoot : Forest 1 := after ([.addRoot 7, .refineCell ⟨0⟩, .setElement ⟨1⟩ 0, .setElement ⟨2⟩ 1] :
  List (Operation Rat Rat))

theorem staleRoot_within : Reachable staleRoot ∧ (staleRoot.cell? ⟨0⟩).map (·.element) = some 7 ∧
    staleRoot.Within .twoElements ∧ ∃ G : Forest 1,
      Relation.ReflTransGen Adapts (staleRoot, .twoElements) (G, .twoElements) ∧
      (G.cell? ⟨0⟩).map (·.isActive) = some true ∧ G.Within .twoElements ∧
      ∀ i n, ((Operation.execute .twoElements : Operation Rat Rat).run G).answer ≠ .error (.invalidElement i n) := by
  have reached : Reachable staleRoot := .after _
  have within : staleRoot.Within .twoElements := by decide
  have merged : Relation.ReflTransGen Adapts (staleRoot, .twoElements) _ := .tail (.tail (.single
    (.call ⟨(.setFlag ⟨1⟩ .coarsen : Operation Rat Rat)⟩ trivial))
    (.call ⟨(.setFlag ⟨2⟩ .coarsen : Operation Rat Rat)⟩ trivial))
    (.call ⟨(.execute .twoElements : Operation Rat Rat)⟩ rfl)
  obtain ⟨within', found⟩ := within_of_adapts reached within merged
  exact ⟨reached, rfl, within, _, merged, by decide +kernel, within', found ⟨.execute .twoElements⟩ rfl⟩

end Forest
end HpForest
