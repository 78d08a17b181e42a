import Workflow.Proofs.Conversion.RoundTrip
import Workflow.Proofs.Likeness.Basic
import Workflow.Proofs.Shown.Graph

/-!
# Problems of graphs that are alike

Graphs that are alike differ in the branch a conditional shows and in the edges that are hidden,
and the check looks at both.  A graph without problems shows all its conditionals, and any graph
like it that shows all of them has no problems either.
-/

namespace Workflow

/-!
# Blocks and nodes
-/

namespace Block

variable {b b' : Block} (h : b.reopened = b'.reopened)

theorem missing_reopened (b : Block) : b.reopened.missing = b.missing := by
  cases b <;> rfl

theorem references_reopened (b : Block) : b.reopened.references = b.references := by
  cases b <;> rfl

theorem isContainer_reopened (b : Block) : b.reopened.isContainer = b.isContainer := by
  cases b <;> rfl

include h

theorem rel_conditional? : Option.Rel (fun c c' : Conditional => c.branches = c'.branches)
    b.conditional? b'.conditional? := by
  cases b <;> cases b' <;> simp only [reopened, reduceCtorEq, conditional.injEq,
    Conditional.mk.injEq] at h
  · exact .none
  · exact .none
  · exact .some h.1

theorem references_eq : b.references = b'.references := by
  rw [← references_reopened b, h, references_reopened]

theorem fieldProblems_eq (name : String) : b.fieldProblems name = b'.fieldProblems name := by
  rw [fieldProblems, ← missing_reopened, h, missing_reopened, fieldProblems]

theorem referenceProblems_eq (name : String) (labels keys : List String) :
    b.referenceProblems name labels keys = b'.referenceProblems name labels keys := by
  rw [referenceProblems, references_eq h, referenceProblems]

theorem branchProblems_eq_nil {name : String}
    (hshown : ∀ c, b'.conditional? = some c -> c.hasBranch c.active)
    (hnone : b.branchProblems name = []) : b'.branchProblems name = [] := by
  have hrel := rel_conditional? h
  revert hnone hshown
  unfold branchProblems
  revert hrel
  generalize b.conditional? = o, b'.conditional? = o'
  rintro (hbranches | _) hshown hnone
  · simp only [List.append_eq_nil_iff, Conditional.branchIds, hbranches] at hnone ⊢
    exact ⟨hnone.1, if_pos (hshown _ rfl)⟩
  · rfl

end Block

namespace Node.Like

variable {R : String -> String -> Prop} {n n' : Node} (h : n.Like R n')
include h

theorem isContainer : n.isContainer = n'.isContainer :=
  any_eq_of_optionRel h.block fun b b' hb => by
    rw [← Block.isContainer_reopened b, hb, Block.isContainer_reopened]

theorem conditional : Option.Rel (fun c c' : Conditional => c.branches = c'.branches)
    n.conditional? n'.conditional? :=
  optionRel_bind h.block fun _ _ hb => Block.rel_conditional? hb

end Node.Like

namespace Graph

/-- Every conditional shows a branch that it declares, and its edges are hidden accordingly. -/
def ShowsAll (g : Graph) : Prop :=
  ∀ id c, g.conditional? id = some c -> c.hasBranch c.active ∧ g.Shows id c.active

variable {R : String -> String -> Prop} {g g' : Graph}

/-!
# What the check tells of the branches shown
-/

theorem mem_order_of_node? {id : String} {n : Node} (h : g.node? id = some n) :
    n ∈ g.order.filterMap g.node? := by
  obtain ⟨hn, hid⟩ := mem_of_node? h
  exact List.mem_filterMap.2 ⟨n.id, mem_order hn, hid ▸ h⟩

theorem node?_of_mem_order {n : Node} (h : n ∈ g.order.filterMap g.node?) :
    g.node? n.id = some n := by
  obtain ⟨id, -, hn⟩ := List.mem_filterMap.1 h
  rw [(mem_of_node? hn).2, hn]

theorem hasBranch_of_nodeProblems {keys seen : List String} {n : Node} {c : Conditional}
    (h : g.nodeProblems keys seen n = []) (hc : n.conditional? = some c) :
    c.hasBranch c.active := by
  obtain ⟨id, parent, content⟩ := n
  cases content with
  | start => cases hc
  | insertionMarker => cases hc
  | block heading b =>
      have hb : b.conditional? = some c := hc
      have hblock := (List.append_eq_nil_iff.1 h).2
      simp only [blockProblems, List.append_eq_nil_iff, Block.branchProblems, hb] at hblock
      by_contra hundeclared
      simp [hundeclared] at hblock

theorem edgeProblems_eq_nil {e : Edge} :
    g.edgeProblems e = [] <-> (g.contains e.source ∧ g.contains e.target) ∧
      ∀ t, e.tag = some t -> ∃ c, g.conditional? t.conditional = some c ∧
        c.hasBranch t.branch ∧ (e.hidden <-> t.branch ≠ c.active) := by
  unfold edgeProblems
  cases g.contains e.source with
  | false => simp
  | true =>
      cases g.contains e.target with
      | false => simp
      | true =>
          cases e.tag with
          | none => simp
          | some t =>
              cases hc : g.conditional? t.conditional with
              | none => simp [hc]
              | some c =>
                  cases hb : c.hasBranch t.branch with
                  | false => simp [hc, hb, Option.filter]
                  | true =>
                      cases hhidden : e.hidden <;>
                        simp [hc, hb, Option.filter, eq_comm (a := t.branch)]

theorem showsAll_of_problems {parameters : List Parameter} (h : g.problems parameters = []) :
    g.ShowsAll := by
  intro id c hc
  have hedges : ∀ e ∈ g.edges, g.edgeProblems e = [] := by
    simp only [problems, List.append_eq_nil_iff, List.flatMap_eq_nil_iff] at h
    exact h.1.2
  constructor
  · obtain ⟨n, hn, hnc⟩ := Option.bind_eq_some_iff.1 hc
    obtain ⟨before, hnone⟩ := nodeProblems_eq_nil (nodesProblems_eq_nil h) n (mem_order_of_node? hn)
    exact hasBranch_of_nodeProblems hnone hnc
  · intro e he b ht
    obtain ⟨c', hc', -, hhidden⟩ := (edgeProblems_eq_nil.1 (hedges e he)).2 _ ht
    cases hc.symm.trans hc'
    exact hhidden

/-!
# What the check reads
-/

section Read

variable (hR : Relator.BiUnique R) (h : g.Like R g')
include h

theorem labels_eq : g.labels = g'.labels :=
  filterMap_eq_of_forall₂ h.nodes fun _ _ hn => hn.label

theorem usesVault_eq (parameters : List Parameter) :
    g.usesVault parameters = g'.usesVault parameters :=
  any_eq_of_forall₂ h.nodes fun _ _ hn => any_eq_of_optionRel hn.block fun _ _ hb => by
    rw [Block.references_eq hb]

theorem reconcile_eq (parameters : List Parameter) :
    g.reconcile parameters = g'.reconcile parameters := by
  rw [reconcile, reconcile, usesVault_eq h]

include hR

theorem rel_conditional? {id id' : String} (hid : R id id') :
    Option.Rel (fun c c' : Conditional => c.branches = c'.branches)
      (g.conditional? id) (g'.conditional? id') :=
  optionRel_bind (rel_node? hR h hid) fun _ _ hn => hn.conditional

theorem rel_scopeOf? {id id' : String} (hid : R id id') :
    Option.Rel (Scope.Like R) (g.scopeOf? id) (g'.scopeOf? id') := by
  unfold scopeOf?
  have hnode := rel_node? hR h hid
  revert hnode
  generalize g.node? id = o, g'.node? id' = o'
  rintro (@⟨n, n', hn⟩ | _)
  case none => exact .none
  have hparent := hn.parent
  revert hparent
  dsimp only
  generalize n.parent = p, n'.parent = p'
  rintro (@⟨p, p', hp⟩ | _)
  case none => exact .some .root
  have hcontainer := rel_node? hR h hp
  revert hcontainer
  dsimp only
  generalize g.node? p = o, g'.node? p' = o'
  rintro (@⟨m, m', hm⟩ | _)
  case none => exact .none
  have hconditional := hm.conditional
  revert hconditional
  dsimp only
  generalize m.conditional? = o, m'.conditional? = o'
  rintro (@⟨c, c', hc⟩ | _)
  case none => exact .some ⟨.some hp, rfl⟩
  have hscopes : List.Forall₂ (Scope.Like R) (c.branchIds.map (Scope.ofBranch p))
      (c'.branchIds.map (Scope.ofBranch p')) := by
    rw [Conditional.branchIds, hc, Conditional.branchIds]
    refine List.forall₂_map_left_iff.2 (List.forall₂_map_right_iff.2 ?_)
    exact List.forall₂_same.2 fun b _ => ⟨.some hp, rfl⟩
  exact find?_of_forall₂ hscopes fun s s' hs =>
    contains_eq_of_rel hR (forall₂_chain_like hR h hs) hid

theorem isConnected_eq {id id' : String} (hid : R id id') :
    g.isConnected id = g'.isConnected id' :=
  any_eq_of_optionRel (rel_scopeOf? hR h hid) fun _ _ hs =>
    contains_eq_of_rel hR (forall₂_chain_like hR h hs) hid

end Read

/-!
# Cycles
-/

section Cycles

variable (hR : Relator.BiUnique R)
include hR

theorem forall₂_targets (h : g.Like R g') {id id' : String} (hid : R id id') :
    List.Forall₂ R (g.targets id) (g'.targets id') :=
  List.rel_map (fun _ _ he => he.target)
    (filter_of_forall₂ h.edges fun _ _ he => beq_eq_of_rel hR he.source hid)

/-- Both searches find a cycle, or both are done with ids that correspond. -/
theorem rel_search (h : g.Like R g') (path agenda done : List String) :
    ∀ {path' agenda' done' : List String}, List.Forall₂ R path path' ->
      List.Forall₂ R agenda agenda' -> List.Forall₂ R done done' ->
        Option.Rel (List.Forall₂ R) (g.search path agenda done) (g'.search path' agenda' done') := by
  induction path, agenda, done using search.induct g with
  | case1 path done =>
      intro path' agenda' done' _ hagenda hdone
      cases hagenda
      rw [search, search]
      exact .some hdone
  | case2 path done id rest hback =>
      intro path' agenda' done' hpath hagenda hdone
      obtain ⟨id', rest', hid, hrest, rfl⟩ := List.forall₂_cons_left_iff.1 hagenda
      rw [search, search, ← contains_eq_of_rel hR hpath hid, if_pos hback, if_pos hback]
      exact .none
  | case3 path done id rest hoff hmem ih =>
      intro path' agenda' done' hpath hagenda hdone
      obtain ⟨id', rest', hid, hrest, rfl⟩ := List.forall₂_cons_left_iff.1 hagenda
      rw [search, search, ← contains_eq_of_rel hR hpath hid, ← contains_eq_of_rel hR hdone hid,
        if_neg hoff, if_neg hoff, if_pos hmem, if_pos hmem]
      exact ih hpath hrest hdone
  | case4 path done id rest hoff hnew hbelow ih =>
      intro path' agenda' done' hpath hagenda hdone
      obtain ⟨id', rest', hid, hrest, rfl⟩ := List.forall₂_cons_left_iff.1 hagenda
      have hsearch := ih (.cons hid hpath) (forall₂_targets hR h hid) hdone
      rw [search, search, ← contains_eq_of_rel hR hpath hid, ← contains_eq_of_rel hR hdone hid,
        if_neg hoff, if_neg hoff, if_neg hnew, if_neg hnew]
      rw [hbelow] at hsearch ⊢
      cases hfound : g'.search (id' :: path') (g'.targets id') done' with
      | none => exact .none
      | some below =>
          rw [hfound] at hsearch
          cases hsearch
  | case5 path done id rest hoff hnew below hbelow ihbelow ih =>
      intro path' agenda' done' hpath hagenda hdone
      obtain ⟨id', rest', hid, hrest, rfl⟩ := List.forall₂_cons_left_iff.1 hagenda
      have hsearch := ihbelow (.cons hid hpath) (forall₂_targets hR h hid) hdone
      rw [search, search, ← contains_eq_of_rel hR hpath hid, ← contains_eq_of_rel hR hdone hid,
        if_neg hoff, if_neg hoff, if_neg hnew, if_neg hnew]
      rw [hbelow] at hsearch ⊢
      cases hfound : g'.search (id' :: path') (g'.targets id') done' with
      | none =>
          rw [hfound] at hsearch
          cases hsearch
      | some below' =>
          rw [hfound] at hsearch
          cases hsearch with
          | some hrel => exact ih hpath hrest (.cons hid hrel)

theorem hasCycle_eq (h : g.Like R g') : g.hasCycle = g'.hasCycle := by
  have hids : List.Forall₂ R (g.nodes.map Node.id) (g'.nodes.map Node.id) :=
    List.rel_map (fun _ _ hn => hn.id) h.nodes
  have hsearch := rel_search hR h [] _ [] .nil hids .nil
  rw [hasCycle, hasCycle]
  revert hsearch
  generalize g.search [] (g.nodes.map Node.id) [] = found
  generalize g'.search [] (g'.nodes.map Node.id) [] = found'
  rintro (_ | _) <;> rfl

end Cycles

/-!
# Problems
-/

section Problems

variable (hR : Relator.BiUnique R) (h : g.Like R g')
include hR h

theorem blockProblems_eq_nil {keys seen : List String} {heading : Heading} {id id' : String}
    {b b' : Block} (hid : R id id') (hb : b.reopened = b'.reopened)
    (hshown : ∀ c, b'.conditional? = some c -> c.hasBranch c.active)
    (hnone : g.blockProblems keys seen id heading b = []) :
    g'.blockProblems keys seen id' heading b' = [] := by
  cases hblank : Text.isBlank heading.label with
  | true => simp [blockProblems, hblank] at hnone
  | false =>
      simp only [blockProblems, hblank, Bool.false_eq_true, if_false, List.append_eq_nil_iff,
        labels_eq h, isConnected_eq hR h hid, Block.fieldProblems_eq hb,
        Block.referenceProblems_eq hb] at hnone ⊢
      exact ⟨⟨hnone.1.1, Block.branchProblems_eq_nil hb hshown hnone.1.2⟩, hnone.2⟩

theorem nodeProblems_eq_nil_of_like {keys seen : List String} {n n' : Node} (hn : n.Like R n')
    (hshown : ∀ c, n'.conditional? = some c -> c.hasBranch c.active)
    (hnone : g.nodeProblems keys seen n = []) : g'.nodeProblems keys seen n' = [] := by
  rw [nodeProblems, List.append_eq_nil_iff] at hnone ⊢
  constructor
  · have hparent := hn.parent
    have hnone := hnone.1
    revert hparent hnone
    unfold parentProblems
    generalize n.parent = p, n'.parent = p'
    rintro (hp | _) hnone
    · have hcontainer := any_eq_of_optionRel (rel_node? hR h hp) fun _ _ hm => hm.isContainer
      dsimp only at hnone ⊢
      split at hnone
      · next hany => rw [if_pos (hcontainer ▸ hany)]
      · cases hnone
    · rfl
  · have hnone := hnone.2
    rcases Content.cases_of_reopened hn.content with
      ⟨-, hc'⟩ | ⟨-, hc'⟩ | ⟨heading, b, b', hc, hc', hb⟩
    · rw [hc']
    · rw [hc']
    · rw [hc] at hnone
      rw [Node.conditional?, Node.block?, hc'] at hshown
      rw [hc']
      exact blockProblems_eq_nil hR h hn.id hb hshown hnone

theorem nodesProblems_eq_nil_of_like {keys : List String} {nodes nodes' : List Node}
    (hnodes : List.Forall₂ (Node.Like R) nodes nodes') : ∀ {seen : List String},
      (∀ n' ∈ nodes', ∀ c, n'.conditional? = some c -> c.hasBranch c.active) ->
      g.nodesProblems keys seen nodes = [] -> g'.nodesProblems keys seen nodes' = [] := by
  induction hnodes with
  | nil => exact fun _ _ => rfl
  | cons hn _ ih =>
      intro seen hshown hnone
      rw [nodesProblems, List.append_eq_nil_iff] at hnone ⊢
      refine ⟨nodeProblems_eq_nil_of_like hR h hn (hshown _ List.mem_cons_self) hnone.1, ?_⟩
      rw [← hn.label]
      exact ih (fun n' hn' => hshown n' (List.mem_cons_of_mem _ hn')) hnone.2

theorem edgeProblems_eq_nil_of_like {e e' : Edge} (he : e.Like R e') (hmem : e' ∈ g'.edges)
    (hshown : g'.ShowsAll) (hnone : g.edgeProblems e = []) : g'.edgeProblems e' = [] := by
  rw [edgeProblems_eq_nil] at hnone ⊢
  obtain ⟨hends, htag⟩ := hnone
  rw [contains_eq hR h he.source, contains_eq hR h he.target] at hends
  refine ⟨hends, fun t' ht' => ?_⟩
  have hrel := he.tag
  rw [ht'] at hrel
  obtain ⟨t, ht, htt⟩ := exists_of_optionRel_right hrel
  obtain ⟨c, hc, hdeclared, -⟩ := htag t ht
  have hconditional := rel_conditional? hR h htt.conditional
  rw [hc] at hconditional
  obtain ⟨c', hc', hbranches⟩ := exists_of_optionRel_left hconditional
  refine ⟨c', hc', ?_, (hshown _ _ hc').2 e' hmem t'.branch ht'⟩
  rw [Conditional.hasBranch, hbranches, htt.branch] at hdeclared
  exact hdeclared

/-- A graph like one without problems has none when all its conditionals are shown. -/
theorem problems_eq_nil_of_like {parameters : List Parameter} (hshown : g'.ShowsAll)
    (hnone : g.problems parameters = []) : g'.problems parameters = [] := by
  simp only [problems, List.append_eq_nil_iff, List.flatMap_eq_nil_iff] at hnone ⊢
  obtain ⟨⟨⟨hkeys, hnodes⟩, hedges⟩, hcycle⟩ := hnone
  refine ⟨⟨⟨hkeys, ?_⟩, fun e' he' => ?_⟩, hasCycle_eq hR h ▸ hcycle⟩
  · apply nodesProblems_eq_nil_of_like hR h (forall₂_nodes_in_order hR h) _ hnodes
    intro n' hn' c hc
    refine (hshown n'.id c ?_).1
    rw [conditional?, node?_of_mem_order hn', Option.bind_some, hc]
  · obtain ⟨e, he, hee⟩ := exists_of_forall₂ h.edges.flip he'
    exact edgeProblems_eq_nil_of_like hR h hee he' hshown (hedges e he)

/-- What is written down of a graph is written down of every graph like it that shows all its
conditionals. -/
theorem toDefinition?_of_like {f : FrontMatter} {d : Definition} (hshown : g'.ShowsAll)
    (hd : g.toDefinition? f = .ok d) : g'.toDefinition? f = .ok d := by
  obtain ⟨hnone, rfl⟩ := toDefinition?_eq_ok.1 hd
  refine toDefinition?_eq_ok.2 ⟨?_, ?_⟩
  · exact reconcile_eq h f.parameters ▸ problems_eq_nil_of_like hR h hshown hnone
  · rw [reconcile_eq h, descriptors_eq hR h .root]

end Problems
end Graph
end Workflow
