import Workflow.Proofs.Edit.Commuting
import Workflow.Proofs.Reference.Edit
import Workflow.Proofs.Reference.Renaming
import Workflow.Proofs.Run.Labels
import Workflow.Proofs.Tidy.Branching

/-!
# Relabelling a block

The references to the old label go along with the block, each in its own field, and no other
reference is touched.  Giving the block its old label back restores the graph when nothing
referred to the new one.
-/

namespace Workflow

/-!
# Relabelled nodes
-/

namespace Node

/-- The node with its label changed if it is the one that is relabelled, and with what it
refers to renamed in any case. -/
def relabel (id old new : String) (n : Node) : Node :=
  (if n.id = id then n.mapHeading fun h => { h with label := new } else n).mapBlock
    (Block.mapLabels (Label.moved old new))

variable {id old new : String} {n : Node}

theorem id_relabel : (n.relabel id old new).id = n.id := by
  unfold relabel
  rw [id_mapBlock]
  split
  · exact n.id_mapHeading _
  · rfl

theorem label?_relabel_of_ne (hid : n.id ≠ id) : (n.relabel id old new).label? = n.label? := by
  rw [relabel, if_neg hid, label?_mapBlock]

theorem label?_relabel_of_some {l : String} (hid : n.id = id) (hl : n.label? = some l) :
    (n.relabel id old new).label? = some new := by
  rw [relabel, if_pos hid, label?_mapBlock]
  rcases n with ⟨i, parent, content⟩
  cases content with
  | start => cases hl
  | insertionMarker => cases hl
  | block h b => rfl

theorem references_relabel (hnew : new ≠ "") : (n.relabel id old new).references =
    n.references.map fun x => (x.1, x.2.mapLabel (Label.moved old new)) := by
  have hmap : ∀ (h : Heading) (b : Block),
      (Node.mk n.id n.parent (.block h (b.mapLabels (Label.moved old new)))).references =
        (Node.mk n.id n.parent (.block h b)).references.map fun x =>
          (x.1, x.2.mapLabel (Label.moved old new)) := by
    intro h b
    simp only [references, block?]
    rw [Block.references_mapLabels (Label.moved_ne_empty hnew), List.map_map, List.map_map]
    rfl
  rcases n with ⟨i, parent, content⟩
  unfold relabel
  cases content with
  | start => split <;> rfl
  | insertionMarker => split <;> rfl
  | block h b =>
      split
      · exact hmap _ b
      · exact hmap h b

theorem relabel_relabel (hnew : new ≠ "") (hlabel : n.id = id -> n.label? = some old)
    (hfree : ∀ b, n.block? = some b -> b.dependsOn new = false) :
    (n.relabel id old new).relabel id new old = n := by
  have hback : ∀ b, n.block? = some b ->
      (b.mapLabels (Label.moved old new)).mapLabels (Label.moved new old) = b := by
    intro b hb
    rw [Block.mapLabels_mapLabels (Label.moved_ne_empty hnew), Block.mapLabels_eq_self]
    intro r hr l hl
    apply Label.moved_moved
    intro heq
    have hdepends := Block.dependsOn_iff.2 ⟨r, hr, heq ▸ hl⟩
    rw [hfree b hb] at hdepends
    cases hdepends
  rcases n with ⟨i, parent, content⟩
  cases content with
  | start => by_cases hid : i = id <;> simp [relabel, mapHeading, mapBlock, hid]
  | insertionMarker => by_cases hid : i = id <;> simp [relabel, mapHeading, mapBlock, hid]
  | block h b =>
      have hb := hback b rfl
      by_cases hid : i = id
      · have hold : h.label = old := Option.some.inj (hlabel hid)
        subst hold
        simp [relabel, mapHeading, mapBlock, hid, hb]
      · simp [relabel, mapBlock, hid, hb]

end Node

namespace Graph

variable {g : Graph}

/-!
# The nodes afterwards
-/

section Nodes

variable (hids : (g.nodes.map Node.id).Nodup)
include hids

theorem mem_referrers_of_block? {n : Node} {b : Block} (hn : n ∈ g.nodes) (hb : n.block? = some b)
    (label : String) : n.id ∈ g.referrers label <-> b.dependsOn label := by
  rw [mem_referrers]
  constructor
  · intro h
    rcases h with ⟨m, hm, hid, b', hb', hdepends⟩
    have hsame : m = n := List.inj_on_of_nodup_map hids hm hn hid
    rw [hsame, hb] at hb'
    cases hb'
    exact hdepends
  · intro h
    exact ⟨n, hn, rfl, b, hb, h⟩

theorem nodes_repoint (old new : String) : (g.repoint old new).nodes =
    g.nodes.map (Node.mapBlock (Block.mapLabels (Label.moved old new))) := by
  rw [repoint, nodes_modifyBlocks hids (nodup_referrers g old)]
  apply List.map_congr_left
  intro n hn
  cases hb : n.block? with
  | none => simp only [Node.mapBlock_of_none hb, ite_self]
  | some b =>
      split
      · next hrefers =>
          have hdepends := (mem_referrers_of_block? hids hn hb old).1 hrefers
          apply Node.mapBlock_congr
          intro b' hb'
          cases hb.symm.trans hb'
          exact Block.renameLabel_eq_mapLabels new hdepends
      · next hnot =>
          have hdepends : b.dependsOn old = false := by
            rw [← Bool.not_eq_true]
            exact fun h => hnot ((mem_referrers_of_block? hids hn hb old).2 h)
          apply (Node.mapBlock_id n).symm.trans
          apply Node.mapBlock_congr
          intro b' hb'
          cases hb.symm.trans hb'
          exact (Block.mapLabels_moved_eq_self new hdepends).symm

end Nodes

/-!
# The edit
-/

/-- One block of the graph has a new label, and what referred to the old one refers to it. -/
structure Relabels (g : Graph) (id old new : String) (g' : Graph) : Prop where
  nodes : g'.nodes = g.nodes.map (Node.relabel id old new)
  edges : g'.edges = g.edges
  listed : g'.listed = g.listed.map fun x => (x.1, x.2.mapLabel (Label.moved old new))
  vacated : g'.referenceTable.get? old = none
  united : ∀ place, place ∈ (g'.referenceTable.get? new).getD [] <->
    place ∈ (g.referenceTable.get? old).getD [] ∨ place ∈ (g.referenceTable.get? new).getD []
  others : ∀ l, l ≠ old -> l ≠ new -> g'.referenceTable.get? l = g.referenceTable.get? l

theorem relabels_of_nodes {g' : Graph} {id old new : String} (hnew : new ≠ "") (hne : new ≠ old)
    (hnodes : g'.nodes = g.nodes.map (Node.relabel id old new)) (hedges : g'.edges = g.edges) :
    g.Relabels id old new g' := by
  have hlisted : g'.listed =
      g.listed.map fun x => (x.1, x.2.mapLabel (Label.moved old new)) := by
    rw [listed, hnodes, List.flatMap_map, listed, List.map_flatMap]
    apply List.flatMap_congr
    intro n _
    exact Node.references_relabel hnew
  have hdependents : ∀ {l : String} {place : Place}, place ∈ g'.dependents l <->
      ∃ x ∈ g.listed, (∃ m, x.2.label? = some m ∧ Label.moved old new m = l) ∧ x.1 = place := by
    intro l place
    simp only [dependents, hlisted, List.mem_map, List.mem_filter, decide_eq_true_eq,
      exists_exists_and_eq_and, Reference.label?_mapLabel, Option.map_eq_some_iff, and_assoc]
  constructor
  · exact hnodes
  · exact hedges
  · exact hlisted
  · rw [get?_referenceTable_eq_none, hlisted]
    intro x hx hl
    rcases List.mem_map.1 hx with ⟨y, hy, rfl⟩
    rw [Reference.label?_mapLabel, Option.map_eq_some_iff] at hl
    rcases hl with ⟨m, -, hmoved⟩
    rcases Label.moved_eq_iff.1 hmoved with ⟨-, hsame⟩ | ⟨hother, hsame⟩
    · exact hne hsame
    · exact hother hsame
  · intro place
    simp only [mem_get?_referenceTable, hdependents, Label.moved_eq_iff]
    simp only [dependents, List.mem_map, List.mem_filter, decide_eq_true_eq]
    constructor
    · intro h
      rcases h with ⟨x, hx, ⟨m, hm, ⟨rfl, -⟩ | ⟨-, rfl⟩⟩, hplace⟩
      · exact Or.inl ⟨x, ⟨hx, hm⟩, hplace⟩
      · exact Or.inr ⟨x, ⟨hx, hm⟩, hplace⟩
    · intro h
      rcases h with ⟨x, ⟨hx, hm⟩, hplace⟩ | ⟨x, ⟨hx, hm⟩, hplace⟩
      · exact ⟨x, hx, ⟨old, hm, Or.inl ⟨rfl, trivial⟩⟩, hplace⟩
      · exact ⟨x, hx, ⟨new, hm, Or.inr ⟨hne, rfl⟩⟩, hplace⟩
  · intro l hold hother
    have hsame : g'.dependents l = g.dependents l := by
      rw [dependents, hlisted, List.filter_map, List.map_map, dependents]
      apply congrArg
      apply List.filter_congr
      intro x _
      simp only [Function.comp_apply, Reference.label?_mapLabel, decide_eq_decide,
        Option.map_eq_some_iff, Label.moved_eq_iff]
      constructor
      · intro h
        rcases h with ⟨m, hm, ⟨-, hnew⟩ | ⟨-, rfl⟩⟩
        · exact absurd hnew.symm hother
        · exact hm
      · intro h
        exact ⟨l, h, Or.inr ⟨hold, rfl⟩⟩
    rw [get?_referenceTable, get?_referenceTable, hsame]

section Relabel

variable {id old label : String}

theorem relabel_eq_repoint (hold : (g.node? id).bind Node.label? = some old)
    (hblank : Text.trim label ≠ "") (hne : Text.trim label ≠ old)
    (hfree : Text.trim label ∉ g.labels) : g.relabel id label =
      (g.modifyNode id (Node.mapHeading fun h => { h with label := Text.trim label })).repoint
        old (Text.trim label) := by
  have hfound : (g.findByLabel? (Text.trim label)).isSome = false := by
    rw [Option.isSome_eq_false_iff, Option.isNone_iff_eq_none]
    apply List.find?_eq_none.2
    intro n hn hlabel
    exact hfree (List.mem_filterMap.2 ⟨n, hn, eq_of_beq hlabel⟩)
  have hkept : (old == Text.trim label) = false := beq_eq_false_iff_ne.2 fun h => hne h.symm
  rw [relabel, hold]
  simp [hblank, hkept, hfound]

theorem relabel_eq_self (h : ∀ old, (g.node? id).bind Node.label? = some old ->
      Text.trim label = "" ∨ Text.trim label = old ∨ Text.trim label ∈ g.labels) :
    g.relabel id label = g := by
  rw [relabel]
  cases hold : (g.node? id).bind Node.label? with
  | none => rfl
  | some old =>
      dsimp only
      rw [if_pos]
      rw [Bool.or_eq_true, Bool.or_eq_true, beq_iff_eq]
      rcases h old hold with hblank | hsame | htaken
      · exact Or.inl (Or.inl (by rw [hblank]; rfl))
      · exact Or.inl (Or.inr hsame.symm)
      · rcases List.mem_filterMap.1 htaken with ⟨n, hn, hlabel⟩
        exact Or.inr (List.find?_isSome.2 ⟨n, hn, beq_iff_eq.2 hlabel⟩)

variable (hids : (g.nodes.map Node.id).Nodup) (hold : (g.node? id).bind Node.label? = some old)
  (hblank : Text.trim label ≠ "") (hne : Text.trim label ≠ old)
  (hfree : Text.trim label ∉ g.labels)
include hids hold hblank hne hfree

theorem nodes_relabel :
    (g.relabel id label).nodes = g.nodes.map (Node.relabel id old (Text.trim label)) := by
  have hids' : ((g.modifyNode id (Node.mapHeading fun h =>
      { h with label := Text.trim label })).nodes.map Node.id).Nodup := by
    rw [← ids_shape, shape_mapHeading, ids_shape]
    exact hids
  rw [relabel_eq_repoint hold hblank hne hfree, nodes_repoint hids', nodes_modifyNode hids,
    List.map_map]
  rfl

theorem label_relabel (hlabels : g.labels.Nodup) :
    ((g.relabel id label).node? id).bind Node.label? = some (Text.trim label) ∧
      old ∉ (g.relabel id label).labels := by
  have hnodes := nodes_relabel hids hold hblank hne hfree
  rcases Option.bind_eq_some_iff.1 hold with ⟨n, hnode, hlabel⟩
  rcases mem_of_node? hnode with ⟨hn, hid⟩
  have hids' : (g.relabel id label).shape.ids.Nodup := by
    rw [shape_relabel, ids_shape]
    exact hids
  constructor
  · have hn' : n.relabel id old (Text.trim label) ∈ (g.relabel id label).nodes := by
      rw [hnodes]
      exact List.mem_map_of_mem hn
    have hnode' := node?_eq_some hids' hn'
    rw [Node.id_relabel, hid] at hnode'
    rw [hnode', Option.bind_some, Node.label?_relabel_of_some hid hlabel]
  · intro hmem
    rcases List.mem_filterMap.1 hmem with ⟨m', hm', hlabel'⟩
    rw [hnodes] at hm'
    rcases List.mem_map.1 hm' with ⟨m, hm, rfl⟩
    by_cases hsame : m.id = id
    · have hnm : m = n := List.inj_on_of_nodup_map hids hm hn (hsame.trans hid.symm)
      rw [Node.label?_relabel_of_some hsame (hnm ▸ hlabel)] at hlabel'
      exact hne (Option.some.inj hlabel')
    · rw [Node.label?_relabel_of_ne hsame] at hlabel'
      exact hsame (eq_of_nodup_filterMap hlabels hm hn hlabel' hlabel ▸ hid)

theorem relabel_relabel (hlabels : g.labels.Nodup)
    (hunused : g.referenceTable.get? (Text.trim label) = none) (hnonempty : old ≠ "")
    (htrim : Text.trim old = old) : (g.relabel id label).relabel id old = g := by
  have hnodes := nodes_relabel hids hold hblank hne hfree
  rcases label_relabel hids hold hblank hne hfree hlabels with ⟨hold', hfree'⟩
  have hids' : ((g.relabel id label).nodes.map Node.id).Nodup := by
    rw [← ids_shape, shape_relabel, ids_shape]
    exact hids
  have hblank' : Text.trim old ≠ "" := by rwa [htrim]
  have hne' : Text.trim old ≠ Text.trim label := by
    rw [htrim]
    exact fun h => hne h.symm
  have hfree'' : Text.trim old ∉ (g.relabel id label).labels := by rwa [htrim]
  apply ext
  · rw [nodes_relabel hids' hold' hblank' hne' hfree'', hnodes, htrim, List.map_map]
    apply (List.map_congr_left _).trans (List.map_id g.nodes)
    intro n hn
    apply Node.relabel_relabel hblank
    · intro hid
      rcases Option.bind_eq_some_iff.1 hold with ⟨m, hm, hlabel⟩
      rcases mem_of_node? hm with ⟨hmem, hmid⟩
      have hnm : n = m := List.inj_on_of_nodup_map hids hn hmem (hid.trans hmid.symm)
      exact hnm ▸ hlabel
    · intro b hb
      rw [Bool.eq_false_iff]
      intro hdepends
      rcases List.any_eq_true.1 hdepends with ⟨x, hx, hl⟩
      have hmem : (⟨n.id, x.1⟩, x.2) ∈ g.listed := by
        apply List.mem_flatMap.2
        refine ⟨n, hn, ?_⟩
        rw [Node.references, hb]
        exact List.mem_map_of_mem hx
      exact get?_referenceTable_eq_none.1 hunused _ hmem (eq_of_beq hl)
  · rw [edges_relabel, edges_relabel]

end Relabel

/-- Relabelling a block takes every reference to it along and can be undone; where the new
label is blank, taken or the old one, nothing happens. -/
theorem relabels_relabel (hids : (g.nodes.map Node.id).Nodup) (hlabels : g.labels.Nodup)
    (id label : String) :
    (∀ old, (g.node? id).bind Node.label? = some old -> Text.trim label ≠ "" ->
      Text.trim label ≠ old -> Text.trim label ∉ g.labels ->
        g.Relabels id old (Text.trim label) (g.relabel id label) ∧
          (g.referenceTable.get? (Text.trim label) = none -> old ≠ "" -> Text.trim old = old ->
            (g.relabel id label).relabel id old = g)) ∧
      ((∀ old, (g.node? id).bind Node.label? = some old ->
        Text.trim label = "" ∨ Text.trim label = old ∨ Text.trim label ∈ g.labels) ->
          g.relabel id label = g) := by
  constructor
  · intro old hold hblank hne hfree
    constructor
    · exact relabels_of_nodes hblank hne (nodes_relabel hids hold hblank hne hfree)
        (edges_relabel g id label)
    · intro hunused hnonempty htrim
      exact relabel_relabel hids hold hblank hne hfree hlabels hunused hnonempty htrim
  · exact relabel_eq_self

/-- One label is the ending of the key of another, and the relabelled block refers to itself. -/
def nestedLabels : Graph where
  nodes :=
    [⟨"#1", none, .start⟩,
      ⟨"#2", none, .block ⟨"a", true, none⟩
        (.leaf (.code { parameterKeys := ["a_output", "name", "a_output_output"] }))⟩,
      ⟨"#3", none, .block ⟨"a_output", false, none⟩ (.loop { loopOver := some "a_output" })⟩,
      ⟨"#4", none, .block ⟨"c", false, some "m"⟩ (.conditional
        { branches := [{ id := "x", label := "If", mergeLabel := some "a" },
            { id := "y", label := "Else", mergeLabel := some "c" }],
          active := "x" })⟩]
  edges := [⟨"e1", "#1", "#2", .plain, none, false⟩]

theorem relabels_relabel_nestedLabels :
    nestedLabels.Relabels "#2" "a" "b" (nestedLabels.relabel "#2" " b ") ∧
      (nestedLabels.relabel "#2" " b ").relabel "#2" "a" = nestedLabels ∧
      nestedLabels.relabel "#2" " c " = nestedLabels := by
  have hids : (nestedLabels.nodes.map Node.id).Nodup := by decide
  have hlabels : nestedLabels.labels.Nodup := by decide
  have htrim : Text.trim " b " = "b" := by decide +kernel
  have hrelabels := (relabels_relabel hids hlabels "#2" " b ").1 "a" (by decide)
    (by decide +kernel) (by decide +kernel) (by decide +kernel)
  rw [htrim] at hrelabels
  constructor
  · exact hrelabels.1
  · constructor
    · exact hrelabels.2 (by decide +kernel) (by decide) (by decide +kernel)
    · apply (relabels_relabel hids hlabels "#2" " c ").2
      intro old _
      exact Or.inr (Or.inr (by decide +kernel))

end Graph
end Workflow
