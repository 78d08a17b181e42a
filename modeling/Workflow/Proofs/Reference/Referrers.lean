import Workflow.Proofs.Contents
import Workflow.Proofs.Order
import Workflow.Proofs.Reference.Dependents
import Workflow.Proofs.Reference.Without
import Workflow.Proofs.Table

/-!
# The nodes that refer to a label

The blocks that an edit of references changes are looked up first, in the table of references or
among what dangles.  All others refer to nothing that the edit is about, so the edit does the same
as one that goes through all nodes.
-/

namespace Workflow

theorem Place.mem_ids {places : List Place} {id : String} :
    id ∈ Place.ids places <-> ∃ p ∈ places, p.node = id := by
  rw [ids, Table.mem_keys_ofList_ids, List.mem_map]

theorem Place.nodup_ids (places : List Place) : (Place.ids places).Nodup :=
  Table.nodup_keys _

/-!
# Blocks that depend on a label
-/

def Block.dependsOn (b : Block) (label : String) : Bool :=
  b.references.any fun r => r.2.label? == some label

theorem Block.dependsOn_iff {b : Block} {label : String} :
    b.dependsOn label <-> ∃ r ∈ b.held, r.label? = some label := by
  rw [dependsOn, List.any_eq_true, ← b.map_references]
  simp only [beq_iff_eq, List.mem_map, exists_exists_and_eq_and]

theorem Block.retainLabels_eq_self {keep : String -> Bool} {b : Block}
    (h : ∀ r ∈ b.held, ∀ l, r.label? = some l -> keep l = true) : (b.retainLabels keep).1 = b := by
  have hnone : (b.retainLabels keep).1 = b.without [] :=
    retainLabels_eq_without fun r hr l hl => h r hr l hl
  rw [hnone, without_nil]

namespace Graph

variable {g : Graph}

/-!
# Who refers to a label
-/

theorem mem_dependents {label id : String} :
    (∃ p ∈ g.dependents label, p.node = id) <->
      ∃ n ∈ g.nodes, n.id = id ∧ ∃ b, n.block? = some b ∧ b.dependsOn label := by
  simp only [dependents, listed, List.mem_map, List.mem_filter, List.mem_flatMap]
  constructor
  · intro h
    rcases h with ⟨-, ⟨⟨place, r⟩, ⟨⟨n, hn, hr⟩, hl⟩, rfl⟩, hid⟩
    cases hb : n.block? with
    | none => simp [Node.references, hb] at hr
    | some b =>
        simp only [Node.references, hb, List.mem_map] at hr
        rcases hr with ⟨x, hx, heq⟩
        cases heq
        refine ⟨n, hn, hid, b, hb, List.any_eq_true.2 ⟨x, hx, ?_⟩⟩
        exact beq_iff_eq.2 (of_decide_eq_true hl)
  · intro h
    rcases h with ⟨n, hn, hid, b, hb, hdepends⟩
    rcases List.any_eq_true.1 hdepends with ⟨x, hx, hl⟩
    refine ⟨⟨n.id, x.1⟩, ⟨(⟨n.id, x.1⟩, x.2), ⟨⟨n, hn, ?_⟩, ?_⟩, rfl⟩, hid⟩
    · simp only [Node.references, hb]
      exact List.mem_map_of_mem hx
    · exact decide_eq_true (beq_iff_eq.1 hl)

theorem mem_referrers {label id : String} :
    id ∈ g.referrers label <->
      ∃ n ∈ g.nodes, n.id = id ∧ ∃ b, n.block? = some b ∧ b.dependsOn label := by
  rw [referrers, Place.mem_ids, ← mem_dependents]
  simp only [mem_get?_referenceTable]

theorem nodup_referrers (g : Graph) (label : String) : (g.referrers label).Nodup :=
  Place.nodup_ids _

theorem mem_dangling (hids : g.shape.ids.Nodup) {l : String} {place : Place} :
    (l, place) ∈ g.dangling <->
      ∃ n ∈ g.nodes, ∃ b, n.block? = some b ∧ ∃ field r, (field, r) ∈ b.references ∧
        r.label? = some l ∧ l ∉ g.labels ∧ place = ⟨n.id, field⟩ := by
  simp only [dangling, List.mem_flatMap]
  constructor
  · rintro ⟨id, -, hmem⟩
    cases hblock : g.block? id with
    | none => simp [hblock] at hmem
    | some b =>
        obtain ⟨n, hnode, hb⟩ := Option.bind_eq_some_iff.1 hblock
        obtain ⟨hn, rfl⟩ := mem_of_node? hnode
        rw [hblock] at hmem
        obtain ⟨⟨field, r⟩, hr, hfound⟩ := List.mem_filterMap.1 hmem
        cases hl : r.label? with
        | none => simp [hl] at hfound
        | some label =>
            simp only [hl, List.contains_iff_mem, Option.ite_none_left_eq_some,
              Option.some.injEq, Prod.mk.injEq] at hfound
            obtain ⟨hnot, rfl, rfl⟩ := hfound
            exact ⟨n, hn, b, hb, field, r, hr, hl, hnot, rfl⟩
  · rintro ⟨n, hn, b, hb, field, r, hr, hl, hnot, rfl⟩
    have hblock : g.block? n.id = some b := by
      rw [block?, node?_eq_some hids hn, Option.bind_some, hb]
    refine ⟨n.id, mem_order hn, ?_⟩
    rw [hblock]
    refine List.mem_filterMap.2 ⟨(field, r), hr, ?_⟩
    simp [hl, hnot]

/-!
# Clearing in every block
-/

/-- The graph with only some labels kept in the references of every block. -/
def retainLabels (g : Graph) (keep : String -> Bool) : Graph :=
  { g with nodes := g.nodes.map (Node.mapBlock fun b => (b.retainLabels keep).1) }

theorem contents_retainLabels (g : Graph) (keep : String -> Bool) :
    (g.retainLabels keep).contents = g.contents.map fun c => (c.1, (c.2.retainLabels keep).1) := by
  rw [contents, retainLabels, contents, contentsOf, contentsOf, List.filterMap_map,
    List.map_filterMap]
  congr 1
  funext n
  rcases n with ⟨id, parent, content⟩
  cases content <;> rfl

section Visited

variable (hids : g.shape.ids.Nodup)
include hids

/-- To look only at some blocks is enough when all others have nothing that must go. -/
theorem modifyBlocks_eq_retainLabels {keep : String -> Bool} {ids : List String}
    (hnodup : ids.Nodup)
    (hrest : ∀ n ∈ g.nodes, n.id ∉ ids -> ∀ b, n.block? = some b ->
      ∀ r ∈ b.held, ∀ l, r.label? = some l -> keep l = true) :
    g.modifyBlocks ids (fun b => (b.retainLabels keep).1) = g.retainLabels keep := by
  have hnodes : (g.modifyBlocks ids fun b => (b.retainLabels keep).1).nodes =
      (g.retainLabels keep).nodes := by
    rw [nodes_modifyBlocks (ids_shape g ▸ hids) hnodup, retainLabels]
    apply List.map_congr_left
    intro n hn
    by_cases hid : n.id ∈ ids
    · rw [if_pos hid]
    · rw [if_neg hid]
      apply (Node.mapBlock_id n).symm.trans
      apply Node.mapBlock_congr
      intro b hb
      exact (Block.retainLabels_eq_self (hrest n hn hid b hb)).symm
  exact congr (congrArg Graph.mk hnodes) (edges_modifyBlocks _ ids g)

theorem prune_eq_retainLabels (label : String) :
    g.prune label = g.retainLabels fun l => l != label := by
  apply modifyBlocks_eq_retainLabels hids (Place.nodup_ids _)
  intro n hn hid b hb r hr l hl
  rw [bne_iff_ne]
  intro heq
  apply hid
  exact mem_referrers.2 ⟨n, hn, rfl, b, hb, Block.dependsOn_iff.2 ⟨r, hr, heq ▸ hl⟩⟩

theorem pruneDangling_eq_retainLabels : g.pruneDangling = g.retainLabels g.labels.contains := by
  apply modifyBlocks_eq_retainLabels hids (Place.nodup_ids _)
  intro n hn hid b hb r hr l hl
  rw [List.contains_iff_mem]
  by_contra hnot
  apply hid
  -- a label that is missing dangles at the field that holds it, so the node was looked up
  rw [← b.map_references] at hr
  rcases List.mem_map.1 hr with ⟨⟨field, r⟩, hmem, rfl⟩
  have hdangling := (mem_dangling hids).2 ⟨n, hn, b, hb, field, r, hmem, hl, hnot, rfl⟩
  exact Place.mem_ids.2 ⟨_, List.mem_map_of_mem hdangling, rfl⟩

end Visited
end Graph
end Workflow
