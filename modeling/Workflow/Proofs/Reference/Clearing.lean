import Workflow.Proofs.Reference.Referrers

/-!
# Graphs without some references

Clearing the references to several labels one label after another is the same as clearing them
at once.  The references that dangle are those to the labels that are missing.
-/

namespace Workflow

/-- The labels that some block of the graph refers to and none carries. -/
def Graph.missingLabels (g : Graph) : List String :=
  (g.contents.flatMap fun c => c.2.held.filterMap Reference.label?).filter fun l =>
    !g.labels.contains l

theorem Graph.not_mem_labels_of_missing {g : Graph} {l : String} (hl : l ∈ g.missingLabels) :
    l ∉ g.labels := by
  simpa using (List.mem_filter.1 hl).2

theorem Graph.nodes_pruneDangling {g : Graph} (hids : g.shape.ids.Nodup) :
    g.pruneDangling.nodes = g.nodes.map (Node.mapBlock (Block.without g.missingLabels)) := by
  rw [pruneDangling_eq_retainLabels hids, retainLabels]
  apply List.map_congr_left
  intro n hn
  apply Node.mapBlock_congr
  intro b hb
  rcases Node.block?_eq_some.1 hb with ⟨heading, hcarried⟩
  apply Block.retainLabels_eq_without
  intro r hr l hl
  have hreferred : l ∈ g.contents.flatMap fun c => c.2.held.filterMap Reference.label? :=
    List.mem_flatMap.2 ⟨_, mem_contents.2 ⟨n, hn, hcarried⟩, List.mem_filterMap.2 ⟨r, hr, hl⟩⟩
  exact Bool.eq_iff_iff.2 (by simp [missingLabels, List.mem_filter, hreferred])

theorem Graph.nodes_pruneAll (labels : List String) : ∀ {g : Graph}, g.shape.ids.Nodup ->
    (g.pruneAll labels).nodes = g.nodes.map (Node.mapBlock (Block.without labels)) := by
  induction labels with
  | nil =>
      intro g _
      rw [funext Block.without_nil, funext Node.mapBlock_id]
      exact (List.map_id _).symm
  | cons label labels ih =>
      intro g hids
      have hpruned : (g.prune label).nodes =
          g.nodes.map (Node.mapBlock (Block.without [label])) := by
        rw [prune_eq_retainLabels hids, retainLabels]
        simp only [Block.retainLabels_ne]
      have hids' : (g.prune label).shape.ids.Nodup := by
        rw [shape_prune]
        exact hids
      rw [pruneAll, List.foldl_cons, ← pruneAll, ih hids', hpruned, List.map_map]
      refine List.map_congr_left fun n _ => ?_
      simp only [Function.comp_apply, Node.mapBlock_mapBlock, Block.without_without,
        List.singleton_append]

end Workflow
