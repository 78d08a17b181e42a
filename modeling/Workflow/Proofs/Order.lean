import Workflow.Graph.Order
import Workflow.Proofs.Shape.Chain

/-!
# Orders of graphs

The order of a graph lists every node, also those that no chain reaches.
-/

namespace Workflow
namespace Graph

variable {g : Graph}

/-!
# Ids that are added once
-/

theorem mem_foldl_append {id : String} (ids : List String) : ∀ order : List String,
    id ∈ ids.foldl (fun order id => if order.contains id then order else order ++ [id]) order <->
      id ∈ order ∨ id ∈ ids := by
  induction ids with
  | nil => simp
  | cons i ids ih =>
      intro order
      have hstep : id ∈ (if order.contains i then order else order ++ [i]) <->
          id ∈ order ∨ id = i := by
        split
        · next hi =>
            constructor
            · exact Or.inl
            · intro h
              rcases h with h | h
              · exact h
              · exact h ▸ List.contains_iff_mem.1 hi
        · simp
      rw [List.foldl_cons, ih, hstep, List.mem_cons, or_assoc]

theorem nodup_foldl_append (ids : List String) : ∀ order : List String, order.Nodup ->
    (ids.foldl (fun order id => if order.contains id then order else order ++ [id])
      order).Nodup := by
  induction ids with
  | nil => exact fun order h => h
  | cons id rest ih =>
      intro order h
      apply ih
      dsimp only
      split
      · exact h
      · next hnew =>
          rw [← List.concat_eq_append, List.nodup_concat]
          exact ⟨fun hmem => hnew (List.contains_iff_mem.2 hmem), h⟩

/-!
# Nodes in the order
-/

theorem mem_order {n : Node} (hn : n ∈ g.nodes) : n.id ∈ g.order :=
  (mem_foldl_append _ _).2 (Or.inr (List.mem_map_of_mem hn))

theorem mem_nodes_in_order (hids : g.shape.ids.Nodup) {n : Node} (hn : n ∈ g.nodes) :
    n ∈ g.order.filterMap g.node? :=
  List.mem_filterMap.2 ⟨n.id, mem_order hn, node?_eq_some hids hn⟩

end Graph
end Workflow
