import Workflow.Proofs.Run.Restored

/-!
# The kinds of edges

Insertions, bodies, new branches and imports each set the kinds of their edges, and where a block is
removed an edge takes the kind of another.  On a run without edges of a forced kind the kind of
every edge follows from its tag and from the node that it leads to.
-/

namespace Workflow

/-- An edge of a branch has a tag.  Of the others those are plain that lead to an insertion
marker. -/
def EdgeKind.following (tag : Option BranchTag) (target : Node) : EdgeKind :=
  if tag.isSome then .branch
  else if target.isInsertionMarker then .plain
  else .insertable

namespace Graph

variable {g : Graph} {run : Scope -> List String}

/-- An edge of a tidy graph is of the kind that the editor would give to a new edge beside it. -/
theorem Tidy.kind_eq_kindInto (ht : g.Tidy) (h : g.shape.Laid run) {e : Edge} (he : e ∈ g.edges) :
    e.kind = g.kindInto e.target e.tag := by
  have hruled := ht.ruled e he
  have hnew := ruled_kindInto h.distinct (h.target_mem (link_mem he))
    (fun hnone => ((Edge.ruled_of_untagged hnone).1 hruled).1) e.id e.source
  exact hnew.kind_eq hruled h.distinct rfl rfl

theorem exists_target (h : g.shape.Laid run) {e : Edge} (he : e ∈ g.edges) :
    ∃ n, g.node? e.target = some n := by
  rcases List.mem_map.1 (h.target_mem (link_mem he)) with ⟨x, hx, hid⟩
  rcases mem_slots.1 hx with ⟨n, hn, rfl⟩
  have hnode := node?_eq_some h.distinct hn
  rw [← Node.slot_id, hid] at hnode
  exact ⟨n, hnode⟩

end Graph

namespace Draft

variable {d : Draft}

/-- Every edge leads to a node and is of the kind that follows from its tag and that node. -/
theorem kind_eq_following (h : d.ReachableUnforced) :
    ∀ e ∈ d.graph.edges, ∃ n, d.graph.node? e.target = some n ∧ e.kind = .following e.tag n := by
  intro e he
  rcases h.reachable.laid with ⟨run, hlaid⟩
  rcases Graph.exists_target hlaid.shape he with ⟨n, hnode⟩
  have hkind := h.tidy.kind_eq_kindInto hlaid.shape he
  rw [Graph.kindInto, hnode, Option.any_some] at hkind
  exact ⟨n, hnode, hkind⟩

/-- Behind a conditional with a block on its second branch the last block is removed, so the edge to
it leads to the marker. -/
def shortenedCommands : List (String × Command) :=
  [("block", .addNode .conditional ⟨some "#1", some "#2", none, none⟩),
    ("block", .addNode .wait ⟨some "#4", some "#5", some "#3", some "branch_2"⟩),
    ("block", .addNode .code ⟨some "#3", some "#2", none, none⟩),
    ("block", .deleteNode "#7")]

theorem kind_eq_following_shortened :
    ((emptyState {}).applyAll shortenedCommands).ReachableUnforced ∧
      ((emptyState {}).applyAll shortenedCommands).graph.edges.map
          (fun e => (e.source, e.target, e.kind)) =
        [("#4", "#5", .branch), ("#1", "#3", .insertable), ("#4", "#6", .branch),
          ("#6", "#5", .branch), ("#3", "#2", .plain)] ∧
      ∀ e ∈ ((emptyState {}).applyAll shortenedCommands).graph.edges,
        ∃ n, ((emptyState {}).applyAll shortenedCommands).graph.node? e.target = some n ∧
          e.kind = .following e.tag n := by
  have hreachable : ((emptyState {}).applyAll shortenedCommands).ReachableUnforced :=
    ⟨emptyState {}, shortenedCommands, Or.inl ⟨{}, rfl⟩, by decide, rfl⟩
  exact ⟨hreachable, by decide +kernel, kind_eq_following hreachable⟩

end Draft
end Workflow
