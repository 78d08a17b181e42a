import Workflow.Graph.Basic

/-!
# Cycles

Edges are searched depth first, from one node after another.  They form a cycle when an edge
leads back to an id of the path that the search has come along.
-/

namespace Workflow
namespace Graph

/-- The ids that the edges of an id lead to. -/
def targets (g : Graph) (id : String) : List String :=
  (g.edgesFrom id).map Edge.target

/-!
# What is left to enter
-/

/-- The edges that start at no id of a path. -/
def edgesOff (g : Graph) (path : List String) : List Edge :=
  g.edges.filter fun e => !path.contains e.source

theorem edgesOff_cons (g : Graph) (id : String) (path : List String) :
    g.edgesOff (id :: path) = (g.edgesOff path).filter fun e => e.source != id := by
  rw [edgesOff, edgesOff, List.filter_filter]
  congr 1
  funext e
  rw [List.contains_cons, Bool.not_or]
  rfl

theorem edgesOff_cons_length_le (g : Graph) (id : String) (path : List String) :
    (g.edgesOff (id :: path)).length <= (g.edgesOff path).length := by
  rw [edgesOff_cons]
  exact List.length_filter_le _ _

theorem edgesOff_cons_length_lt {g : Graph} {id : String} {path : List String}
    (hid : g.targets id ≠ []) (hnew : path.contains id = false) :
    (g.edgesOff (id :: path)).length < (g.edgesOff path).length := by
  obtain ⟨target, htarget⟩ := List.exists_mem_of_ne_nil _ hid
  obtain ⟨e, he, -⟩ := List.mem_map.1 htarget
  obtain ⟨hmem, hsource⟩ := List.mem_filter.1 he
  rw [beq_iff_eq] at hsource
  rw [edgesOff_cons, List.length_filter_lt_length_iff_exists]
  refine ⟨e, List.mem_filter.2 ⟨hmem, ?_⟩, ?_⟩
  · rw [hsource, hnew]
    rfl
  · simp [hsource]

/-- How often an agenda can still be looked at: each id that is entered gives its edges to the
agenda, and no edge is given twice on one path. -/
def searchLeft (g : Graph) (path agenda : List String) : Nat :=
  (g.edgesOff path).length * (g.edges.length + 1) + agenda.length

theorem searchLeft_lt {g : Graph} {path : List String} {id : String} (rest : List String)
    (hnew : path.contains id = false) :
    g.searchLeft (id :: path) (g.targets id) < g.searchLeft path (id :: rest) := by
  unfold searchLeft
  have htargets : (g.targets id).length <= g.edges.length := by
    rw [targets, List.length_map]
    exact List.length_filter_le _ _
  rw [List.length_cons]
  by_cases hid : g.targets id = []
  · have hoff := Nat.mul_le_mul_right (g.edges.length + 1) (edgesOff_cons_length_le g id path)
    rw [hid, List.length_nil]
    omega
  · have hoff := Nat.mul_le_mul_right (g.edges.length + 1) (edgesOff_cons_length_lt hid hnew)
    rw [Nat.succ_mul] at hoff
    omega

/-!
# The search
-/

/-- Goes from the ids of an agenda along every edge.  The path holds the ids that have led to
the agenda, the last one first, and `done` those from which every way has been gone to its end.
There is no answer when an edge leads back to the path. -/
def search (g : Graph) (path agenda done : List String) : Option (List String) :=
  match agenda with
  | [] => some done
  | id :: rest =>
      if path.contains id then none
      else if done.contains id then g.search path rest done
      else
        match g.search (id :: path) (g.targets id) done with
        | none => none
        | some below => g.search path rest (id :: below)
  termination_by g.searchLeft path agenda
  decreasing_by
    · exact Nat.lt_succ_self _
    · next hnew _ => exact searchLeft_lt rest (Bool.not_eq_true _ ▸ hnew)
    · exact Nat.lt_succ_self _

def hasCycle (g : Graph) : Bool :=
  (g.search [] (g.nodes.map Node.id) []).isNone

end Graph
end Workflow
