import Workflow.Graph.Chain

/-!
# Graph order

The order of a graph lists its ids along the chains: an id is followed by the chains
inside it, and those by the id that comes after it.  An id is listed where it is met
first; nodes that no chain reaches come last, in the order of the arena.
-/

namespace Workflow
namespace Graph

/-!
# What is left to visit
-/

def unlisted (g : Graph) (order : List String) : List Node :=
  g.nodes.filter fun n => !order.contains n.id

theorem unlisted_append_sublist (g : Graph) (order : List String) (id : String) :
    (g.unlisted (order ++ [id])).Sublist (g.unlisted order) := by
  have h : g.unlisted (order ++ [id]) =
      (g.unlisted order).filter fun n => !(order ++ [id]).contains n.id := by
    simp only [unlisted, List.filter_filter]
    congr 1
    funext n
    cases hn : order.contains n.id <;> simp_all
  rw [h]
  exact List.filter_sublist

theorem unlisted_append_length_le (g : Graph) (order : List String) (id : String) :
    (g.unlisted (order ++ [id])).length <= (g.unlisted order).length :=
  (unlisted_append_sublist g order id).length_le

theorem unlisted_append_length_lt {g : Graph} {order : List String} {id : String}
    (hid : id ∈ g.nodes.map Node.id) (hnew : order.contains id = false) :
    (g.unlisted (order ++ [id])).length < (g.unlisted order).length := by
  apply Nat.lt_of_le_of_ne (unlisted_append_length_le g order id)
  intro heq
  have hsame := (unlisted_append_sublist g order id).eq_of_length heq
  obtain ⟨n, hn, rfl⟩ := List.mem_map.1 hid
  have hmem : n ∈ g.unlisted order :=
    List.mem_filter.2 ⟨hn, by simp_all⟩
  rw [← hsame] at hmem
  have := (List.mem_filter.1 hmem).2
  simp at this

theorem bodyIds_eq_nil {g : Graph} {id : String} (h : id ∉ g.nodes.map Node.id) :
    g.bodyIds id = [] := by
  have hnone : g.node? id = none := by
    apply List.find?_eq_none.2
    intro n hn heq
    exact h (List.mem_map.2 ⟨n, List.mem_reverse.1 hn, by simpa using heq⟩)
  simp [bodyIds, block?, hnone]

/-- The ids inside all containers. -/
def nested (g : Graph) : List String :=
  (g.nodes.map fun n => g.bodyIds n.id).flatten

theorem length_bodyIds_le {g : Graph} {id : String} (h : id ∈ g.nodes.map Node.id) :
    (g.bodyIds id).length <= g.nested.length := by
  obtain ⟨n, hn, rfl⟩ := List.mem_map.1 h
  have hmem : g.bodyIds n.id ∈ g.nodes.map fun n => g.bodyIds n.id := List.mem_map_of_mem hn
  exact (List.sublist_flatten_of_mem hmem).length_le

/-- How often an agenda can still be looked at: each id that is left is listed once and brings
what is inside it to the agenda. -/
def visitsLeft (g : Graph) (agenda order : List String) : Nat :=
  (g.unlisted order).length * (g.nested.length + 1) + agenda.length

theorem visitsLeft_lt {g : Graph} {order : List String} {id : String} (rest : List String)
    (hnew : order.contains id = false) :
    g.visitsLeft (g.bodyIds id ++ rest) (order ++ [id]) < g.visitsLeft (id :: rest) order := by
  unfold visitsLeft
  rw [List.length_append, List.length_cons]
  by_cases hid : id ∈ g.nodes.map Node.id
  · have hlisted := Nat.mul_le_mul_right (g.nested.length + 1) (unlisted_append_length_lt hid hnew)
    have hbody := length_bodyIds_le hid
    rw [Nat.succ_mul] at hlisted
    omega
  · have hlisted := Nat.mul_le_mul_right (g.nested.length + 1)
      (unlisted_append_length_le g order id)
    rw [bodyIds_eq_nil hid, List.length_nil]
    omega

/-!
# The order
-/

/-- Lists the ids of an agenda and, right after each, the ids inside it. -/
def visit (g : Graph) (agenda order : List String) : List String :=
  match agenda with
  | [] => order
  | id :: rest =>
      if order.contains id then visit g rest order
      else visit g (g.bodyIds id ++ rest) (order ++ [id])
  termination_by g.visitsLeft agenda order
  decreasing_by
    · exact Nat.lt_succ_self _
    · next hnew => exact visitsLeft_lt rest (Bool.not_eq_true _ ▸ hnew)

/-- The nodes that are not listed yet, each id once. -/
def appendUnlisted (g : Graph) (order : List String) : List String :=
  (g.nodes.map Node.id).foldl
    (fun order id => if order.contains id then order else order ++ [id]) order

def order (g : Graph) : List String :=
  g.appendUnlisted (g.visit (g.chain .root) [])

end Graph
end Workflow
