import Workflow.Validation.Check

/-!
# Which check finds a problem

The list of problems falls into parts, one for each check, and no two checks find the same kind of
problem.  Of the checks of a block only the one of its references looks at the parameters.
-/

namespace Workflow

/-!
# Checks
-/

/-- What is checked: the list of parameters, each node, each reference of a block, each edge, and
all edges together. -/
inductive Check where
  | parameters
  | node
  | reference
  | edge
  | cycle
  deriving DecidableEq, Repr

namespace Problem

/-- The check that finds a problem. -/
def check : Problem -> Check
  | duplicateParameter _ => .parameters
  | parentNotContainer _ _ => .node
  | blankLabel _ => .node
  | duplicateLabel _ => .node
  | emptyField _ _ => .node
  | unknownBlock _ _ _ => .reference
  | unknownMergeBlock _ _ _ => .reference
  | unknownParameter _ _ _ => .reference
  | noBranches _ => .node
  | duplicateBranch _ _ => .node
  | undeclaredActive _ _ => .node
  | disconnected _ => .node
  | unknownEnd _ => .edge
  | wrongVisibility _ => .edge
  | undeclaredTag _ _ _ => .edge
  | cycle => .cycle

end Problem

/-!
# Blocks
-/

namespace Block

theorem check_of_mem_fieldProblems {b : Block} {name : String} {p : Problem}
    (hp : p ∈ b.fieldProblems name) : p.check = .node := by
  rcases List.mem_map.1 hp with ⟨field, -, rfl⟩
  rfl

theorem check_of_mem_referenceProblems {b : Block} {name : String} {labels keys : List String}
    {p : Problem} (hp : p ∈ b.referenceProblems name labels keys) : p.check = .reference := by
  rcases List.mem_filterMap.1 hp with ⟨⟨field, r⟩, -, hr⟩
  cases r with
  | output l =>
      rcases Option.ite_none_left_eq_some.1 hr with ⟨-, hp⟩
      cases hp
      rfl
  | parameter k =>
      rcases Option.ite_none_left_eq_some.1 hr with ⟨-, hp⟩
      cases hp
      rfl
  | label l =>
      rcases Option.ite_none_left_eq_some.1 hr with ⟨-, hp⟩
      cases hp
      rfl

theorem check_of_mem_branchProblems {b : Block} {name : String} {p : Problem}
    (hp : p ∈ b.branchProblems name) : p.check = .node := by
  unfold branchProblems at hp
  split at hp
  · cases hp
  · simp only [List.mem_append] at hp
    rcases hp with (hp | hp) | hp
    · split at hp
      · rw [List.mem_singleton.1 hp]
        rfl
      · cases hp
    · rcases List.mem_map.1 hp with ⟨branch, -, rfl⟩
      rfl
    · split at hp
      · cases hp
      · rw [List.mem_singleton.1 hp]
        rfl

end Block

/-!
# Nodes
-/

/-- The problems of the references of a node, if it is a block. -/
def Node.referenceProblems (n : Node) (labels keys : List String) : List Problem :=
  match n.content with
  | .block h b => b.referenceProblems (if Text.isBlank h.label then n.id else h.label) labels keys
  | _ => []

theorem Node.check_of_mem_referenceProblems {n : Node} {labels keys : List String} {p : Problem}
    (hp : p ∈ n.referenceProblems labels keys) : p.check = .reference := by
  rcases n with ⟨id, parent, content⟩
  cases content with
  | block h b => exact Block.check_of_mem_referenceProblems hp
  | _ => cases hp

namespace Graph

variable {g : Graph}

theorem check_of_mem_parentProblems {n : Node} {p : Problem} (hp : p ∈ g.parentProblems n) :
    p.check = .node := by
  unfold parentProblems at hp
  split at hp
  · cases hp
  · split at hp
    · cases hp
    · rw [List.mem_singleton.1 hp]
      rfl

/-- The problems of the references of a node stand between those of its other checks, which do not
look at the parameters. -/
theorem exists_nodeProblems (g : Graph) (seen : List String) (n : Node) :
    ∃ before after : List Problem, (∀ p ∈ before ++ after, p.check = .node) ∧
      ∀ keys, g.nodeProblems keys seen n =
        before ++ n.referenceProblems g.labels keys ++ after := by
  rcases n with ⟨id, parent, content⟩
  cases content with
  | block h b =>
      let name := if Text.isBlank h.label then id else h.label
      let labelProblems : List Problem :=
        if Text.isBlank h.label then [.blankLabel id]
        else if seen.contains h.label then [.duplicateLabel h.label] else []
      let chainProblems : List Problem :=
        if g.isConnected id then [] else [.disconnected name]
      have hlabel : ∀ p ∈ labelProblems, p.check = .node := by
        intro p hp
        by_cases hblank : Text.isBlank h.label
        · simp only [labelProblems, if_pos hblank, List.mem_singleton] at hp
          rw [hp]
          rfl
        · by_cases hseen : seen.contains h.label
          · simp only [labelProblems, if_neg hblank, if_pos hseen, List.mem_singleton] at hp
            rw [hp]
            rfl
          · simp only [labelProblems, if_neg hblank, if_neg hseen] at hp
            cases hp
      have hchain : ∀ p ∈ chainProblems, p.check = .node := by
        intro p hp
        by_cases hconnected : g.isConnected id
        · simp only [chainProblems, if_pos hconnected] at hp
          cases hp
        · simp only [chainProblems, if_neg hconnected, List.mem_singleton] at hp
          rw [hp]
          rfl
      refine ⟨g.parentProblems ⟨id, parent, .block h b⟩ ++ labelProblems ++ b.fieldProblems name,
        b.branchProblems name ++ chainProblems, ?_, fun keys => ?_⟩
      · intro p hp
        simp only [List.mem_append] at hp
        rcases hp with ((hp | hp) | hp) | hp | hp
        · exact check_of_mem_parentProblems hp
        · exact hlabel p hp
        · exact Block.check_of_mem_fieldProblems hp
        · exact Block.check_of_mem_branchProblems hp
        · exact hchain p hp
      · simp only [nodeProblems, blockProblems, Node.referenceProblems, List.append_assoc]
        rfl
  | _ =>
      refine ⟨g.parentProblems _, [], ?_, fun keys => (List.append_nil _).symm⟩
      intro p hp
      rw [List.append_nil] at hp
      exact check_of_mem_parentProblems hp

theorem check_of_mem_nodeProblems {keys seen : List String} {n : Node} {p : Problem}
    (hp : p ∈ g.nodeProblems keys seen n) :
    p.check = .node ∨ p ∈ n.referenceProblems g.labels keys := by
  rcases g.exists_nodeProblems seen n with ⟨before, after, hnode, heq⟩
  rw [heq keys, List.mem_append, List.mem_append] at hp
  rcases hp with (hp | hp) | hp
  · exact Or.inl (hnode p (List.mem_append_left _ hp))
  · exact Or.inr hp
  · exact Or.inl (hnode p (List.mem_append_right _ hp))

theorem check_of_mem_nodesProblems {keys : List String} {nodes : List Node} {p : Problem} :
    ∀ {seen : List String}, p ∈ g.nodesProblems keys seen nodes ->
      p.check = .node ∨ ∃ n ∈ nodes, p ∈ n.referenceProblems g.labels keys := by
  induction nodes with
  | nil =>
      intro seen hp
      cases hp
  | cons n rest ih =>
      intro seen hp
      rw [nodesProblems, List.mem_append] at hp
      rcases hp with hp | hp
      · rcases check_of_mem_nodeProblems hp with hnode | hreference
        · exact Or.inl hnode
        · exact Or.inr ⟨n, List.mem_cons_self, hreference⟩
      · rcases ih hp with hnode | ⟨m, hm, hreference⟩
        · exact Or.inl hnode
        · exact Or.inr ⟨m, List.mem_cons_of_mem _ hm, hreference⟩

/-!
# Edges and whole graphs
-/

theorem check_of_mem_edgeProblems {e : Edge} {p : Problem} (hp : p ∈ g.edgeProblems e) :
    p.check = .edge := by
  unfold edgeProblems at hp
  split at hp
  · rw [List.mem_singleton.1 hp]
    rfl
  · split at hp
    · cases hp
    · dsimp only at hp
      split at hp
      · rw [List.mem_singleton.1 hp]
        rfl
      · split at hp
        · rw [List.mem_singleton.1 hp]
          rfl
        · cases hp

theorem mem_problems {parameters : List Parameter} {p : Problem} :
    p ∈ g.problems parameters <->
      (∃ key ∈ repeats (parameters.map Parameter.key), .duplicateParameter key = p) ∨
      p ∈ g.nodesProblems (parameters.map Parameter.key) [] (g.order.filterMap g.node?) ∨
      (∃ e ∈ g.edges, p ∈ g.edgeProblems e) ∨ p = .cycle ∧ g.hasCycle := by
  simp only [problems, List.mem_append, List.mem_map, List.mem_flatMap, or_assoc]
  cases g.hasCycle <;> simp

theorem cycle_mem_problems (parameters : List Parameter) :
    .cycle ∈ g.problems parameters <-> g.hasCycle := by
  rw [mem_problems]
  constructor
  · intro h
    rcases h with ⟨key, -, hkey⟩ | hnodes | ⟨e, -, hedge⟩ | ⟨-, hcycle⟩
    · cases hkey
    · rcases check_of_mem_nodesProblems hnodes with hnode | ⟨n, -, hreference⟩
      · cases hnode
      · cases Node.check_of_mem_referenceProblems hreference
    · cases check_of_mem_edgeProblems hedge
    · exact hcycle
  · intro hcycle
    exact Or.inr (Or.inr (Or.inr ⟨rfl, hcycle⟩))

theorem exists_of_reference {parameters : List Parameter} {p : Problem}
    (hp : p ∈ g.problems parameters) (hcheck : p.check = .reference) :
    ∃ n ∈ g.nodes, p ∈ n.referenceProblems g.labels (parameters.map Parameter.key) := by
  rcases mem_problems.1 hp with ⟨key, -, rfl⟩ | hnodes | ⟨e, -, hedge⟩ | ⟨rfl, -⟩
  · cases hcheck
  · rcases check_of_mem_nodesProblems hnodes with hnode | ⟨n, hn, hreference⟩
    · rw [hnode] at hcheck
      cases hcheck
    · rcases List.mem_filterMap.1 hn with ⟨id, -, hid⟩
      exact ⟨n, List.mem_reverse.1 (List.mem_of_find?_eq_some hid), hreference⟩
  · rw [check_of_mem_edgeProblems hedge] at hcheck
    cases hcheck
  · cases hcheck

end Graph
end Workflow
