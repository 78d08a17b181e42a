import Workflow.Proofs.Problems
import Workflow.Proofs.Reference.Clearing
import Workflow.Proofs.Reference.Graph

/-!
# Pruning

To prune a label takes the references to it away and changes nothing else, so what is left after
several labels is decided by which labels they are.  Pruning what dangles is pruning the labels
that are missing, and nothing dangles afterwards.
-/

namespace Workflow

/-!
# References that are left
-/

theorem Block.held_without (labels : List String) (b : Block) :
    (b.without labels).held = b.held.filter (Reference.stays fun l => !labels.contains l) := by
  have hwithout : (b.retainLabels fun l => !labels.contains l).1 = b.without labels :=
    retainLabels_eq_without fun _ _ _ _ => rfl
  rw [← hwithout, held_retainLabels]

/-- What a node refers to, in the order of its fields. -/
def Node.held (n : Node) : List Reference :=
  n.block?.toList.flatMap Block.held

theorem Node.held_without (labels : List String) (n : Node) :
    (n.mapBlock (Block.without labels)).held =
      n.held.filter (Reference.stays fun l => !labels.contains l) := by
  rw [held, held, block?_mapBlock]
  cases n.block? with
  | none => rfl
  | some b =>
      simp only [Option.map_some, Option.toList_some, List.flatMap_singleton]
      exact b.held_without labels

/-- What a node is apart from the attributes of its block. -/
def Node.frame (n : Node) : String × Option String × Option Heading :=
  (n.id, n.parent, n.heading?)

theorem Node.frame_mapBlock (f : Block -> Block) (n : Node) : (n.mapBlock f).frame = n.frame := by
  rcases n with ⟨id, parent, content⟩
  cases content <;> rfl

/-- The label of no block that a problem is about. -/
def Problem.unknownLabel? : Problem -> Option String
  | unknownBlock _ _ l => some l
  | unknownMergeBlock _ _ l => some l
  | _ => none

theorem Problem.check_of_unknownLabel? {p : Problem} {l : String} (h : p.unknownLabel? = some l) :
    p.check = .reference := by
  cases p with
  | unknownBlock block field label => rfl
  | unknownMergeBlock block field label => rfl
  | _ => cases h

theorem Block.exists_of_unknownLabel? {b : Block} {name : String} {labels keys : List String}
    {p : Problem} (hp : p ∈ b.referenceProblems name labels keys) {l : String}
    (hl : p.unknownLabel? = some l) :
    ∃ field r, (field, r) ∈ b.references ∧ r.label? = some l ∧ l ∉ labels := by
  rcases List.mem_filterMap.1 hp with ⟨⟨field, r⟩, hmem, hr⟩
  refine ⟨field, r, hmem, ?_⟩
  cases r with
  | output m =>
      rcases Option.ite_none_left_eq_some.1 hr with ⟨hnot, hproblem⟩
      cases hproblem
      cases hl
      exact ⟨rfl, fun hmem => hnot (List.contains_iff_mem.2 hmem)⟩
  | parameter key =>
      rcases Option.ite_none_left_eq_some.1 hr with ⟨-, hproblem⟩
      cases hproblem
      cases hl
  | label m =>
      rcases Option.ite_none_left_eq_some.1 hr with ⟨hnot, hproblem⟩
      cases hproblem
      cases hl
      exact ⟨rfl, fun hmem => hnot (List.contains_iff_mem.2 hmem)⟩

namespace Graph

variable {g : Graph}

/-!
# Labels that are pruned
-/

/-- A graph has lost the references to some labels and nothing else. -/
structure Sheds (g : Graph) (labels : List String) (g' : Graph) : Prop where
  nodes : g'.nodes = g.nodes.map (Node.mapBlock (Block.without labels))
  edges : g'.edges = g.edges
  frames : g'.nodes.map Node.frame = g.nodes.map Node.frame
  held : g'.nodes.map Node.held =
    g.nodes.map fun n => n.held.filter (Reference.stays fun l => !labels.contains l)

theorem sheds_of_nodes {g' : Graph} {labels : List String}
    (hnodes : g'.nodes = g.nodes.map (Node.mapBlock (Block.without labels)))
    (hedges : g'.edges = g.edges) : g.Sheds labels g' where
  nodes := hnodes
  edges := hedges
  frames := by
    rw [hnodes, List.map_map]
    exact List.map_congr_left fun n _ => n.frame_mapBlock _
  held := by
    rw [hnodes, List.map_map]
    exact List.map_congr_left fun n _ => n.held_without labels

theorem Sheds.unique {g₁ g₂ : Graph} {labels labels' : List String} (h₁ : g.Sheds labels g₁)
    (h₂ : g.Sheds labels' g₂) (hlabels : ∀ l, l ∈ labels <-> l ∈ labels') : g₁ = g₂ := by
  have hnodes : g₁.nodes = g₂.nodes := by
    rw [h₁.nodes, h₂.nodes, funext (Block.without_congr hlabels)]
  exact congr (congrArg Graph.mk hnodes) (h₁.edges.trans h₂.edges.symm)

theorem mem_missingLabels {l : String} :
    l ∈ g.missingLabels <-> (∃ r, g.Holds r ∧ r.label? = some l) ∧ l ∉ g.labels := by
  simp only [missingLabels, List.mem_filter, List.mem_flatMap, List.mem_filterMap, Holds,
    Bool.not_eq_true', List.contains_eq_mem, decide_eq_false_iff_not]
  apply and_congr_left
  intro _
  constructor
  · intro h
    rcases h with ⟨c, hc, r, hr, hl⟩
    exact ⟨r, ⟨c, hc, hr⟩, hl⟩
  · intro h
    rcases h with ⟨r, ⟨c, hc, hr⟩, hl⟩
    exact ⟨c, hc, r, hr, hl⟩

section Pruning

variable (hids : g.shape.ids.Nodup)
include hids

theorem sheds_pruneAll (labels : List String) : g.Sheds labels (g.pruneAll labels) :=
  sheds_of_nodes (nodes_pruneAll labels hids) (edges_pruneAll labels g)

theorem sheds_prune (l : String) : g.Sheds [l] (g.prune l) := by
  have h := sheds_pruneAll hids [l]
  rw [pruneAll, List.foldl_cons, List.foldl_nil] at h
  exact h

theorem sheds_prune_prune (l l' : String) : g.Sheds [l, l'] ((g.prune l).prune l') := by
  have h := sheds_pruneAll hids [l, l']
  rw [pruneAll, List.foldl_cons, List.foldl_cons, List.foldl_nil] at h
  exact h

theorem sheds_pruneDangling : g.Sheds g.missingLabels g.pruneDangling :=
  sheds_of_nodes (nodes_pruneDangling hids) (edges_pruneDangling g)

theorem dangling_pruneDangling : g.pruneDangling.dangling = [] := by
  have hids' : g.pruneDangling.shape.ids.Nodup := by
    rw [shape_pruneDangling]
    exact hids
  rw [dangling_eq_nil hids', labels_pruneDangling]
  exact settled_pruneDangling hids

theorem unknownLabel?_eq_none (hnone : g.dangling = []) {parameters : List Parameter}
    {p : Problem} (hp : p ∈ g.problems parameters) : p.unknownLabel? = none := by
  cases hl : p.unknownLabel? with
  | none => rfl
  | some l =>
      rcases exists_of_reference hp (Problem.check_of_unknownLabel? hl) with ⟨n, hn, hmem⟩
      rcases n with ⟨id, parent, content⟩
      cases content with
      | start => cases hmem
      | insertionMarker => cases hmem
      | block heading b =>
          rcases Block.exists_of_unknownLabel? hmem hl with ⟨field, r, hr, hrl, hnot⟩
          have hdangling := (mem_dangling hids).2 ⟨_, hn, b, rfl, field, r, hr, hrl, hnot, rfl⟩
          rw [hnone] at hdangling
          cases hdangling

end Pruning

/-!
# Exactness and order
-/

theorem sheds_prune_and_pruneDangling (hids : (g.nodes.map Node.id).Nodup) :
    (∀ l, g.Sheds [l] (g.prune l)) ∧
    (∀ l, (g.prune l).prune l = g.prune l) ∧
    (∀ l l', (g.prune l).prune l' = (g.prune l').prune l) ∧
    (∀ labels : List String,
      (∀ l, l ∈ labels <-> (∃ r, g.Holds r ∧ r.label? = some l) ∧ l ∉ g.labels) ->
        g.pruneAll labels = g.pruneDangling) ∧
    g.pruneDangling.dangling = [] ∧
    ∀ parameters, ∀ p ∈ g.pruneDangling.problems parameters, p.unknownLabel? = none := by
  rw [← ids_shape] at hids
  have hids' : g.pruneDangling.shape.ids.Nodup := by
    rw [shape_pruneDangling]
    exact hids
  refine ⟨sheds_prune hids, fun l => ?_, fun l l' => ?_, fun labels hlabels => ?_,
    dangling_pruneDangling hids, fun parameters p hp => ?_⟩
  · apply (sheds_prune_prune hids l l).unique (sheds_prune hids l)
    intro k
    simp
  · apply (sheds_prune_prune hids l l').unique (sheds_prune_prune hids l' l)
    intro k
    simp [or_comm]
  · apply (sheds_pruneAll hids labels).unique (sheds_pruneDangling hids)
    intro l
    rw [hlabels, mem_missingLabels]
  · exact unknownLabel?_eq_none hids' (dangling_pruneDangling hids) hp

/-- Blocks that refer to several others that are gone; one of them stands on no chain. -/
def haunted : Graph where
  nodes :=
    [⟨"start", none, .start⟩, ⟨"end", none, .insertionMarker⟩,
      ⟨"read", none, .block { label := "read" } (.leaf (.code
        { parameterKeys :=
            ["ghost_output", "url", "tally_output", "spirit_output", "ghost_output"] }))⟩,
      ⟨"tally", none, .block { label := "tally" } (.loop { loopOver := some "spirit_output" })⟩,
      ⟨"fork", none, .block { label := "fork" } (.conditional
        { branches :=
            [{ id := "left", label := "If", mergeLabel := some "ghost" },
              { id := "right", label := "Else", mergeLabel := some "read", isDefault := true }]
          active := "left" })⟩]
  edges :=
    [⟨"e1", "start", "read", .insertable, none, false⟩,
      ⟨"e2", "read", "fork", .insertable, none, false⟩,
      ⟨"e3", "fork", "end", .plain, none, false⟩]

theorem sheds_prune_and_pruneDangling_haunted :
    (haunted.nodes.map Node.id).Nodup ∧
      (haunted.dangling.map Prod.fst) = ["ghost", "spirit", "ghost", "ghost", "spirit"] ∧
      haunted.pruneAll ["spirit", "ghost"] = haunted.pruneDangling ∧
      haunted.pruneDangling.dangling = [] ∧
      haunted.pruneDangling.nodes.map Node.held =
        [[], [], [.parameter "url", .output "tally"], [], [.label "read"]] := by
  have hids : (haunted.nodes.map Node.id).Nodup := by decide
  have hmissing : haunted.missingLabels = ["ghost", "spirit", "ghost", "spirit", "ghost"] := by
    decide +kernel
  rcases sheds_prune_and_pruneDangling hids with ⟨-, -, -, hany, hdangling, -⟩
  refine ⟨hids, by decide +kernel, hany ["spirit", "ghost"] fun l => ?_, hdangling,
    by decide +kernel⟩
  rw [← mem_missingLabels, hmissing]
  simp only [List.mem_cons, List.not_mem_nil, or_false]
  tauto

end Graph
end Workflow
