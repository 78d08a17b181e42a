import Workflow.Proofs.Conversion.Imported
import Workflow.Proofs.Validation

/-!
# Definitions through graphs and back

A definition that is imported and written down again is the same.  Only a graph without
problems is written down, so the branches of each conditional are distinct, the imported
graph is laid out, and the document it depicts is both the one that was imported and the
one along its chains.
-/

namespace Workflow

theorem Graph.toDefinition?_eq_ok {g : Graph} {f : FrontMatter} {d : Definition} :
    g.toDefinition? f = .ok d <->
      g.problems (g.reconcile f.parameters) = [] ∧
        d =
          { version := Definition.currentVersion
            title := f.title
            parameters := g.reconcile f.parameters
            blocks := g.descriptors .root } := by
  unfold toDefinition?
  cases hproblems : g.problems (g.reconcile f.parameters) with
  | nil => simp only [hproblems, Except.ok.injEq, true_and, eq_comm]
  | cons p rest => simp [hproblems]

namespace Definition

variable {d : Definition} {s : Supply} {g : Draft}

theorem distinctBranches_of_problems {parameters : List Parameter}
    (h : (Draft.ofBlocks s d.blocks).graph.problems parameters = []) : d.DistinctBranches := by
  intro x hx
  obtain ⟨n, hn, hcontent⟩ := Draft.exists_node_of_mem (s := s) hx
  cases x with
  | leaf heading l => trivial
  | loop heading a children => trivial
  | conditional heading branches =>
      have hc : n.conditional? = (Descriptor.conditional heading branches).block.conditional? := by
        rw [Node.conditional?, Node.block?, hcontent]
        rfl
      have hnodup := Graph.nodup_branchIds h (Draft.fresh_ofBlocks s d.blocks).distinct hn hc
      rwa [Conditional.branchIds, List.map_map] at hnodup

/-- Writing an imported definition down again changes nothing but the parameters, which are
reconciled with the graph. -/
theorem toDefinition?_toDraft? {d' : Definition} (himport : d.toDraft? s = .ok g)
    (hexport : g.graph.toDefinition? d.frontMatter = .ok d') :
    d'.version = currentVersion ∧ d'.title = d.title ∧ d'.blocks = d.blocks ∧
      d'.parameters = g.graph.reconcile d.parameters := by
  obtain ⟨hproblems, rfl⟩ := Graph.toDefinition?_eq_ok.1 hexport
  obtain ⟨-, -, rfl⟩ := eq_of_toDraft? himport
  obtain ⟨run, hlaid⟩ := Draft.laid_ofBlocks s (distinctBranches_of_problems hproblems)
  have hblocks := Graph.DepictsChain.unique _ (Graph.depicts_descriptors hlaid.shape)
    (Draft.depicts_ofBlocks hlaid.shape)
  exact ⟨rfl, rfl, hblocks, rfl⟩

/-- A loop around a conditional whose first branch holds a wait, and a block behind it that
uses what the loop puts out. -/
def orders : Definition where
  version := 3
  title := "orders"
  parameters := [{ key := "orders", source := .awsSecret "ORDERS" }]
  blocks :=
    [.loop { label := "each" } { loopOver := some "orders" }
      [.conditional { label := "pick" }
        [({ id := "large", label := "If", expression := some "total > 100" },
          [.leaf { label := "hold" } (.wait { waitSec := 60 })]),
          ({ id := "small", label := "Else", isDefault := true }, [])]],
      .leaf { label := "report" } (.code { code := "send()", parameterKeys := ["each_output"] })]

theorem problems_orders : (Draft.ofBlocks {} orders.blocks).graph.problems
    ((Draft.ofBlocks {} orders.blocks).graph.reconcile orders.frontMatter.parameters) = [] := by
  decide +kernel

theorem toDefinition?_toDraft?_orders :
    orders.toDraft? = .ok (Draft.ofBlocks {} orders.blocks) ∧
      ∃ d, (Draft.ofBlocks {} orders.blocks).graph.toDefinition? orders.frontMatter = .ok d ∧
        d.version = currentVersion ∧ d.title = orders.title ∧ d.blocks = orders.blocks ∧
        d.parameters = (Draft.ofBlocks {} orders.blocks).graph.reconcile orders.parameters := by
  have himport : orders.toDraft? = .ok (Draft.ofBlocks {} orders.blocks) := rfl
  have hexport := (Graph.toDefinition?_eq_ok (f := orders.frontMatter)).2
    ⟨problems_orders, rfl⟩
  exact ⟨himport, _, hexport, toDefinition?_toDraft? himport hexport⟩

end Definition
end Workflow
