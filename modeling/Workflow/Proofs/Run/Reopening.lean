import Workflow.Proofs.Conversion.RoundTrip
import Workflow.Proofs.Conversion.Twin
import Workflow.Proofs.Run.Basic

/-!
# Saving and reopening

An edited graph that can be written down comes back when its document is imported: the
same blocks in the same chains, under other ids and with the first branch of each
conditional shown.  The graph that is edited and the one that is imported both record the
document, so each is a copy of the other.
-/

namespace Workflow

/-!
# Graphs that record a document
-/

theorem Descriptor.block_reopened (x : Descriptor) : x.block.reopened = x.block := by
  cases x with
  | leaf h l => rfl
  | loop h a children => rfl
  | conditional h branches =>
      simp [block, Block.reopened, Conditional.branchIds, Function.comp_def]

namespace Graph

variable {g : Graph} {run : Scope -> List String} {blocks : List Descriptor}

theorem distinct_of_problems (hids : g.shape.ids.Nodup) {parameters : List Parameter}
    (h : g.problems parameters = []) : g.Distinct where
  label _ hm _ hn _ hml hnl := eq_of_label h hids hm hn hml hnl
  branches _ hn _ hc := nodup_branchIds h hids hn hc

/-- A graph that is laid out and has no problems records what is written down. -/
theorem records_descriptors (hlaid : g.shape.Laid run) {parameters : List Parameter}
    (h : g.problems parameters = []) : g.Records run (g.descriptors .root) where
  laid := hlaid
  distinct := distinct_of_problems hlaid.distinct h
  depicts := depicts_descriptors hlaid

theorem Records.distinctBranches (h : g.Records run blocks) {x : Descriptor}
    (hx : x ∈ Descriptor.listInOrder blocks) : x.DistinctBranches := by
  obtain ⟨id, hdepicts⟩ := exists_depicting h.laid h.distinct h.depicts hx
  cases x with
  | leaf heading l => trivial
  | loop heading a children => trivial
  | conditional heading branches =>
      have hscopes := h.distinct.nodup_bodies hdepicts
      rw [Descriptor.bodies, List.map_map] at hscopes
      refine List.Nodup.of_map (Scope.ofBranch id) ?_
      rwa [List.map_map]

end Graph

namespace Draft

theorem reopened_ofBlocks {s : Supply} {blocks : List Descriptor} {n : Node}
    (hn : n ∈ (ofBlocks s blocks).graph.nodes) : n.content.reopened = n.content := by
  cases hc : n.content with
  | start => rfl
  | insertionMarker => rfl
  | block h b =>
      obtain ⟨x, -, -, rfl⟩ := exists_carried hn hc
      rw [Content.reopened, x.block_reopened]

theorem distinct_ofBlocks {s : Supply} {blocks : List Descriptor}
    (hlabels : ((Descriptor.listInOrder blocks).map Descriptor.label).Nodup)
    (hbranches : ∀ x ∈ Descriptor.listInOrder blocks, x.DistinctBranches) :
    (ofBlocks s blocks).graph.Distinct where
  label m hm n hn l hml hnl := by
    have hnodup : (ofBlocks s blocks).graph.labels.Nodup := by
      rw [Graph.labels_eq_contents, contents_ofBlocks, List.map_map]
      exact hlabels
    exact eq_of_nodup_filterMap hnodup hm hn hml hnl
  branches n hn c hc := by
    cases hcontent : n.content with
    | start => simp [Node.conditional?, Node.block?, hcontent] at hc
    | insertionMarker => simp [Node.conditional?, Node.block?, hcontent] at hc
    | block h b =>
        have hb : b.conditional? = some c := by
          rwa [Node.conditional?, Node.block?, hcontent] at hc
        obtain ⟨x, hx, -, rfl⟩ := exists_carried hn hcontent
        cases x with
        | leaf heading l => cases hb
        | loop heading a children => cases hb
        | conditional heading branches =>
            cases hb
            rw [Conditional.branchIds, List.map_map]
            exact hbranches _ hx

/-- What is written down after any editing can be imported, and the graph comes back. -/
theorem exists_copy_of_toDefinition? {d : Draft} (h : d.Reachable) {front : FrontMatter}
    {saved : Definition} (hsaved : d.graph.toDefinition? front = .ok saved) (s : Supply) :
    ∃ d', saved.toDraft? s = .ok d' ∧ ∃ f, d.graph.IsCopy d'.graph f := by
  obtain ⟨run, hlaid⟩ := h.laid
  obtain ⟨hproblems, rfl⟩ := Graph.toDefinition?_eq_ok.1 hsaved
  have hrecords := Graph.records_descriptors hlaid.shape hproblems
  have hlabels := Graph.nodup_labels hrecords.laid hrecords.distinct hrecords.depicts
  have hbranches := fun x hx => hrecords.distinctBranches (x := x) hx
  obtain ⟨run', hlaid'⟩ := laid_ofBlocks s hbranches
  refine ⟨_, Definition.toDraft?_eq_ok s rfl hlabels, ?_⟩
  refine Graph.exists_copy hrecords ⟨hlaid'.shape, distinct_ofBlocks hlabels hbranches,
    depicts_ofBlocks hlaid'.shape⟩ fun n hn => reopened_ofBlocks hn

/-- The definition of `orders`, with the other branch of its conditional shown and a block
placed there. -/
def editedOrders : Draft :=
  (ofBlocks {} Definition.orders.blocks).applyAll
    [("block", .setActiveBranch "#6" "small"),
      ("block", .addNode .wait ⟨some "#7", some "#8", some "#6", some "small"⟩),
      ("block", .relabel "#11" "pause")]

theorem problems_editedOrders :
    editedOrders.graph.problems
      (editedOrders.graph.reconcile Definition.orders.frontMatter.parameters) = [] := by
  decide +kernel

theorem exists_copy_of_toDefinition?_editedOrders :
    editedOrders.Reachable ∧
      ∃ saved, editedOrders.graph.toDefinition? Definition.orders.frontMatter = .ok saved ∧
        ∃ d', saved.toDraft? = .ok d' ∧ ∃ f, editedOrders.graph.IsCopy d'.graph f := by
  have hbranches : Definition.orders.DistinctBranches :=
    Definition.distinctBranches_of_problems (s := {}) Definition.problems_orders
  have hreachable : editedOrders.Reachable :=
    Edited.applyAll (.start (Or.inr ⟨Definition.orders, {}, hbranches, rfl⟩)) _
  have hsaved := (Graph.toDefinition?_eq_ok (f := Definition.orders.frontMatter)).2
    ⟨problems_editedOrders, rfl⟩
  exact ⟨hreachable, _, hsaved, exists_copy_of_toDefinition? hreachable hsaved {}⟩

end Draft
end Workflow
