import Workflow.Proofs.Conversion.Inside
import Workflow.Proofs.Precedence
import Workflow.Proofs.Run.Labels
import Workflow.Proofs.Run.Reopening

/-!
# The order of an edited graph

However a graph was edited, its order is the one of the document that is written down: the blocks
stand in it as they are nested, and what an edge leads to stands behind what it comes from.  Right
after an import the nodes are still in that order themselves.
-/

namespace Workflow
namespace Graph

variable {g : Graph}

/-- The blocks in the order of the arena. -/
def arenaBlocks (g : Graph) : List String :=
  (g.nodes.filter Node.isBlock).map Node.id

/-- The blocks come in document order.  Each scope is listed along its chain, each block followed by
the scopes of its body, and the source of an edge comes before its target; only the marker that
closes a conditional is met on the first of its branches. -/
structure InDocumentOrder (g : Graph) : Prop where
  perm : (g.blocksOf g.order).Perm g.arenaBlocks
  written : List.Forall₂ g.Depicts (g.blocksOf g.order)
    (Descriptor.listInOrder (g.descriptors .root))
  top : g.blocksOf g.order = g.inside .root
  nested : ∀ s ∈ g.scopes, g.inside s =
    (g.blocksIn s).flatMap fun id => id :: (g.scopesInside id).flatMap g.inside
  edges : ∀ e ∈ g.edges, ¬ g.ClosesConditional e.target ->
    ∃ before after, g.order = before ++ e.target :: after ∧ e.source ∈ before

theorem blocksOf_order_perm (hids : g.shape.ids.Nodup) :
    (g.blocksOf g.order).Perm g.arenaBlocks := by
  have harena : g.arenaBlocks.Nodup :=
    (ids_shape g ▸ hids).sublist (List.filter_sublist.map _)
  refine (List.perm_ext_iff_of_nodup ((nodup_order g).filter _) harena).2 fun id => ?_
  simp only [arenaBlocks, List.mem_filter, List.mem_map]
  constructor
  · rintro ⟨-, hblock⟩
    obtain ⟨n, hn, hid, hn'⟩ := exists_node_of_block? hblock
    exact ⟨n, ⟨hn, hn'⟩, hid⟩
  · rintro ⟨n, ⟨hn, hblock⟩, rfl⟩
    exact ⟨mem_order hn, by rwa [block?_of_mem hids hn]⟩

theorem inDocumentOrder_of_laid {run : Scope -> List String} (h : g.shape.Laid run)
    (hd : g.Distinct) : g.InDocumentOrder where
  perm := blocksOf_order_perm h.distinct
  written := by
    rw [blocksOf_order h hd]
    exact depicts_inside h .root (Shape.hasScope_root _) _ (depicts_descriptors h)
  top := blocksOf_order h hd
  nested s hs := inside_eq h (mem_scopes.1 hs)
  edges _ he hopen := precedes_of_edge h he hopen

/-!
# Blocks with their labels
-/

theorem leftUnique_labelOf? (hd : g.Distinct) :
    Relator.LeftUnique fun (id : String) (x : Descriptor) => g.labelOf? id = some x.label := by
  intro a b x ha hb
  obtain ⟨m, hm, hml⟩ := Option.bind_eq_some_iff.1 ha
  obtain ⟨n, hn, hnl⟩ := Option.bind_eq_some_iff.1 hb
  obtain ⟨hmem, rfl⟩ := mem_of_node? hm
  obtain ⟨hnem, rfl⟩ := mem_of_node? hn
  rw [hd.label m hmem n hnem _ hml hnl]

theorem Depicts.labelOf? {id : String} {x : Descriptor} (h : g.Depicts id x) :
    g.labelOf? id = some x.label := by
  obtain ⟨n, hn, hcontent⟩ := Option.map_eq_some_iff.1 h.carries
  cases hc : n.content with
  | start => simp [hc, Content.reopened] at hcontent
  | insertionMarker => simp [hc, Content.reopened] at hcontent
  | block heading b =>
      simp only [hc, Content.reopened, Content.block.injEq] at hcontent
      rw [labelOf?_eq hn hc, hcontent.1]
      rfl

theorem map_label?_filter_isBlock (nodes : List Node) :
    (nodes.filter Node.isBlock).map Node.label? = (nodes.filterMap Node.label?).map some := by
  induction nodes with
  | nil => rfl
  | cons n rest ih =>
      obtain ⟨id, parent, content⟩ := n
      cases content with
      | start => exact ih
      | insertionMarker => exact ih
      | block h b => exact congrArg (some h.label :: ·) ih

theorem forall₂_labelOf?_ofBlocks {s : Supply} {blocks : List Descriptor}
    (hids : (Draft.ofBlocks s blocks).graph.shape.ids.Nodup) :
    List.Forall₂ (fun id x => (Draft.ofBlocks s blocks).graph.labelOf? id = some x.label)
      (Draft.ofBlocks s blocks).graph.arenaBlocks (Descriptor.listInOrder blocks) := by
  generalize hg : (Draft.ofBlocks s blocks).graph = g at hids ⊢
  have hlabels : g.nodes.filterMap Node.label? =
      (Descriptor.listInOrder blocks).map Descriptor.label := by
    rw [← labels, labels_eq_contents, ← hg, Draft.contents_ofBlocks, List.map_map]
    rfl
  have hfound : (g.nodes.filter Node.isBlock).map (fun n => g.labelOf? n.id) =
      (g.nodes.filter Node.isBlock).map Node.label? := by
    refine List.map_congr_left fun n hn => ?_
    rw [labelOf?, node?_eq_some hids (List.mem_of_mem_filter hn), Option.bind_some]
  have hmap := hfound.trans (map_label?_filter_isBlock g.nodes)
  rw [hlabels, List.map_map, ← List.forall₂_eq_eq_eq, List.forall₂_map_left_iff,
    List.forall₂_map_right_iff] at hmap
  exact List.forall₂_map_left_iff.2 hmap

end Graph

namespace Draft

theorem Reachable.distinct {d : Draft} (h : d.Reachable)
    (hbranches : ∀ n ∈ d.graph.nodes, ∀ c, n.conditional? = some c -> c.branchIds.Nodup) :
    d.graph.Distinct where
  label m hm n hn l hml hnl := by
    have hlabels : d.graph.labels.Nodup := by
      refine h.invariant (fun d => d.graph.labels.Nodup) (fun d hd => ?_)
        fun d stem c h => nodup_labels_apply h stem c
      rcases hd with hempty | ⟨definition, s, -, himport⟩
      · exact nodup_labels_opened (Or.inl hempty)
      · exact nodup_labels_opened (Or.inr ⟨definition, s, himport⟩)
    exact eq_of_nodup_filterMap hlabels hm hn hml hnl
  branches := hbranches

theorem IsImport.blocksOf_order {d : Draft} (h : d.IsImport) (hd : d.graph.Distinct) :
    d.graph.blocksOf d.graph.order = d.graph.arenaBlocks := by
  obtain ⟨definition, s, hbranches, himport⟩ := h
  obtain ⟨-, -, rfl⟩ := Definition.eq_of_toDraft? himport
  obtain ⟨run, hlaid⟩ := laid_ofBlocks s hbranches
  have hdepicts := Graph.depicts_inside hlaid.shape .root (Shape.hasScope_root _) definition.blocks
    (depicts_ofBlocks hlaid.shape)
  rw [Graph.blocksOf_order hlaid.shape hd]
  exact (Graph.leftUnique_labelOf? hd).forall₂ (hdepicts.imp fun _ _ hx => hx.labelOf?)
    (Graph.forall₂_labelOf?_ofBlocks hlaid.shape.distinct)

/-- However a graph was edited, its order is document order, and right after an import it is that of
the arena. -/
theorem inDocumentOrder {d : Draft} (h : d.Reachable)
    (hbranches : ∀ n ∈ d.graph.nodes, ∀ c, n.conditional? = some c -> c.branchIds.Nodup) :
    d.graph.InDocumentOrder ∧
      (d.IsImport -> d.graph.blocksOf d.graph.order = d.graph.arenaBlocks) := by
  obtain ⟨run, hlaid⟩ := h.laid
  have hd := h.distinct hbranches
  exact ⟨Graph.inDocumentOrder_of_laid hlaid.shape hd, fun himport => himport.blocksOf_order hd⟩

/-- The pause of `editedOrders` was added last and is listed before the report, in its branch. -/
theorem inDocumentOrder_editedOrders :
    editedOrders.Reachable ∧
      editedOrders.graph.arenaBlocks = ["#3", "#6", "#9", "#10", "#11"] ∧
      editedOrders.graph.inside .root = ["#3", "#6", "#9", "#11", "#10"] ∧
      editedOrders.graph.blocksOf editedOrders.graph.order = editedOrders.graph.inside .root ∧
      (ofBlocks {} Definition.orders.blocks).graph.blocksOf
          (ofBlocks {} Definition.orders.blocks).graph.order =
        (ofBlocks {} Definition.orders.blocks).graph.arenaBlocks := by
  have hdistinct : Definition.orders.DistinctBranches :=
    Definition.distinctBranches_of_problems (s := {}) Definition.problems_orders
  have himport : (ofBlocks {} Definition.orders.blocks).IsImport :=
    ⟨Definition.orders, {}, hdistinct, rfl⟩
  have hopened : (ofBlocks {} Definition.orders.blocks).Reachable := .start (Or.inr himport)
  have hedited : editedOrders.Reachable := hopened.applyAll _
  have hbranches : ∀ g : Graph, (g.nodes.all fun n =>
      n.conditional?.all fun c => decide c.branchIds.Nodup) ->
        ∀ n ∈ g.nodes, ∀ c, n.conditional? = some c -> c.branchIds.Nodup := by
    intro g hall n hn c hc
    have hnodup := List.all_eq_true.1 hall n hn
    rw [hc] at hnodup
    exact of_decide_eq_true hnodup
  refine ⟨hedited, by decide +kernel, by decide +kernel, ?_, ?_⟩
  · exact (inDocumentOrder hedited (hbranches _ (by decide +kernel))).1.top
  · exact (inDocumentOrder hopened (hbranches _ (by decide +kernel))).2 himport

end Draft
end Workflow
