import Workflow.Proofs.Contents
import Workflow.Proofs.Conversion.Depiction
import Workflow.Proofs.Conversion.Import

/-!
# Imported definitions are depicted

The graph of a definition depicts the blocks of the definition, and its nodes carry them
in document order.  Each block is added with everything nested in it, and nothing that is
added later takes a node or an edge away, so it is enough that the graph at the end holds
what was added for the block.
-/

namespace Workflow

def Descriptor.carried (x : Descriptor) : Heading × Block :=
  (x.heading, x.block)

namespace Draft

/-!
# Blocks in document order
-/

theorem contents_addContainer (d : Draft) (parent : Option String) (h : Heading) (b : Block) :
    (d.addContainer parent h b).graph.contents = d.graph.contents ++ [(h, b)] := by
  rw [addContainer, contents_addNode, contents_addNode, contents_addNode]
  simp [Content.carried?]

mutual

theorem contents_addDescriptor : ∀ (x : Descriptor) (d : Draft) (parent : Option String),
    (d.addDescriptor parent x).2.graph.contents =
      d.graph.contents ++ x.inOrder.map Descriptor.carried
  | .leaf h l, d, parent => contents_addNode d parent (.block h (.leaf l))
  | .loop h a children, d, parent => by
      have hchildren := contents_addChain children (d.addContainer parent h (.loop a))
        (some (d.supply.upcoming 1)) none false (d.supply.upcoming 3) (d.supply.upcoming 2)
      refine hchildren.trans ?_
      rw [contents_addContainer, List.append_assoc]
      rfl
  | .conditional h branches, d, parent => by
      have hbranches := contents_addBranches branches
        (d.addContainer parent h (Descriptor.conditional h branches).block)
        (d.supply.upcoming 1) (d.supply.upcoming 2) (d.supply.upcoming 3) false
      refine hbranches.trans ?_
      rw [contents_addContainer, List.append_assoc]
      rfl

theorem contents_addChain : ∀ (blocks : List Descriptor) (d : Draft) (parent : Option String)
    (tag : Option BranchTag) (hidden : Bool) (marker previous : String),
    (d.addChain parent tag hidden marker previous blocks).graph.contents =
      d.graph.contents ++ (Descriptor.listInOrder blocks).map Descriptor.carried
  | [], d, parent, tag, hidden, marker, previous => (List.append_nil _).symm
  | x :: rest, d, parent, tag, hidden, marker, previous => by
      rw [addChain, contents_addChain rest, link, contents_addEdge, contents_addDescriptor x,
        Descriptor.listInOrder, List.map_append, List.append_assoc]

theorem contents_addBranches : ∀ (branches : List (Branch × List Descriptor)) (d : Draft)
    (container start marker : String) (hidden : Bool),
    (d.addBranches container start marker hidden branches).graph.contents =
      d.graph.contents ++ (Descriptor.branchesInOrder branches).map Descriptor.carried
  | [], d, container, start, marker, hidden => (List.append_nil _).symm
  | (b, children) :: rest, d, container, start, marker, hidden => by
      rw [addBranches, contents_addBranches rest, contents_addChain children,
        Descriptor.branchesInOrder, List.map_append, List.append_assoc]

end

theorem contents_ofBlocks (s : Supply) (blocks : List Descriptor) :
    (ofBlocks s blocks).graph.contents =
      (Descriptor.listInOrder blocks).map Descriptor.carried := by
  rw [ofBlocks, contents_addChain]
  rfl

theorem exists_node_of_mem {s : Supply} {blocks : List Descriptor} {x : Descriptor}
    (hx : x ∈ Descriptor.listInOrder blocks) :
    ∃ n ∈ (ofBlocks s blocks).graph.nodes, n.content = .block x.heading x.block := by
  have hmem : x.carried ∈ (ofBlocks s blocks).graph.contents := by
    rw [contents_ofBlocks]
    exact List.mem_map_of_mem hx
  obtain ⟨n, hn, hcarried⟩ := Graph.mem_contents.1 hmem
  exact ⟨n, hn, Content.carried?_eq_some.1 hcarried⟩

theorem exists_carried {s : Supply} {blocks : List Descriptor} {n : Node} {h : Heading} {b : Block}
    (hn : n ∈ (ofBlocks s blocks).graph.nodes) (hc : n.content = .block h b) :
    ∃ x ∈ Descriptor.listInOrder blocks, x.heading = h ∧ x.block = b := by
  have hmem : (h, b) ∈ (ofBlocks s blocks).graph.contents :=
    Graph.mem_contents.2 ⟨n, hn, Content.carried?_eq_some.2 hc⟩
  rw [contents_ofBlocks] at hmem
  obtain ⟨x, hx, hcarried⟩ := List.mem_map.1 hmem
  exact ⟨x, hx, congrArg Prod.fst hcarried, congrArg Prod.snd hcarried⟩

/-!
# Depicted while it is added
-/

section Depicts

variable {run : Scope -> List String} {final : Draft} (h : final.graph.shape.Laid run)
include h

/-- A chain is a run once it is seen to start at the start marker. -/
theorem depictsChain_of_run {s : Scope} (hs : final.graph.shape.HasScope s)
    {start : String} (marker : String) {blocks : List Descriptor}
    (hstart : ⟨start, s.parent, .start⟩ ∈ final.graph.shape.slots)
    (hchain : ∀ rest, run s = start :: rest ->
      ∃ ids, rest = ids ++ [marker] ∧ final.graph.DepictsChain ids blocks) :
    final.graph.DepictsChain (final.graph.blocksIn s) blocks := by
  obtain ⟨start', marker', hrun, hstart', -⟩ := Graph.run_eq_blocksIn h hs
  have heq : start' = start := (h.start s.parent (h.parents _ hstart)).unique hstart' hstart
  obtain ⟨ids, hids, hdepicts⟩ := hchain _ (heq ▸ hrun)
  rw [(List.append_inj' hids rfl).1]
  exact hdepicts

theorem carries_addContainer {d : Draft} {parent : Option String} {x : Descriptor}
    (hext : Extends (d.addContainer parent x.heading x.block).graph final)
    (hopen : x.block.reopened = x.block) :
    final.graph.Carries (d.supply.upcoming 1) x ∧
    ⟨d.supply.upcoming 1, parent, x.block.role⟩ ∈ final.graph.shape.slots ∧
    ⟨d.supply.upcoming 2, some (d.supply.upcoming 1), .start⟩ ∈ final.graph.shape.slots ∧
    ⟨d.supply.upcoming 3, some (d.supply.upcoming 1), .insertionMarker⟩ ∈
      final.graph.shape.slots := by
  have hslots := slots_subset_of_extends hext
  rw [shape_addContainer] at hslots
  refine ⟨?_, hslots (by simp), hslots (by simp), hslots (by simp)⟩
  have hmem : ⟨d.supply.upcoming 1, parent, .block x.heading x.block⟩ ∈ final.graph.nodes := by
    apply hext.nodes
    simp only [addContainer, addNode, List.mem_append, List.mem_singleton]
    exact Or.inl (Or.inl (Or.inr rfl))
  have hnode := Graph.node?_eq_some h.distinct hmem
  rw [Graph.Carries, hnode, Option.map_some, Content.reopened, hopen]

theorem exists_rest_of_edge {d : Draft} {s : Scope} {u rest : List String} {p q : String}
    {kind : EdgeKind} {hidden : Bool} (hs : final.graph.shape.HasScope s)
    (hrun : run s = u ++ p :: rest) (hext : Extends (d.addEdge p q kind s.tag hidden).graph final) :
    ∃ rest', rest = q :: rest' := by
  have hmem : (⟨p, q, s.tag⟩ : Link) ∈ final.graph.shape.links := by
    refine Graph.mem_links.2 ⟨⟨d.supply.naming.edge (d.supply.edges + 1), p, q, kind, s.tag, hidden⟩,
      hext.edges ?_, rfl⟩
    simp [addEdge]
  have hadjacent : Adjacent (run s) p q :=
    (h.adjacent_iff hs).2 ⟨hmem, by simp [hrun]⟩
  rw [hrun] at hadjacent
  exact hadjacent.exists_rest (hrun ▸ (h.runs s hs).nodup)

mutual

theorem depicts_addDescriptor : ∀ (x : Descriptor) {d : Draft} {parent : Option String},
    Extends (d.addDescriptor parent x).2.graph final ->
      final.graph.Depicts (d.addDescriptor parent x).1 x
  | .leaf heading l, d, parent, hext => by
      have hmem : ⟨d.supply.upcoming 1, parent, .block heading (.leaf l)⟩ ∈ final.graph.nodes := by
        apply hext.nodes
        simp only [addDescriptor, addNode, List.mem_append, List.mem_singleton]
        exact Or.inr rfl
      have hnode := Graph.node?_eq_some h.distinct hmem
      rw [Graph.Depicts, Graph.Carries]
      exact congrArg _ hnode
  | .loop heading a children, d, parent, hext => by
      have hext : Extends ((d.addContainer parent heading (.loop a)).addChain
          (some (d.supply.upcoming 1)) none false (d.supply.upcoming 3)
          (d.supply.upcoming 2) children).graph final := hext
      obtain ⟨hcarries, hslot, hstart, hmarker⟩ := carries_addContainer h
        (x := .loop heading a children)
        (((creation_extends _).addChain children _ _ _ _ _ _ (.refl _)).trans hext) rfl
      have hs : final.graph.shape.HasScope (.body (d.supply.upcoming 1)) :=
        Or.inr ⟨_, hslot, List.mem_singleton.2 rfl⟩
      rw [Graph.Depicts]
      refine ⟨hcarries, depictsChain_of_run h hs (d.supply.upcoming 3) hstart fun rest hrun => ?_⟩
      exact depicts_addChain children (u := []) hs hrun hmarker hext
  | .conditional heading branches, d, parent, hext => by
      have hext : Extends ((d.addContainer parent heading
          (Descriptor.conditional heading branches).block).addBranches
          (d.supply.upcoming 1) (d.supply.upcoming 2) (d.supply.upcoming 3) false
          branches).graph final := hext
      obtain ⟨hcarries, hslot, hstart, hmarker⟩ := carries_addContainer h
        (x := .conditional heading branches)
        (((creation_extends _).addBranches branches _ _ _ _ _ (.refl _)).trans hext) (by
          simp [Descriptor.block, Block.reopened, Conditional.branchIds, Function.comp_def])
      rw [Graph.Depicts]
      refine ⟨hcarries, depicts_addBranches branches (fun b hb => Or.inr ⟨_, hslot, ?_⟩)
        hstart hmarker hext⟩
      exact List.mem_map_of_mem (List.mem_map_of_mem (List.mem_map_of_mem hb))

theorem depicts_addChain : ∀ (blocks : List Descriptor) {d : Draft} {s : Scope} {hidden : Bool}
    {u rest : List String} {p n : String}, final.graph.shape.HasScope s ->
      run s = u ++ p :: rest -> ⟨n, s.parent, .insertionMarker⟩ ∈ final.graph.shape.slots ->
      Extends (d.addChain s.parent s.tag hidden n p blocks).graph final ->
      ∃ ids, rest = ids ++ [n] ∧ final.graph.DepictsChain ids blocks
  | [], d, s, hidden, u, rest, p, n, hs, hrun, hmarker, hext => by
      obtain ⟨rest', rfl⟩ := exists_rest_of_edge h hs hrun hext
      obtain rfl : rest' = [] := h.eq_nil_of_marker hs hmarker (u := u ++ [p]) (by simpa using hrun)
      exact ⟨[], rfl, by simp [Graph.DepictsChain]⟩
  | x :: blocks, d, s, hidden, u, rest, p, n, hs, hrun, hmarker, hext => by
      have hext : Extends (((d.addDescriptor s.parent x).2.addEdge p (d.addDescriptor s.parent x).1
          (if s.tag.isSome then .branch else .insertable) s.tag hidden).addChain s.parent s.tag
          hidden n (d.addDescriptor s.parent x).1 blocks).graph final := hext
      have hlink := ((creation_extends _).addChain blocks _ _ _ _ _ _ (.refl _)).trans hext
      obtain ⟨rest', rfl⟩ := exists_rest_of_edge h hs hrun hlink
      have hx := depicts_addDescriptor x
        (((creation_extends _).addEdge _ _ _ _ _ _ (.refl _)).trans hlink)
      obtain ⟨ids, rfl, hids⟩ := depicts_addChain blocks (u := u ++ [p]) hs
        (by simpa using hrun) hmarker hext
      refine ⟨_ :: ids, rfl, ?_⟩
      rw [Graph.DepictsChain]
      exact ⟨hx, hids⟩

theorem depicts_addBranches : ∀ (branches : List (Branch × List Descriptor)) {d : Draft}
    {id start marker : String} {hidden : Bool},
    (∀ b ∈ branches, final.graph.shape.HasScope (.ofBranch id b.1.id)) ->
      ⟨start, some id, .start⟩ ∈ final.graph.shape.slots ->
      ⟨marker, some id, .insertionMarker⟩ ∈ final.graph.shape.slots ->
      Extends (d.addBranches id start marker hidden branches).graph final ->
      final.graph.DepictsBranches id branches
  | [], _, _, _, _, _, _, _, _, _ => by simp [Graph.DepictsBranches]
  | (b, children) :: rest, d, id, start, marker, hidden, hs, hstart, hmarker, hext => by
      have hb := hs _ List.mem_cons_self
      have hext : Extends ((d.addChain (some id) (some ⟨id, b.id⟩) hidden marker start
          children).addBranches id start marker true rest).graph final := hext
      have hchain := ((creation_extends _).addBranches rest _ _ _ _ _ (.refl _)).trans hext
      rw [Graph.DepictsBranches]
      refine ⟨depictsChain_of_run h hb marker hstart fun ids hrun => ?_, ?_⟩
      · exact depicts_addChain children (s := .ofBranch id b.id) (u := []) hb hrun hmarker hchain
      · exact depicts_addBranches rest (fun c hc => hs c (List.mem_cons_of_mem _ hc)) hstart
          hmarker hext

end

end Depicts

/-- The graph of a document that is laid out depicts the document. -/
theorem depicts_ofBlocks {s : Supply} {blocks : List Descriptor} {run : Scope -> List String}
    (h : (ofBlocks s blocks).graph.shape.Laid run) :
    (ofBlocks s blocks).graph.DepictsChain ((ofBlocks s blocks).graph.blocksIn .root) blocks := by
  have hmarkers := (creation_extends _).addChain blocks
    ((Draft.addNode { supply := s } none .start).2.addNode none .insertionMarker).2
    none none false (s.upcoming 2) (s.upcoming 1) (.refl _)
  have hstart : ⟨s.upcoming 1, none, .start⟩ ∈ (ofBlocks s blocks).graph.shape.slots :=
    Graph.slot_mem (n := ⟨s.upcoming 1, none, .start⟩) (hmarkers.nodes List.mem_cons_self)
  have hmarker : ⟨s.upcoming 2, none, .insertionMarker⟩ ∈ (ofBlocks s blocks).graph.shape.slots :=
    Graph.slot_mem (n := ⟨s.upcoming 2, none, .insertionMarker⟩)
      (hmarkers.nodes (List.mem_cons_of_mem _ List.mem_cons_self))
  refine depictsChain_of_run h (Shape.hasScope_root _) (s.upcoming 2) hstart fun rest hrun => ?_
  exact depicts_addChain h blocks (s := .root) (u := []) (Shape.hasScope_root _) hrun hmarker
    (.refl _)

end Draft
end Workflow
