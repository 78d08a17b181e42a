import Workflow.Proofs.Draft
import Workflow.Proofs.Edit.Attribute

/-!
# What the blocks of a graph carry

Labels and references are in the headings and the attributes of blocks.  These are listed
here in the order of the nodes, without ids and containers, and for each way to build or
change a graph it is said what becomes of the list.
-/

namespace Workflow

/-- The heading and the attributes of a block; markers have none. -/
def Content.carried? : Content -> Option (Heading × Block)
  | .block h b => some (h, b)
  | _ => none

theorem Content.carried?_eq_some {content : Content} {h : Heading} {b : Block} :
    content.carried? = some (h, b) <-> content = .block h b := by
  cases content <;> simp [carried?]

namespace Node

theorem block?_eq_some {n : Node} {b : Block} :
    n.block? = some b <-> ∃ h, n.content.carried? = some (h, b) := by
  cases hc : n.content <;> simp [block?, Content.carried?, hc]

theorem block?_of_carried {n : Node} {c : Heading × Block} (h : n.content.carried? = some c) :
    n.block? = some c.2 :=
  block?_eq_some.2 ⟨c.1, h⟩

theorem isBlock_of_carried {n : Node} {c : Heading × Block} (h : n.content.carried? = some c) :
    n.isBlock := by
  rw [isBlock, block?_of_carried h]
  rfl

theorem exists_carried_of_heading {n : Node} {h : Heading} (hn : n.heading? = some h) :
    ∃ b, n.content.carried? = some (h, b) := by
  cases hc : n.content with
  | start => simp [heading?, hc] at hn
  | insertionMarker => simp [heading?, hc] at hn
  | block h' b =>
      simp only [heading?, hc, Option.some.injEq] at hn
      exact ⟨b, Content.carried?_eq_some.2 (hn ▸ rfl)⟩

theorem exists_label {n : Node} (h : n.isBlock) : ∃ l, n.label? = some l := by
  obtain ⟨id, parent, content⟩ := n
  cases content with
  | start => cases h
  | insertionMarker => cases h
  | block heading b => exact ⟨heading.label, rfl⟩

theorem label?_mapBlock (f : Block -> Block) (n : Node) : (n.mapBlock f).label? = n.label? := by
  obtain ⟨id, parent, content⟩ := n
  cases content <;> rfl

theorem carried?_mapBlock (f : Block -> Block) (n : Node) :
    (n.mapBlock f).content.carried? = n.content.carried?.map fun c => (c.1, f c.2) := by
  obtain ⟨id, parent, content⟩ := n
  cases content <;> rfl

theorem carried?_mapHeading (f : Heading -> Heading) (n : Node) :
    (n.mapHeading f).content.carried? = n.content.carried?.map fun c => (f c.1, c.2) := by
  obtain ⟨id, parent, content⟩ := n
  cases content <;> rfl

end Node

namespace Graph

variable {g : Graph}

def contentsOf (nodes : List Node) : List (Heading × Block) :=
  nodes.filterMap fun n => n.content.carried?

/-- What the blocks of the graph carry, in the order of its nodes. -/
def contents (g : Graph) : List (Heading × Block) :=
  contentsOf g.nodes

theorem contentsOf_append (u v : List Node) :
    contentsOf (u ++ v) = contentsOf u ++ contentsOf v :=
  List.filterMap_append

theorem contentsOf_cons (n : Node) (v : List Node) :
    contentsOf (n :: v) = n.content.carried?.toList ++ contentsOf v := by
  cases hn : n.content.carried? <;> simp [contentsOf, hn]

theorem labels_eq_contents (g : Graph) : g.labels = g.contents.map fun c => c.1.label := by
  rw [contents, contentsOf, List.map_filterMap, labels]
  congr 1
  funext n
  obtain ⟨id, parent, content⟩ := n
  cases content <;> rfl

theorem mem_contents {c : Heading × Block} :
    c ∈ g.contents <-> ∃ n ∈ g.nodes, n.content.carried? = some c :=
  List.mem_filterMap

/-!
# Changing nodes
-/

theorem nodes_modifyNode (hids : (g.nodes.map Node.id).Nodup) (id : String) (f : Node -> Node) :
    (g.modifyNode id f).nodes = g.nodes.map fun n => if n.id = id then f n else n := by
  have hstay : ∀ {nodes : List Node}, (∀ m ∈ nodes, m.id ≠ id) ->
      (nodes.map fun m => if m.id = id then f m else m) = nodes := by
    intro nodes hne
    apply (List.map_congr_left _).trans (List.map_id nodes)
    intro m hm
    exact if_neg (hne m hm)
  cases hnode : g.node? id with
  | none =>
      rw [modifyNode_eq_of_none hnode, hstay]
      intro m hm hid
      have hfound := node?_eq_some ((ids_shape g).symm ▸ hids) hm
      rw [hid, hnode] at hfound
      cases hfound
  | some n =>
      rcases mem_of_node? hnode with ⟨-, hid⟩
      rcases modifyNode_eq_of_some hnode with ⟨u, v, hnodes, hmodify⟩
      rw [hnodes, List.map_append, List.map_cons, List.nodup_middle, List.nodup_cons,
        List.mem_append, not_or] at hids
      have hne : ∀ {part : List Node}, n.id ∉ part.map Node.id -> ∀ m ∈ part, m.id ≠ id := by
        intro part hnot m hm hsame
        exact hnot (hid ▸ hsame ▸ List.mem_map_of_mem hm)
      rw [hmodify, hnodes, List.map_append, List.map_cons, if_pos hid, hstay (hne hids.1.1),
        hstay (hne hids.1.2)]

def carriedAt? (g : Graph) (id : String) : Option (Heading × Block) :=
  (g.node? id).bind fun n => n.content.carried?

theorem conditional?_iff_carriedAt? {id : String} {c : Conditional} :
    g.conditional? id = some c <-> ∃ h, g.carriedAt? id = some (h, .conditional c) := by
  rw [conditional?_eq_some, block?, carriedAt?]
  cases g.node? id with
  | none => simp
  | some n => simp [Node.block?_eq_some]

/-- A change of one node changes what it carries, if it carries anything. -/
theorem contents_modifyNode {id : String} {f : Node -> Node}
    {f' : Heading × Block -> Heading × Block}
    (hf : ∀ n, g.node? id = some n -> (f n).content.carried? = n.content.carried?.map f') :
    (g.carriedAt? id = none ∧ (g.modifyNode id f).contents = g.contents) ∨
      ∃ u c v, g.carriedAt? id = some c ∧ g.contents = u ++ c :: v ∧
        (g.modifyNode id f).contents = u ++ f' c :: v := by
  unfold carriedAt?
  cases hn : g.node? id with
  | none => exact Or.inl ⟨rfl, by rw [modifyNode_eq_of_none hn]⟩
  | some n =>
      obtain ⟨u, v, hnodes, hmodify⟩ := modifyNode_eq_of_some hn
      have hsplit : ∀ m : Node, contentsOf (u ++ m :: v) =
          contentsOf u ++ (m.content.carried?.toList ++ contentsOf v) := by
        intro m
        rw [contentsOf_append, contentsOf_cons]
      rw [contents, contents, hnodes, hmodify, hsplit, hsplit, hf n hn, Option.bind_some]
      cases hc : n.content.carried? with
      | none => exact Or.inl ⟨rfl, rfl⟩
      | some c => exact Or.inr ⟨_, c, _, rfl, rfl, rfl⟩

theorem contents_mapBlock {id : String} {f : Block -> Block} {h : Heading} {b b' : Block}
    (hc : g.carriedAt? id = some (h, b)) (hb : f b = b') :
    ∃ u v, g.contents = u ++ (h, b) :: v ∧
      (g.modifyNode id (Node.mapBlock f)).contents = u ++ (h, b') :: v := by
  have hf : ∀ n, g.node? id = some n -> _ := fun n _ => n.carried?_mapBlock f
  rcases contents_modifyNode hf with ⟨hnone, -⟩ | ⟨u, c, v, hc', hcontents, hchanged⟩
  · cases hc.symm.trans hnone
  · cases hc.symm.trans hc'
    exact ⟨u, v, hcontents, hb ▸ hchanged⟩

theorem contents_modifyConditional {id : String} {f : Conditional -> Conditional}
    {c : Conditional} (hc : g.conditional? id = some c) :
    ∃ h u v, g.contents = u ++ (h, .conditional c) :: v ∧
      (g.modifyConditional id f).contents = u ++ (h, .conditional (f c)) :: v := by
  obtain ⟨h, hcarried⟩ := conditional?_iff_carriedAt?.1 hc
  exact ⟨h, contents_mapBlock hcarried rfl⟩

theorem labels_modifyNode {id : String} {f : Node -> Node} (hf : ∀ n, (f n).label? = n.label?) :
    (g.modifyNode id f).labels = g.labels := by
  cases hn : g.node? id with
  | none => rw [modifyNode_eq_of_none hn]
  | some n =>
      obtain ⟨u, v, hnodes, hmodify⟩ := modifyNode_eq_of_some hn
      rw [labels, labels, hnodes, hmodify]
      simp only [List.filterMap_append, List.filterMap_cons, hf]

/-!
# Changing several blocks
-/

theorem nodes_modifyBlocks {f : Block -> Block} {ids : List String} :
    ∀ {g : Graph}, (g.nodes.map Node.id).Nodup -> ids.Nodup ->
      (g.modifyBlocks ids f).nodes =
        g.nodes.map fun n => if n.id ∈ ids then n.mapBlock f else n := by
  induction ids with
  | nil =>
      intro g _ _
      exact (List.map_id g.nodes).symm
  | cons id ids ih =>
      intro g hids hnodup
      rcases List.nodup_cons.1 hnodup with ⟨hnew, hrest⟩
      have hone := nodes_modifyNode hids id (Node.mapBlock f)
      have hkeeps : ∀ n : Node, (if n.id = id then n.mapBlock f else n).id = n.id := by
        intro n
        split
        · exact n.id_mapBlock f
        · rfl
      have hids' : ((g.modifyNode id (Node.mapBlock f)).nodes.map Node.id).Nodup := by
        rw [hone, List.map_map]
        simpa only [Function.comp_def, hkeeps] using hids
      -- the first id does not come again, so its node is changed here and nowhere else
      rw [modifyBlocks, List.foldl_cons, ← modifyBlocks, ih hids' hrest, hone, List.map_map]
      apply List.map_congr_left
      intro n _
      rw [Function.comp_apply, hkeeps]
      by_cases hid : n.id = id
      · simp only [hid, hnew, if_false, if_true, List.mem_cons_self]
      · simp only [hid, if_false, List.mem_cons, false_or]

theorem labels_modifyBlocks (f : Block -> Block) (ids : List String) :
    ∀ g : Graph, (g.modifyBlocks ids f).labels = g.labels := by
  induction ids with
  | nil => exact fun _ => rfl
  | cons id ids ih => exact fun g => (ih _).trans (labels_modifyNode (Node.label?_mapBlock f))

theorem labels_pruneDangling (g : Graph) : g.pruneDangling.labels = g.labels :=
  labels_modifyBlocks _ _ g

theorem labels_pruneAll (labels : List String) :
    ∀ g : Graph, (g.pruneAll labels).labels = g.labels := by
  induction labels with
  | nil => exact fun _ => rfl
  | cons label labels ih =>
      exact fun g => (ih (g.prune label)).trans (labels_modifyBlocks _ _ g)

theorem labels_repoint (g : Graph) (old new : String) :
    (g.repoint old new).labels = g.labels :=
  labels_modifyBlocks _ _ g

end Graph

namespace Draft

/-!
# Creating blocks
-/

theorem contents_addNode (d : Draft) (p : Option String) (c : Content) :
    (d.addNode p c).2.graph.contents = d.graph.contents ++ c.carried?.toList := by
  simp only [addNode, Graph.contents, Graph.contentsOf_append, Graph.contentsOf_cons]
  exact congrArg _ (List.append_nil _)

theorem contents_addEdge (d : Draft) (source target : String) (kind : EdgeKind)
    (tag : Option BranchTag) (hidden : Bool) :
    (d.addEdge source target kind tag hidden).graph.contents = d.graph.contents := rfl

theorem nodes_addBody (d : Draft) (container : String) (b : Block) :
    (d.addBody container b).graph.nodes = d.graph.nodes ++
      [⟨d.supply.upcoming 1, some container, .start⟩,
        ⟨d.supply.upcoming 2, some container, .insertionMarker⟩] := by
  have hedges : ∀ (bs : List Branch) (start marker active : String) (d : Draft),
      (bs.foldl (fun d b => d.addEdge start marker .branch (some ⟨container, b.id⟩)
        (b.id != active)) d).graph.nodes = d.graph.nodes := by
    intro bs start marker active
    induction bs with
    | nil => exact fun d => rfl
    | cons b bs ih => exact fun d => ih _
  have hmarkers : ((d.addNode (some container) .start).2.addNode (some container)
      .insertionMarker).2.graph.nodes = d.graph.nodes ++
        [⟨d.supply.upcoming 1, some container, .start⟩,
          ⟨d.supply.upcoming 2, some container, .insertionMarker⟩] :=
    List.append_assoc _ _ _
  cases b with
  | leaf l => exact hmarkers
  | loop a => exact hmarkers
  | conditional c => exact (hedges _ _ _ _ _).trans hmarkers

theorem contents_addBody (d : Draft) (container : String) (b : Block) :
    (d.addBody container b).graph.contents = d.graph.contents := by
  rw [Graph.contents, nodes_addBody, Graph.contentsOf_append]
  exact List.append_nil _

theorem contents_addBlock (d : Draft) (p : Option String) (h : Heading) (b : Block) :
    (d.addBlock p h b).2.graph.contents = d.graph.contents ++ [(h, b)] := by
  have hnode := contents_addNode d p (.block h b)
  rw [addBlock]
  cases hcontainer : b.isContainer with
  | false => exact hnode
  | true => exact (contents_addBody _ _ _).trans hnode

theorem contents_modify {d : Draft} {f : Graph -> Graph} (h : (f d.graph).nodes = d.graph.nodes) :
    (d.modify f).graph.contents = d.graph.contents := by
  rw [modify, Graph.contents, h]
  rfl

theorem contents_closeAt (d : Draft) (a : Anchor) (hidden : Bool) :
    (d.closeAt a hidden).graph.contents = d.graph.contents := by
  unfold closeAt
  split <;> rfl

theorem contents_openAt (d : Draft) (a : Anchor) :
    (d.openAt a).graph.contents = d.graph.contents := by
  unfold openAt
  split
  · exact contents_modify rfl
  · rfl

theorem contents_putAfter (d : Draft) (a : Anchor) (kind : Option EdgeKind) (hidden : Bool)
    (h : Heading) (b : Block) :
    (d.putAfter a kind hidden h b).2.graph.contents = d.graph.contents ++ [(h, b)] := by
  have hblock := contents_addBlock d a.parent h b
  simp only [putAfter]
  cases a.previous with
  | none => exact hblock
  | some p => exact hblock

theorem contents_putRow (kind : Option EdgeKind) (hidden : Bool) (row : List (Heading × Block)) :
    ∀ (d : Draft) (a : Anchor),
      (d.putRow kind hidden a row).2.graph.contents = d.graph.contents ++ row := by
  induction row with
  | nil =>
      intro d a
      exact (contents_closeAt d a hidden).trans (List.append_nil _).symm
  | cons c row ih =>
      intro d a
      obtain ⟨h, b⟩ := c
      refine (ih (d.putAfter a kind hidden h b).2 _).trans ?_
      rw [contents_putAfter, List.append_assoc]
      rfl

theorem contents_splice (d : Draft) (a : Anchor) (kind : Option EdgeKind)
    (row : List (Heading × Block)) :
    (d.splice a kind row).2.graph.contents = d.graph.contents ++ row := by
  rw [splice, contents_putRow, contents_openAt]

theorem labels_openAt (d : Draft) (a : Anchor) : (d.openAt a).graph.labels = d.graph.labels := by
  rw [Graph.labels_eq_contents, contents_openAt, ← Graph.labels_eq_contents]

theorem labels_closeAt (d : Draft) (a : Anchor) (hidden : Bool) :
    (d.closeAt a hidden).graph.labels = d.graph.labels := by
  rw [Graph.labels_eq_contents, contents_closeAt, ← Graph.labels_eq_contents]

theorem labels_putAfter (d : Draft) (a : Anchor) (kind : Option EdgeKind) (hidden : Bool)
    (heading : Heading) (b : Block) :
    (d.putAfter a kind hidden heading b).2.graph.labels = d.graph.labels ++ [heading.label] := by
  rw [Graph.labels_eq_contents, contents_putAfter, List.map_append, ← Graph.labels_eq_contents]
  rfl

theorem labels_splice (d : Draft) (a : Anchor) (kind : Option EdgeKind)
    (row : List (Heading × Block)) :
    (d.splice a kind row).2.graph.labels = d.graph.labels ++ row.map fun c => c.1.label := by
  rw [Graph.labels_eq_contents, contents_splice, List.map_append, ← Graph.labels_eq_contents]

end Draft
end Workflow
