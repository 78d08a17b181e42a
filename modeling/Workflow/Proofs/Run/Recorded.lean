import Workflow.Proofs.Reference.Draft
import Workflow.Proofs.Run.Labels
import Workflow.Proofs.Run.Rows

/-!
# Inserting recorded blocks

Recorded blocks are inserted all or not at all.  They stand in a row between the ends of the
anchor, under the labels that their blocks would get in turn, with what was recorded of them less
the references to labels that no block carries.  Blocks as their kinds make them come out as if
they were inserted in turn.
-/

namespace Workflow

namespace Draft

/-- The nodes of a row: its blocks in their order, and the markers in the bodies of these. -/
structure RowNodes (added : List Node) (parent : Option String) (ids : List String)
    (row : List (Heading × Block)) : Prop where
  length : ids.length = row.length
  blocks : added.filter Node.isBlock =
    (ids.zip row).map fun c => ⟨c.1, parent, .block c.2.1 c.2.2⟩
  markers : ∀ m ∈ added, m.isBlock = false -> ∃ id ∈ ids, m.parent = some id

end Draft

/-- The labels of the blocks with some ids. -/
def Graph.labelsAt (g : Graph) (ids : List String) : List (Option String) :=
  ids.map fun id => (g.node? id).bind Node.label?

/-- Recorded blocks are new in a graph, in a row between the ends of an anchor. -/
structure Graph.GainsRow (g g' : Graph) (a : Anchor) (ids labels : List String)
    (blocks : List RecordedBlock) : Prop where
  lengths : ids.length = blocks.length ∧ labels.length = blocks.length
  fresh : ids.Nodup ∧ ∀ n ∈ g.nodes, n.id ∉ ids
  labelled : g'.labels = g.labels ++ labels
  nodes : ∃ added absent, (∀ l ∈ absent, l ∉ g'.labels) ∧
    g'.nodes = (g.nodes ++ added).map (Node.mapBlock (Block.without absent)) ∧
    Draft.RowNodes added a.parent ids (Draft.recordedRow labels blocks)
  settled : g'.dangling = []
  chain : ∃ u p n v, a.previous = some p ∧ a.next = some n ∧
    g.chain a.place = u ++ p :: n :: v ∧ g'.chain a.place = u ++ p :: (ids ++ n :: v)
  others : ∀ t ∈ g.scopes, t ≠ a.place -> t ∈ g'.scopes ∧ g'.chain t = g.chain t

/-!
# The nodes of a row
-/

namespace Draft

variable {d : Draft} {run : Scope -> List String} {a : Anchor} {added : List Node}
  {parent : Option String} {ids : List String} {row : List (Heading × Block)}

theorem filter_bodyNodes (id start marker : String) (b : Block) :
    (bodyNodes id start marker b).filter Node.isBlock = [] := by
  apply List.filter_eq_nil_iff.2
  intro m hm
  rw [Node.isBlock, (mem_bodyNodes hm).2.2.2]
  exact Bool.false_ne_true

theorem RowNodes.cons (h : RowNodes added parent ids row) (id start marker : String)
    (heading : Heading) (b : Block) :
    RowNodes (⟨id, parent, .block heading b⟩ :: bodyNodes id start marker b ++ added) parent
      (id :: ids) ((heading, b) :: row) where
  length := congrArg (· + 1) h.length
  blocks := by
    rw [List.filter_append, List.filter_cons_of_pos rfl, filter_bodyNodes, h.blocks]
    rfl
  markers := by
    intro m hm hmarker
    rcases List.mem_append.1 hm with hm | hm
    · rcases List.mem_cons.1 hm with rfl | hm
      · cases hmarker
      · exact ⟨id, List.mem_cons_self, (mem_bodyNodes hm).2.1⟩
    · rcases h.markers m hm hmarker with ⟨id', hid', hparent⟩
      exact ⟨id', List.mem_cons_of_mem _ hid', hparent⟩

theorem RowNodes.map_id (h : RowNodes added parent ids row) :
    (added.filter Node.isBlock).map Node.id = ids := by
  rw [h.blocks, List.map_map]
  exact List.map_fst_zip h.length.le

theorem RowNodes.map_label (h : RowNodes added parent ids row) :
    (added.filter Node.isBlock).map Node.label? = row.map fun c => some c.1.label := by
  have hrow := congrArg (List.map fun c => some c.1.label) (List.map_snd_zip h.length.ge)
  rw [List.map_map] at hrow
  rw [h.blocks, List.map_map, ← hrow]
  rfl

theorem RowNodes.labelsAt (h : RowNodes added parent ids row) {g : Graph}
    (hids : g.shape.ids.Nodup) (hkept : added ⊆ g.nodes) :
    g.labelsAt ids = row.map fun c => some c.1.label := by
  rw [← h.map_label, ← h.map_id, Graph.labelsAt, List.map_map]
  apply List.map_congr_left
  intro m hm
  have hnode := Graph.node?_eq_some hids (hkept (List.mem_of_mem_filter hm))
  rw [Function.comp_apply, hnode, Option.bind_some]

theorem nodes_putAfter (d : Draft) (a : Anchor) (kind : Option EdgeKind) (hidden : Bool)
    (heading : Heading) (b : Block) :
    (d.putAfter a kind hidden heading b).2.graph.nodes = d.graph.nodes ++
      ⟨d.supply.upcoming 1, a.parent, .block heading b⟩ ::
        bodyNodes (d.supply.upcoming 1) (d.supply.upcoming 2) (d.supply.upcoming 3) b := by
  have hblock := nodes_addBlock d a.parent heading b
  unfold putAfter
  cases a.previous with
  | none => exact hblock
  | some p => exact hblock

theorem exists_nodes_putRow (kind : Option EdgeKind) (hidden : Bool)
    (row : List (Heading × Block)) : ∀ (d : Draft) (a : Anchor), ∃ added,
      (d.putRow kind hidden a row).2.graph.nodes = d.graph.nodes ++ added ∧
        RowNodes added a.parent (d.putRow kind hidden a row).1 row := by
  induction row with
  | nil =>
      intro d a
      refine ⟨[], ?_, rfl, rfl, fun m hm => absurd hm List.not_mem_nil⟩
      rw [List.append_nil, putRow, closeAt]
      split
      · rfl
      · rfl
  | cons entry row ih =>
      intro d a
      rcases ih (d.putAfter a kind hidden entry.1 entry.2).2
        { a with previous := some (d.putAfter a kind hidden entry.1 entry.2).1 } with
        ⟨added, hnodes, hrow⟩
      have hfirst := hrow.cons (d.supply.upcoming 1) (d.supply.upcoming 2) (d.supply.upcoming 3)
        entry.1 entry.2
      rw [nodes_putAfter, List.append_assoc] at hnodes
      rw [putAfter_fst] at hfirst
      refine ⟨_, hnodes, ?_⟩
      simp only [putRow, putAfter_fst]
      exact hfirst

theorem exists_nodes_splice (d : Draft) (a : Anchor) (kind : Option EdgeKind)
    (row : List (Heading × Block)) : ∃ added,
      (d.splice a kind row).2.graph.nodes = d.graph.nodes ++ added ∧
        RowNodes added a.parent (d.splice a kind row).1 row := by
  rcases exists_nodes_putRow kind (a.tag.any d.graph.isHiddenBranch) row (d.openAt a) a with
    ⟨added, hnodes, hrow⟩
  have hopen : (d.openAt a).graph.nodes = d.graph.nodes := by
    unfold openAt
    split
    · rfl
    · rfl
  rw [hopen] at hnodes
  exact ⟨added, hnodes, hrow⟩

/-!
# Rows on laid out graphs
-/

theorem RowNodes.fresh (h : RowNodes added parent ids row) {nodes : List Node}
    (hids : ((nodes ++ added).map Node.id).Nodup) : ids.Nodup ∧ ∀ n ∈ nodes, n.id ∉ ids := by
  rw [List.map_append] at hids
  rcases List.nodup_append.1 hids with ⟨-, hadded, hapart⟩
  have hsublist : ids.Sublist (added.map Node.id) := by
    rw [← h.map_id]
    exact List.filter_sublist.map Node.id
  constructor
  · exact hsublist.nodup hadded
  · intro n hn hid
    exact hapart _ (List.mem_map_of_mem hn) _ (hsublist.subset hid) rfl

theorem labels_recordedRow {labels : List String} {blocks : List RecordedBlock}
    (hlength : labels.length = blocks.length) :
    ((recordedRow labels blocks).map fun c => c.1.label) = labels :=
  labels_zipWith_heading labels blocks hlength

/-- A row stands where it is put, and nothing dangles once references are cleared. -/
theorem Laid.gainsRow_splice (h : d.Laid run) (hvalid : a.isValid d.graph)
    (kind : Option EdgeKind) {labels : List String} {blocks : List RecordedBlock}
    (hlength : labels.length = blocks.length) :
    d.graph.GainsRow (d.splice a kind (recordedRow labels blocks)).2.graph.pruneDangling
      a (d.splice a kind (recordedRow labels blocks)).1 labels blocks := by
  have hs := ((Anchor.isValid_iff h.shape).1 hvalid).1
  rcases h.splice kind hvalid (recordedRow labels blocks) with
    ⟨run', u, p, n, v, hlaid, hp, hn, hrun, hrun', hothers⟩
  rcases exists_nodes_splice d a kind (recordedRow labels blocks) with ⟨added, hnodes, hrow⟩
  have hlabels := labels_splice d a kind (recordedRow labels blocks)
  rw [labels_recordedRow hlength] at hlabels
  generalize d.splice a kind (recordedRow labels blocks) = put at *
  have hids := hlaid.shape.distinct
  have hpruned := hlaid.shape
  rw [← Graph.shape_pruneDangling] at hpruned
  constructor
  case lengths =>
    constructor
    · rw [hrow.length, recordedRow, List.length_zipWith, hlength, Nat.min_self]
    · exact hlength
  case fresh =>
    apply hrow.fresh
    rw [← hnodes, ← Graph.ids_shape]
    exact hids
  case labelled => rw [Graph.labels_pruneDangling, hlabels]
  case nodes =>
    refine ⟨added, put.2.graph.missingLabels, ?_, ?_, hrow⟩
    · intro l hl
      rw [Graph.labels_pruneDangling]
      exact Graph.not_mem_labels_of_missing hl
    · rw [Graph.nodes_pruneDangling hids, hnodes]
  case settled =>
    apply (Graph.dangling_eq_nil hpruned.distinct).2
    exact Graph.settledBut_pruneDangling hids
  case chain =>
    have hs' := (hothers a.place hs).1
    rw [← Graph.shape_pruneDangling] at hs'
    refine ⟨u, p, n, v, hp, hn, ?_, ?_⟩
    · rw [Graph.chain_eq h.shape hs, hrun]
    · rw [Graph.chain_eq hpruned hs', hrun']
  case others =>
    intro t ht hts
    rw [Graph.mem_scopes] at ht
    rcases hothers t ht with ⟨ht', hsame⟩
    rw [← Graph.shape_pruneDangling] at ht'
    constructor
    · exact Graph.mem_scopes.2 ht'
    · rw [Graph.chain_eq hpruned ht', hsame hts, Graph.chain_eq h.shape ht]

/-!
# The insertion
-/

theorem insertBlock_fst_eq_nil (d : Draft) (stem : String) (kind : Kind) (a : Anchor) :
    (d.insertBlock stem kind a).1 = [] <-> ¬ a.isValid d.graph := by
  constructor
  · intro hnone hvalid
    rw [insertBlock_eq_closeAt hvalid] at hnone
    cases hnone
  · intro hinvalid
    rw [insertBlock, if_neg hinvalid]

theorem insertRecorded_eq {blocks : List RecordedBlock} (hblocks : blocks ≠ [])
    {point : InsertionPoint} (hvalid : point.anchor.isValid d.graph) (stem : String) :
    d.insertRecorded stem blocks point =
      let put := d.splice point.anchor point.edgeKind
        (recordedRow (d.nextLabels stem blocks.length) blocks)
      (put.1, put.2.modify .pruneDangling) := by
  rw [insertRecorded, if_neg]
  · rfl
  · simp [hblocks, hvalid]

theorem held_freshRow {stem : String} {kinds : List Kind} {c : Heading × Block}
    (hc : c ∈ d.freshRow stem kinds) : c.2.held = [] := by
  rw [freshRow, recordedRow, ← List.map_uncurry_zip_eq_zipWith] at hc
  rcases List.mem_map.1 hc with ⟨⟨label, r⟩, hmem, rfl⟩
  rcases List.mem_map.1 (List.of_mem_zip hmem).2 with ⟨kind, -, rfl⟩
  exact Block.held_fresh kind

theorem agrees_pruneDangling (h : d.Laid run) (hsettled : d.graph.SettledBut fun _ => False) :
    d.Agrees (d.modify .pruneDangling) where
  nodes := by
    have hnone : d.graph.missingLabels = [] := by
      apply List.eq_nil_iff_forall_not_mem.2
      intro l hl
      have hnot := Graph.not_mem_labels_of_missing hl
      rcases List.mem_flatMap.1 (List.mem_filter.1 hl).1 with ⟨c, hc, hl⟩
      rcases List.mem_filterMap.1 hl with ⟨r, hr, hrl⟩
      rcases hsettled r ⟨c, hc, hr⟩ l hrl with hknown | ⟨-, hstray⟩
      · exact hnot hknown
      · exact hstray
    show d.graph.pruneDangling.nodes = _
    rw [Graph.nodes_pruneDangling h.shape.distinct, hnone, funext Block.without_nil,
      funext Node.mapBlock_id, List.map_id']
  edges := congrArg (List.map Edge.unnamed) (Graph.edges_pruneDangling d.graph)
  supply := .refl _

theorem Laid.labelsAt_insertInTurn (h : d.Laid run) (hvalid : a.isValid d.graph) (stem : String)
    {kinds : List Kind} (hkinds : kinds ≠ []) :
    (d.insertInTurn stem a kinds).2.graph.labelsAt (d.insertInTurn stem a kinds).1 =
      (d.nextLabels stem kinds.length).map some := by
  rcases h.insertInTurn_eq_splice hvalid stem hkinds with ⟨hids, hdrafts⟩
  rcases exists_nodes_splice d a none (d.freshRow stem kinds) with ⟨added, hnodes, hrow⟩
  rcases h.splice none hvalid (d.freshRow stem kinds) with ⟨run', u, p, n, v, hlaid, -⟩
  have hdistinct := hlaid.shape.distinct
  rw [Graph.ids_shape, hdrafts.nodes, ← Graph.ids_shape] at hdistinct
  rw [hdrafts.nodes] at hnodes
  rw [hids] at hrow
  have hlength : (d.nextLabels stem kinds.length).length =
      (kinds.map RecordedBlock.fresh).length := by
    rw [length_nextLabels, List.length_map]
  have hlabels := labels_recordedRow hlength
  rw [← freshRow] at hlabels
  rw [hrow.labelsAt hdistinct (hnodes ▸ List.subset_append_right _ _), ← hlabels, List.map_map]
  rfl

/-- Blocks as their kinds make them come out as if they were inserted in turn. -/
theorem Laid.sameAnswer_insertRecorded (h : d.Laid run) (hvalid : a.isValid d.graph)
    (hsettled : d.graph.SettledBut fun _ => False) (stem : String) {kinds : List Kind}
    (hkinds : kinds ≠ []) : SameAnswer (d.insertInTurn stem a kinds)
      (d.insertRecorded stem (kinds.map .fresh) ⟨a, none⟩) := by
  have hblocks : kinds.map RecordedBlock.fresh ≠ [] := mt List.map_eq_nil_iff.1 hkinds
  have hturn := h.insertInTurn_eq_splice hvalid stem hkinds
  have hput : (d.splice a none (d.freshRow stem kinds)).2.graph.SettledBut fun _ => False :=
    settledBut_splice hsettled (fun _ => held_freshRow) a none
  rcases h.splice none hvalid (d.freshRow stem kinds) with ⟨run', u, p, n, v, hlaid, -⟩
  rw [insertRecorded_eq hblocks hvalid, List.length_map]
  exact ⟨hturn.ids, hturn.drafts.trans (agrees_pruneDangling hlaid hput)⟩

/-- Recorded blocks are inserted where a block could be, all of them or none, and as if they were
inserted in turn. -/
theorem gainsRow_insertRecorded (h : d.Reachable) (stem : String) (blocks : List RecordedBlock)
    (point : InsertionPoint) (kind : Kind) :
    (blocks = [] ∨ (d.insertBlock stem kind point.anchor).1 = [] ->
      d.insertRecorded stem blocks point = ([], d)) ∧
    (blocks ≠ [] -> (d.insertBlock stem kind point.anchor).1 ≠ [] -> ∃ labels,
      d.graph.GainsRow (d.insertRecorded stem blocks point).2.graph point.anchor
        (d.insertRecorded stem blocks point).1 labels blocks ∧
      (∀ kinds : List Kind, kinds.length = blocks.length ->
        (d.insertInTurn stem point.anchor kinds).2.graph.labelsAt
          (d.insertInTurn stem point.anchor kinds).1 = labels.map some) ∧
      ∀ kinds : List Kind, blocks = kinds.map .fresh -> point.edgeKind = none ->
        d.graph.dangling = [] -> SameAnswer (d.insertInTurn stem point.anchor kinds)
          (d.insertRecorded stem blocks point)) := by
  rcases h.laid with ⟨run, hlaid⟩
  simp only [ne_eq, insertBlock_fst_eq_nil, not_not]
  constructor
  · intro hrefused
    rw [insertRecorded, if_pos]
    simpa using hrefused
  · intro hblocks hvalid
    have hlength := d.length_nextLabels stem blocks.length
    rw [insertRecorded_eq hblocks hvalid]
    refine ⟨d.nextLabels stem blocks.length, ?_, ?_, ?_⟩
    · exact hlaid.gainsRow_splice hvalid point.edgeKind hlength
    · intro kinds hkinds
      rw [← hkinds]
      apply hlaid.labelsAt_insertInTurn hvalid
      rw [← List.length_pos_iff, hkinds, List.length_pos_iff]
      exact hblocks
    · intro kinds hkinds hforced hdangling
      rcases point with ⟨anchor, edgeKind⟩
      subst hkinds hforced
      have hsettled := (Graph.dangling_eq_nil hlaid.shape.distinct).1 hdangling
      have hsame := hlaid.sameAnswer_insertRecorded hvalid hsettled stem
        (mt List.map_eq_nil_iff.2 hblocks)
      rw [insertRecorded_eq hblocks hvalid] at hsame
      exact hsame

/-- A block that reads what one block gives out and what no block does, and a loop. -/
def recordedBlocks : List RecordedBlock :=
  [⟨.leaf (.code { parameterKeys := ["block_1_output", "block_9_output"] }), true, some "m"⟩,
    .fresh .loop]

/-- On the branch that is not shown two blocks go before the one that is there, which follows no
other block, and a row goes where it would in turn. -/
theorem gainsRow_insertRecorded_unshown :
    ∃ d : Draft, d.Reachable ∧
      d.insertRecorded "block" recordedBlocks
        ⟨⟨some "#4", some "#5", some "#3", some "branch_2"⟩, none⟩ = ([], d) ∧
      (∃ labels, d.graph.GainsRow
        (d.insertRecorded "block" recordedBlocks
          ⟨⟨some "#4", some "#6", some "#3", some "branch_2"⟩, none⟩).2.graph
        ⟨some "#4", some "#6", some "#3", some "branch_2"⟩ ["#7", "#8"] labels recordedBlocks) ∧
      ((d.insertRecorded "block" recordedBlocks
        ⟨⟨some "#4", some "#6", some "#3", some "branch_2"⟩, none⟩).2.graph.block? "#7").map
          Block.parameterKeys = some ["block_1_output"] ∧
      SameAnswer
        (d.insertInTurn "block" ⟨some "#4", some "#6", some "#3", some "branch_2"⟩ [.loop, .wait])
        (d.insertRecorded "block" [.fresh .loop, .fresh .wait]
          ⟨⟨some "#4", some "#6", some "#3", some "branch_2"⟩, none⟩) := by
  have hreachable : ((emptyState {}).applyAll unshownCommands).Reachable :=
    Edited.applyAll (.start (Or.inl ⟨{}, rfl⟩)) _
  have hrefused : (((emptyState {}).applyAll unshownCommands).insertBlock "block" .wait
      ⟨some "#4", some "#5", some "#3", some "branch_2"⟩).1 = [] := by
    decide +kernel
  have haccepted : (((emptyState {}).applyAll unshownCommands).insertBlock "block" .wait
      ⟨some "#4", some "#6", some "#3", some "branch_2"⟩).1 ≠ [] := by
    decide +kernel
  refine ⟨_, hreachable, ?_, ?_, by decide +kernel, ?_⟩
  · exact (gainsRow_insertRecorded hreachable "block" recordedBlocks _ .wait).1 (Or.inr hrefused)
  · rcases (gainsRow_insertRecorded hreachable "block" recordedBlocks
      ⟨⟨some "#4", some "#6", some "#3", some "branch_2"⟩, none⟩ .wait).2 (by decide) haccepted with
      ⟨labels, hgains, -⟩
    have hids : (((emptyState {}).applyAll unshownCommands).insertRecorded "block" recordedBlocks
        ⟨⟨some "#4", some "#6", some "#3", some "branch_2"⟩, none⟩).1 = ["#7", "#8"] := by
      decide +kernel
    rw [hids] at hgains
    exact ⟨labels, hgains⟩
  · rcases (gainsRow_insertRecorded hreachable "block" [.fresh .loop, .fresh .wait]
      ⟨⟨some "#4", some "#6", some "#3", some "branch_2"⟩, none⟩ .wait).2 (by decide) haccepted with
      ⟨labels, -, -, hsame⟩
    exact hsame [.loop, .wait] rfl rfl dangling_unshownCommands

end Draft
end Workflow
