import Workflow.Proofs.Conversion.Written
import Workflow.Proofs.Edit.Placed
import Workflow.Proofs.Edit.Subtree
import Workflow.Proofs.Label
import Workflow.Proofs.Run.Removal
import Workflow.Proofs.Shown.Insertion

/-!
# Blocks of another kind

A block that changes its kind keeps its id and its place.  What was nested in it is gone, its
body is the empty one of the new kind, and outside the block nothing but references to the
labels that went is different.
-/

namespace Workflow

/-- A node when one block is made a fresh one and the references to some labels are cleared. -/
def Node.retype (id label : String) (kind : Kind) (stale : List String) (n : Node) : Node :=
  if n.id = id then { n with content := .block { label } (.fresh kind) }
  else n.mapBlock (Block.without stale)

/-- A block has become a fresh one of another kind where it stands, with an empty body. -/
structure Graph.Retypes (g g' : Graph) (id : String) (kind : Kind) (gone : List String)
    (start marker : String) : Prop where
  within : ∀ n ∈ g.nodes, n.id ∈ gone <-> Relation.TransGen g.StandsIn n.id id
  fresh : start ≠ marker ∧ ∀ n ∈ g.nodes, n.id ≠ start ∧ n.id ≠ marker
  nodes : ∃ old label, (g.node? id).bind Node.label? = some old ∧ label ∉ g.labels ∧
    g'.nodes = (g.nodes.filter fun n => n.id ∉ gone).map
      (Node.retype id label kind (old :: g.labelsOf gone)) ++
        Draft.bodyNodes id start marker (.fresh kind)
  nested : ∀ i, Relation.TransGen g'.StandsIn i id <->
    ∃ m ∈ Draft.bodyNodes id start marker (.fresh kind), m.id = i
  edges : ∃ body, g'.edges = (g.edges.filter fun e => e.source ∉ gone ∧ e.target ∉ gone) ++ body ∧
    ∀ e ∈ body, e.source = start ∧ e.target = marker
  scopes : ∀ t, t ∈ g'.scopes <->
    (t ∈ g.scopes ∧ ∀ c, t.parent = some c -> c ≠ id ∧ c ∉ gone) ∨ t ∈ bodyScopes id (.fresh kind)
  own : ∃ s ∈ g'.scopes, id ∈ g.chain s ∧ g'.chain s = g.chain s
  chains : ∀ t ∈ g.scopes, (∀ c, t.parent = some c -> c ≠ id ∧ c ∉ gone) ->
    g'.chain t = g.chain t
  bodies : ∀ t ∈ bodyScopes id (.fresh kind), g'.chain t = [start, marker]

/-!
# Nodes and scopes
-/

namespace Node

variable {id label : String} {kind : Kind} {stale : List String} {n : Node}

@[simp] theorem id_retype : (n.retype id label kind stale).id = n.id := by
  unfold retype
  split
  · rfl
  · exact n.id_mapBlock _

theorem parent_retype : (n.retype id label kind stale).parent = n.parent := by
  unfold retype
  split
  · rfl
  · rcases n with ⟨i, parent, content⟩
    cases content <;> rfl

theorem block?_retype_of_eq (hid : n.id = id) :
    (n.retype id label kind stale).block? = some (.fresh kind) := by
  rw [retype, if_pos hid]
  rfl

theorem block?_retype_of_ne (hid : n.id ≠ id) :
    (n.retype id label kind stale).block? = n.block?.map (Block.without stale) := by
  rw [retype, if_neg hid, block?_mapBlock]

end Node

theorem Block.role_without (labels : List String) (b : Block) :
    (b.without labels).role = b.role := by
  cases b with
  | leaf l => rfl
  | loop a => rfl
  | conditional c => simp [without, role, Conditional.branchIds, Branch.without]

namespace Graph

variable {g : Graph} {run : Scope -> List String}

theorem bodyScopes_without (id : String) (labels : List String) (b : Block) :
    bodyScopes id (b.without labels) = bodyScopes id b := by
  rw [← Block.scopes_role, Block.role_without, Block.scopes_role]

end Graph

namespace Draft

variable {d : Draft} {run : Scope -> List String}

theorem isContainer_fresh (kind : Kind) : (Block.fresh kind).isContainer = kind.isContainer := by
  cases kind <;> rfl

theorem nodes_refilled (d : Draft) (id : String) (kind : Kind) :
    (d.refilled id kind).graph.nodes =
      (d.graph.nodes.filter fun n => n.id ∉ d.graph.descendants id) ++
        bodyNodes id (d.supply.upcoming 1) (d.supply.upcoming 2) (.fresh kind) := by
  have hkept : (d.graph.removeNodes (d.graph.descendants id)).nodes =
      d.graph.nodes.filter fun n => n.id ∉ d.graph.descendants id := by
    apply List.filter_congr
    intro n _
    simp
  unfold refilled bodyNodes
  rw [isContainer_fresh]
  cases kind.isContainer with
  | false => exact hkept.trans (List.append_nil _).symm
  | true => exact (nodes_addBody _ id _).trans (congrArg (· ++ _) hkept)

theorem exists_edges_refilled (d : Draft) (id : String) (kind : Kind) : ∃ body,
    (d.refilled id kind).graph.edges = (d.graph.edges.filter fun e =>
      e.source ∉ d.graph.descendants id ∧ e.target ∉ d.graph.descendants id) ++ body ∧
    ∀ e ∈ body, e.source = d.supply.upcoming 1 ∧ e.target = d.supply.upcoming 2 := by
  have hkept : (d.graph.removeNodes (d.graph.descendants id)).edges = d.graph.edges.filter fun e =>
      e.source ∉ d.graph.descendants id ∧ e.target ∉ d.graph.descendants id := by
    apply List.filter_congr
    intro e _
    simp
  unfold refilled
  cases kind.isContainer with
  | false =>
      refine ⟨[], hkept.trans (List.append_nil _).symm, ?_⟩
      intro e he
      cases he
  | true =>
      rcases exists_edges_addBody (d.modify fun g => g.removeNodes (d.graph.descendants id)) id
        (.fresh kind) with ⟨body, hedges, hlinks, -⟩
      refine ⟨body, hedges.trans (congrArg (· ++ _) hkept), ?_⟩
      intro e he
      exact ends_of_bodyLinks hlinks he

theorem retypeBlock_eq {id : String} {old : Heading}
    (hheading : (d.graph.node? id).bind Node.heading? = some old) (stem : String) (kind : Kind) :
    d.retypeBlock stem id kind = (d.refilled id kind).modify fun g =>
      (g.modifyNode id fun n => { n with
        content := .block { label := Label.generate stem d.graph.labels } (.fresh kind) }).pruneAll
          (old.label :: d.graph.labelsOf (d.graph.descendants id)) := by
  rw [retypeBlock, hheading]
  rfl

section Retype

variable {n : Node} (h : d.Laid run) (hn : n ∈ d.graph.nodes) (hblock : n.isBlock)
  (stem : String) (kind : Kind)
include h hn hblock

theorem laid_retypeBlock : (d.retypeBlock stem n.id kind).Laid
    (retypeRun run n.id (d.supply.upcoming 1) (d.supply.upcoming 2)) :=
  h.retypeBlock_of_slot (Graph.slot_mem hn) (n.isBlock_slot ▸ hblock) stem kind

theorem nodes_retypeBlock : ∃ old, (d.graph.node? n.id).bind Node.label? = some old ∧
    (d.retypeBlock stem n.id kind).graph.nodes =
      (d.graph.nodes.filter fun m => m.id ∉ d.graph.descendants n.id).map
        (Node.retype n.id (Label.generate stem d.graph.labels) kind
          (old :: d.graph.labelsOf (d.graph.descendants n.id))) ++
        bodyNodes n.id (d.supply.upcoming 1) (d.supply.upcoming 2) (.fresh kind) := by
  have hslot := Graph.slot_mem hn
  rcases exists_heading h.shape.distinct hslot (n.isBlock_slot ▸ hblock) with ⟨old, hold⟩
  rw [Node.slot_id] at hold
  have heq := retypeBlock_eq hold stem kind
  have hids := (laid_retypeBlock h hn hblock stem kind).shape.distinct
  rw [heq, modify, Graph.shape_pruneAll] at hids
  have hrefilled := hids
  rw [Graph.ids_setContent, Graph.ids_shape] at hrefilled
  refine ⟨old.label, ?_, ?_⟩
  · rcases Option.bind_eq_some_iff.1 hold with ⟨m, hm, hheading⟩
    rw [hm, Option.bind_some, Node.label?, hheading, Option.map_some]
  · rw [heq, modify, Graph.nodes_pruneAll _ hids, Graph.nodes_modifyNode hrefilled,
      List.map_map, nodes_refilled, List.map_append]
    congr 1
    · apply List.map_congr_left
      intro m _
      rw [Function.comp_apply, Node.retype]
      split
      · have hfresh : ∀ labels, (Block.fresh kind).without labels = .fresh kind := by
          intro labels
          apply Block.without_eq_self
          intro r hr
          rw [Block.held_fresh] at hr
          cases hr
        simp only [Node.mapBlock, hfresh]
      · rfl
    · apply (List.map_congr_left _).trans (List.map_id _)
      intro m hm
      rcases mem_bodyNodes hm with ⟨hends, -, -, hnone⟩
      have hid : m.id ≠ n.id := by
        intro heq
        have hmem : m.id ∈ d.graph.shape.ids := heq ▸ List.mem_map_of_mem (Graph.slot_mem hn)
        rcases hends with hstart | hmarker
        · exact not_mem_upcoming h.issued Nat.one_pos (hstart ▸ hmem)
        · exact not_mem_upcoming h.issued Nat.two_pos (hmarker ▸ hmem)
      rw [Function.comp_apply, if_neg hid, Node.mapBlock_of_none hnone]
      rfl

theorem mem_scopes_retypeBlock {t : Scope} :
    t ∈ (d.retypeBlock stem n.id kind).graph.scopes <->
      (t ∈ d.graph.scopes ∧ ∀ c, t.parent = some c -> c ≠ n.id ∧ c ∉ d.graph.descendants n.id) ∨
        t ∈ Graph.bodyScopes n.id (.fresh kind) := by
  rcases nodes_retypeBlock h hn hblock stem kind with ⟨old, -, hnodes⟩
  generalize Label.generate stem d.graph.labels = label at hnodes
  generalize old :: d.graph.labelsOf (d.graph.descendants n.id) = stale at hnodes
  have hkept : ∀ k ∈ d.graph.nodes, k.id ∉ d.graph.descendants n.id ->
      k.retype n.id label kind stale ∈ (d.retypeBlock stem n.id kind).graph.nodes := by
    intro k hk hout
    rw [hnodes]
    apply List.mem_append_left
    exact List.mem_map_of_mem (List.mem_filter.2 ⟨hk, decide_eq_true hout⟩)
  constructor
  · intro ht
    rcases Graph.mem_scopes_cases ht with rfl | ⟨m, hm, b, hb, ht⟩
    · exact Or.inl ⟨List.mem_cons_self, fun c hc => by cases hc⟩
    · rw [hnodes, List.mem_append, List.mem_map] at hm
      rcases hm with ⟨k, hk, rfl⟩ | hm
      · rcases List.mem_filter.1 hk with ⟨hk, hout⟩
        rw [Node.id_retype] at ht
        by_cases hid : k.id = n.id
        · rw [Node.block?_retype_of_eq hid] at hb
          cases hb
          exact Or.inr (hid ▸ ht)
        · rw [Node.block?_retype_of_ne hid] at hb
          rcases Option.map_eq_some_iff.1 hb with ⟨b', hb', rfl⟩
          rw [Graph.bodyScopes_without] at ht
          refine Or.inl ⟨Graph.mem_scopes_of_block hk hb' ht, ?_⟩
          intro c hc
          cases (Graph.parent_of_mem_bodyScopes ht).symm.trans hc
          exact ⟨hid, of_decide_eq_true hout⟩
      · rw [(mem_bodyNodes hm).2.2.2] at hb
        cases hb
  · intro ht
    rcases ht with ⟨ht, hout⟩ | ht
    · rcases Graph.mem_scopes_cases ht with rfl | ⟨k, hk, b, hb, hbody⟩
      · exact List.mem_cons_self
      · rcases hout k.id (Graph.parent_of_mem_bodyScopes hbody) with ⟨hid, hin⟩
        apply Graph.mem_scopes_of_block (hkept k hk hin)
        · rw [Node.block?_retype_of_ne hid, hb, Option.map_some]
        · rwa [Node.id_retype, Graph.bodyScopes_without]
    · have hnest := Graph.isNest_descendants h.shape.toNested
        (List.mem_map_of_mem (Graph.slot_mem hn))
      apply Graph.mem_scopes_of_block (hkept n hn hnest.notSelf)
        (Node.block?_retype_of_eq rfl)
      rwa [Node.id_retype]

/-- A scope that is kept runs as it did, and one in the block from marker to marker. -/
theorem chain_retypeBlock {t : Scope} (ht : t ∈ (d.retypeBlock stem n.id kind).graph.scopes) :
    (d.retypeBlock stem n.id kind).graph.chain t =
      retypeRun run n.id (d.supply.upcoming 1) (d.supply.upcoming 2) t :=
  Graph.chain_eq (laid_retypeBlock h hn hblock stem kind).shape (Graph.mem_scopes.1 ht)

theorem standsIn_retypeBlock {i : String} :
    (d.retypeBlock stem n.id kind).graph.StandsIn i n.id <->
      ∃ m ∈ bodyNodes n.id (d.supply.upcoming 1) (d.supply.upcoming 2) (.fresh kind),
        m.id = i := by
  rcases nodes_retypeBlock h hn hblock stem kind with ⟨old, -, hnodes⟩
  have hnest := Graph.isNest_descendants h.shape.toNested (List.mem_map_of_mem (Graph.slot_mem hn))
  constructor
  · intro hin
    rcases hin with ⟨m, hm, hid, hparent⟩
    rw [hnodes, List.mem_append, List.mem_map] at hm
    rcases hm with ⟨k, hk, rfl⟩ | hm
    · -- what stood in the block is not kept
      rcases List.mem_filter.1 hk with ⟨hk, hout⟩
      rw [Node.parent_retype] at hparent
      have hgone := (hnest.closed k.slot (Graph.slot_mem hk)).2 ⟨n.id, hparent, Or.inl rfl⟩
      exact absurd hgone (of_decide_eq_true hout)
    · exact ⟨m, hm, hid⟩
  · intro hin
    rcases hin with ⟨m, hm, hid⟩
    refine ⟨m, ?_, hid, (mem_bodyNodes hm).2.1⟩
    rw [hnodes]
    exact List.mem_append_right _ hm

/-- Nothing stands in the markers of the new body, so they are all that is nested in it. -/
theorem transGen_retypeBlock {i : String} :
    Relation.TransGen (d.retypeBlock stem n.id kind).graph.StandsIn i n.id <->
      ∃ m ∈ bodyNodes n.id (d.supply.upcoming 1) (d.supply.upcoming 2) (.fresh kind),
        m.id = i := by
  have hlaid := (laid_retypeBlock h hn hblock stem kind).shape
  rcases nodes_retypeBlock h hn hblock stem kind with ⟨old, -, hnodes⟩
  constructor
  · intro hin
    induction hin using Relation.TransGen.head_induction_on with
    | single hstands => exact (standsIn_retypeBlock h hn hblock stem kind).1 hstands
    | head hstands _ ih =>
        rcases ih with ⟨m, hm, hid⟩
        rcases hstands with ⟨k, hk, -, hparent⟩
        rcases hlaid.parents k.slot (Graph.slot_mem hk) with hnone | ⟨y, hy, hyparent, hcontainer⟩
        · cases hnone.symm.trans hparent
        · have hmem : m ∈ (d.retypeBlock stem n.id kind).graph.nodes := by
            rw [hnodes]
            exact List.mem_append_right _ hm
          cases hyparent.symm.trans hparent
          cases hlaid.toNested.slot_unique hy (Graph.slot_mem hmem) hid.symm
          have hmblock := Role.isBlock_of_isContainer hcontainer
          rw [m.isBlock_slot, Node.isBlock, (mem_bodyNodes hm).2.2.2] at hmblock
          cases hmblock
  · intro hin
    exact .single ((standsIn_retypeBlock h hn hblock stem kind).2 hin)

theorem Laid.retypes_of_mem : d.graph.Retypes (d.retypeBlock stem n.id kind).graph n.id kind
    (d.graph.descendants n.id) (d.supply.upcoming 1) (d.supply.upcoming 2) := by
  have hnew : ∀ {m : Node} {i : Nat}, m ∈ d.graph.nodes -> 0 < i -> m.id ≠ d.supply.upcoming i := by
    intro m i hm hi heq
    apply not_mem_upcoming h.issued hi
    rw [← heq]
    exact List.mem_map_of_mem (Graph.slot_mem hm)
  have hscopes : ∀ t, _ := fun t => mem_scopes_retypeBlock h hn hblock stem kind (t := t)
  have hchains : ∀ t ∈ d.graph.scopes,
      (∀ c, t.parent = some c -> c ≠ n.id ∧ c ∉ d.graph.descendants n.id) ->
        (d.retypeBlock stem n.id kind).graph.chain t = d.graph.chain t := by
    intro t ht hout
    rw [chain_retypeBlock h hn hblock stem kind ((hscopes t).2 (Or.inl ⟨ht, hout⟩)), retypeRun,
      if_neg fun heq => (hout n.id heq).1 rfl, Graph.chain_eq h.shape (Graph.mem_scopes.1 ht)]
  constructor
  case within =>
    intro m hm
    exact (Graph.listsNested_descendants h.shape.toNested
      (List.mem_map_of_mem (Graph.slot_mem hn))).mem_iff m.id
  case fresh =>
    constructor
    · intro heq
      exact absurd (d.supply.upcoming_injective heq) (by decide)
    · intro m hm
      exact ⟨hnew hm Nat.one_pos, hnew hm Nat.two_pos⟩
  case nodes =>
    rcases nodes_retypeBlock h hn hblock stem kind with ⟨old, hold, hnodes⟩
    exact ⟨old, _, hold, Label.generate_not_mem stem d.graph.labels, hnodes⟩
  case nested => exact fun i => transGen_retypeBlock h hn hblock stem kind
  case edges =>
    have hslot := Graph.slot_mem hn
    rcases exists_heading h.shape.distinct hslot (n.isBlock_slot ▸ hblock) with ⟨old, hold⟩
    rw [Node.slot_id] at hold
    rcases exists_edges_refilled d n.id kind with ⟨body, hedges, hends⟩
    refine ⟨body, ?_, hends⟩
    rw [retypeBlock_eq hold stem kind, ← hedges]
    exact Graph.edges_pruneAll _ _
  case scopes => exact hscopes
  case own =>
    have hslot := Graph.slot_mem hn
    have hnest := Graph.isNest_descendants h.shape.toNested (List.mem_map_of_mem hslot)
    rcases h.shape.placed n.slot hslot (n.isBlock_slot ▸ hblock) with ⟨s, ⟨hs, hmem⟩, -⟩
    have hout := hnest.outside_parent hslot hnest.notSelf
    rw [h.shape.parent_of_mem_run hs hslot hmem] at hout
    have hs' := Graph.mem_scopes.2 hs
    refine ⟨s, (hscopes s).2 (Or.inl ⟨hs', hout⟩), ?_, hchains s hs' hout⟩
    rw [Graph.chain_eq h.shape hs]
    exact hmem
  case chains => exact hchains
  case bodies =>
    intro t ht
    rw [chain_retypeBlock h hn hblock stem kind ((hscopes t).2 (Or.inr ht)), retypeRun,
      if_pos (Graph.parent_of_mem_bodyScopes ht)]

end Retype

/-- A block of another kind is a fresh one in the old place, with the empty body of its kind. -/
theorem retypes_retypeBlock (h : d.Reachable) (stem id : String) (kind : Kind) :
    (∀ n ∈ d.graph.nodes, n.id = id -> n.isBlock -> ∃ gone start marker,
      d.graph.Retypes (d.retypeBlock stem id kind).graph id kind gone start marker) ∧
    ((∀ n ∈ d.graph.nodes, n.id = id -> n.isBlock = false) -> d.retypeBlock stem id kind = d) := by
  rcases h.laid with ⟨run, hlaid⟩
  constructor
  · intro n hn hid hblock
    subst hid
    exact ⟨_, _, _, hlaid.retypes_of_mem hn hblock stem kind⟩
  · intro hnone
    have hheading : (d.graph.node? id).bind Node.heading? = none := by
      cases hnode : d.graph.node? id with
      | none => rfl
      | some n =>
          rcases Graph.mem_of_node? hnode with ⟨hn, hid⟩
          have hblock := hnone n hn hid
          rcases n with ⟨i, parent, content⟩
          cases content with
          | start => rfl
          | insertionMarker => rfl
          | block heading b => cases hblock
    rw [retypeBlock, hheading]

/-- The loop becomes a conditional, and the task in it goes with the reference to it. -/
theorem retypes_retypeBlock_reading :
    ∃ d : Draft, d.Reachable ∧
      (∃ gone start marker, d.graph.Retypes (d.retypeBlock "block" "#4" .conditional).graph "#4"
        .conditional gone start marker) ∧
      (d.retypeBlock "block" "#4" .conditional).graph.chain .root = ["#1", "#3", "#4", "#2"] ∧
      (d.retypeBlock "block" "#4" .conditional).graph.labels = ["block_1", "block_4"] ∧
      ((d.retypeBlock "block" "#4" .conditional).graph.block? "#3").map Block.parameterKeys =
        some ["name"] ∧
      d.retypeBlock "block" "#2" .loop = d := by
  have hreachable := reachable_readingCommands
  have hloop : ∃ n ∈ ((emptyState {}).applyAll readingCommands).graph.nodes,
      n.id = "#4" ∧ n.isBlock := by
    decide +kernel
  have hmarker : ∀ n ∈ ((emptyState {}).applyAll readingCommands).graph.nodes,
      n.id = "#2" -> n.isBlock = false := by
    decide +kernel
  rcases hloop with ⟨n, hn, hid, hblock⟩
  refine ⟨_, hreachable, ?_, by decide +kernel, by decide +kernel, by decide +kernel, ?_⟩
  · exact (retypes_retypeBlock hreachable "block" "#4" .conditional).1 n hn hid hblock
  · exact (retypes_retypeBlock hreachable "block" "#2" .loop).2 hmarker

end Draft
end Workflow
