import Workflow.Proofs.Layout.Bare
import Workflow.Proofs.Order
import Workflow.Proofs.Reference.Clearing
import Workflow.Proofs.Run.WellFormed
import Workflow.Proofs.Shown.Graph

/-!
# Edits of attributes move nothing

Blocks are updated, labelled anew, marked and given a model where they stand.  The references that
such an edit clears or points elsewhere are attributes as well, so a graph without its attributes
is the same before and after.  Chains, the order, scopes and layouts are found in that graph.
-/

namespace Workflow

/-- Whether a command sets what a block carries. -/
def Command.setsAttributes : Command -> Bool
  | .updateBlock _ _ => true
  | .relabel _ _ => true
  | .setContinueOnFailure _ _ => true
  | .setModel _ _ => true
  | _ => false

/-- A node that stands where it stood, of the same kind and with the same branches. -/
structure Node.SameStructure (n n' : Node) : Prop where
  id : n'.id = n.id
  parent : n'.parent = n.parent
  start : n'.isStart = n.isStart
  insertionMarker : n'.isInsertionMarker = n.isInsertionMarker
  kind : n'.block?.map Block.kind = n.block?.map Block.kind
  branching : n'.branching? = n.branching?

/-- Graphs that differ in nothing but what their blocks carry. -/
structure Graph.SameStructure (g g' : Graph) : Prop where
  nodes : List.Forall₂ Node.SameStructure g.nodes g'.nodes
  edges : g'.edges = g.edges

/-- Graphs of one structure in which everything stands and is drawn at the same place. -/
structure Graph.Unmoved (g g' : Graph) : Prop extends g.SameStructure g' where
  chains : ∀ s, g'.chain s = g.chain s
  order : g'.order = g.order
  scopes : ∀ id, g'.scopeOf? id = g.scopeOf? id
  layouts : ∀ {α : Type} [Length α] (settings : LayoutSettings α) (sizes : Table (Size α)),
    Layout.ofGraph settings g' sizes = Layout.ofGraph settings g sizes

/-- A block takes no new attributes but those of its own kind, and a conditional only with the
branches it has. -/
def Block.Refuses (old new : Block) : Prop :=
  old.kind ≠ new.kind ∨
    ∃ c c', old = .conditional c ∧ new = .conditional c' ∧ c.branchIds ≠ c'.branchIds

/-!
# Blocks
-/

namespace Block

theorem kind_retainLabels (keep : String -> Bool) (b : Block) :
    (b.retainLabels keep).1.kind = b.kind := by
  cases b with
  | leaf l => exact l.kind_mapKeys _
  | loop a =>
      simp only [retainLabels]
      split
      · split <;> rfl
      · rfl
  | conditional c => rfl

theorem kind_renameLabel (old new : String) (b : Block) :
    (b.renameLabel old new).1.kind = b.kind := by
  cases b with
  | leaf l => exact l.kind_mapKeys _
  | loop a =>
      simp only [renameLabel]
      split <;> rfl
  | conditional c => rfl

theorem kind_replacement? {old new b : Block} (h : old.replacement? new = some b) :
    b.kind = old.kind := by
  unfold replacement? at h
  split at h
  · split at h
    · cases h
      rfl
    · cases h
  · split at h
    · next hkind =>
        cases h
        exact hkind.symm
    · cases h

theorem replacement?_eq_none_iff {old new : Block} :
    old.replacement? new = none <-> old.Refuses new := by
  unfold replacement? Refuses
  split
  · next c c' => simp [kind]
  · next hother =>
      simp only [ite_eq_right_iff, reduceCtorEq, imp_false]
      constructor
      · exact Or.inl
      · intro h
        rcases h with hkind | ⟨c, c', hold, hnew, -⟩
        · exact hkind
        · exact absurd hnew (hother c c' hold)

theorem bare_congr {b b' : Block} (hkind : b'.kind = b.kind)
    (hbranching : b'.branching? = b.branching?) : b'.bare = b.bare := by
  have hnone : ∀ l : Leaf, l.kind ≠ .loop ∧ l.kind ≠ .conditional := by
    intro l
    cases l <;> simp [Leaf.kind]
  cases b with
  | leaf l =>
      cases b' with
      | leaf l' => exact congrArg Block.fresh hkind
      | loop a' => exact absurd hkind.symm (hnone l).1
      | conditional c' => exact absurd hkind.symm (hnone l).2
  | loop a =>
      cases b' with
      | leaf l' => exact absurd hkind (hnone l').1
      | loop a' => rfl
      | conditional c' => cases hkind
  | conditional c =>
      cases b' with
      | leaf l' => exact absurd hkind (hnone l').2
      | loop a' => cases hkind
      | conditional c' =>
          rcases Prod.mk.inj (Option.some.inj hbranching) with ⟨hids, hactive⟩
          rw [bare, bare, hids, hactive]

theorem kind_bare (b : Block) : b.bare.kind = b.kind := by
  cases b with
  | leaf l => cases l <;> rfl
  | loop a => rfl
  | conditional c => rfl

theorem branching?_bare (b : Block) : b.bare.branching? = b.branching? := by
  cases b with
  | leaf l => cases l <;> rfl
  | loop a => rfl
  | conditional c =>
      simp [bare, branching?, Conditional.branching, Conditional.branchIds, Function.comp_def]

theorem bare_retainLabels (keep : String -> Bool) (b : Block) :
    (b.retainLabels keep).1.bare = b.bare :=
  bare_congr (kind_retainLabels keep b) (branching?_retainLabels keep b)

theorem bare_renameLabel (old new : String) (b : Block) :
    (b.renameLabel old new).1.bare = b.bare :=
  bare_congr (kind_renameLabel old new b) (branching?_renameLabel old new b)

theorem bare_replacement? {old new b : Block} (h : old.replacement? new = some b) :
    b.bare = old.bare :=
  bare_congr (kind_replacement? h) (branching?_replacement? h)

theorem bodyScopes_bare (id : String) (b : Block) :
    Graph.bodyScopes id b.bare = Graph.bodyScopes id b := by
  cases b with
  | leaf l => cases l <;> rfl
  | loop a => rfl
  | conditional c =>
      simp [bare, Graph.bodyScopes, Conditional.branchIds, Function.comp_def]

end Block

/-!
# Nodes
-/

namespace Node

theorem bare_mapBlock {f : Block -> Block} {n : Node}
    (hf : ∀ b, n.block? = some b -> (f b).bare = b.bare) : (n.mapBlock f).bare = n.bare := by
  rcases n with ⟨id, parent, content⟩
  cases content with
  | start => rfl
  | insertionMarker => rfl
  | block h b =>
      show Node.mk id parent (.block { label := "" } (f b).bare) = _
      rw [hf b rfl]
      rfl

theorem bare_mapHeading (f : Heading -> Heading) (n : Node) : (n.mapHeading f).bare = n.bare := by
  rcases n with ⟨id, parent, content⟩
  cases content <;> rfl

theorem isInsertionMarker_bare (n : Node) : n.bare.isInsertionMarker = n.isInsertionMarker := by
  rcases n with ⟨id, parent, content⟩
  cases content <;> rfl

theorem kind_bare (n : Node) : n.bare.block?.map Block.kind = n.block?.map Block.kind := by
  rw [block?_bare, Option.map_map]
  exact congrArg (fun f => n.block?.map f) (funext Block.kind_bare)

theorem branching?_bare (n : Node) : n.bare.branching? = n.branching? := by
  rw [branching?, block?_bare, branching?]
  cases n.block? with
  | none => rfl
  | some b => exact b.branching?_bare

theorem sameStructure_of_bare {n n' : Node} (h : n'.bare = n.bare) : n.SameStructure n' where
  id := (congrArg Node.id h : n'.bare.id = n.bare.id)
  parent := (congrArg Node.parent h : n'.bare.parent = n.bare.parent)
  start := by rw [← n'.isStart_bare, h, n.isStart_bare]
  insertionMarker := by rw [← n'.isInsertionMarker_bare, h, n.isInsertionMarker_bare]
  kind := by rw [← n'.kind_bare, h, n.kind_bare]
  branching := by rw [← n'.branching?_bare, h, n.branching?_bare]

end Node

namespace Graph

theorem sameStructure_of_bare {g g' : Graph} (h : g'.bare = g.bare) : g.SameStructure g' where
  nodes := by
    have hnodes : g.nodes.map Node.bare = g'.nodes.map Node.bare := congrArg Graph.nodes h.symm
    have hsame := List.forall₂_map_left_iff.1 (List.forall₂_map_right_iff.1
      (List.forall₂_eq_eq_eq ▸ hnodes))
    exact hsame.imp fun _ _ hbare => Node.sameStructure_of_bare hbare.symm
  edges := (congrArg Graph.edges h : g'.bare.edges = g.bare.edges)

/-!
# The order and the scopes
-/

variable (g : Graph)

theorem bodyIds_bare (id : String) : g.bare.bodyIds id = g.bodyIds id := by
  rw [bodyIds, block?_bare, bodyIds]
  cases g.block? id with
  | none => rfl
  | some b =>
      show (bodyScopes id b.bare).flatMap g.bare.chain = (bodyScopes id b).flatMap g.chain
      rw [b.bodyScopes_bare, funext g.chain_bare]

theorem visit_bare (agenda order : List String) :
    g.bare.visit agenda order = g.visit agenda order := by
  induction agenda, order using visit.induct g with
  | case1 order => rw [visit, visit]
  | case2 order id rest hlisted ih =>
      rw [visit, visit, if_pos hlisted, if_pos hlisted]
      exact ih
  | case3 order id rest hnew ih =>
      rw [visit, visit, if_neg hnew, if_neg hnew, bodyIds_bare]
      exact ih

theorem order_bare : g.bare.order = g.order := by
  rw [order, order, visit_bare, chain_bare, appendUnlisted, appendUnlisted, map_id_bare]

theorem scopeOf?_bare (id : String) : g.bare.scopeOf? id = g.scopeOf? id := by
  have hconditional : ∀ n : Node, n.bare.conditional? = n.conditional?.map fun c =>
      ⟨c.branchIds.map fun id => { id, label := "" }, c.active⟩ := by
    intro n
    rw [Node.conditional?, Node.block?_bare, Node.conditional?]
    cases n.block? with
    | none => rfl
    | some b =>
        cases b with
        | leaf l => cases l <;> rfl
        | loop a => rfl
        | conditional c => rfl
  have hparent : ∀ n : Node, n.bare.parent = n.parent := fun _ => rfl
  rw [scopeOf?, node?_bare, scopeOf?]
  cases g.node? id with
  | none => rfl
  | some n =>
      simp only [Option.map_some, hparent]
      cases n.parent with
      | none => rfl
      | some parent =>
          simp only [node?_bare]
          cases g.node? parent with
          | none => rfl
          | some container =>
              simp only [Option.map_some, hconditional]
              cases container.conditional? with
              | none => rfl
              | some c =>
                  simp only [Option.map_some, Conditional.branchIds, List.map_map, chain_bare]
                  rfl

variable {g}

theorem unmoved_of_bare {g' : Graph} (h : g'.bare = g.bare) : g.Unmoved g' where
  toSameStructure := sameStructure_of_bare h
  chains := by
    intro s
    rw [← chain_bare, h, chain_bare]
  order := by rw [← order_bare, h, order_bare]
  scopes := by
    intro id
    rw [← scopeOf?_bare, h, scopeOf?_bare]
  layouts := by
    intro α _ settings sizes
    rw [← Layout.ofGraph_bare, h, Layout.ofGraph_bare]

/-!
# Edits
-/

theorem bare_modifyNode {id : String} {f : Node -> Node}
    (hf : ∀ n, g.node? id = some n -> (f n).bare = n.bare) : (g.modifyNode id f).bare = g.bare := by
  cases h : g.node? id with
  | none => rw [modifyNode_eq_of_none h]
  | some n =>
      rcases modifyNode_eq_of_some h with ⟨u, v, hnodes, hmodify⟩
      rw [hmodify, bare, bare, hnodes]
      simp only [List.map_append, List.map_cons, hf n h]

theorem bare_modifyBlocks {f : Block -> Block} (hf : ∀ b, (f b).bare = b.bare)
    (ids : List String) : ∀ g : Graph, (g.modifyBlocks ids f).bare = g.bare := by
  induction ids with
  | nil => exact fun _ => rfl
  | cons id ids ih =>
      intro g
      exact (ih _).trans (bare_modifyNode fun n _ => Node.bare_mapBlock fun b _ => hf b)

theorem bare_pruneDangling (g : Graph) : g.pruneDangling.bare = g.bare :=
  bare_modifyBlocks (Block.bare_retainLabels _) _ g

theorem bare_repoint (g : Graph) (old new : String) : (g.repoint old new).bare = g.bare :=
  bare_modifyBlocks (Block.bare_renameLabel old new) _ g

theorem bare_mapHeading (g : Graph) (id : String) (f : Heading -> Heading) :
    (g.modifyNode id (Node.mapHeading f)).bare = g.bare :=
  bare_modifyNode fun n _ => n.bare_mapHeading f

theorem bare_relabel (g : Graph) (id label : String) : (g.relabel id label).bare = g.bare := by
  unfold relabel
  dsimp only
  split
  · rfl
  · split
    · rfl
    · rw [bare_repoint, bare_mapHeading]

theorem bare_replace {id : String} {old new b : Block} (hold : g.block? id = some old)
    (h : old.replacement? new = some b) :
    (g.modifyNode id (Node.mapBlock fun _ => b)).bare = g.bare := by
  apply bare_modifyNode
  intro n hn
  apply Node.bare_mapBlock
  intro b' hb'
  rw [block?, hn, Option.bind_some, hb'] at hold
  cases hold
  exact Block.bare_replacement? h

theorem updateBlock_eq_self {id : String} {new : Block}
    (h : ∀ old, g.block? id = some old -> old.Refuses new) : g.updateBlock id new = g := by
  have hnone : ((g.block? id).bind fun old => old.replacement? new) = none := by
    rw [Option.bind_eq_none_iff]
    intro old hold
    exact Block.replacement?_eq_none_iff.2 (h old hold)
  rw [updateBlock, hnone]

theorem updateBlock_eq {id : String} {old new b : Block} (hold : g.block? id = some old)
    (h : old.replacement? new = some b) :
    g.updateBlock id new = (g.modifyNode id (Node.mapBlock fun _ => b)).pruneDangling := by
  rw [updateBlock, hold, Option.bind_some, h]

theorem bare_updateBlock (g : Graph) (id : String) (new : Block) :
    (g.updateBlock id new).bare = g.bare := by
  cases hb : (g.block? id).bind fun old => old.replacement? new with
  | none => rw [updateBlock, hb]
  | some b =>
      rcases Option.bind_eq_some_iff.1 hb with ⟨old, hold, h⟩
      rw [updateBlock_eq hold h, bare_pruneDangling, bare_replace hold h]

/-- An update that is taken gives a block its attributes without references to missing labels. -/
theorem exists_block?_updateBlock (hids : (g.nodes.map Node.id).Nodup) {id : String}
    {old new b : Block} (hold : g.block? id = some old) (h : old.replacement? new = some b) :
    ∃ absent, (∀ l ∈ absent, l ∉ g.labels) ∧
      (g.updateBlock id new).block? id = some (b.without absent) := by
  have hbare := bare_replace hold h
  have hreplaced : (g.modifyNode id (Node.mapBlock fun _ => b)).node? id = _ :=
    node?_modifyNode (Node.id_mapBlock _)
  have hlabels : (g.modifyNode id (Node.mapBlock fun _ => b)).labels = g.labels :=
    labels_modifyNode (Node.label?_mapBlock _)
  rw [updateBlock_eq hold h]
  generalize g.modifyNode id (Node.mapBlock fun _ => b) = g' at *
  have hids' : g'.shape.ids.Nodup := by
    rwa [ids_shape, ← map_id_bare, hbare, map_id_bare]
  have hnodes : g'.pruneDangling.nodes = _ := nodes_pruneDangling hids'
  refine ⟨g'.missingLabels, ?_, ?_⟩
  · intro l hl
    rw [← hlabels]
    exact not_mem_labels_of_missing hl
  · rcases Option.bind_eq_some_iff.1 hold with ⟨n, hn, hb⟩
    rw [block?, node?, hnodes, ← List.map_reverse, List.find?_map]
    have hpred : (fun n : Node => n.id == id) ∘ Node.mapBlock (Block.without g'.missingLabels) =
        fun n => n.id == id := by
      funext n
      exact congrArg (· == id) (n.id_mapBlock _)
    rw [hpred]
    show ((g'.node? id).map _).bind Node.block? = _
    rw [hreplaced, hn]
    show ((n.mapBlock fun _ => b).mapBlock _).block? = _
    rw [Node.mapBlock_mapBlock, Node.block?_mapBlock, hb]
    rfl

end Graph

namespace Draft

theorem bare_apply (d : Draft) (stem : String) {c : Command} (hc : c.setsAttributes) :
    (d.apply stem c).draft.graph.bare = d.graph.bare := by
  cases c with
  | updateBlock id new => exact d.graph.bare_updateBlock id new
  | relabel id label => exact d.graph.bare_relabel id label
  | setContinueOnFailure id value => exact d.graph.bare_mapHeading id _
  | setModel id model => exact d.graph.bare_mapHeading id _
  | _ => cases hc

/-- An edit of attributes moves nothing, whatever the graph is.  An update that is refused leaves
the graph as it was, and no other is refused. -/
theorem unmoved_apply {d : Draft} (hids : (d.graph.nodes.map Node.id).Nodup) (stem : String)
    {c : Command} (hc : c.setsAttributes) :
    d.graph.Unmoved (d.apply stem c).draft.graph ∧
      ∀ id new, c = .updateBlock id new ->
        ((∀ old, d.graph.block? id = some old -> old.Refuses new) ->
          (d.apply stem c).draft.graph = d.graph) ∧
        ∀ old, d.graph.block? id = some old -> ¬ old.Refuses new -> ∃ b absent,
          old.replacement? new = some b ∧ (∀ l ∈ absent, l ∉ d.graph.labels) ∧
            (d.apply stem c).draft.graph.block? id = some (b.without absent) := by
  constructor
  · exact Graph.unmoved_of_bare (d.bare_apply stem hc)
  · intro id new hupdate
    subst hupdate
    constructor
    · exact Graph.updateBlock_eq_self
    · intro old hold htaken
      rw [← Block.replacement?_eq_none_iff] at htaken
      rcases Option.ne_none_iff_exists'.1 htaken with ⟨b, hb⟩
      rcases Graph.exists_block?_updateBlock hids hold hb with ⟨absent, habsent, hblock⟩
      exact ⟨b, absent, hb, habsent, hblock⟩

/-- A loop in a branch gets a list to go over that no block puts out, and keeps its body. -/
theorem unmoved_apply_nested :
    ∃ (d : Draft) (new : Attributes.Loop), new.loopOver = some "ghost_output" ∧
      (d.graph.nodes.map Node.id).Nodup ∧
      (Command.updateBlock "#6" (.loop new)).setsAttributes ∧
      (d.apply "block" (.updateBlock "#6" (.loop new))).draft.graph.chain (.body "#6") =
        ["#7", "#9", "#8"] ∧
      ∃ absent, (∀ l ∈ absent, l ∉ d.graph.labels) ∧
        (d.apply "block" (.updateBlock "#6" (.loop new))).draft.graph.block? "#6" =
          some ((Block.loop new).without absent) := by
  let d : Draft := (emptyState {}).applyAll nestedCommands
  let new : Attributes.Loop := { loopOver := some "ghost_output" }
  have hids : (d.graph.nodes.map Node.id).Nodup := by decide +kernel
  have hchain : d.graph.chain (.body "#6") = ["#7", "#9", "#8"] := by decide +kernel
  have hold : d.graph.block? "#6" = some (.loop {}) := rfl
  have htaken : ¬ (Block.loop {}).Refuses (.loop new) := by
    intro hrefuses
    rcases hrefuses with hkind | ⟨c, c', hconditional, -, -⟩
    · exact hkind rfl
    · cases hconditional
  have hsets : (Command.updateBlock "#6" (.loop new)).setsAttributes := rfl
  rcases unmoved_apply hids "block" hsets with ⟨hunmoved, hupdate⟩
  rcases (hupdate _ _ rfl).2 _ hold htaken with ⟨b, absent, hb, habsent, hblock⟩
  cases hb
  exact ⟨d, new, rfl, hids, hsets, (hunmoved.chains _).trans hchain, absent, habsent, hblock⟩

end Draft
end Workflow
