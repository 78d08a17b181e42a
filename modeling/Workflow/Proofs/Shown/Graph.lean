import Workflow.Proofs.Edit.Attribute
import Workflow.Proofs.Edit.Removal

/-!
# Branches that are shown

A conditional is coherent when it has branches, all different, and shows one of them.  Which
branch is shown is also written on the edges: those of every other branch are hidden.  Most
edits inherit both from the graph before; the others are those that declare a branch, show one
or take one back.
-/

namespace Workflow

/-- Some branch is declared, none twice, and the one that is shown is among them. -/
structure Conditional.Coherent (c : Conditional) : Prop where
  nonempty : c.branches ≠ []
  distinct : c.branchIds.Nodup
  declared : c.active ∈ c.branchIds

theorem Conditional.coherent_fresh : Conditional.fresh.Coherent :=
  ⟨by decide, by decide, by decide⟩

theorem Conditional.hasBranch_iff {c : Conditional} {id : String} :
    c.hasBranch id <-> id ∈ c.branchIds := by
  simp [hasBranch, branchIds]

/-!
# Branchings
-/

/-- The ids of the branches and the one that is shown. -/
def Conditional.branching (c : Conditional) : List String × String :=
  (c.branchIds, c.active)

def Block.branching? : Block -> Option (List String × String)
  | .conditional c => some c.branching
  | _ => none

namespace Block

theorem branching?_retainLabels (keep : String -> Bool) (b : Block) :
    (b.retainLabels keep).1.branching? = b.branching? := by
  have hrole := role_retainLabels keep b
  cases b with
  | leaf l => rfl
  | loop a =>
      simp only [retainLabels]
      split
      · split <;> rfl
      · rfl
  | conditional c => exact congrArg (fun ids => some (ids, c.active)) (Role.conditional.inj hrole)

theorem branching?_renameLabel (old new : String) (b : Block) :
    (b.renameLabel old new).1.branching? = b.branching? := by
  have hrole := role_renameLabel old new b
  cases b with
  | leaf l => rfl
  | loop a =>
      simp only [renameLabel]
      split <;> rfl
  | conditional c => exact congrArg (fun ids => some (ids, c.active)) (Role.conditional.inj hrole)

theorem branching?_of_role {b : Block} (h : ∀ ids, b.role ≠ .conditional ids) :
    b.branching? = none := by
  cases b with
  | leaf l => rfl
  | loop a => rfl
  | conditional c => exact absurd rfl (h c.branchIds)

theorem branching?_replacement? {old new b : Block} (h : old.replacement? new = some b) :
    b.branching? = old.branching? := by
  have hrole := role_replacement? h
  cases old with
  | leaf l =>
      apply branching?_of_role
      intro ids hids
      cases hrole.symm.trans hids
  | loop a =>
      apply branching?_of_role
      intro ids hids
      cases hrole.symm.trans hids
  | conditional c =>
      cases new with
      | leaf l =>
          simp only [replacement?] at h
          split at h
          · cases h
            cases hrole
          · cases h
      | loop a => simp [replacement?, kind] at h
      | conditional c' =>
          simp only [replacement?] at h
          split at h
          · next hids =>
              cases h
              exact congrArg (fun ids => some (ids, c.active)) hids.symm
          · cases h

end Block

namespace Node

def branching? (n : Node) : Option (List String × String) :=
  n.block?.bind Block.branching?

theorem branching?_eq_some {n : Node} {v : List String × String} :
    n.branching? = some v <-> ∃ c, n.conditional? = some c ∧ c.branching = v := by
  unfold branching? conditional?
  cases n.block? with
  | none => simp
  | some b => cases b <;> simp [Block.branching?, Block.conditional?]

theorem branching?_mapBlock {f : Block -> Block} {n : Node}
    (hf : ∀ b, n.block? = some b -> (f b).branching? = b.branching?) :
    (n.mapBlock f).branching? = n.branching? := by
  obtain ⟨id, parent, content⟩ := n
  cases content with
  | start => rfl
  | insertionMarker => rfl
  | block h b => exact hf b rfl

theorem branching?_mapHeading (f : Heading -> Heading) (n : Node) :
    (n.mapHeading f).branching? = n.branching? := by
  obtain ⟨id, parent, content⟩ := n
  cases content <;> rfl

@[simp] theorem id_mapHeading (f : Heading -> Heading) (n : Node) :
    (n.mapHeading f).id = n.id := by
  obtain ⟨id, parent, content⟩ := n
  cases content <;> rfl

end Node

namespace Graph

/-- Of the edges of a conditional exactly those of other branches are hidden. -/
def Shows (g : Graph) (id active : String) : Prop :=
  ∀ e ∈ g.edges, ∀ b, e.tag = some ⟨id, b⟩ -> (e.hidden <-> b ≠ active)

/-- Some edges of the branch that is shown may be hidden too. -/
def ShowsBut (off : String -> Prop) (g : Graph) (id active : String) : Prop :=
  ∀ e ∈ g.edges, ∀ b, e.tag = some ⟨id, b⟩ ->
    (e.hidden <-> b ≠ active) ∨ b = active ∧ off e.id

/-- The edges of all conditionals show their branch, but for some edges of each of them. -/
def ShownBut (off : String -> String -> Prop) (g : Graph) : Prop :=
  ∀ n ∈ g.nodes, ∀ c, n.conditional? = some c -> g.ShowsBut (off n.id) n.id c.active

/-!
# Inheriting
-/

/-- The conditionals of a graph branch as they did in another one, and so do its edges. -/
structure Inherits (g' g : Graph) : Prop where
  branchings : ∀ n' ∈ g'.nodes, ∀ v, n'.branching? = some v ->
    ∃ n ∈ g.nodes, n.id = n'.id ∧ n.branching? = some v
  tags : ∀ e' ∈ g'.edges, ∀ t, e'.tag = some t ->
    ∃ e ∈ g.edges, e.tag = some t ∧ e.hidden = e'.hidden ∧ e.id = e'.id

variable {g g' g'' : Graph} {off : String -> String -> Prop}

theorem Inherits.refl (g : Graph) : g.Inherits g where
  branchings := fun n hn _ hv => ⟨n, hn, rfl, hv⟩
  tags := fun e he _ ht => ⟨e, he, ht, rfl, rfl⟩

theorem Inherits.trans (h : g''.Inherits g') (h' : g'.Inherits g) : g''.Inherits g where
  branchings := by
    intro n'' hn'' v hv
    obtain ⟨n', hn', hid', hv'⟩ := h.branchings n'' hn'' v hv
    obtain ⟨n, hn, hid, hv⟩ := h'.branchings n' hn' v hv'
    exact ⟨n, hn, hid.trans hid', hv⟩
  tags := by
    intro e'' he'' t ht
    obtain ⟨e', he', ht', hhidden', hid'⟩ := h.tags e'' he'' t ht
    obtain ⟨e, he, ht, hhidden, hid⟩ := h'.tags e' he' t ht'
    exact ⟨e, he, ht, hhidden.trans hhidden', hid.trans hid'⟩

theorem Shows.inherit {id active : String} (h : g.Shows id active)
    (htags : ∀ e' ∈ g'.edges, ∀ t, e'.tag = some t -> t.conditional = id ->
      ∃ e ∈ g.edges, e.tag = some t ∧ e.hidden = e'.hidden ∧ e.id = e'.id) :
    g'.Shows id active := by
  intro e' he' b ht
  obtain ⟨e, he, hetag, hhidden, -⟩ := htags e' he' _ ht rfl
  rw [← hhidden]
  exact h e he b hetag

theorem Shows.but {id active : String} (h : g.Shows id active) (off : String -> Prop) :
    g.ShowsBut off id active :=
  fun e he b ht => Or.inl (h e he b ht)

theorem ShowsBut.inherit {id active : String} {off : String -> Prop}
    (h : g.ShowsBut off id active)
    (htags : ∀ e' ∈ g'.edges, ∀ t, e'.tag = some t -> t.conditional = id ->
      ∃ e ∈ g.edges, e.tag = some t ∧ e.hidden = e'.hidden ∧ e.id = e'.id) :
    g'.ShowsBut off id active := by
  intro e' he' b ht
  obtain ⟨e, he, hetag, hhidden, hid⟩ := htags e' he' _ ht rfl
  rw [← hhidden, ← hid]
  exact h e he b hetag

theorem ShownBut.inherit (h : g.ShownBut off) (hg : g'.Inherits g) : g'.ShownBut off := by
  intro n' hn' c' hc'
  obtain ⟨n, hn, hid, hv⟩ := hg.branchings n' hn' _ (Node.branching?_eq_some.2 ⟨c', hc', rfl⟩)
  obtain ⟨c, hc, hv⟩ := Node.branching?_eq_some.1 hv
  have hactive : c.active = c'.active := congrArg Prod.snd hv
  rw [← hid, ← hactive]
  exact (h n hn c hc).inherit fun e' he' t ht _ => hg.tags e' he' t ht

/-!
# Edits that inherit
-/

theorem inherits_of_nodes {nodes : List Node}
    (h : ∀ n' ∈ nodes, ∃ n ∈ g.nodes, n.id = n'.id ∧ n'.branching? = n.branching?) :
    Inherits ⟨nodes, g.edges⟩ g where
  branchings := by
    intro n' hn' v hv
    obtain ⟨n, hn, hid, hsame⟩ := h n' hn'
    exact ⟨n, hn, hid, hsame ▸ hv⟩
  tags := (Inherits.refl g).tags

theorem mem_modifyNode {id : String} {f : Node -> Node} {m : Node}
    (h : m ∈ (g.modifyNode id f).nodes) :
    m ∈ g.nodes ∨ ∃ n, g.node? id = some n ∧ m = f n := by
  cases hn : g.node? id with
  | none =>
      rw [modifyNode_eq_of_none hn] at h
      exact Or.inl h
  | some n =>
      obtain ⟨u, v, hnodes, hmodify⟩ := modifyNode_eq_of_some hn
      rw [hmodify, List.mem_append, List.mem_cons] at h
      rw [hnodes]
      rcases h with h | h | h
      · exact Or.inl (List.mem_append_left _ h)
      · exact Or.inr ⟨n, rfl, h⟩
      · exact Or.inl (List.mem_append_right _ (List.mem_cons_of_mem _ h))

theorem inherits_modifyNode {id : String} {f : Node -> Node} (hid : ∀ n, (f n).id = n.id)
    (hf : ∀ n, g.node? id = some n -> (f n).branching? = n.branching?) :
    (g.modifyNode id f).Inherits g := by
  apply inherits_of_nodes
  intro n' hn'
  rcases mem_modifyNode hn' with hn | ⟨n, hn, rfl⟩
  · exact ⟨n', hn, rfl, rfl⟩
  · exact ⟨n, (mem_of_node? hn).1, (hid n).symm, hf n hn⟩

theorem inherits_modifyBlocks {f : Block -> Block} (hf : ∀ b, (f b).branching? = b.branching?)
    (ids : List String) : ∀ g : Graph, (g.modifyBlocks ids f).Inherits g := by
  induction ids with
  | nil => exact Inherits.refl
  | cons id ids ih =>
      intro g
      apply (ih _).trans
      apply inherits_modifyNode (Node.id_mapBlock f)
      exact fun _ _ => Node.branching?_mapBlock fun b _ => hf b

theorem inherits_pruneDangling (g : Graph) : g.pruneDangling.Inherits g :=
  inherits_modifyBlocks (Block.branching?_retainLabels _) _ g

theorem inherits_pruneAll (labels : List String) :
    ∀ g : Graph, (g.pruneAll labels).Inherits g := by
  induction labels with
  | nil => exact Inherits.refl
  | cons label labels ih =>
      intro g
      exact (ih (g.prune label)).trans
        (inherits_modifyBlocks (Block.branching?_retainLabels _) _ g)

theorem inherits_repoint (g : Graph) (old new : String) : (g.repoint old new).Inherits g :=
  inherits_modifyBlocks (Block.branching?_renameLabel old new) _ g

theorem inherits_mapHeading (g : Graph) (id : String) (f : Heading -> Heading) :
    (g.modifyNode id (Node.mapHeading f)).Inherits g :=
  inherits_modifyNode (Node.id_mapHeading f) fun n _ => n.branching?_mapHeading f

theorem inherits_relabel (g : Graph) (id label : String) : (g.relabel id label).Inherits g := by
  unfold relabel
  dsimp only
  split
  · exact Inherits.refl g
  · split
    · exact Inherits.refl g
    · exact (inherits_repoint _ _ _).trans (inherits_mapHeading g id _)

theorem inherits_updateBlock (g : Graph) (id : String) (b : Block) :
    (g.updateBlock id b).Inherits g := by
  unfold updateBlock
  split
  · exact Inherits.refl g
  · next b' hb =>
      obtain ⟨old, hold, hreplacement⟩ := Option.bind_eq_some_iff.1 hb
      refine (inherits_pruneDangling _).trans (inherits_modifyNode (Node.id_mapBlock _) ?_)
      intro n hn
      apply Node.branching?_mapBlock
      intro b hblock
      rw [block?, hn, Option.bind_some, hblock] at hold
      cases hold
      exact Block.branching?_replacement? hreplacement

theorem inherits_removeNodes (g : Graph) (ids : List String) :
    (g.removeNodes ids).Inherits g where
  branchings := fun n hn _ hv => ⟨n, List.mem_of_mem_filter hn, rfl, hv⟩
  tags := fun e he _ ht => ⟨e, List.mem_of_mem_filter he, ht, rfl, rfl⟩

theorem inherits_bypass (g : Graph) (removed : List String) (id : String) :
    (g.bypass removed id).Inherits g := by
  unfold bypass
  split
  · exact Inherits.refl g
  · constructor
    case branchings => exact (Inherits.refl g).branchings
    case tags =>
      intro e' he' t ht
      obtain ⟨e, he, rfl⟩ := List.mem_map.1 he'
      refine ⟨e, he, ?_⟩
      split at ht
      · next hcond =>
          rw [if_pos hcond]
          exact ⟨ht, rfl, rfl⟩
      · next hcond =>
          rw [if_neg hcond]
          exact ⟨ht, rfl, rfl⟩

theorem inherits_removeSubtree (g : Graph) (id : String) : (g.removeSubtree id).Inherits g :=
  (inherits_pruneAll _ _).trans ((inherits_removeNodes _ _).trans (inherits_bypass g _ id))

theorem inherits_removeBranchEdges (g : Graph) (id branch : String) :
    (g.removeBranchEdges id branch).Inherits g where
  branchings := (Inherits.refl g).branchings
  tags := fun e he _ ht => ⟨e, List.mem_of_mem_filter he, ht, rfl, rfl⟩

end Graph
end Workflow
