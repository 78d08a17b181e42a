import Workflow.Proofs.Contents
import Workflow.Proofs.Edit.Insertion
import Workflow.Proofs.Shown.Branching

/-!
# Inserted blocks are shown right

A conditional that is put into a graph comes with an empty body, whose edges are hidden but for
the branch it shows.  The edges around it are hidden as the branch is that it stands on.
-/

namespace Workflow
namespace Draft

variable {d : Draft} {run : Scope -> List String} {off : String -> String -> Prop}

/-- The graph of a draft shows its branches, and its edges are tagged with ids that are out. -/
structure Shown (off : String -> String -> Prop) (d : Draft) : Prop where
  shown : d.graph.ShownBut off
  nodes : ∀ n ∈ d.graph.nodes, d.supply.Issued n.id
  tags : ∀ e ∈ d.graph.edges, ∀ t, e.tag = some t -> d.supply.Issued t.conditional

/-- A new edge is hidden as the conditional wants it that its tag names. -/
def Fits (d : Draft) (tag : Option BranchTag) (hidden : Bool) : Prop :=
  ∀ t, tag = some t -> d.supply.Issued t.conditional ∧
    ∀ n ∈ d.graph.nodes, n.id = t.conditional -> ∀ c, n.conditional? = some c ->
      (hidden <-> t.branch ≠ c.active)

theorem Laid.shown (h : d.Laid run) (hs : d.graph.ShownBut off) : d.Shown off where
  shown := hs
  nodes := by
    intro n hn
    apply h.issued
    rw [Graph.ids_shape]
    exact List.mem_map_of_mem hn
  tags := by
    intro e he t ht
    obtain ⟨x, hx, -, hparent⟩ := h.shape.exists_source_of_tag (Graph.link_mem he) ht
    rcases h.shape.parents x hx with hroot | ⟨y, hy, hyparent, -⟩
    · cases hparent.symm.trans hroot
    · rw [Option.some.inj (hparent.symm.trans hyparent)]
      exact h.issued _ (List.mem_map_of_mem hy)

/-!
# New nodes and edges
-/

theorem Shown.addNode (h : d.Shown off) (parent : Option String) (content : Content) :
    (d.addNode parent content).2.Shown off where
  shown := by
    intro n hn c hc
    rcases List.mem_append.1 hn with hn | hn
    · exact h.shown n hn c hc
    · cases List.mem_singleton.1 hn
      -- no edge is tagged with an id that was not out
      intro e he b ht
      exact absurd (h.tags e he _ ht) (Supply.not_issued_upcoming Nat.one_pos)
  nodes := by
    intro n hn
    rcases List.mem_append.1 hn with hn | hn
    · exact (h.nodes n hn).after (supply_addNode d parent content)
    · cases List.mem_singleton.1 hn
      exact (supply_addNode d parent content).issued (Nat.le_refl 1)
  tags := fun e he t ht => (h.tags e he t ht).after (supply_addNode d parent content)

theorem Shown.addEdge (h : d.Shown off) (source target : String) (kind : EdgeKind)
    {tag : Option BranchTag} {hidden : Bool} (hfits : d.Fits tag hidden) :
    (d.addEdge source target kind tag hidden).Shown off where
  shown := by
    intro n hn c hc e he b ht
    rcases List.mem_append.1 he with he | he
    · exact h.shown n hn c hc e he b ht
    · cases List.mem_singleton.1 he
      exact Or.inl ((hfits _ ht).2 n hn rfl c hc)
  nodes := h.nodes
  tags := by
    intro e he t ht
    rcases List.mem_append.1 he with he | he
    · exact h.tags e he t ht
    · cases List.mem_singleton.1 he
      exact (hfits t ht).1

theorem Fits.addNode {tag : Option BranchTag} {hidden : Bool} (h : d.Fits tag hidden)
    (parent : Option String) (content : Content) :
    (d.addNode parent content).2.Fits tag hidden := by
  intro t ht
  obtain ⟨hissued, hnodes⟩ := h t ht
  refine ⟨hissued.after (supply_addNode d parent content), fun n hn hid => ?_⟩
  rcases List.mem_append.1 hn with hn | hn
  · exact hnodes n hn hid
  · cases List.mem_singleton.1 hn
    have hnew : d.supply.upcoming 1 = t.conditional := hid
    rw [← hnew] at hissued
    exact absurd hissued (Supply.not_issued_upcoming Nat.one_pos)

/-!
# Bodies
-/

theorem mem_edges_addBody {container : String} {b : Block} {e : Edge}
    (he : e ∈ (d.addBody container b).graph.edges) : e ∈ d.graph.edges ∨
      ∀ t, e.tag = some t -> t.conditional = container ∧
        ∃ c, b = .conditional c ∧ (e.hidden <-> t.branch ≠ c.active) := by
  cases b with
  | leaf l => exact Or.inl he
  | loop a =>
      rcases List.mem_append.1 he with he | he
      · exact Or.inl he
      · cases List.mem_singleton.1 he
        exact Or.inr fun t ht => by cases ht
  | conditional c =>
      have hbranches : ∀ (bs : List Branch) (start marker : String) (d : Draft),
          e ∈ (bs.foldl (fun d b => d.addEdge start marker .branch (some ⟨container, b.id⟩)
            (b.id != c.active)) d).graph.edges -> e ∈ d.graph.edges ∨
          ∃ b ∈ bs, e.tag = some ⟨container, b.id⟩ ∧ e.hidden = (b.id != c.active) := by
        intro bs start marker
        induction bs with
        | nil => exact fun _ he => Or.inl he
        | cons b bs ih =>
            intro d he
            rcases ih _ he with he | ⟨b', hb', htag⟩
            · rcases List.mem_append.1 he with he | he
              · exact Or.inl he
              · cases List.mem_singleton.1 he
                exact Or.inr ⟨b, List.mem_cons_self, rfl, rfl⟩
            · exact Or.inr ⟨b', List.mem_cons_of_mem b hb', htag⟩
      rcases hbranches c.branches _ _ _ he with hold | ⟨b, -, htag, hhidden⟩
      · exact Or.inl hold
      · refine Or.inr fun t ht => ?_
        cases htag.symm.trans ht
        refine ⟨rfl, c, rfl, ?_⟩
        rw [hhidden, bne_iff_ne]

theorem inheritsBut_addBody (d : Draft) (container : String) (b : Block) :
    Graph.InheritsBut container (d.addBody container b).graph d.graph where
  branchings := by
    intro n hn _ v hv
    rw [nodes_addBody] at hn
    rcases List.mem_append.1 hn with hn | hn
    · exact ⟨n, hn, rfl, hv⟩
    · have hnone : n.branching? = none := by
        rcases List.mem_cons.1 hn with rfl | hn
        · rfl
        · cases List.mem_singleton.1 hn
          rfl
      cases hnone.symm.trans hv
  tags := by
    intro e he t ht hne
    rcases mem_edges_addBody he with hold | hnew
    · exact ⟨e, hold, ht, rfl, rfl⟩
    · exact absurd (hnew t ht).1 hne

theorem conditional?_of_mem_addBody {container : String} {b : Block} {n : Node}
    (hn : n ∈ (d.addBody container b).graph.nodes) : n ∈ d.graph.nodes ∨
      n.conditional? = none ∧ (d.addBody container b).supply.Issued n.id := by
  obtain ⟨-, hafter⟩ := shape_addBody d container b
  rw [nodes_addBody] at hn
  rcases List.mem_append.1 hn with hn | hn
  · exact Or.inl hn
  · rcases List.mem_cons.1 hn with rfl | hn
    · exact Or.inr ⟨rfl, hafter.issued (Nat.le_succ 1)⟩
    · cases List.mem_singleton.1 hn
      exact Or.inr ⟨rfl, hafter.issued (Nat.le_refl 2)⟩

theorem Shown.addBody {container : String} {b : Block} (h : d.Shown off)
    (hissued : d.supply.Issued container)
    (hactive : ∀ c, b = .conditional c -> ∀ n ∈ d.graph.nodes, n.id = container ->
      ∀ c', n.conditional? = some c' -> c'.active = c.active) :
    (d.addBody container b).Shown off where
  shown := by
    intro n hn c' hc' e he branch ht
    rcases conditional?_of_mem_addBody hn with hn | ⟨hnone, -⟩
    · rcases mem_edges_addBody he with hold | hnew
      · exact h.shown n hn c' hc' e hold branch ht
      · obtain ⟨hid, c, hc, hhidden⟩ := hnew _ ht
        rw [hactive c hc n hn hid c' hc']
        exact Or.inl hhidden
    · cases hnone.symm.trans hc'
  nodes := by
    intro n hn
    rcases conditional?_of_mem_addBody hn with hn | ⟨-, hout⟩
    · exact (h.nodes n hn).after (shape_addBody d container b).2
    · exact hout
  tags := by
    intro e he t ht
    rcases mem_edges_addBody he with hold | hnew
    · exact (h.tags e hold t ht).after (shape_addBody d container b).2
    · rw [(hnew t ht).1]
      exact hissued.after (shape_addBody d container b).2

theorem Fits.addBody {tag : Option BranchTag} {hidden : Bool} (h : d.Fits tag hidden)
    (container : String) (b : Block) : (d.addBody container b).Fits tag hidden := by
  intro t ht
  obtain ⟨hissued, hnodes⟩ := h t ht
  refine ⟨hissued.after (shape_addBody d container b).2, fun n hn hid c hc => ?_⟩
  rcases conditional?_of_mem_addBody hn with hn | ⟨hnone, -⟩
  · exact hnodes n hn hid c hc
  · cases hnone.symm.trans hc

/-!
# Blocks
-/

theorem Shown.addBlock (h : d.Shown off) (parent : Option String) (heading : Heading)
    (b : Block) : (d.addBlock parent heading b).2.Shown off := by
  have hblock := h.addNode parent (.block heading b)
  unfold Draft.addBlock
  dsimp only
  split
  · apply hblock.addBody
    · exact (supply_addNode d parent _).issued (Nat.le_refl 1)
    · intro c hc n hn hid c' hc'
      rcases List.mem_append.1 hn with hn | hn
      · have hissued := h.nodes n hn
        rw [hid] at hissued
        exact absurd hissued (Supply.not_issued_upcoming Nat.one_pos)
      · cases List.mem_singleton.1 hn
        cases hc
        cases hc'
        rfl
  · exact hblock

theorem Fits.addBlock {tag : Option BranchTag} {hidden : Bool} (h : d.Fits tag hidden)
    (parent : Option String) (heading : Heading) (b : Block) :
    (d.addBlock parent heading b).2.Fits tag hidden := by
  unfold Draft.addBlock
  dsimp only
  split
  · exact (h.addNode _ _).addBody _ b
  · exact h.addNode _ _

/-!
# Rows of blocks
-/

section Row

variable {a : Anchor} {hidden : Bool} (hfits : d.Fits a.tag hidden)
include hfits

theorem Fits.putAfter (kind : Option EdgeKind) (heading : Heading) (b : Block) :
    (d.putAfter a kind hidden heading b).2.Fits a.tag hidden := by
  have hblock := hfits.addBlock a.parent heading b
  unfold Draft.putAfter
  dsimp only
  split
  · exact hblock
  · exact hblock

theorem Fits.closeAt : (d.closeAt a hidden).Fits a.tag hidden := by
  unfold Draft.closeAt
  split
  · exact hfits
  · exact hfits

theorem Shown.putAfter (h : d.Shown off) (kind : Option EdgeKind) (heading : Heading)
    (b : Block) : (d.putAfter a kind hidden heading b).2.Shown off := by
  have hshown := h.addBlock a.parent heading b
  unfold Draft.putAfter
  dsimp only
  split
  · exact hshown
  · exact hshown.addEdge _ _ _ (hfits.addBlock a.parent heading b)

theorem Shown.closeAt (h : d.Shown off) : (d.closeAt a hidden).Shown off := by
  unfold Draft.closeAt
  split
  · exact h.addEdge _ _ _ hfits
  · exact h

end Row

theorem Shown.putRow {hidden : Bool} (kind : Option EdgeKind) (row : List (Heading × Block)) :
    ∀ {d : Draft} {a : Anchor}, d.Shown off -> d.Fits a.tag hidden ->
      (d.putRow kind hidden a row).2.Shown off := by
  induction row with
  | nil =>
      intro d a h hfits
      exact h.closeAt hfits
  | cons entry row ih =>
      intro d a h hfits
      exact ih (h.putAfter hfits kind entry.1 entry.2) (hfits.putAfter kind entry.1 entry.2)

theorem exists_conditional_of_tag {g : Graph} {a : Anchor} {t : BranchTag} (hvalid : a.isValid g)
    (htag : a.tag = some t) : ∃ c, g.conditional? t.conditional = some c := by
  rcases a with ⟨previous, next, parent, branch⟩
  cases parent with
  | none => cases htag
  | some p =>
      cases branch with
      | none => cases htag
      | some b =>
          cases htag
          simp only [Anchor.isValid, Anchor.scopeExists, Bool.and_eq_true,
            Option.any_eq_true] at hvalid
          rcases hvalid.1.1.1 with ⟨c, hc, -⟩
          exact ⟨c, hc⟩

theorem Laid.fits_of_isValid (h : d.Laid run) {a : Anchor} (hvalid : a.isValid d.graph) :
    d.Fits a.tag (a.tag.any d.graph.isHiddenBranch) := by
  intro t ht
  rcases exists_conditional_of_tag hvalid ht with ⟨c, hc⟩
  constructor
  · rcases Graph.slot_of_block? (Graph.conditional?_eq_some.1 hc) with ⟨p, hslot⟩
    exact h.issued _ (List.mem_map_of_mem hslot)
  · intro n hn hid c' hc'
    rw [← hid] at hc
    cases hc'.symm.trans ((Graph.conditional?_of_mem h.shape.distinct hn).symm.trans hc)
    rw [hid] at hc
    simp only [ht, Option.any_some, Graph.isHiddenBranch, hc, bne_iff_ne]
    exact ne_comm

/-- What the edges of a branch have to be is known from the conditional that it belongs to. -/
theorem Laid.isHiddenBranch_eq (h : d.Laid run) {a : Anchor} (hvalid : a.isValid d.graph)
    {hidden : Bool} (hfits : d.Fits a.tag hidden) (hseen : a.tag = none -> hidden = false) :
    a.tag.any d.graph.isHiddenBranch = hidden := by
  cases htag : a.tag with
  | none => exact (hseen htag).symm
  | some t =>
      rcases exists_conditional_of_tag hvalid htag with ⟨c, hc⟩
      rcases Graph.exists_node_of_conditional? hc with ⟨m, hm, hmid, hmc⟩
      have hnew := (h.fits_of_isValid hvalid t htag).2 m hm hmid c hmc
      have hold := (hfits t htag).2 m hm hmid c hmc
      rw [← htag]
      exact Bool.eq_iff_iff.2 (hnew.trans hold.symm)

theorem Shown.openAt (h : d.Shown off) (a : Anchor) : (d.openAt a).Shown off := by
  unfold Draft.openAt
  split
  · constructor
    case shown =>
      apply h.shown.inherit
      constructor
      case branchings => exact (Graph.Inherits.refl _).branchings
      case tags =>
        intro e he t ht
        exact ⟨e, List.mem_of_mem_filter he, ht, rfl, rfl⟩
    case nodes => exact h.nodes
    case tags => exact fun e he t ht => h.tags e (List.mem_of_mem_filter he) t ht
  · exact h

theorem Fits.openAt {tag : Option BranchTag} {hidden : Bool} (h : d.Fits tag hidden) (a : Anchor) :
    (d.openAt a).Fits tag hidden := by
  unfold Draft.openAt
  split
  · exact h
  · exact h

theorem shownBut_splice (h : d.Laid run) (hs : d.graph.ShownBut off) {a : Anchor}
    (hvalid : a.isValid d.graph) (kind : Option EdgeKind) (row : List (Heading × Block)) :
    (d.splice a kind row).2.graph.ShownBut off := by
  have hopen := (h.shown hs).openAt a
  have hfits := (h.fits_of_isValid hvalid).openAt a
  exact (hopen.putRow kind row hfits).shown

/-!
# The insertions
-/

theorem shownBut_insertBlock (h : d.Laid run) (hs : d.graph.ShownBut off) (stem : String)
    (kind : Kind) (a : Anchor) : (d.insertBlock stem kind a).2.graph.ShownBut off := by
  unfold insertBlock
  split
  · next hvalid => exact shownBut_splice h hs hvalid none _
  · exact hs

theorem shownBut_insertRecorded (h : d.Laid run) (hs : d.graph.ShownBut off) (stem : String)
    (blocks : List RecordedBlock) (point : InsertionPoint) :
    (d.insertRecorded stem blocks point).2.graph.ShownBut off := by
  unfold insertRecorded
  split
  · exact hs
  · next hcond =>
      simp only [Bool.or_eq_true, Bool.not_eq_true', not_or, Bool.not_eq_false] at hcond
      exact (shownBut_splice h hs hcond.2 _ _).inherit (Graph.inherits_pruneDangling _)

/-!
# Another kind
-/

theorem Laid.ne_of_mem_removeNodes (h : d.Laid run) {id : String} {e : Edge} {t : BranchTag}
    (he : e ∈ (d.graph.removeNodes (d.graph.descendants id)).edges) (ht : e.tag = some t) :
    t.conditional ≠ id := by
  intro hid
  obtain ⟨hmem, hends⟩ := List.mem_filter.1 he
  obtain ⟨x, hx, hxid, hparent⟩ := h.shape.exists_source_of_tag (Graph.link_mem hmem) ht
  rw [hid] at hparent
  have hcontainer : id ∈ d.graph.shape.ids := by
    rcases h.shape.parents x hx with hroot | ⟨y, hy, hyparent, -⟩
    · cases hparent.symm.trans hroot
    · cases hparent.symm.trans hyparent
      exact List.mem_map_of_mem hy
  have hnest := Graph.isNest_descendants h.shape.toNested hcontainer
  have hdescendant : x.id ∈ d.graph.descendants id :=
    (hnest.closed x hx).2 ⟨id, hparent, Or.inl rfl⟩
  rw [hxid] at hdescendant
  simp [Edge.link] at hdescendant hends
  exact hends.1 hdescendant

theorem conditional?_setContent {g : Graph} {id : String} {heading : Heading} {kind : Kind}
    {c : Conditional}
    (hc : (g.modifyNode id fun n => { n with content := .block heading (.fresh kind) }).conditional?
      id = some c) : Block.fresh kind = .conditional c := by
  cases hn : g.node? id with
  | none =>
      rw [Graph.modifyNode_eq_of_none hn, Graph.conditional?, hn] at hc
      cases hc
  | some n =>
      rw [Graph.conditional?, Graph.node?_modifyNode, hn, Option.map_some, Option.bind_some] at hc
      · cases hfresh : Block.fresh kind with
        | leaf l => simp [Node.conditional?, Node.block?, hfresh, Block.conditional?] at hc
        | loop a => simp [Node.conditional?, Node.block?, hfresh, Block.conditional?] at hc
        | conditional c' =>
            simp only [Node.conditional?, Node.block?, hfresh, Block.conditional?,
              Option.bind_some, Option.some.injEq] at hc
            rw [hc]
      · exact fun _ => rfl

/-- The draft in which what stood in a block is gone and the body of a fresh one is there. -/
def refilled (d : Draft) (id : String) (kind : Kind) : Draft :=
  let d := d.modify fun g => g.removeNodes (d.graph.descendants id)
  if kind.isContainer then d.addBody id (.fresh kind) else d

/-- A block of another kind is a fresh one around the body that was made for it. -/
theorem exists_retypeBlock_eq {id : String} {old : Heading}
    (hheading : (d.graph.node? id).bind Node.heading? = some old) (stem : String) (kind : Kind) :
    ∃ heading labels, d.retypeBlock stem id kind =
      (d.refilled id kind).modify fun g => (g.modifyNode id fun n =>
        { n with content := .block heading (.fresh kind) }).pruneAll labels := by
  rw [retypeBlock, hheading]
  exact ⟨_, _, rfl⟩

theorem inheritsBut_refilled (d : Draft) (id : String) (kind : Kind) :
    Graph.InheritsBut id (d.refilled id kind).graph d.graph := by
  have hremoved := (Graph.inherits_removeNodes d.graph (d.graph.descendants id)).but id
  unfold refilled
  dsimp only
  split
  · exact (inheritsBut_addBody _ id _).trans hremoved
  · exact hremoved

theorem Laid.shows_refilled (h : d.Laid run) {id : String} {kind : Kind} {c : Conditional}
    (hc : Block.fresh kind = .conditional c) : (d.refilled id kind).graph.Shows id c.active := by
  intro e he branch ht
  unfold refilled at he
  dsimp only at he
  split at he
  · rcases mem_edges_addBody he with hold | hnew
    · exact absurd rfl (h.ne_of_mem_removeNodes hold ht)
    · obtain ⟨-, c', hc', hhidden⟩ := hnew _ ht
      cases hc'.symm.trans hc
      exact hhidden
  · exact absurd rfl (h.ne_of_mem_removeNodes he ht)

theorem conditional?_eq_none_of_heading {g : Graph} {id : String}
    (h : (g.node? id).bind Node.heading? = none) : g.conditional? id = none := by
  rw [Graph.conditional?]
  cases hn : g.node? id with
  | none => rfl
  | some n =>
      rw [hn] at h
      obtain ⟨nid, parent, content⟩ := n
      cases content with
      | start => rfl
      | insertionMarker => rfl
      | block heading b => cases h

theorem inheritsBut_retypeBlock (d : Draft) (stem id : String) (kind : Kind) :
    Graph.InheritsBut id (d.retypeBlock stem id kind).graph d.graph := by
  cases hheading : (d.graph.node? id).bind Node.heading? with
  | none =>
      rw [retypeBlock, hheading]
      exact (Graph.Inherits.refl _).but id
  | some old =>
      obtain ⟨heading, labels, heq⟩ := exists_retypeBlock_eq hheading stem kind
      rw [heq]
      apply ((Graph.inherits_pruneAll labels _).but id).trans
      refine .trans (Graph.inheritsBut_modifyNode ?_) (inheritsBut_refilled d id kind)
      exact fun _ => rfl

theorem branching_of_fresh {kind : Kind} {c : Conditional}
    (h : Block.fresh kind = .conditional c) : c.branching = Conditional.fresh.branching := by
  cases kind <;> cases h
  rfl

/-- A block that is made a conditional branches as a fresh one does, and its edges show that. -/
theorem Laid.shows_retypeBlock (h : d.Laid run) {stem id : String} {kind : Kind} {c' : Conditional}
    (hc' : (d.retypeBlock stem id kind).graph.conditional? id = some c') :
    c'.branching = Conditional.fresh.branching ∧
      (d.retypeBlock stem id kind).graph.Shows id c'.active := by
  obtain ⟨run', hlaid⟩ := h.retypeBlock stem id kind
  have hids := hlaid.shape.distinct
  cases hheading : (d.graph.node? id).bind Node.heading? with
  | none =>
      rw [Draft.retypeBlock, hheading] at hc'
      cases (conditional?_eq_none_of_heading hheading).symm.trans hc'
  | some old =>
      obtain ⟨heading, labels, heq⟩ := exists_retypeBlock_eq hheading stem kind
      let changed := (d.refilled id kind).graph.modifyNode id fun n =>
        { n with content := .block heading (.fresh kind) }
      have hinherits : (d.retypeBlock stem id kind).graph.Inherits changed := by
        rw [heq]
        exact Graph.inherits_pruneAll labels changed
      have hchangedIds : changed.shape.ids.Nodup := by
        rw [heq] at hids
        dsimp only [Draft.modify] at hids
        rwa [Graph.shape_pruneAll] at hids
      obtain ⟨c, hc, hbranching⟩ := hinherits.conditional? hchangedIds hc'
      have hfresh := conditional?_setContent hc
      have hactive : c'.active = c.active := congrArg Prod.snd hbranching
      rw [hbranching, hactive]
      constructor
      · exact branching_of_fresh hfresh
      · exact (h.shows_refilled hfresh).inherit fun e he t ht _ => hinherits.tags e he t ht

theorem shownBut_retypeBlock (h : d.Laid run) (hs : d.graph.ShownBut off) (stem id : String)
    (kind : Kind) : (d.retypeBlock stem id kind).graph.ShownBut off := by
  obtain ⟨run', hlaid⟩ := h.retypeBlock stem id kind
  apply hs.inheritBut (inheritsBut_retypeBlock d stem id kind) hlaid.shape.distinct
    fun _ _ _ hj => hj
  intro c' hc'
  exact (h.shows_retypeBlock hc').2.but _

end Draft
end Workflow
