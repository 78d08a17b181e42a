import Workflow.Proofs.Run.Restored

/-!
# Rows of blocks

Blocks that are inserted one after another, each behind the one before, stand as the row that is
put there at once.  The edge that leads from a new block to the next end is taken away by the
insertion that comes after it, so only the ids of edges tell the two apart.
-/

namespace Workflow

/-- A block as a kind makes it. -/
def RecordedBlock.fresh (kind : Kind) : RecordedBlock :=
  { block := .fresh kind }

namespace Draft

/-- Two drafts that differ in nothing but the ids of edges. -/
structure Agrees (d d' : Draft) : Prop where
  nodes : d'.graph.nodes = d.graph.nodes
  edges : d'.graph.edges.map Edge.unnamed = d.graph.edges.map Edge.unnamed
  supply : d.supply.After d'.supply 0

/-- The same blocks are created, and the drafts agree. -/
structure SameAnswer (x y : List String × Draft) : Prop where
  ids : y.1 = x.1
  drafts : x.2.Agrees y.2

/-- Inserts blocks one after another, each behind the one that was created before it. -/
def insertInTurn (d : Draft) (stem : String) (a : Anchor) : List Kind -> List String × Draft
  | [] => ([], d)
  | kind :: kinds =>
      let (created, d) := d.insertBlock stem kind a
      let behind := { a with previous := created.getLast?.or a.previous }
      let (rest, d) := insertInTurn d stem behind kinds
      (created ++ rest, d)

/-- The labels that are next, when each counts as taken for those behind it. -/
def nextLabels (d : Draft) (stem : String) (n : Nat) : List String :=
  (Label.Batch.allocateMany n ⟨stem, d.graph.labels⟩).1

/-- Recorded blocks under labels. -/
def recordedRow (labels : List String) (blocks : List RecordedBlock) : List (Heading × Block) :=
  labels.zipWith (fun label r => (r.heading label, r.block)) blocks

variable {d d' d'' : Draft} {run : Scope -> List String} {a : Anchor} {hidden : Bool}

/-!
# Drafts that agree
-/

theorem Agrees.refl (d : Draft) : d.Agrees d :=
  ⟨rfl, rfl, .refl _⟩

theorem Agrees.trans (h : d.Agrees d') (h' : d'.Agrees d'') : d.Agrees d'' :=
  ⟨h'.nodes.trans h.nodes, h'.edges.trans h.edges, h.supply.trans h'.supply⟩

section Agrees

variable (h : d.Agrees d')
include h

theorem Agrees.upcoming (n : Nat) : d'.supply.upcoming n = d.supply.upcoming n := by
  rcases h.supply with ⟨hnaming, hnodes⟩
  rw [Supply.upcoming, hnaming, hnodes]
  rfl

theorem Agrees.kindInto (target : String) (tag : Option BranchTag) :
    d'.graph.kindInto target tag = d.graph.kindInto target tag := by
  have hnode : d'.graph.node? target = d.graph.node? target := by
    simp only [Graph.node?, h.nodes]
  rw [Graph.kindInto, hnode]
  rfl

theorem Agrees.addNode (parent : Option String) (content : Content) :
    (d.addNode parent content).2.Agrees (d'.addNode parent content).2 where
  nodes := by
    show d'.graph.nodes ++ [⟨d'.supply.upcoming 1, parent, content⟩] =
      d.graph.nodes ++ [⟨d.supply.upcoming 1, parent, content⟩]
    rw [h.nodes, h.upcoming]
  edges := h.edges
  supply := ⟨h.supply.1, congrArg (· + 1) h.supply.2⟩

theorem Agrees.addEdge (source target : String) (kind : EdgeKind) (tag : Option BranchTag)
    (hidden : Bool) :
    (d.addEdge source target kind tag hidden).Agrees
      (d'.addEdge source target kind tag hidden) where
  nodes := h.nodes
  edges := by
    simp only [Draft.addEdge, List.map_append, h.edges]
    rfl
  supply := h.supply

theorem Agrees.addBodyEdges (container start marker : String) (b : Block) :
    (d.addBodyEdges container start marker b).Agrees
      (d'.addBodyEdges container start marker b) := by
  cases b with
  | leaf l => exact h
  | loop a => exact h.addEdge _ _ _ _ _
  | conditional c =>
      simp only [Draft.addBodyEdges]
      induction c.branches generalizing d d' with
      | nil => exact h
      | cons b bs ih => exact ih (h.addEdge _ _ _ _ _)

theorem Agrees.addBody (container : String) (b : Block) :
    (d.addBody container b).Agrees (d'.addBody container b) := by
  have hmarkers := (h.addNode (some container) .start).addNode (some container) .insertionMarker
  show (Draft.addBodyEdges _ container (d.supply.upcoming 1) (d.supply.upcoming 2) b).Agrees
    (Draft.addBodyEdges _ container (d'.supply.upcoming 1) (d'.supply.upcoming 2) b)
  rw [h.upcoming, h.upcoming]
  exact hmarkers.addBodyEdges container _ _ b

theorem Agrees.addBlock (parent : Option String) (heading : Heading) (b : Block) :
    (d.addBlock parent heading b).2.Agrees (d'.addBlock parent heading b).2 := by
  have hnode := h.addNode parent (.block heading b)
  unfold Draft.addBlock
  cases b.isContainer with
  | false => exact hnode
  | true =>
      show (Draft.addBody _ (d.supply.upcoming 1) b).Agrees
        (Draft.addBody _ (d'.supply.upcoming 1) b)
      rw [h.upcoming]
      exact hnode.addBody _ b

theorem Agrees.putAfter (a : Anchor) (kind : Option EdgeKind) (hidden : Bool)
    (heading : Heading) (b : Block) :
    (d'.putAfter a kind hidden heading b).1 = (d.putAfter a kind hidden heading b).1 ∧
      (d.putAfter a kind hidden heading b).2.Agrees (d'.putAfter a kind hidden heading b).2 := by
  have hblock := h.addBlock a.parent heading b
  have hid : (d'.addBlock a.parent heading b).1 = (d.addBlock a.parent heading b).1 :=
    h.upcoming 1
  constructor
  · rw [putAfter_fst, putAfter_fst, h.upcoming]
  · unfold Draft.putAfter
    cases a.previous with
    | none => exact hblock
    | some p =>
        simp only [hid, hblock.kindInto]
        exact hblock.addEdge _ _ _ _ _

theorem Agrees.closeAt (a : Anchor) (hidden : Bool) :
    (d.closeAt a hidden).Agrees (d'.closeAt a hidden) := by
  unfold Draft.closeAt
  split
  · rw [h.kindInto]
    exact h.addEdge _ _ _ _ _
  · exact h

theorem Agrees.putRow (kind : Option EdgeKind) (hidden : Bool) (row : List (Heading × Block))
    (a : Anchor) : SameAnswer (d.putRow kind hidden a row) (d'.putRow kind hidden a row) := by
  induction row generalizing d d' a with
  | nil => exact ⟨rfl, h.closeAt a hidden⟩
  | cons entry row ih =>
      rcases h.putAfter a kind hidden entry.1 entry.2 with ⟨hid, hput⟩
      rcases ih hput { a with previous := some (d.putAfter a kind hidden entry.1 entry.2).1 } with
        ⟨hids, hrow⟩
      simp only [Draft.putRow, hid]
      exact ⟨congrArg (_ :: ·) hids, hrow⟩

end Agrees

/-!
# Drafts with a gap
-/

/-- A draft where nothing is missing but the edge between the ends of an anchor. -/
structure GapAt (d : Draft) (a : Anchor) (hidden : Bool) : Prop where
  laid : ∃ run u p n v, d.LaidBut run [⟨p, n, a.place.tag⟩] ∧
    d.graph.shape.HasScope a.place ∧ run a.place = u ++ p :: n :: v ∧
    a.previous = some p ∧ a.next = some n
  fits : d.Fits a.tag hidden
  seen : a.tag = none -> hidden = false

theorem Laid.gapAt_openAt (h : d.Laid run) (hvalid : a.isValid d.graph) :
    (d.openAt a).GapAt a (a.tag.any d.graph.isHiddenBranch) where
  laid := by
    rcases (Anchor.isValid_iff h.shape).1 hvalid with ⟨hs, p, n, hp, hn, u, v, hrun⟩
    exact ⟨run, u, p, n, v, h.openAt hs ⟨u, v, hrun⟩ hp hn a.tag_eq, hasScope_openAt hs, hrun,
      hp, hn⟩
  fits := (h.fits_of_isValid hvalid).openAt a
  seen := by
    intro htag
    rw [htag]
    rfl

theorem GapAt.putAfter (h : d.GapAt a hidden) (kind : Option EdgeKind) (heading : Heading)
    (b : Block) : (d.putAfter a kind hidden heading b).2.GapAt
      { a with previous := some (d.putAfter a kind hidden heading b).1 } hidden where
  laid := by
    rcases h.laid with ⟨run, u, p, n, v, hbut, hs, hrun, hp, hn⟩
    have hput := hbut.putAfter hp rfl a.tag_eq kind hidden heading b hs hrun
    have hscope := hasScope_putAfter hp rfl a.tag_eq kind hidden heading b hs
    refine ⟨_, u ++ [p], d.supply.upcoming 1, n, v, hput, hscope, ?_, ?_, hn⟩
    · exact hbut.run_putAfter hs u v p n
    · rw [putAfter_fst]
  fits := h.fits.putAfter kind heading b
  seen := h.seen

theorem GapAt.closeAt (h : d.GapAt a hidden) :
    (∃ run, (d.closeAt a hidden).Laid run) ∧ a.isValid (d.closeAt a hidden).graph := by
  rcases h.laid with ⟨run, u, p, n, v, hbut, hs, hrun, hp, hn⟩
  have hlaid := hbut.closeAt hp hn a.tag_eq hidden
  constructor
  · exact ⟨run, hlaid⟩
  · apply (Anchor.isValid_iff hlaid.shape).2
    exact ⟨hasScope_closeAt hs, p, n, hp, hn, u, v, hrun⟩

/-- What the editor works out anew for each insertion does not change. -/
theorem GapAt.isHiddenBranch_closeAt (h : d.GapAt a hidden) :
    a.tag.any (d.closeAt a hidden).graph.isHiddenBranch = hidden := by
  rcases h.closeAt with ⟨⟨run, hlaid⟩, hvalid⟩
  exact hlaid.isHiddenBranch_eq hvalid h.fits.closeAt h.seen

theorem GapAt.openAt_closeAt (h : d.GapAt a hidden) :
    ((d.closeAt a hidden).openAt a).Agrees d := by
  rcases h.laid with ⟨run, u, p, n, v, hbut, -, -, hp, hn⟩
  have hkept : ∀ e ∈ d.graph.edges, inGap p n a.tag e = false := by
    intro e he
    rw [Bool.eq_false_iff]
    intro hgap
    apply hbut.absent ⟨p, n, a.place.tag⟩ List.mem_cons_self
    rw [← a.tag_eq, ← inGap_iff.1 hgap]
    exact Graph.link_mem he
  have hsame : (d.closeAt a hidden).openAt a =
      { d with supply := { d.supply with edges := d.supply.edges + 1 } } := by
    rw [openAt_eq hp hn]
    simp only [Draft.closeAt, hp, hn, Draft.addEdge, Draft.modify, Graph.disconnect,
      List.filter_append]
    rw [List.filter_eq_self.2 fun e he => Bool.not_eq_true' _ ▸ hkept e he]
    simp
  rw [hsame]
  exact ⟨rfl, rfl, rfl, rfl⟩

/-!
# One after another
-/

/-- An insertion puts a block into the gap and closes the gap behind it. -/
theorem insertBlock_eq_closeAt (hvalid : a.isValid d.graph) (stem : String) (kind : Kind) :
    d.insertBlock stem kind a =
      let hidden := a.tag.any d.graph.isHiddenBranch
      let put := (d.openAt a).putAfter a none hidden
        { label := Label.generate stem d.graph.labels } (.fresh kind)
      ([put.1], put.2.closeAt { a with previous := some put.1 } hidden) := by
  rw [insertBlock, if_pos hvalid]
  rfl

theorem length_nextLabels (d : Draft) (stem : String) (n : Nat) :
    (d.nextLabels stem n).length = n :=
  (Label.Batch.allocateMany_fresh n _).1

/-- Labels are given out to a whole row as they are to its blocks in turn. -/
theorem nextLabels_succ (stem : String) (n : Nat) {label : String}
    (hlabel : Label.generate stem d.graph.labels = label)
    (hlabels : d'.graph.labels = d.graph.labels ++ [label]) :
    d.nextLabels stem (n + 1) = label :: d'.nextLabels stem n := by
  subst hlabel
  have hperm := List.perm_append_singleton (Label.generate stem d.graph.labels) d.graph.labels
  rw [← hlabels] at hperm
  show _ :: (Label.Batch.allocateMany n ⟨stem, _ :: d.graph.labels⟩).1 = _
  rw [← Label.Batch.allocateMany_perm stem n hperm]
  rfl

/-- Blocks as their kinds make them, under the labels that are next. -/
def freshRow (d : Draft) (stem : String) (kinds : List Kind) : List (Heading × Block) :=
  recordedRow (d.nextLabels stem kinds.length) (kinds.map .fresh)

/-- The step: if the blocks behind the first stand as a row when the gap is closed before them, all
of them do. -/
theorem Laid.insertInTurn_cons {stem : String} {kinds : List Kind} (kind : Kind)
    (hrest : ∀ {d : Draft} {a : Anchor} {hidden : Bool}, d.GapAt a hidden ->
      SameAnswer ((d.closeAt a hidden).insertInTurn stem a kinds)
        (d.putRow none hidden a (d.freshRow stem kinds)))
    (h : d.Laid run) (hvalid : a.isValid d.graph) :
    SameAnswer (d.insertInTurn stem a (kind :: kinds))
      (d.splice a none (d.freshRow stem (kind :: kinds))) := by
  have hgap := (h.gapAt_openAt hvalid).putAfter none
    { label := Label.generate stem d.graph.labels } (.fresh kind)
  have hlabels := labels_putAfter (d.openAt a) a none (a.tag.any d.graph.isHiddenBranch)
    { label := Label.generate stem d.graph.labels } (.fresh kind)
  rw [labels_openAt] at hlabels
  have hnext := nextLabels_succ stem kinds.length rfl hlabels
  rcases hrest hgap with ⟨hids, hdrafts⟩
  rw [freshRow, List.length_cons, hnext]
  simp only [insertInTurn, insertBlock_eq_closeAt hvalid]
  exact ⟨congrArg (_ :: ·) hids, hdrafts⟩

theorem GapAt.insertInTurn_closeAt (stem : String) (kinds : List Kind) : ∀ {d : Draft} {a : Anchor}
    {hidden : Bool}, d.GapAt a hidden ->
      SameAnswer ((d.closeAt a hidden).insertInTurn stem a kinds)
        (d.putRow none hidden a (d.freshRow stem kinds)) := by
  induction kinds with
  | nil => exact fun _ => ⟨rfl, .refl _⟩
  | cons kind kinds ih =>
      intro d a hidden h
      rcases h.closeAt with ⟨⟨run, hlaid⟩, hvalid⟩
      rcases hlaid.insertInTurn_cons kind ih hvalid with ⟨hids, hdrafts⟩
      have hlabels := labels_closeAt d a hidden
      rcases h.openAt_closeAt.putRow none hidden (d.freshRow stem (kind :: kinds)) a with
        ⟨hids', hdrafts'⟩
      rw [freshRow, nextLabels, hlabels, ← nextLabels, ← freshRow, splice,
        h.isHiddenBranch_closeAt] at hids hdrafts
      exact ⟨hids'.trans hids, hdrafts.trans hdrafts'⟩

/-- Blocks that are inserted one after another stand as the row that is put there at once. -/
theorem Laid.insertInTurn_eq_splice (h : d.Laid run) (hvalid : a.isValid d.graph) (stem : String)
    {kinds : List Kind} (hkinds : kinds ≠ []) :
    SameAnswer (d.insertInTurn stem a kinds) (d.splice a none (d.freshRow stem kinds)) := by
  cases kinds with
  | nil => exact absurd rfl hkinds
  | cons kind kinds => exact h.insertInTurn_cons kind (GapAt.insertInTurn_closeAt stem kinds) hvalid

end Draft
end Workflow
