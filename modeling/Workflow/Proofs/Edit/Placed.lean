import Workflow.Proofs.Contents
import Workflow.Proofs.Edit.Insertion

/-!
# One block in its place

A block that is inserted is one new node, followed by the markers of its body if it has one.
Of the edges that were there only those between its neighbours go.  Its scope runs through it
then, and every other scope runs as before.
-/

namespace Workflow

/-- An edge of a body with a tag is one of a branch, and any other can be seen. -/
def Edge.IsInner (e : Edge) : Prop :=
  e.kind = (if e.tag.isSome then .branch else .plain) ∧ (e.tag = none -> e.hidden = false)

namespace Draft

variable {d : Draft} {run : Scope -> List String}

/-!
# A new block
-/

/-- The markers in the body of a new block, as nodes. -/
def bodyNodes (id start marker : String) (b : Block) : List Node :=
  if b.isContainer then [⟨start, some id, .start⟩, ⟨marker, some id, .insertionMarker⟩] else []

theorem mem_bodyNodes {id start marker : String} {b : Block} {m : Node}
    (hm : m ∈ bodyNodes id start marker b) :
    (m.id = start ∨ m.id = marker) ∧ m.parent = some id ∧ m.heading? = none ∧ m.block? = none := by
  unfold bodyNodes at hm
  split at hm
  · simp only [List.mem_cons, List.not_mem_nil, or_false] at hm
    rcases hm with rfl | rfl
    · exact ⟨Or.inl rfl, rfl, rfl, rfl⟩
    · exact ⟨Or.inr rfl, rfl, rfl, rfl⟩
  · cases hm

theorem nodes_addBlock (d : Draft) (p : Option String) (h : Heading) (b : Block) :
    (d.addBlock p h b).2.graph.nodes = d.graph.nodes ++ ⟨d.supply.upcoming 1, p, .block h b⟩ ::
      bodyNodes (d.supply.upcoming 1) (d.supply.upcoming 2) (d.supply.upcoming 3) b := by
  unfold addBlock bodyNodes
  cases b.isContainer with
  | false => rfl
  | true =>
      refine (nodes_addBody (d.addNode p (.block h b)).2 (d.supply.upcoming 1) b).trans ?_
      exact List.append_assoc _ _ _

theorem ends_of_bodyLinks {body : List Edge} {scopes : List Scope} {start marker : String}
    (h : body.map Edge.link = scopes.map fun t => ⟨start, marker, t.tag⟩) {e : Edge}
    (he : e ∈ body) : e.source = start ∧ e.target = marker := by
  have hlink := List.mem_map_of_mem (f := Edge.link) he
  rw [h] at hlink
  obtain ⟨t, -, heq⟩ := List.mem_map.1 hlink
  exact ⟨(congrArg Link.source heq).symm, (congrArg Link.target heq).symm⟩

theorem exists_edges_addBodyEdges (d : Draft) (container start marker : String) (b : Block) :
    ∃ body, (d.addBodyEdges container start marker b).graph.edges = d.graph.edges ++ body ∧
      ∀ e ∈ body, e.IsInner := by
  cases b with
  | leaf l => exact ⟨[], (List.append_nil _).symm, by simp⟩
  | loop a => exact ⟨_, rfl, by simp [Edge.IsInner]⟩
  | conditional c =>
      have hbranches : ∀ (bs : List Branch) (d : Draft), ∃ body,
          (bs.foldl (fun d b => d.addEdge start marker .branch (some ⟨container, b.id⟩)
            (b.id != c.active)) d).graph.edges = d.graph.edges ++ body ∧
          ∀ e ∈ body, e.IsInner := by
        intro bs
        induction bs with
        | nil => exact fun d => ⟨[], (List.append_nil _).symm, by simp⟩
        | cons b bs ih =>
            intro d
            obtain ⟨body, hbody, hkinds⟩ := ih
              (d.addEdge start marker .branch (some ⟨container, b.id⟩) (b.id != c.active))
            exact ⟨_, hbody.trans (List.append_assoc _ _ _), by simpa [Edge.IsInner] using hkinds⟩
      exact hbranches c.branches d

theorem exists_edges_addBody (d : Draft) (container : String) (b : Block) :
    ∃ body, (d.addBody container b).graph.edges = d.graph.edges ++ body ∧
      body.map Edge.link = (b.role.scopes container).map (fun t =>
        ⟨d.supply.upcoming 1, d.supply.upcoming 2, t.tag⟩) ∧
      ∀ e ∈ body, e.IsInner := by
  obtain ⟨body, hbody, hkinds⟩ : ∃ body, (d.addBody container b).graph.edges =
      d.graph.edges ++ body ∧ ∀ e ∈ body, e.IsInner :=
    exists_edges_addBodyEdges _ _ _ _ b
  refine ⟨body, hbody, ?_, hkinds⟩
  have hlinks := congrArg Shape.links (shape_addBody d container b).1
  simp only [Graph.shape, hbody, List.map_append, List.append_cancel_left_eq] at hlinks
  exact hlinks

theorem exists_edges_addBlock (d : Draft) (p : Option String) (h : Heading) (b : Block) :
    ∃ body, (d.addBlock p h b).2.graph.edges = d.graph.edges ++ body ∧
      body.map Edge.link = (b.role.scopes (d.supply.upcoming 1)).map fun t =>
        ⟨d.supply.upcoming 2, d.supply.upcoming 3, t.tag⟩ := by
  unfold addBlock
  cases hcontainer : b.isContainer with
  | false =>
      rw [Role.scopes_eq_nil (b.isContainer_role.trans hcontainer)]
      exact ⟨[], (List.append_nil _).symm, rfl⟩
  | true =>
      obtain ⟨body, hbody, hlinks, -⟩ :=
        exists_edges_addBody (d.addNode p (.block h b)).2 (d.supply.upcoming 1) b
      exact ⟨body, hbody, hlinks⟩

/-!
# Between two neighbours
-/

/-- The edges that an insertion between two nodes takes away. -/
def inGap (p n : String) (tag : Option BranchTag) (e : Edge) : Bool :=
  e.source == p && e.target == n && e.tag == tag

section Insert

variable {a : Anchor} {p n : String}

/-- A block is created where the edge between its neighbours was, and joined to both. -/
theorem insertBlock_eq (hvalid : a.isValid d.graph) (hp : a.previous = some p)
    (hn : a.next = some n) (stem : String) (kind : Kind) :
    d.insertBlock stem kind a =
      let id := d.supply.upcoming 1
      let hidden := a.tag.any d.graph.isHiddenBranch
      let d := ((d.modify fun g => g.disconnect p n a.tag).addBlock a.parent
        { label := Label.generate stem d.graph.labels } (.fresh kind)).2
      ([id], (d.addEdge p id (d.graph.kindInto id a.tag) a.tag hidden).addEdge id n
        (d.graph.kindInto n a.tag) a.tag hidden) := by
  simp only [insertBlock, if_pos hvalid, splice, putRow, putAfter, hp, closeAt, hn,
    openAt_eq hp hn]
  rfl

theorem nodes_insertBlock (hvalid : a.isValid d.graph) (hp : a.previous = some p)
    (hn : a.next = some n) (stem : String) (kind : Kind) :
    (d.insertBlock stem kind a).2.graph.nodes = d.graph.nodes ++
      ⟨d.supply.upcoming 1, a.parent,
        .block { label := Label.generate stem d.graph.labels } (.fresh kind)⟩ ::
      bodyNodes (d.supply.upcoming 1) (d.supply.upcoming 2) (d.supply.upcoming 3)
        (.fresh kind) := by
  rw [insertBlock_eq hvalid hp hn]
  exact nodes_addBlock _ a.parent _ (.fresh kind)

theorem exists_edges_insertBlock (hvalid : a.isValid d.graph) (hp : a.previous = some p)
    (hn : a.next = some n) (stem : String) (kind : Kind) :
    ∃ body before behind, (d.insertBlock stem kind a).2.graph.edges =
        ((d.graph.edges.filter fun e => !inGap p n a.tag e) ++ body) ++ [before, behind] ∧
      body.map Edge.link = ((Block.fresh kind).role.scopes (d.supply.upcoming 1)).map (fun t =>
        ⟨d.supply.upcoming 2, d.supply.upcoming 3, t.tag⟩) ∧
      before.link = ⟨p, d.supply.upcoming 1, a.tag⟩ ∧
      before.hidden = a.tag.any d.graph.isHiddenBranch ∧
      behind.link = ⟨d.supply.upcoming 1, n, a.tag⟩ ∧
      behind.kind = (d.insertBlock stem kind a).2.graph.kindInto n a.tag := by
  rw [insertBlock_eq hvalid hp hn]
  obtain ⟨body, hbody, hlinks⟩ := exists_edges_addBlock
    (d.modify fun g => g.disconnect p n a.tag) a.parent
    { label := Label.generate stem d.graph.labels } (.fresh kind)
  dsimp only [addEdge]
  rw [hbody, List.append_assoc]
  exact ⟨body, _, _, rfl, hlinks, rfl, rfl, rfl, rfl⟩

theorem Laid.insertBlock_of_run {u v : List String} (h : d.Laid run) (hvalid : a.isValid d.graph)
    (hp : a.previous = some p) (hn : a.next = some n) (hrun : run a.place = u ++ p :: n :: v)
    (stem : String) (kind : Kind) :
    (d.insertBlock stem kind a).2.Laid
      (Shape.insertRun run a.place (u ++ p :: d.supply.upcoming 1 :: n :: v)
        (d.supply.upcoming 1) (d.supply.upcoming 2) (d.supply.upcoming 3)) := by
  have hs := ((Anchor.isValid_iff h.shape).1 hvalid).1
  have hgap := h.openAt hs ⟨u, v, hrun⟩ hp hn a.tag_eq
  rw [openAt_eq hp hn] at hgap
  have hput := hgap.putAfter hp rfl a.tag_eq none (a.tag.any d.graph.isHiddenBranch)
    { label := Label.generate stem d.graph.labels } (.fresh kind) hs hrun
  rw [Draft.insertBlock, if_pos hvalid]
  simp only [Draft.splice, Draft.putRow, openAt_eq hp hn]
  refine LaidBut.closeAt (n := n) (s := a.place) ?_ rfl ?_ ?_ _
  · rw [putAfter_fst]
    exact hput
  · exact hn
  · exact a.tag_eq

theorem hasScope_insertBlock (hvalid : a.isValid d.graph) (hp : a.previous = some p)
    (hn : a.next = some n) (stem : String) (kind : Kind) {t : Scope} :
    (d.insertBlock stem kind a).2.graph.shape.HasScope t <->
      d.graph.shape.HasScope t ∨
        t ∈ (Block.fresh kind).role.scopes (d.supply.upcoming 1) := by
  simp only [← Graph.mem_scopes, Graph.scopes, nodes_insertBlock hvalid hp hn,
    Block.scopes_role, List.mem_cons, List.mem_flatMap, List.mem_append]
  constructor
  · rintro (rfl | ⟨m, hm | rfl | hm, ht⟩)
    · exact Or.inl (Or.inl rfl)
    · exact Or.inl (Or.inr ⟨m, hm, ht⟩)
    · exact Or.inr ht
    · rw [(mem_bodyNodes hm).2.2.2] at ht
      cases ht
  · rintro ((rfl | ⟨m, hm, ht⟩) | ht)
    · exact Or.inl rfl
    · exact Or.inr ⟨m, Or.inl hm, ht⟩
    · exact Or.inr ⟨_, Or.inr (Or.inl rfl), ht⟩

end Insert
end Draft
end Workflow
