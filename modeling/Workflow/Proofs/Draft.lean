import Workflow.Edit.Insertion
import Workflow.Proofs.Shape.Growth

/-!
# Drafts that are laid out

A draft is laid out when its graph is and every id in it has been given out, so that the
ids still to come are new.  Creating a node, an edge or a body does to the shape of the
graph what its name says.
-/

namespace Workflow

/-!
# Ids that are given out
-/

namespace Supply

/-- The id that is given out after some others. -/
def upcoming (s : Supply) (n : Nat) : String :=
  s.naming.node (s.nodes + n)

def Issued (s : Supply) (id : String) : Prop :=
  ∃ n ≤ s.nodes, id = s.naming.node n

/-- A supply that has given out some more ids of nodes. -/
def After (s s' : Supply) (n : Nat) : Prop :=
  s'.naming = s.naming ∧ s'.nodes = s.nodes + n

theorem upcoming_injective (s : Supply) : Function.Injective s.upcoming := by
  intro m n h
  have hnumber := s.naming.node_injective h
  omega

theorem not_issued_upcoming {s : Supply} {n : Nat} (hn : 0 < n) :
    ¬ s.Issued (s.upcoming n) := by
  rintro ⟨m, hm, hid⟩
  have hnumber := s.naming.node_injective hid
  omega

theorem Issued.after {s s' : Supply} {n : Nat} {id : String} (h : s.Issued id)
    (hs : s.After s' n) : s'.Issued id := by
  obtain ⟨m, hm, rfl⟩ := h
  exact ⟨m, by rw [hs.2]; omega, by rw [hs.1]⟩

theorem After.issued {s s' : Supply} {m n : Nat} (hs : s.After s' n) (hm : m ≤ n) :
    s'.Issued (s.upcoming m) :=
  ⟨s.nodes + m, by rw [hs.2]; omega, by rw [hs.1]; rfl⟩

theorem After.refl (s : Supply) : s.After s 0 :=
  ⟨rfl, rfl⟩

theorem After.trans {s s' s'' : Supply} {m n : Nat} (h : s.After s' m) (h' : s'.After s'' n) :
    s.After s'' (m + n) :=
  ⟨h'.1.trans h.1, by rw [h'.2, h.2, Nat.add_assoc]⟩

end Supply

namespace Draft

/-!
# Creating nodes and edges
-/

theorem shape_addNode (d : Draft) (p : Option String) (c : Content) :
    (d.addNode p c).2.graph.shape =
      ⟨d.graph.shape.slots ++ [⟨d.supply.upcoming 1, p, c.role⟩], d.graph.shape.links⟩ := by
  simp only [addNode, Graph.shape, List.map_append]
  rfl

theorem supply_addNode (d : Draft) (p : Option String) (c : Content) :
    d.supply.After (d.addNode p c).2.supply 1 :=
  ⟨rfl, rfl⟩

theorem shape_addEdge (d : Draft) (source target : String) (kind : EdgeKind)
    (tag : Option BranchTag) (hidden : Bool) :
    (d.addEdge source target kind tag hidden).graph.shape =
      ⟨d.graph.shape.slots, d.graph.shape.links ++ [⟨source, target, tag⟩]⟩ := by
  simp only [addEdge, Graph.shape, List.map_append]
  rfl

theorem supply_addEdge (d : Draft) (source target : String) (kind : EdgeKind)
    (tag : Option BranchTag) (hidden : Bool) :
    d.supply.After (d.addEdge source target kind tag hidden).supply 0 :=
  ⟨rfl, rfl⟩

theorem shape_addBranchEdges (container start marker active : String) (bs : List Branch) :
    ∀ d : Draft,
      let d' := bs.foldl (fun d b => d.addEdge start marker .branch (some ⟨container, b.id⟩)
        (b.id != active)) d
      d'.graph.shape = ⟨d.graph.shape.slots, d.graph.shape.links ++
        bs.map fun b => ⟨start, marker, some ⟨container, b.id⟩⟩⟩ ∧
      d.supply.After d'.supply 0 := by
  induction bs with
  | nil =>
      intro d
      exact ⟨by simp, .refl _⟩
  | cons b bs ih =>
      intro d
      obtain ⟨hshape, hsupply⟩ := ih
        (d.addEdge start marker .branch (some ⟨container, b.id⟩) (b.id != active))
      refine ⟨?_, hsupply⟩
      simp only [List.foldl_cons, hshape, shape_addEdge, List.append_assoc, List.map_cons,
        List.singleton_append]

theorem shape_addBodyEdges (d : Draft) (container start marker : String) (b : Block) :
    (d.addBodyEdges container start marker b).graph.shape =
      ⟨d.graph.shape.slots, d.graph.shape.links ++
        (b.role.scopes container).map fun s => ⟨start, marker, s.tag⟩⟩ ∧
    d.supply.After (d.addBodyEdges container start marker b).supply 0 := by
  cases b with
  | leaf l => exact ⟨by simp [addBodyEdges, Block.role, Role.scopes], .refl _⟩
  | loop a => exact ⟨shape_addEdge _ _ _ _ _ _, .refl _⟩
  | conditional c =>
      have h := shape_addBranchEdges container start marker c.active c.branches d
      rw [show (Block.conditional c).role.scopes container =
        (c.branches.map Branch.id).map (Scope.ofBranch container) from rfl, List.map_map,
        List.map_map]
      exact h

theorem shape_addBody (d : Draft) (container : String) (b : Block) :
    (d.addBody container b).graph.shape =
      ⟨d.graph.shape.slots ++
        [⟨d.supply.upcoming 1, some container, .start⟩,
          ⟨d.supply.upcoming 2, some container, .insertionMarker⟩],
        d.graph.shape.links ++ (b.role.scopes container).map fun s =>
          ⟨d.supply.upcoming 1, d.supply.upcoming 2, s.tag⟩⟩ ∧
    d.supply.After (d.addBody container b).supply 2 := by
  have hedges := shape_addBodyEdges
    ((d.addNode (some container) .start).2.addNode (some container) .insertionMarker).2
    container (d.supply.upcoming 1) (d.supply.upcoming 2) b
  refine ⟨hedges.1.trans ?_, hedges.2⟩
  rw [shape_addNode, shape_addNode, List.append_assoc]
  rfl

theorem shape_addBlock (d : Draft) (p : Option String) (h : Heading) (b : Block) :
    (d.addBlock p h b).2.graph.shape =
      ⟨d.graph.shape.slots ++ ⟨d.supply.upcoming 1, p, b.role⟩ ::
        Shape.bodySlots (d.supply.upcoming 1) (d.supply.upcoming 2) (d.supply.upcoming 3) b.role,
        d.graph.shape.links ++ (b.role.scopes (d.supply.upcoming 1)).map fun s =>
          ⟨d.supply.upcoming 2, d.supply.upcoming 3, s.tag⟩⟩ ∧
    d.supply.After (d.addBlock p h b).2.supply (if b.isContainer then 3 else 1) := by
  unfold addBlock Shape.bodySlots
  rw [Block.isContainer_role]
  cases hcontainer : b.isContainer with
  | false =>
      have hscopes : b.role.scopes (d.supply.upcoming 1) = [] :=
        Role.scopes_eq_nil (b.isContainer_role.trans hcontainer) _
      refine ⟨(shape_addNode d p (.block h b)).trans ?_, rfl, rfl⟩
      simp [hscopes, Content.role]
  | true =>
      obtain ⟨hshape, hsupply⟩ :=
        shape_addBody (d.addNode p (.block h b)).2 (d.supply.upcoming 1) b
      refine ⟨hshape.trans ?_, ((supply_addNode d p (.block h b)).trans hsupply)⟩
      rw [shape_addNode, List.append_assoc]
      rfl

/-!
# The invariant of drafts
-/

/-- A draft whose graph is laid out, and in which no id is still to be given out. -/
structure Laid (d : Draft) (run : Scope -> List String) : Prop where
  shape : d.graph.shape.Laid run
  issued : ∀ id ∈ d.graph.shape.ids, d.supply.Issued id

theorem not_mem_upcoming {d : Draft} (h : ∀ id ∈ d.graph.shape.ids, d.supply.Issued id)
    {n : Nat} (hn : 0 < n) : d.supply.upcoming n ∉ d.graph.shape.ids :=
  fun hmem => Supply.not_issued_upcoming hn (h _ hmem)

theorem Laid.modify {d : Draft} {run : Scope -> List String} (h : d.Laid run)
    {f : Graph -> Graph} (hshape : (f d.graph).shape = d.graph.shape) :
    (d.modify f).Laid run where
  shape := by
    rw [show (d.modify f).graph.shape = d.graph.shape from hshape]
    exact h.shape
  issued := by
    rw [show (d.modify f).graph.shape = d.graph.shape from hshape]
    exact h.issued

/-!
# Drafts under construction
-/

/-- A draft that would be laid out if it had some more links. -/
structure LaidBut (d : Draft) (run : Scope -> List String) (missing : List Link) : Prop where
  shape : Shape.Laid ⟨d.graph.shape.slots, missing ++ d.graph.shape.links⟩ run
  absent : ∀ l ∈ missing, l ∉ d.graph.shape.links
  nodup : missing.Nodup
  issued : ∀ id ∈ d.graph.shape.ids, d.supply.Issued id

section LaidBut

variable {d : Draft} {run : Scope -> List String} {missing : List Link}

theorem LaidBut.laid (h : d.LaidBut run []) : d.Laid run :=
  ⟨h.shape, h.issued⟩

theorem LaidBut.mem_ids (h : d.LaidBut run missing) {l : Link}
    (hl : l ∈ missing ∨ l ∈ d.graph.shape.links) :
    l.source ∈ d.graph.shape.ids ∧ l.target ∈ d.graph.shape.ids :=
  ⟨h.shape.source_mem (List.mem_append.2 hl), h.shape.target_mem (List.mem_append.2 hl)⟩

theorem LaidBut.addEdge {source target : String} {tag : Option BranchTag}
    (h : d.LaidBut run (⟨source, target, tag⟩ :: missing)) (kind : EdgeKind) (hidden : Bool) :
    (d.addEdge source target kind tag hidden).LaidBut run missing := by
  have hshape := shape_addEdge d source target kind tag hidden
  obtain ⟨hfresh, hnodup⟩ := List.nodup_cons.1 h.nodup
  constructor
  case shape =>
    rw [hshape]
    refine h.shape.congr_links fun l => ?_
    simp only [List.mem_append, List.mem_cons, List.not_mem_nil, false_or, or_comm,
      or_left_comm]
  case absent =>
    intro l hl
    rw [hshape, List.mem_append, List.mem_singleton, not_or]
    exact ⟨h.absent l (List.mem_cons_of_mem _ hl), fun heq => hfresh (heq ▸ hl)⟩
  case nodup => exact hnodup
  case issued =>
    rw [hshape]
    exact fun id hid => (h.issued id hid).after (supply_addEdge d source target kind tag hidden)

/-- Creates a block with an empty body between two neighbours that are not linked yet.  Of
the links that this calls for, some are added and others go missing in their turn. -/
theorem LaidBut.place {d' : Draft} {s : Scope} {u v : List String} {p n : String} {r : Role}
    {added absent : List Link} (h : d.LaidBut run (⟨p, n, s.tag⟩ :: missing))
    (hs : d.graph.shape.HasScope s) (hrun : run s = u ++ p :: n :: v) (hr : r.isBlock)
    (hshape : d'.graph.shape = ⟨d.graph.shape.slots ++ ⟨d.supply.upcoming 1, s.parent, r⟩ ::
      Shape.bodySlots (d.supply.upcoming 1) (d.supply.upcoming 2) (d.supply.upcoming 3) r,
      d.graph.shape.links ++ added⟩)
    (hsupply : d.supply.After d'.supply (if r.isContainer then 3 else 1))
    (hlinks : ∀ l, l ∈ absent ∨ l ∈ added <->
      (l = ⟨p, d.supply.upcoming 1, s.tag⟩ ∨ l = ⟨d.supply.upcoming 1, n, s.tag⟩) ∨
        ∃ t ∈ r.scopes (d.supply.upcoming 1),
          l = ⟨d.supply.upcoming 2, d.supply.upcoming 3, t.tag⟩)
    (hnodup : absent.Nodup) (hdisjoint : ∀ l ∈ absent, l ∉ added) :
    d'.LaidBut (Shape.insertRun run s (u ++ p :: d.supply.upcoming 1 :: n :: v)
      (d.supply.upcoming 1) (d.supply.upcoming 2) (d.supply.upcoming 3))
      (absent ++ missing) := by
  have hfresh : ∀ m, d.supply.upcoming (m + 1) ∉ d.graph.shape.ids := fun m =>
    not_mem_upcoming h.issued (Nat.succ_pos m)
  obtain ⟨hpending, hmissing⟩ := List.nodup_cons.1 h.nodup
  -- a link that the new block calls for is none of the old ones
  have hnew : ∀ l, l ∈ absent ∨ l ∈ added ->
      ¬ (l ∈ ⟨p, n, s.tag⟩ :: missing ∨ l ∈ d.graph.shape.links) := by
    intro l hl hold
    obtain ⟨hsource, htarget⟩ := h.mem_ids hold
    rcases (hlinks l).1 hl with (rfl | rfl) | ⟨t, -, rfl⟩
    · exact hfresh 0 htarget
    · exact hfresh 0 hsource
    · exact hfresh 1 hsource
  constructor
  case shape =>
    rw [hshape]
    have hdistinct : ∀ i j, i ≠ j -> d.supply.upcoming i ≠ d.supply.upcoming j :=
      fun i j hij heq => hij (d.supply.upcoming_injective heq)
    refine h.shape.insert hs hrun hr (hfresh 0) (hfresh 1) (hfresh 2) ?_ fun l => ?_
    · simp [hdistinct]
    · rw [or_assoc, ← hlinks l]
      have hne : l ∈ missing ∨ l ∈ d.graph.shape.links -> l ≠ ⟨p, n, s.tag⟩ := by
        rintro (hl | hl) rfl
        · exact hpending hl
        · exact h.absent _ List.mem_cons_self hl
      simp only [List.mem_append, List.mem_cons]
      tauto
  case absent =>
    intro l hl
    rw [hshape, List.mem_append, not_or]
    rcases List.mem_append.1 hl with hl | hl
    · exact ⟨fun hold => hnew l (Or.inl hl) (Or.inr hold), hdisjoint l hl⟩
    · exact ⟨h.absent l (List.mem_cons_of_mem _ hl), fun hadded =>
        hnew l (Or.inr hadded) (Or.inl (List.mem_cons_of_mem _ hl))⟩
  case nodup =>
    refine List.nodup_append.2 ⟨hnodup, hmissing, ?_⟩
    rintro l hl l' hl' rfl
    exact hnew l (Or.inl hl) (Or.inl (List.mem_cons_of_mem _ hl'))
  case issued =>
    intro id hid
    have hids : id ∈ d.graph.shape.ids ∨ id = d.supply.upcoming 1 ∨
        (r.isContainer ∧ (id = d.supply.upcoming 2 ∨ id = d.supply.upcoming 3)) := by
      rw [hshape, Shape.ids, Shape.bodySlots] at hid
      split at hid <;> simp_all [Shape.ids]
    rcases hids with hid | rfl | ⟨hcontainer, rfl | rfl⟩
    · exact (h.issued id hid).after hsupply
    · exact hsupply.issued (by split <;> omega)
    · exact hsupply.issued (by simp [hcontainer])
    · exact hsupply.issued (by simp [hcontainer])

theorem insertRun_of_hasScope {s t : Scope} {row : List String} {start marker : String}
    (hissued : ∀ id ∈ d.graph.shape.ids, d.supply.Issued id)
    (ht : d.graph.shape.HasScope t) :
    Shape.insertRun run s row (d.supply.upcoming 1) start marker t =
      Function.update run s row t :=
  if_neg (Shape.Nested.parent_ne_of_not_mem (not_mem_upcoming hissued Nat.one_pos) ht.hasBody)

end LaidBut

/-!
# The empty workflow
-/

def emptyRun (s : Supply) : Scope -> List String :=
  fun _ => [s.upcoming 1, s.upcoming 2]

theorem shape_emptyState (s : Supply) :
    (emptyState s).graph.shape = Shape.markers (s.upcoming 1) (s.upcoming 2) := rfl

theorem laid_emptyState (s : Supply) : (emptyState s).Laid (emptyRun s) where
  shape := by
    rw [shape_emptyState]
    refine Shape.laid_markers fun h => ?_
    exact absurd (s.upcoming_injective h) (by simp)
  issued := by
    have hafter : s.After (emptyState s).supply 2 := ⟨rfl, rfl⟩
    rw [shape_emptyState]
    simp only [Shape.ids, Shape.markers, List.map_cons, List.map_nil, List.forall_mem_cons]
    exact ⟨hafter.issued (by omega), hafter.issued (by omega), by simp⟩

end Draft
end Workflow
