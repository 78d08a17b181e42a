import Mathlib.Data.List.Find
import Workflow.Proofs.Edit.Removal
import Workflow.Proofs.Reference.Clearing

/-!
# A subtree that goes

Removing a block filters nodes and edges.  Of what is kept, a node loses its references to the
labels that go, and an edge into the block leads on to where the first edge behind it led.
-/

namespace Workflow

/-!
# What is nested in a node
-/

namespace Graph

variable {g : Graph}

/-- A node with everything nested in it. -/
def subtree (g : Graph) (id : String) : List String :=
  id :: g.descendants id

theorem mem_nest_iff (h : g.shape.Nested) {id : String} {nest : List String}
    (hnest : g.shape.IsNest id nest) {x : Slot} (hx : x ∈ g.shape.slots) :
    x.id ∈ id :: nest <-> Relation.ReflTransGen g.StandsIn x.id id := by
  constructor
  · -- the rank of a container is less than that of what stands in it
    induction hrank : g.shape.rank x.id using Nat.strongRecOn generalizing x with
    | _ rank ih =>
        intro hmem
        rcases List.mem_cons.1 hmem with heq | hmem
        · rw [heq]
        · obtain ⟨p, hparent, hp⟩ := (hnest.closed x hx).1 hmem
          obtain ⟨n, hn, rfl⟩ := mem_slots.1 hx
          have hstands : g.StandsIn n.slot.id p := ⟨n, hn, rfl, hparent⟩
          rcases hp with rfl | hp
          · exact .single hstands
          · rcases h.parents n.slot hx with hnone | ⟨y, hy, hyp, -⟩
            · rw [hparent] at hnone
              cases hnone
            · cases hparent.symm.trans hyp
              have hlt := h.rank_lt hx hparent
              exact .head hstands (ih _ (hrank ▸ hlt) hy rfl (List.mem_cons_of_mem _ hp))
  · intro hin
    generalize x.id = c at hin ⊢
    induction hin using Relation.ReflTransGen.head_induction_on with
    | refl => exact List.mem_cons_self
    | head hstands _ ih =>
        obtain ⟨n, hn, rfl, hparent⟩ := hstands
        exact List.mem_cons_of_mem _
          ((hnest.closed n.slot (slot_mem hn)).2 ⟨_, hparent, List.mem_cons.1 ih⟩)

theorem mem_subtree_iff (h : g.shape.Nested) {x y : Slot} (hx : x ∈ g.shape.slots)
    (hy : y ∈ g.shape.slots) :
    y.id ∈ g.subtree x.id <-> Relation.ReflTransGen g.StandsIn y.id x.id :=
  mem_nest_iff h (isNest_descendants h (List.mem_map_of_mem hx)) hy

end Graph

theorem Shape.Laid.source_mem_nest {k : Shape} {run : Scope -> List String} (h : k.Laid run)
    {id : String} {nest : List String} (hnest : k.IsNest id nest) {l : Link} (hl : l ∈ k.links)
    (htarget : l.target ∈ nest) : l.source ∈ nest := by
  obtain ⟨s, hs, -, hsource, hmem⟩ := h.slots_of_link hl
  obtain ⟨x, hx, hxid, hxparent⟩ := h.slot_of_mem_run hs hsource
  obtain ⟨y, hy, hyid, hyparent⟩ := h.slot_of_mem_run hs hmem
  rw [← hxid, hnest.closed x hx, hxparent, ← hyparent, ← hnest.closed y hy, hyid]
  exact htarget

/-!
# Edges that lead on
-/

/-- Lets an edge into a node lead to where another edge leads, with the kind of that one. -/
def Edge.detour (e : Edge) (id : String) (next : Edge) : Edge :=
  if e.target = id then { e with target := next.target, kind := next.kind } else e

namespace Edge

variable {e next : Edge} {id : String}

@[simp] theorem source_detour : (e.detour id next).source = e.source := by
  unfold detour
  split <;> rfl

@[simp] theorem tag_detour : (e.detour id next).tag = e.tag := by
  unfold detour
  split <;> rfl

theorem detour_of_ne (h : e.target ≠ id) (next : Edge) : e.detour id next = e :=
  if_neg h

/-- An edge that leads on past two nodes ends in the same place, whichever it passes first. -/
theorem detour_comm {a b : String} {nexta nextb : Edge} (hab : a ≠ b)
    (hcycle : nexta.target = b -> nextb.target ≠ a) (e : Edge) :
    (e.detour a nexta).detour b (nextb.detour a nexta) =
      (e.detour b nextb).detour a (nexta.detour b nextb) := by
  unfold detour
  by_cases hea : e.target = a
  · by_cases hb : nexta.target = b
    · simp [hea, hab, hb, hcycle hb]
    · simp [hea, hab, hb]
  · by_cases heb : e.target = b
    · by_cases ha : nextb.target = a
      · have hb : nexta.target ≠ b := fun hb => hcycle hb ha
        simp [heb, hab.symm, ha, hb]
      · simp [heb, hab.symm, ha]
    · simp [hea, heb]

end Edge

namespace Graph

variable {g : Graph} {run : Scope -> List String} {x : Slot}

theorem mem_labelsOf {ids : List String} {l : String} :
    l ∈ g.labelsOf ids <-> ∃ n ∈ g.nodes, n.id ∈ ids ∧ n.label? = some l := by
  simp [labelsOf, List.mem_filterMap, List.mem_filter, and_assoc]

theorem nodes_removeSubtree (hids : g.shape.ids.Nodup) (id : String) :
    (g.removeSubtree id).nodes = (g.nodes.filter fun n => n.id ∉ g.subtree id).map
      (Node.mapBlock (Block.without (g.labelsOf (g.subtree id)))) := by
  have hkept : ((g.bypass (g.subtree id) id).removeNodes (g.subtree id)).nodes =
      g.nodes.filter fun n => n.id ∉ g.subtree id := by
    rw [removeNodes, nodes_bypass]
    refine List.filter_congr fun n _ => ?_
    simp
  have hnodup : ((g.bypass (g.subtree id) id).removeNodes (g.subtree id)).shape.ids.Nodup := by
    rw [Shape.ids, slots_bypass]
    exact (List.filter_sublist.map Slot.id).nodup hids
  exact (nodes_pruneAll _ hnodup).trans (congrArg _ hkept)

/-- The first edge from a node. -/
def firstFrom? (g : Graph) (id : String) : Option Edge :=
  g.edges.find? fun e => e.source == id

/-- The first edge from a block leads out of its subtree, and so do all others. -/
theorem exists_firstFrom (h : g.shape.Laid run) (hx : x ∈ g.shape.slots)
    (hblock : x.role.isBlock) : ∃ next, g.firstFrom? x.id = some next ∧
      g.successor? (g.subtree x.id) x.id = some next ∧ next.target ∉ g.subtree x.id := by
  obtain ⟨-, -, -, b, -, next, -, -, -, ⟨-, hb⟩, ⟨hsuccessor, rfl⟩, -⟩ :=
    exists_successor h hx hblock
  obtain ⟨s, -, -, b, -, -, -, -, hout, -⟩ := h.exists_around hx hblock
  have htarget : ∀ e ∈ g.edges, e.source = x.id -> e.target = b := fun e he hsource =>
    congrArg Link.target (hout e.link (link_mem he) hsource)
  have hnext := List.mem_filter.1 (List.mem_of_find?_eq_some hsuccessor)
  have hnextb := htarget next hnext.1 (beq_iff_eq.1 hnext.2)
  refine ⟨next, ?_, hsuccessor, hb⟩
  rw [← hsuccessor, successor?, edgesFrom, List.find?_filter, firstFrom?]
  refine List.find?_congr fun e he => ?_
  by_cases hsource : e.source = x.id
  · have hkept : e.target ∉ x.id :: g.descendants x.id := by
      rw [htarget e he hsource, ← hnextb]
      exact hb
    simpa [hsource] using hkept
  · simp [hsource]

/-- The edges that are kept are those from outside the subtree.  One into the block leads on. -/
theorem edges_removeSubtree (h : g.shape.Laid run) (hx : x ∈ g.shape.slots)
    (hblock : x.role.isBlock) : ∃ next, g.firstFrom? x.id = some next ∧
      next.target ∉ g.subtree x.id ∧
      (g.removeSubtree x.id).edges =
        (g.edges.filter fun e => e.source ∉ g.subtree x.id).map fun e => e.detour x.id next := by
  have hnest := isNest_descendants h.toNested (List.mem_map_of_mem hx)
  obtain ⟨next, hfirst, hsuccessor, hnext⟩ := exists_firstFrom h hx hblock
  refine ⟨next, hfirst, hnext, ?_⟩
  let kept : Edge -> Edge := fun e =>
    if e.source ∈ g.subtree x.id then e else e.detour x.id next
  have hbypass : (g.bypass (g.subtree x.id) x.id).edges = g.edges.map kept := by
    simp only [bypass, hsuccessor]
    refine List.map_congr_left fun e _ => ?_
    by_cases hsource : e.source ∈ g.subtree x.id <;> simp [kept, Edge.detour, hsource]
  -- what leads into the subtree from outside leads into the block itself
  have hout : ∀ e ∈ g.edges, e.source ∉ g.subtree x.id ->
      (e.detour x.id next).target ∉ g.subtree x.id := by
    intro e he hsource
    unfold Edge.detour
    split
    · exact hnext
    · next hne =>
        rw [subtree, List.mem_cons, not_or] at hsource ⊢
        exact ⟨hne, fun hmem => hsource.2 (h.source_mem_nest hnest (link_mem he) hmem)⟩
  calc (g.removeSubtree x.id).edges
      = (g.bypass (g.subtree x.id) x.id).edges.filter fun e =>
          !(g.subtree x.id).contains e.source && !(g.subtree x.id).contains e.target :=
        edges_pruneAll _ _
    _ = (g.edges.filter fun e => e.source ∉ g.subtree x.id).map kept := by
        rw [hbypass, List.filter_map]
        congr 1
        refine List.filter_congr fun e he => ?_
        by_cases hsource : e.source ∈ g.subtree x.id
        · simp [kept, hsource]
        · simp [kept, hsource, hout e he hsource]
    _ = _ := by
        refine List.map_congr_left fun e he => if_neg ?_
        simpa using (List.mem_filter.1 he).2

end Graph
end Workflow
