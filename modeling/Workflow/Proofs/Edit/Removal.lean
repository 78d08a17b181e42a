import Workflow.Edit.Removal
import Workflow.Proofs.Descendants
import Workflow.Proofs.Draft
import Workflow.Proofs.Edit.Attribute

/-!
# Removing keeps drafts laid out

A block stands between two neighbours of one run.  Removing it with everything nested in
it joins those neighbours, and changing its kind leaves it between them.
-/

namespace Workflow
namespace Shape

/-- A block is inside one run, and every link that touches it is on that run. -/
theorem Laid.exists_around {k : Shape} {run : Scope -> List String} (h : k.Laid run)
    {x : Slot} (hx : x ∈ k.slots) (hblock : x.role.isBlock) :
    ∃ s u a b v, k.HasScope s ∧ x.parent = s.parent ∧ run s = u ++ a :: x.id :: b :: v ∧
      (∀ l ∈ k.links, l.source = x.id -> l = ⟨x.id, b, s.tag⟩) ∧
      ∀ l ∈ k.links, l.target = x.id -> l = ⟨a, x.id, s.tag⟩ := by
  obtain ⟨s, ⟨hs, hmem⟩, hunique⟩ := h.placed x hx hblock
  obtain ⟨start, blocks, marker, hrun, hstart, hmarker, -⟩ := (h.runs s hs).ends
  have hnodup := (h.runs s hs).nodup
  have hnotStart : x.id ≠ start := h.ne_marker hx hblock hstart rfl
  have hnotMarker : x.id ≠ marker := h.ne_marker hx hblock hmarker rfl
  have hinner : x.id ∈ blocks := by
    simpa [hrun, hnotStart, hnotMarker] using hmem
  -- its two neighbours
  obtain ⟨w, z, rfl⟩ := List.append_of_mem hinner
  obtain ⟨u, a, hu⟩ : ∃ u a, start :: w = u ++ [a] :=
    ⟨_, _, (List.dropLast_append_getLast (List.cons_ne_nil start w)).symm⟩
  obtain ⟨b, v, hv⟩ : ∃ b v, z ++ [marker] = b :: v := by
    cases z with
    | nil => exact ⟨marker, [], rfl⟩
    | cons c z => exact ⟨c, z ++ [marker], rfl⟩
  have haround : run s = u ++ a :: x.id :: b :: v := by
    calc run s = (start :: w) ++ x.id :: (z ++ [marker]) := by simp [hrun]
      _ = (u ++ [a]) ++ x.id :: (b :: v) := by rw [hu, hv]
      _ = u ++ a :: x.id :: b :: v := by simp
  have hleft : Adjacent (run s) a x.id := ⟨u, b :: v, haround⟩
  have hright : Adjacent (run s) x.id b := ⟨u ++ [a], v, by simp [haround]⟩
  refine ⟨s, u, a, b, v, hs, h.parent_of_mem_run hs hx hmem, haround, ?_, ?_⟩
  · rintro ⟨source, target, tag⟩ hl rfl
    obtain ⟨t, ht, rfl, hadj⟩ := (h.exact _).1 hl
    cases hunique t ⟨ht, hadj.left_mem⟩
    have htarget : target = b := hadj.right_unique hnodup hright
    rw [htarget]
  · rintro ⟨source, target, tag⟩ hl rfl
    obtain ⟨t, ht, rfl, hadj⟩ := (h.exact _).1 hl
    cases hunique t ⟨ht, hadj.right_mem⟩
    have hsource : source = a := hadj.left_unique hnodup hleft
    rw [hsource]

theorem slots_dropLeaf_strip (k : Shape) (id : String) (nest : List String)
    (links links' : List Link) : ((k.strip id nest links).dropLeaf id links').slots =
      k.slots.filter fun x => x.id ∉ id :: nest := by
  obtain ⟨slots, links₀⟩ := k
  simp only [dropLeaf, strip, withRole]
  induction slots with
  | nil => rfl
  | cons x slots ih =>
      by_cases hxid : x.id = id
      · simp [List.filter_cons, Slot.withRole, hxid] at ih ⊢
        by_cases hnest : id ∈ nest
        · simpa [hnest] using ih
        · simpa [hnest] using ih
      · by_cases hnest : x.id ∈ nest
        · simpa [List.filter_cons, Slot.withRole, hxid, hnest] using ih
        · simpa [List.filter_cons, Slot.withRole, hxid, hnest] using ih

end Shape

namespace Graph

/-!
# Bypassing a block
-/

section Bypass

variable {g : Graph} {id b : String} {removed : List String}

theorem successor?_target (hedge : ∃ e ∈ g.edges, e.source = id)
    (htarget : ∀ e ∈ g.edges, e.source = id -> e.target = b) (hb : b ∉ removed) :
    ∃ e, g.successor? removed id = some e ∧ e.target = b := by
  obtain ⟨e, he, hsource⟩ := hedge
  cases hfound : g.successor? removed id with
  | none =>
      have hnot := List.find?_eq_none.1 hfound e (List.mem_filter.2 ⟨he, by simpa using hsource⟩)
      simp [htarget e he hsource, hb] at hnot
  | some f =>
      obtain ⟨hf, hfsource⟩ := List.mem_filter.1 (List.mem_of_find?_eq_some hfound)
      exact ⟨f, rfl, htarget f hf (by simpa using hfsource)⟩

theorem mem_links_bypass {e : Edge} (hsuccessor : g.successor? removed id = some e)
    (hid : id ∈ removed) (he : e.target ∉ removed) {l : Link} :
    l ∈ ((g.bypass removed id).removeNodes removed).shape.links <->
      (l ∈ g.shape.links ∧ l.source ∉ removed ∧ l.target ∉ removed) ∨
        ∃ f ∈ g.shape.links, f.target = id ∧ f.source ∉ removed ∧
          l = ⟨f.source, e.target, f.tag⟩ := by
  simp only [mem_links, removeNodes, bypass, hsuccessor, List.mem_filter, List.mem_map,
    Bool.and_eq_true, Bool.not_eq_true', List.contains_eq_mem, decide_eq_false_iff_not,
    beq_iff_eq]
  constructor
  · rintro ⟨f', ⟨⟨f, hf, rfl⟩, hends⟩, rfl⟩
    by_cases hcond : f.target = id ∧ f.source ∉ removed
    · rw [if_pos hcond] at hends ⊢
      exact Or.inr ⟨f.link, ⟨f, hf, rfl⟩, hcond.1, hcond.2, rfl⟩
    · rw [if_neg hcond] at hends ⊢
      exact Or.inl ⟨⟨f, hf, rfl⟩, hends⟩
  · rintro (⟨⟨f, hf, rfl⟩, hends⟩ | ⟨l', ⟨f, hf, rfl⟩, htarget, hsource, rfl⟩)
    · refine ⟨f, ⟨⟨f, hf, if_neg fun hcond => hends.2 ?_⟩, hends⟩, rfl⟩
      exact (show f.link.target = id from hcond.1) ▸ hid
    · exact ⟨_, ⟨⟨f, hf, if_pos ⟨htarget, hsource⟩⟩, hsource, he⟩, rfl⟩

theorem nodes_bypass : (g.bypass removed id).nodes = g.nodes := by
  unfold bypass
  split <;> rfl

theorem slots_bypass : ((g.bypass removed id).removeNodes removed).shape.slots =
    g.shape.slots.filter fun x => x.id ∉ removed := by
  rw [shape_removeNodes]
  simp only [shape, nodes_bypass]

end Bypass

/-!
# Removing a block
-/

section Remove

variable {g : Graph} {run : Scope -> List String} {x : Slot}

/-- The neighbours of a block stay when it goes, and the one behind it is its successor. -/
theorem exists_successor (h : g.shape.Laid run) (hx : x ∈ g.shape.slots)
    (hblock : x.role.isBlock) :
    ∃ s u a b v e, g.shape.HasScope s ∧ x.parent = s.parent ∧
      run s = u ++ a :: x.id :: b :: v ∧
      (a ∉ x.id :: g.descendants x.id ∧ b ∉ x.id :: g.descendants x.id) ∧
      (g.successor? (x.id :: g.descendants x.id) x.id = some e ∧ e.target = b) ∧
      ∀ l ∈ g.shape.links, l.target = x.id -> l = ⟨a, x.id, s.tag⟩ := by
  have hnest := isNest_descendants h.toNested (List.mem_map_of_mem hx)
  obtain ⟨s, u, a, b, v, hs, hparent, hrun, hout, hinto⟩ := h.exists_around hx hblock
  have hnodup := (h.runs s hs).nodup
  have hkept : ∀ c ∈ run s, c ≠ x.id -> c ∉ x.id :: g.descendants x.id := by
    intro c hc hcid
    obtain ⟨y, hy, rfl, hyparent⟩ := h.slot_of_mem_run hs hc
    have houtside := hnest.outside_parent hx hnest.notSelf
    rw [hparent, ← hyparent] at houtside
    simpa [hcid] using hnest.not_mem_of_outside hy houtside
  have hleft : Adjacent (run s) a x.id := ⟨u, b :: v, hrun⟩
  have hright : Adjacent (run s) x.id b := ⟨u ++ [a], v, by simp [hrun]⟩
  have hb := hkept b hright.right_mem (hright.ne hnodup).symm
  obtain ⟨e, hsuccessor⟩ : ∃ e, g.successor? (x.id :: g.descendants x.id) x.id =
      some e ∧ e.target = b := by
    refine successor?_target ?_ (fun f hf hsource => ?_) hb
    · obtain ⟨f, hf, heq⟩ := mem_links.1 ((h.adjacent_iff hs).1 hright).1
      exact ⟨f, hf, congrArg Link.source heq⟩
    · exact congrArg Link.target (hout f.link (link_mem hf) hsource)
  exact ⟨s, u, a, b, v, e, hs, hparent, hrun,
    ⟨hkept a hleft.left_mem (hleft.ne hnodup), hb⟩, hsuccessor, hinto⟩

/-- A block goes with everything nested in it, and the runs close behind it. -/
theorem laid_removeSubtree (h : g.shape.Laid run) (hx : x ∈ g.shape.slots)
    (hblock : x.role.isBlock) :
    (g.removeSubtree x.id).shape.Laid (fun t => (run t).filter (· ≠ x.id)) ∧
      (∀ y, y ∈ (g.removeSubtree x.id).shape.slots <->
        y ∈ g.shape.slots ∧ y.id ∉ x.id :: g.descendants x.id) ∧
      ∀ t, (g.removeSubtree x.id).shape.HasScope t <->
        g.shape.HasScope t ∧ Shape.Outside x.id (g.descendants x.id) t.parent := by
  have hn := h.toNested
  have hnest := isNest_descendants hn (List.mem_map_of_mem hx)
  obtain ⟨s, u, a, b, v, e, hs, hparent, hrun, ⟨ha, hb⟩, ⟨hsuccessor, htarget⟩, hinto⟩ :=
    exists_successor h hx hblock
  have hnodup := (h.runs s hs).nodup
  have hleft : Adjacent (run s) a x.id := ⟨u, b :: v, hrun⟩
  -- first the body goes, then the block
  let inner := g.shape.links.filter fun l =>
    l.source ∉ g.descendants x.id ∧ l.target ∉ g.descendants x.id
  have hstrip : (g.shape.strip x.id (g.descendants x.id) inner).Laid run :=
    h.strip hx hblock hnest fun l => by simp [inner]
  have hleaf : ⟨x.id, x.parent, .leaf⟩ ∈
      (g.shape.strip x.id (g.descendants x.id) inner).slots :=
    (Shape.mem_slots_strip hn hx hnest).2 (Or.inr rfl)
  have hs' : (g.shape.strip x.id (g.descendants x.id) inner).HasScope s := by
    refine (Shape.hasScope_strip hn hx hnest).2 ⟨hs, ?_⟩
    rw [← hparent]
    exact hnest.outside_parent hx hnest.notSelf
  have hlinks : ∀ l, l ∈ (g.removeSubtree x.id).shape.links <->
      (l ∈ inner ∧ l.source ≠ x.id ∧ l.target ≠ x.id) ∨ l = ⟨a, b, s.tag⟩ := by
    intro l
    rw [removeSubtree, shape_pruneAll,
      mem_links_bypass hsuccessor List.mem_cons_self (htarget ▸ hb), htarget]
    refine or_congr ?_ ⟨?_, ?_⟩
    · simp only [inner, List.mem_filter, List.mem_cons, decide_eq_true_eq]
      tauto
    · rintro ⟨f, hf, hfid, -, rfl⟩
      rw [hinto f hf hfid]
    · rintro rfl
      exact ⟨_, ((h.adjacent_iff hs).1 hleft).1, rfl, ha, rfl⟩
  have hlaid := hstrip.dropLeaf hs' (hparent ▸ hleaf) hrun hlinks
  have hshape : (g.removeSubtree x.id).shape =
      (g.shape.strip x.id (g.descendants x.id) inner).dropLeaf x.id
        (g.removeSubtree x.id).shape.links := by
    refine Shape.ext ?_ rfl
    rw [Shape.slots_dropLeaf_strip, removeSubtree, shape_pruneAll, slots_bypass]
  have hscope : ∀ t, (g.removeSubtree x.id).shape.HasScope t <->
      g.shape.HasScope t ∧ Shape.Outside x.id (g.descendants x.id) t.parent := fun t => by
    rw [hshape, Shape.hasScope_dropLeaf hstrip.toNested hleaf, Shape.hasScope_strip hn hx hnest]
  refine ⟨?_, fun y => ?_, hscope⟩
  · rw [← hshape] at hlaid
    refine hlaid.congr_run fun t ht => ?_
    by_cases hts : t = s
    · subst hts
      have hmiddle : run t = (u ++ [a]) ++ x.id :: (b :: v) := by simp [hrun]
      rw [Function.update_self, hmiddle, filter_ne_middle (hmiddle ▸ hnodup)]
      simp
    · rw [Function.update_of_ne hts, List.filter_eq_self]
      intro c hc
      have hcid : c ≠ x.id := by
        rintro rfl
        exact hts ((h.placed x hx hblock).unique ⟨((hscope t).1 ht).1, hc⟩
          ⟨hs, by simp [hrun]⟩)
      simpa using hcid
  · rw [removeSubtree, shape_pruneAll, slots_bypass, List.mem_filter, decide_eq_true_eq]

end Remove
end Graph

namespace Draft

variable {d : Draft} {run : Scope -> List String}

theorem ids_subset {k k' : Shape} (h : ∀ y ∈ k'.slots, y ∈ k.slots) : k'.ids ⊆ k.ids := by
  intro id hid
  obtain ⟨y, hy, rfl⟩ := List.mem_map.1 hid
  exact List.mem_map_of_mem (h y hy)

theorem removeBlock_eq {x y : Slot} (h : d.Laid run) (hx : x ∈ d.graph.shape.slots)
    (hblock : x.role.isBlock) (hy : y ∈ d.graph.shape.slots) (hyblock : y.role.isBlock)
    (hleft : y.id ∉ x.id :: d.graph.descendants x.id) :
    d.removeBlock x.id = d.modify fun g => g.removeSubtree x.id := by
  obtain ⟨b, hb, -⟩ := Graph.block?_of_slot h.shape.distinct hx hblock
  obtain ⟨-, hslots, -⟩ := Graph.laid_removeSubtree h.shape hx hblock
  simp only [removeBlock, hb]
  exact if_pos (Graph.hasBlocks_iff.2 ⟨y, (hslots y).2 ⟨hy, hleft⟩, hyblock⟩)

theorem Laid.removeBlock (h : d.Laid run) (id : String) :
    ∃ run', (d.removeBlock id).Laid run' := by
  cases hb : d.graph.block? id with
  | none => exact ⟨run, by simpa only [Draft.removeBlock, hb] using h⟩
  | some b =>
      obtain ⟨p, hx⟩ := Graph.slot_of_block? hb
      obtain ⟨hlaid, hslots, -⟩ := Graph.laid_removeSubtree h.shape hx b.isBlock_role
      simp only [Draft.removeBlock, hb]
      split
      · refine ⟨_, hlaid, fun c hc => ?_⟩
        exact h.issued c (ids_subset (fun y hy => ((hslots y).1 hy).1) hc)
      · exact ⟨_, laid_emptyState _⟩

/-!
# Another kind
-/

/-- The runs after a block is made a fresh one: those inside it go from marker to marker. -/
def retypeRun (run : Scope -> List String) (id start marker : String) : Scope -> List String :=
  fun s => if s.parent = some id then [start, marker] else run s

theorem role_fresh_of_not_isContainer {kind : Kind} (h : kind.isContainer = false) :
    (Block.fresh kind).role = .leaf := by
  cases kind <;> first | rfl | cases h

theorem isContainer_role_fresh {kind : Kind} (h : kind.isContainer) :
    (Block.fresh kind).role.isContainer := by
  cases kind <;> first | rfl | cases h

theorem withRole_strip_append {k : Shape} {id start marker : String} {nest : List String}
    {r : Role} {links : List Link} (hstart : start ≠ id) (hmarker : marker ≠ id) :
    Shape.withRole id r ((k.slots.filter fun x => x.id ∉ nest) ++
        [⟨start, some id, .start⟩, ⟨marker, some id, .insertionMarker⟩]) =
      ((k.strip id nest links).furnish id r start marker links).slots := by
  have hfilter := Shape.filter_withRole id .leaf k.slots fun c => decide (c ∉ nest)
  simp only [Shape.furnish, Shape.strip, hfilter, Shape.withRole_withRole]
  rw [Shape.withRole, List.map_append, ← Shape.withRole]
  simp [Slot.withRole, hstart, hmarker]

theorem exists_heading {g : Graph} {x : Slot} (hids : g.shape.ids.Nodup)
    (hx : x ∈ g.shape.slots) (hblock : x.role.isBlock) :
    ∃ heading, (g.node? x.id).bind Node.heading? = some heading := by
  obtain ⟨n, hn, rfl⟩ := Graph.mem_slots.1 hx
  rw [Node.slot_id, Graph.node?_eq_some hids hn, Option.bind_some]
  rw [Node.isBlock_slot] at hblock
  obtain ⟨id, parent, content⟩ := n
  cases content with
  | start => cases hblock
  | insertionMarker => cases hblock
  | block heading b => exact ⟨heading, rfl⟩

theorem laid_setContent {id : String} {heading : Heading} {b : Block} {labels : List String}
    (hlaid : Shape.Laid
      ⟨Shape.withRole id b.role d.graph.shape.slots, d.graph.shape.links⟩ run)
    (hissued : ∀ c ∈ d.graph.shape.ids, d.supply.Issued c) :
    (d.modify fun g => (g.modifyNode id fun n =>
      { n with content := .block heading b }).pruneAll labels).Laid run := by
  have hdistinct := hlaid.distinct
  rw [Shape.ids, Shape.map_id_withRole] at hdistinct
  have hshape : ((d.graph.modifyNode id fun n =>
      { n with content := .block heading b }).pruneAll labels).shape =
        ⟨Shape.withRole id b.role d.graph.shape.slots, d.graph.shape.links⟩ := by
    rw [Graph.shape_pruneAll, Graph.shape_modifyNode_withRole (r := b.role) hdistinct fun n _ => rfl]
  constructor
  case shape =>
    simp only [modify, hshape]
    exact hlaid
  case issued =>
    simp only [modify, hshape, Shape.ids, Shape.map_id_withRole]
    exact hissued

theorem Laid.retypeBlock_of_slot {x : Slot} (h : d.Laid run) (hx : x ∈ d.graph.shape.slots)
    (hblock : x.role.isBlock) (stem : String) (kind : Kind) :
    (d.retypeBlock stem x.id kind).Laid
      (retypeRun run x.id (d.supply.upcoming 1) (d.supply.upcoming 2)) := by
  have hn := h.shape.toNested
  have hnest := Graph.isNest_descendants hn (List.mem_map_of_mem hx)
  have hid : x.id ∈ d.graph.shape.ids := List.mem_map_of_mem hx
  obtain ⟨old, hold⟩ := exists_heading h.shape.distinct hx hblock
  let nest := d.graph.descendants x.id
  let inner := d.graph.shape.links.filter fun l => l.source ∉ nest ∧ l.target ∉ nest
  have hstrip : (d.graph.shape.strip x.id nest inner).Laid run :=
    h.shape.strip hx hblock hnest fun l => by simp [inner, nest]
  have hsub : (d.graph.shape.strip x.id nest inner).ids ⊆ d.graph.shape.ids := by
    have hsublist : ((d.graph.shape.strip x.id nest inner).slots.map Slot.id).Sublist
        ((Shape.withRole x.id .leaf d.graph.shape.slots).map Slot.id) :=
      List.filter_sublist.map _
    rw [Shape.map_id_withRole] at hsublist
    exact hsublist.subset
  have hremoved : (d.modify fun g => g.removeNodes nest).graph.shape =
      ⟨d.graph.shape.slots.filter fun y => y.id ∉ nest, inner⟩ :=
    Graph.shape_removeNodes _ _
  have hsupply : (d.modify fun g => g.removeNodes nest).supply = d.supply := rfl
  have hslots := Shape.filter_withRole x.id .leaf d.graph.shape.slots fun c => decide (c ∉ nest)
  simp only [Draft.retypeBlock, hold]
  change Laid (Draft.modify (if kind.isContainer then
    (d.modify fun g => g.removeNodes nest).addBody x.id (.fresh kind)
      else d.modify fun g => g.removeNodes nest) _) _
  generalize d.modify (fun g => g.removeNodes nest) = e at hremoved hsupply ⊢
  have hissued : ∀ c ∈ e.graph.shape.ids, e.supply.Issued c := by
    intro c hc
    rw [hremoved] at hc
    rw [hsupply]
    exact h.issued c ((List.filter_sublist.map Slot.id).subset hc)
  cases hcontainer : kind.isContainer with
  | false =>
      rw [if_neg Bool.false_ne_true]
      refine laid_setContent ?_ hissued
      rw [hremoved, role_fresh_of_not_isContainer hcontainer, ← hslots]
      refine hstrip.congr_run fun s hs => if_neg fun hparent => ?_
      exact (((Shape.hasScope_strip hn hx hnest).1 hs).2 x.id hparent).1 rfl
  | true =>
      have hfresh : ∀ m, d.supply.upcoming (m + 1) ∉ d.graph.shape.ids := fun m =>
        not_mem_upcoming h.issued (Nat.succ_pos m)
      have hne : d.supply.upcoming 1 ≠ d.supply.upcoming 2 := fun heq =>
        absurd (d.supply.upcoming_injective heq) (by simp)
      have hstart : d.supply.upcoming 1 ≠ x.id := fun heq => hfresh 0 (heq ▸ hid)
      have hmarker : d.supply.upcoming 2 ≠ x.id := fun heq => hfresh 1 (heq ▸ hid)
      have hleaf : ⟨x.id, x.parent, .leaf⟩ ∈ (d.graph.shape.strip x.id nest inner).slots :=
        (Shape.mem_slots_strip hn hx hnest).2 (Or.inr rfl)
      obtain ⟨hbody, hafter⟩ := shape_addBody e x.id (.fresh kind)
      rw [hremoved, hsupply] at hbody
      have hlinks : ∀ l, l ∈ inner ++ ((Block.fresh kind).role.scopes x.id).map (fun s =>
          (⟨d.supply.upcoming 1, d.supply.upcoming 2, s.tag⟩ : Link)) <->
            l ∈ inner ∨ ∃ s ∈ (Block.fresh kind).role.scopes x.id,
              l = ⟨d.supply.upcoming 1, d.supply.upcoming 2, s.tag⟩ := by
        simp [eq_comm]
      have hfurnish := hstrip.furnish hleaf (isContainer_role_fresh hcontainer)
        (fun hmem => hfresh 0 (hsub hmem)) (fun hmem => hfresh 1 (hsub hmem)) hne hlinks
      rw [if_pos rfl]
      refine laid_setContent ?_ fun c hc => ?_
      · rw [hbody, withRole_strip_append hstart hmarker]
        exact hfurnish
      · rw [hbody] at hc
        simp only [Shape.ids, List.map_append, List.mem_append, List.map_cons, List.map_nil,
          List.mem_cons, List.not_mem_nil, or_false] at hc
        rw [hsupply] at hafter
        rcases hc with hc | rfl | rfl
        · exact (h.issued c ((List.filter_sublist.map Slot.id).subset hc)).after hafter
        · exact hafter.issued (by omega)
        · exact hafter.issued (by omega)

theorem Laid.retypeBlock (h : d.Laid run) (stem id : String) (kind : Kind) :
    ∃ run', (d.retypeBlock stem id kind).Laid run' := by
  cases hb : d.graph.block? id with
  | some b =>
      obtain ⟨p, hx⟩ := Graph.slot_of_block? hb
      exact ⟨_, h.retypeBlock_of_slot hx b.isBlock_role stem kind⟩
  | none =>
      refine ⟨run, ?_⟩
      have hheading : (d.graph.node? id).bind Node.heading? = none := by
        rw [Graph.block?] at hb
        cases hn : d.graph.node? id with
        | none => rfl
        | some n =>
            obtain ⟨nid, parent, content⟩ := n
            rw [hn] at hb
            cases content with
            | start => rfl
            | insertionMarker => rfl
            | block heading b => cases hb
      simpa only [Draft.retypeBlock, hheading] using h

end Draft
end Workflow
