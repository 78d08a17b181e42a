import Workflow.Proofs.Edit.Subtree
import Workflow.Proofs.Shown.Insertion
import Workflow.Proofs.Tidy.Insertion

/-!
# Removing keeps graphs tidy

An edge that leads on past a block that is removed takes the kind of the edge behind the block,
which has the same tag and the same target.  No two edges become one, since there is one way on
from a node with a tag.  What is left of a conditional is all or nothing.
-/

namespace Workflow
namespace Shape

variable {k : Shape} {run : Scope -> List String}

theorem Laid.link_unique (h : k.Laid run) {l m : Link} (hl : l ∈ k.links) (hm : m ∈ k.links)
    (hsource : l.source = m.source) (htag : l.tag = m.tag) : l = m := by
  obtain ⟨s, hs, hls, hadj⟩ := (h.exact l).1 hl
  obtain ⟨t, ht, hmt, hadj'⟩ := (h.exact m).1 hm
  have hst : s = t := h.scope_eq_of_mem_run hs ht (hls.symm.trans (htag.trans hmt)) hadj.left_mem
    (hsource ▸ hadj'.left_mem)
  subst hst
  rw [← hsource] at hadj'
  have htarget := hadj.right_unique (h.runs s hs).nodup hadj'
  cases l
  cases m
  cases hsource
  cases htag
  cases htarget
  rfl

theorem Laid.conditional_not_mem (h : k.Laid run) {id : String} {nest : List String}
    (hnest : k.IsNest id nest) {l : Link} (hl : l ∈ k.links) (hsource : l.source ∉ nest)
    {t : BranchTag} (ht : l.tag = some t) : t.conditional ∉ id :: nest := by
  obtain ⟨x, hx, hxid, hparent⟩ := h.exists_source_of_tag hl ht
  intro hmem
  rw [← hxid] at hsource
  exact hsource ((hnest.closed x hx).2 ⟨_, hparent, List.mem_cons.1 hmem⟩)

end Shape

theorem Doubled.outside {k : Shape} {run : Scope -> List String} (h : k.Laid run) {id : String}
    {nest : List String} (hnest : k.IsNest id nest) {slots : List Slot}
    (hslots : ∀ x ∈ k.slots, x.id ∉ id :: nest -> x ∈ slots) {l : Link} (hl : l ∈ k.links)
    (hsource : l.source ∉ nest) (hd : Doubled k.slots l.tag) : Doubled slots l.tag := by
  obtain ⟨x, hx, branches, b, hrole, htag, hduplicate⟩ := hd
  have hkept : x.id ∉ id :: nest := h.conditional_not_mem hnest hl hsource htag
  exact ⟨x, hslots x hx hkept, branches, b, hrole, htag, hduplicate⟩

namespace Graph

variable {g : Graph} {run : Scope -> List String} {x : Slot}

/-!
# Removing a block
-/

/-- An edge leads on with the kind of the edge behind the block, which it needs. -/
theorem Tidy.ruled_detour (ht : g.Tidy) (h : g.shape.Laid run) (hx : x ∈ g.shape.slots)
    (hblock : x.role.isBlock) {e next : Edge} (he : e ∈ g.edges)
    (hfirst : g.firstFrom? x.id = some next) : (e.detour x.id next).Ruled g.shape.slots := by
  obtain ⟨s, -, a, b, -, -, -, -, hout, hinto⟩ := h.exists_around hx hblock
  have hnext := List.mem_of_find?_eq_some hfirst
  have hsource : next.source = x.id := by
    simpa using List.find?_some hfirst
  by_cases htarget : e.target = x.id
  · have htag : e.tag = next.tag :=
      (congrArg Link.tag (hinto _ (link_mem he) htarget)).trans
        (congrArg Link.tag (hout _ (link_mem hnext) hsource)).symm
    rw [Edge.detour, if_pos htarget]
    refine (ht.ruled next hnext).transfer htag rfl rfl (fun hnone => ?_)
      fun y hy _ => ⟨y, hy, rfl, rfl⟩
    rw [((Edge.ruled_of_untagged hnone).1 (ht.ruled next hnext)).1]
    exact ((Edge.ruled_of_untagged (htag.trans hnone)).1 (ht.ruled e he)).1
  · rw [Edge.detour_of_ne htarget]
    exact ht.ruled e he

theorem tidy_removeSubtree (ht : g.Tidy) (h : g.shape.Laid run) (hx : x ∈ g.shape.slots)
    (hblock : x.role.isBlock) : (g.removeSubtree x.id).Tidy := by
  have hnest := isNest_descendants h.toNested (List.mem_map_of_mem hx)
  obtain ⟨hlaid, hslots, -⟩ := laid_removeSubtree h hx hblock
  obtain ⟨next, hfirst, -, hedges⟩ := edges_removeSubtree h hx hblock
  constructor
  case ruled =>
    intro e' he'
    have htarget := hlaid.target_mem (link_mem he')
    rw [hedges] at he'
    obtain ⟨e, he, rfl⟩ := List.mem_map.1 he'
    have hruled := ht.ruled_detour h hx hblock (List.mem_of_mem_filter he) hfirst
    refine hruled.transfer rfl rfl rfl (fun _ => rfl) fun y hy hyid => ?_
    obtain ⟨z, hz, hzid⟩ := List.mem_map.1 htarget
    obtain rfl := h.slot_unique hy ((hslots z).1 hz).1 (hyid.trans hzid.symm)
    exact ⟨y, hz, rfl, rfl⟩
  case single =>
    have hlinks : (g.removeSubtree x.id).shape.links =
        ((g.edges.filter fun e => e.source ∉ g.subtree x.id).map fun e => e.detour x.id next).map
          Edge.link :=
      congrArg (List.map Edge.link) hedges
    have hsingle := ht.single
    rw [shape, List.pairwise_map] at hsingle
    rw [hlinks, List.map_map, List.pairwise_map]
    refine (hsingle.sublist List.filter_sublist).imp_of_mem fun {e f} he hf hef heq => ?_
    have hsource : e.source = f.source := by
      simpa [Edge.link] using congrArg Link.source heq
    have htag : e.tag = f.tag := by
      simpa [Edge.link] using congrArg Link.tag heq
    have he := List.mem_filter.1 he
    have hsame := h.link_unique (link_mem he.1) (link_mem (List.mem_of_mem_filter hf)) hsource htag
    have hkept : e.source ∉ g.subtree x.id := by
      simpa using he.2
    have hdoubled := Doubled.outside h hnest (fun y hy hyx => (hslots y).2 ⟨hy, hyx⟩)
      (link_mem he.1) (fun hmem => hkept (List.mem_cons_of_mem _ hmem)) (hef hsame)
    simpa [Edge.link] using hdoubled

theorem tidy_removeNodes (ht : g.Tidy) (h : g.shape.Laid run) {id : String} {nest : List String}
    (hnest : g.shape.IsNest id nest) : (g.removeNodes nest).Tidy := by
  have hshape := shape_removeNodes g nest
  refine ht.transfer (List.filter_sublist.map _)
    (fun e he => ⟨e, List.mem_of_mem_filter he, .refl _⟩) (fun e he y hy hyid => ?_)
    fun l hl hd => ?_
  · have hends := (List.mem_filter.1 he).2
    refine ⟨y, ?_, rfl, rfl⟩
    rw [hshape]
    simp only [Bool.and_eq_true, Bool.not_eq_true', List.contains_eq_mem,
      decide_eq_false_iff_not] at hends
    exact List.mem_filter.2 ⟨hy, by simpa [hyid] using hends.2⟩
  · rw [hshape] at hl ⊢
    obtain ⟨hl, hends⟩ := List.mem_filter.1 hl
    rw [decide_eq_true_eq] at hends
    refine Doubled.outside h hnest (fun y hy hyx => ?_) hl hends.1 hd
    exact List.mem_filter.2 ⟨hy, by simpa using fun hmem => hyx (List.mem_cons_of_mem _ hmem)⟩

end Graph

namespace Draft

variable {d : Draft} {run : Scope -> List String}

theorem tidy_removeBlock (h : d.Laid run) (ht : d.graph.Tidy) (id : String) :
    (d.removeBlock id).graph.Tidy := by
  cases hb : d.graph.block? id with
  | none => simpa only [removeBlock, hb] using ht
  | some b =>
      obtain ⟨p, hx⟩ := Graph.slot_of_block? hb
      simp only [removeBlock, hb]
      split
      · exact Graph.tidy_removeSubtree ht h.shape hx b.isBlock_role
      · exact tidy_emptyState _

/-!
# Another kind
-/

theorem tidy_setContent_addBody {n : Node} (hn : n ∈ d.graph.nodes) {heading : Heading} {b : Block}
    (ht : (d.graph.modifyNode n.id fun n => { n with content := .block heading b }).Tidy)
    (hids : (d.addBody n.id b).graph.shape.ids.Nodup)
    (hstart : ∀ l ∈ d.graph.shape.links, l.source ≠ d.supply.upcoming 1) :
    ((d.addBody n.id b).graph.modifyNode n.id fun n =>
      { n with content := .block heading b }).Tidy := by
  have hshape := (shape_addBody d n.id b).1
  obtain ⟨body, hedges, hlinks, hkinds⟩ := exists_edges_addBody d n.id b
  have hchanged : ((d.addBody n.id b).graph.modifyNode n.id fun n =>
      { n with content := .block heading b }).shape = _ :=
    Graph.shape_modifyNode_withRole (r := b.role) hids fun _ _ => rfl
  rw [hshape, Shape.ids, List.map_append] at hids
  have hbefore : (d.graph.modifyNode n.id fun n => { n with content := .block heading b }).shape =
      _ :=
    Graph.shape_modifyNode_withRole (r := b.role) (List.nodup_append.1 hids).1 fun _ _ => rfl
  have hmarker : d.supply.upcoming 2 ≠ n.id := fun heq =>
    (List.nodup_append.1 hids).2.2 n.id (List.mem_map_of_mem (Graph.slot_mem hn)) _ (by simp)
      heq.symm
  have hslots := congrArg Shape.slots hchanged
  rw [hshape, Shape.withRole, List.map_append, ← Shape.withRole] at hslots
  refine ht.furnish (x := ⟨n.id, n.parent, b.role⟩) ?_ ?_ ?_ hedges hlinks hkinds ?_
  · rw [hslots, hbefore]
    exact List.subset_append_left _ _
  · rw [hslots]
    refine List.mem_append_left _ (List.mem_map.2 ⟨_, Graph.slot_mem hn, ?_⟩)
    exact if_pos rfl
  · rw [hslots]
    simp [Slot.withRole, hmarker]
  · rw [hbefore]
    exact hstart

section Retype

variable {n : Node} (h : d.Laid run) (ht : d.graph.Tidy) (hn : n ∈ d.graph.nodes)
  (hblock : n.isBlock) (heading : Heading) (kind : Kind)
include h ht hn hblock

theorem tidy_setContent : ((d.graph.removeNodes (d.graph.descendants n.id)).modifyNode n.id
    fun n => { n with content := .block heading (.fresh kind) }).Tidy := by
  have hnest := Graph.isNest_descendants h.shape.toNested (List.mem_map_of_mem (Graph.slot_mem hn))
  have hshape := Graph.shape_removeNodes d.graph (d.graph.descendants n.id)
  have hids : (d.graph.removeNodes (d.graph.descendants n.id)).shape.ids.Nodup := by
    rw [hshape]
    exact (List.filter_sublist.map Slot.id).nodup h.shape.distinct
  have hslot : n.slot ∈ (d.graph.removeNodes (d.graph.descendants n.id)).shape.slots := by
    rw [hshape]
    exact List.mem_filter.2 ⟨Graph.slot_mem hn, decide_eq_true hnest.notSelf⟩
  have hchanged : ((d.graph.removeNodes (d.graph.descendants n.id)).modifyNode n.id fun n =>
      { n with content := .block heading (.fresh kind) }).shape = _ :=
    Graph.shape_modifyNode_withRole (r := (Block.fresh kind).role) hids fun _ _ => rfl
  refine (Graph.tidy_removeNodes ht h.shape hnest).withRole hids hslot (n.isBlock_slot ▸ hblock)
    (Block.isBlock_role (.fresh kind)) ?_ ?_ (fun e he => ⟨e, he, .refl _⟩) ?_
  · rw [hchanged]
    rfl
  · rw [hchanged]
    exact List.Sublist.refl _
  · intro l hl branches b _ htag _
    obtain ⟨e, he, rfl⟩ := Graph.mem_links.1 hl
    exact absurd rfl (h.ne_of_mem_removeNodes he htag)

theorem tidy_setContent_refilled (hids : (d.refilled n.id kind).graph.shape.ids.Nodup) :
    ((d.refilled n.id kind).graph.modifyNode n.id
      fun n => { n with content := .block heading (.fresh kind) }).Tidy := by
  have hbare := tidy_setContent h ht hn hblock heading kind
  unfold refilled at hids ⊢
  dsimp only at hids ⊢
  split
  · next hcontainer =>
      rw [if_pos hcontainer] at hids
      have hnest := Graph.isNest_descendants h.shape.toNested
        (List.mem_map_of_mem (Graph.slot_mem hn))
      refine tidy_setContent_addBody (d := d.modify fun g => g.removeNodes _)
        (List.mem_filter.2 ⟨hn, ?_⟩) hbare hids fun l hl heq => ?_
      · simpa using hnest.notSelf
      · obtain ⟨e, he, rfl⟩ := Graph.mem_links.1 hl
        refine not_mem_upcoming h.issued Nat.one_pos ?_
        exact heq ▸ h.shape.source_mem (Graph.link_mem (List.mem_of_mem_filter he))
  · exact hbare

end Retype

theorem tidy_retypeBlock (h : d.Laid run) (ht : d.graph.Tidy) (stem id : String) (kind : Kind) :
    (d.retypeBlock stem id kind).graph.Tidy := by
  cases hheading : (d.graph.node? id).bind Node.heading? with
  | none => simpa only [retypeBlock, hheading] using ht
  | some old =>
      obtain ⟨n, hnode, hold⟩ := Option.bind_eq_some_iff.1 hheading
      obtain ⟨hn, rfl⟩ := Graph.mem_of_node? hnode
      obtain ⟨b, hcarried⟩ := Node.exists_carried_of_heading hold
      have hblock := Node.isBlock_of_carried hcarried
      have hids := (h.retypeBlock_of_slot (Graph.slot_mem hn) (n.isBlock_slot ▸ hblock) stem
        kind).shape.distinct
      obtain ⟨heading, labels, heq⟩ := exists_retypeBlock_eq hheading stem kind
      rw [Node.slot_id, heq, modify, Graph.shape_pruneAll, Graph.ids_setContent] at hids
      rw [heq]
      exact (tidy_setContent_refilled h ht hn hblock heading kind hids).of_edges
        (Graph.shape_pruneAll _ _) (Graph.edges_pruneAll _ _)

end Draft
end Workflow
