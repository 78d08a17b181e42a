import Workflow.Proofs.Edit.Subtree
import Workflow.Proofs.Shown.Graph

/-!
# Two subtrees that go

Removing two blocks one after another takes away what is nested in either of them.  Of two
blocks that stand apart it makes no difference which goes first, and a block that is nested in
the other makes no difference at all.
-/

namespace Workflow

theorem filter_map_filter {f : α -> β} {p q : α -> Prop} {r : β -> Prop} [DecidablePred p]
    [DecidablePred q] [DecidablePred r] {l : List α} (h : ∀ a ∈ l, p a -> (r (f a) <-> q a)) :
    ((l.filter fun a => p a).map f).filter (fun b => r b) =
      (l.filter fun a => p a ∧ q a).map f := by
  rw [List.filter_map, List.filter_filter]
  congr 1
  refine List.filter_congr fun a ha => ?_
  by_cases hp : p a
  · simp [hp, h a ha hp]
  · simp [hp]

theorem Shape.IsNest.mono {k k' : Shape} {id : String} {nest : List String}
    (h : k.IsNest id nest) (hslots : k'.slots ⊆ k.slots) : k'.IsNest id nest :=
  ⟨h.notSelf, fun x hx => h.closed x (hslots hx)⟩

namespace Graph

variable {g : Graph} {run : Scope -> List String} {x y : Slot}

theorem ext {g g' : Graph} (hnodes : g.nodes = g'.nodes) (hedges : g.edges = g'.edges) :
    g = g' := by
  cases g
  cases g'
  cases hnodes
  cases hedges
  rfl

/-!
# Nodes that are left
-/

/-- The nodes that are left when some are gone, without the references to their labels. -/
def cleared (g : Graph) (gone : List String) : List Node :=
  (g.nodes.filter fun n => n.id ∉ gone).map (Node.mapBlock (Block.without (g.labelsOf gone)))

theorem mem_labelsOf_cleared {g' : Graph} {gone next : List String}
    (hnodes : g'.nodes = g.cleared gone) {l : String} : l ∈ g'.labelsOf next <->
      ∃ n ∈ g.nodes, n.id ∉ gone ∧ n.id ∈ next ∧ n.label? = some l := by
  simp only [mem_labelsOf, hnodes, cleared, List.mem_map, List.mem_filter, decide_eq_true_eq]
  constructor
  · intro h
    rcases h with ⟨-, ⟨n, ⟨hn, hout⟩, rfl⟩, hin, hl⟩
    rw [Node.id_mapBlock] at hin
    rw [Node.label?_mapBlock] at hl
    exact ⟨n, hn, hout, hin, hl⟩
  · intro h
    rcases h with ⟨n, hn, hout, hin, hl⟩
    exact ⟨_, ⟨n, ⟨hn, hout⟩, rfl⟩, (n.id_mapBlock _).symm ▸ hin, (n.label?_mapBlock _).trans hl⟩

/-- Nodes that go one after another go at once, if those of the second time are told by what
they were in the beginning. -/
theorem cleared_cleared {g' : Graph} {gone next next' : List String}
    (hnodes : g'.nodes = g.cleared gone)
    (hnext : ∀ n ∈ g.nodes, n.id ∉ gone -> (n.id ∈ next' <-> n.id ∈ next)) :
    g'.cleared next' = g.cleared (gone ++ next) := by
  have hlabels : ∀ l, l ∈ g.labelsOf gone ++ g'.labelsOf next' <->
      l ∈ g.labelsOf (gone ++ next) := by
    intro l
    simp only [List.mem_append, mem_labelsOf_cleared hnodes, mem_labelsOf]
    constructor
    · intro h
      rcases h with ⟨n, hn, hin, hl⟩ | ⟨n, hn, hout, hin, hl⟩
      · exact ⟨n, hn, Or.inl hin, hl⟩
      · exact ⟨n, hn, Or.inr ((hnext n hn hout).1 hin), hl⟩
    · intro h
      rcases h with ⟨n, hn, hor, hl⟩
      by_cases hin : n.id ∈ gone
      · exact Or.inl ⟨n, hn, hin, hl⟩
      · exact Or.inr ⟨n, hn, hin, (hnext n hn hin).2 (hor.resolve_left hin), hl⟩
  rw [cleared, hnodes, cleared, filter_map_filter (q := fun n => n.id ∉ next), List.map_map, cleared]
  · simp only [List.mem_append, not_or]
    apply List.map_congr_left
    intro n _
    simp only [Function.comp_apply, Node.mapBlock_mapBlock, Block.without_without,
      Block.without_congr hlabels]
  · intro n hn hout
    rw [Node.id_mapBlock, hnext n hn hout]

/-!
# After the first
-/

section Second

variable (h : g.shape.Laid run) (hx : x ∈ g.shape.slots) (hxblock : x.role.isBlock)
include h hx hxblock

/-- The subtrees that are left have what they had, as far as that is left. -/
theorem mem_subtree_removeSubtree {id : String} (hy : y ∈ g.shape.slots)
    (hyx : y.id ∉ g.subtree x.id) (hid : id ∈ g.shape.ids) (hidx : id ∉ g.subtree x.id) :
    id ∈ (g.removeSubtree x.id).subtree y.id <-> id ∈ g.subtree y.id := by
  obtain ⟨hlaid, hslots, -⟩ := laid_removeSubtree h hx hxblock
  obtain ⟨z, hz, rfl⟩ := List.mem_map.1 hid
  have hy' := (hslots y).2 ⟨hy, hyx⟩
  have hz' := (hslots z).2 ⟨hz, hidx⟩
  have hnest := (isNest_descendants h.toNested (List.mem_map_of_mem hy)).mono
    fun z hz => ((hslots z).1 hz).1
  rw [mem_subtree_iff hlaid.toNested hy' hz', subtree, mem_nest_iff hlaid.toNested hnest hz']

theorem nodes_removeSubtree_removeSubtree (hy : y ∈ g.shape.slots)
    (hyx : y.id ∉ g.subtree x.id) :
    ((g.removeSubtree x.id).removeSubtree y.id).nodes =
      (g.nodes.filter fun n => n.id ∉ g.subtree x.id ∧ n.id ∉ g.subtree y.id).map
        (Node.mapBlock (Block.without (g.labelsOf (g.subtree x.id ++ g.subtree y.id)))) := by
  obtain ⟨hlaid, -, -⟩ := laid_removeSubtree h hx hxblock
  have hcleared := cleared_cleared (nodes_removeSubtree h.distinct x.id) fun n hn hnx =>
    mem_subtree_removeSubtree h hx hxblock hy hyx (List.mem_map_of_mem (slot_mem hn)) hnx
  simp only [cleared, List.mem_append, not_or] at hcleared
  rw [nodes_removeSubtree hlaid.distinct]
  exact hcleared

theorem edges_removeSubtree_removeSubtree (hy : y ∈ g.shape.slots) (hyblock : y.role.isBlock)
    (hyx : y.id ∉ g.subtree x.id) : ∃ nextx nexty, g.firstFrom? x.id = some nextx ∧
      g.firstFrom? y.id = some nexty ∧
      ((g.removeSubtree x.id).removeSubtree y.id).edges =
        (g.edges.filter fun e => e.source ∉ g.subtree x.id ∧ e.source ∉ g.subtree y.id).map
          fun e => (e.detour x.id nextx).detour y.id (nexty.detour x.id nextx) := by
  obtain ⟨hlaid, hslots, -⟩ := laid_removeSubtree h hx hxblock
  obtain ⟨nextx, hnextx, -, hedges⟩ := edges_removeSubtree h hx hxblock
  obtain ⟨nexty', hnexty', -, hedges'⟩ :=
    edges_removeSubtree hlaid ((hslots y).2 ⟨hy, hyx⟩) hyblock
  -- the edges from the second block are still there, so the first of them is the first
  have hfirst : (g.removeSubtree x.id).firstFrom? y.id =
      (g.firstFrom? y.id).map fun e => e.detour x.id nextx := by
    rw [firstFrom?, hedges, List.find?_map, List.find?_filter, firstFrom?]
    congr 1
    refine List.find?_congr fun e _ => ?_
    by_cases hsource : e.source = y.id
    · simp [hsource, hyx]
    · simp [hsource]
  rw [hnexty'] at hfirst
  obtain ⟨nexty, hnexty, rfl⟩ := Option.map_eq_some_iff.1 hfirst.symm
  refine ⟨nextx, nexty, hnextx, hnexty, ?_⟩
  rw [hedges', hedges, filter_map_filter (q := fun e => e.source ∉ g.subtree y.id)
    fun e he hex => ?_, List.map_map]
  · rfl
  · rw [Edge.source_detour]
    exact not_congr
      (mem_subtree_removeSubtree h hx hxblock hy hyx (h.source_mem (link_mem he)) hex)

end Second

/-!
# In either order
-/

theorem target_ne_of_target (h : g.shape.Laid run) (hx : x ∈ g.shape.slots)
    (hxblock : x.role.isBlock) {e e' : Edge} (he : g.firstFrom? x.id = some e)
    (he' : g.firstFrom? y.id = some e') (htarget : e.target = y.id) : e'.target ≠ x.id := by
  intro htarget'
  obtain ⟨s, u, a, b, v, hs, -, hrun, hout, hinto⟩ := h.exists_around hx hxblock
  have hnodup := (h.runs s hs).nodup
  have hfrom : ∀ {e id}, g.firstFrom? id = some e -> e.link ∈ g.shape.links ∧ e.source = id :=
    fun he => ⟨link_mem (List.mem_of_find?_eq_some he), by simpa using List.find?_some he⟩
  obtain ⟨hlink, hsource⟩ := hfrom he
  obtain ⟨hlink', hsource'⟩ := hfrom he'
  have hb : y.id = b := htarget.symm.trans (congrArg Link.target (hout _ hlink hsource))
  have ha : y.id = a := hsource'.symm.trans (congrArg Link.source (hinto _ hlink' htarget'))
  rw [hrun, ← ha, ← hb] at hnodup
  exact absurd (by simp) (List.nodup_cons.1 (List.nodup_append.1 hnodup).2.1).1

theorem eq_of_mem_subtree (h : g.shape.Nested) (hx : x ∈ g.shape.slots) (hy : y ∈ g.shape.slots)
    (hyx : y.id ∈ g.subtree x.id) (hxy : x.id ∈ g.subtree y.id) : x.id = y.id := by
  rw [mem_subtree_iff h hx hy] at hyx
  rw [mem_subtree_iff h hy hx] at hxy
  rcases Relation.reflTransGen_iff_eq_or_transGen.1 hxy with heq | hlt
  · exact heq.symm
  · exact absurd (rank_lt_of_standsIn h (hlt.trans_left hyx)) (Nat.lt_irrefl _)

theorem mem_subtree_trans {z : Slot} (h : g.shape.Nested) (hx : x ∈ g.shape.slots)
    (hy : y ∈ g.shape.slots) (hz : z ∈ g.shape.slots) (hyx : y.id ∈ g.subtree x.id)
    (hzy : z.id ∈ g.subtree y.id) : z.id ∈ g.subtree x.id := by
  rw [mem_subtree_iff h hx hy] at hyx
  rw [mem_subtree_iff h hy hz] at hzy
  exact (mem_subtree_iff h hx hz).2 (hzy.trans hyx)

section Pair

variable (h : g.shape.Laid run) (hx : x ∈ g.shape.slots) (hxblock : x.role.isBlock)
  (hy : y ∈ g.shape.slots) (hyblock : y.role.isBlock)
include h hx hxblock hy hyblock

theorem removeSubtree_comm (hyx : y.id ∉ g.subtree x.id) (hxy : x.id ∉ g.subtree y.id) :
    (g.removeSubtree x.id).removeSubtree y.id = (g.removeSubtree y.id).removeSubtree x.id := by
  obtain ⟨nextx, nexty, hnextx, hnexty, hedges⟩ :=
    edges_removeSubtree_removeSubtree h hx hxblock hy hyblock hyx
  obtain ⟨nexty', nextx', hnexty', hnextx', hedges'⟩ :=
    edges_removeSubtree_removeSubtree h hy hyblock hx hxblock hxy
  cases hnextx.symm.trans hnextx'
  cases hnexty.symm.trans hnexty'
  have hne : x.id ≠ y.id := fun heq => hyx (heq ▸ List.mem_cons_self)
  have hlabels : ∀ l, l ∈ g.labelsOf (g.subtree x.id ++ g.subtree y.id) <->
      l ∈ g.labelsOf (g.subtree y.id ++ g.subtree x.id) := by
    intro l
    simp only [mem_labelsOf, List.mem_append, or_comm]
  refine ext ?_ ?_
  · rw [nodes_removeSubtree_removeSubtree h hx hxblock hy hyx,
      nodes_removeSubtree_removeSubtree h hy hyblock hx hxy]
    simp only [and_comm, funext (Block.without_congr hlabels)]
  · rw [hedges, hedges']
    simp only [and_comm, Edge.detour_comm hne
      (target_ne_of_target h hx hxblock hnextx hnexty)]

theorem removeSubtree_of_nested (hyx : y.id ∈ g.subtree x.id) (hxy : x.id ∉ g.subtree y.id) :
    (g.removeSubtree y.id).removeSubtree x.id = g.removeSubtree x.id := by
  obtain ⟨nexty, nextx, hnexty, hnextx, hedges⟩ :=
    edges_removeSubtree_removeSubtree h hy hyblock hx hxblock hxy
  obtain ⟨nextx', hnextx', hout, hedges'⟩ := edges_removeSubtree h hx hxblock
  cases hnextx.symm.trans hnextx'
  have hnext : nextx.target ≠ y.id := fun htarget => hout (htarget ▸ hyx)
  have hinto : ∀ e ∈ g.edges, e.source ∉ g.subtree x.id -> e.target ≠ y.id := by
    intro e he hsource htarget
    have hnest := isNest_descendants h.toNested (List.mem_map_of_mem hx)
    have hne : y.id ≠ x.id := fun heq => hxy (heq ▸ List.mem_cons_self)
    have hmem : e.link.target ∈ g.descendants x.id := by
      rw [show e.link.target = y.id from htarget]
      exact (List.mem_cons.1 hyx).resolve_left hne
    exact hsource (List.mem_cons_of_mem _ (h.source_mem_nest hnest (link_mem he) hmem))
  have hsub : ∀ id ∈ g.shape.ids, id ∈ g.subtree y.id -> id ∈ g.subtree x.id := by
    intro id hid hmem
    obtain ⟨z, hz, rfl⟩ := List.mem_map.1 hid
    exact mem_subtree_trans h.toNested hx hy hz hyx hmem
  have hboth : ∀ id ∈ g.shape.ids, id ∉ g.subtree y.id ∧ id ∉ g.subtree x.id <->
      id ∉ g.subtree x.id := fun id hid =>
    and_iff_right_of_imp fun hx hy => hx (hsub id hid hy)
  have hlabels : ∀ l, l ∈ g.labelsOf (g.subtree y.id ++ g.subtree x.id) <->
      l ∈ g.labelsOf (g.subtree x.id) := by
    intro l
    simp only [mem_labelsOf, List.mem_append]
    refine exists_congr fun n => and_congr_right fun hn => and_congr_left fun _ => ?_
    exact or_iff_right_of_imp (hsub _ (List.mem_map_of_mem (slot_mem hn)))
  refine ext ?_ ?_
  · rw [nodes_removeSubtree_removeSubtree h hy hyblock hx hxy, nodes_removeSubtree h.distinct,
      funext (Block.without_congr hlabels)]
    congr 1
    refine List.filter_congr fun n hn => ?_
    exact decide_eq_decide.2 (hboth _ (List.mem_map_of_mem (slot_mem hn)))
  · rw [hedges, hedges']
    have hfilter : (g.edges.filter fun e => e.source ∉ g.subtree y.id ∧ e.source ∉ g.subtree x.id) =
        g.edges.filter fun e => e.source ∉ g.subtree x.id :=
      List.filter_congr fun e he =>
        decide_eq_decide.2 (hboth _ (h.source_mem (link_mem he)))
    rw [hfilter]
    refine List.map_congr_left fun e he => ?_
    obtain ⟨he, hsource⟩ := List.mem_filter.1 he
    rw [Edge.detour_of_ne (hinto e he (by simpa using hsource)), Edge.detour_of_ne hnext]

end Pair
end Graph
end Workflow
