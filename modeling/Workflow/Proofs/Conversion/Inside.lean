import Workflow.Proofs.Conversion.Listing
import Workflow.Proofs.Conversion.Written
import Workflow.Proofs.Walk

/-!
# Blocks in document order

A graph that is laid out is a tree of scopes.  The blocks inside a scope, at whatever depth, are
those on its chain, each followed by what is inside the scopes of its own body; that is the order in
which they are written down.  The walk of the graph goes the same way: the scopes of a body have no
block in common, so the walk comes to each block for the first time where it stands.
-/

namespace Workflow

theorem Descriptor.listInOrder_flatMap {α : Type} (l : List α) (f : α -> List Descriptor) :
    listInOrder (l.flatMap f) = l.flatMap fun a => listInOrder (f a) := by
  induction l with
  | nil => rfl
  | cons a l ih => rw [List.flatMap_cons, listInOrder_append, ih, List.flatMap_cons]

namespace Graph

variable {g : Graph} {run : Scope -> List String}

/-- The blocks on the chain of a scope and, after each of them, those inside it. -/
def inside (g : Graph) (s : Scope) : List String :=
  (g.met g.nodes.length s).map Prod.snd

/-- The scopes of the body of a block, the branches in the order they are declared in. -/
def scopesInside (g : Graph) (id : String) : List Scope :=
  match g.block? id with
  | none => []
  | some b => bodyScopes id b

theorem bodyIds_eq (g : Graph) (id : String) :
    g.bodyIds id = (g.scopesInside id).flatMap g.chain := by
  unfold bodyIds scopesInside
  cases g.block? id <;> rfl

theorem scopesInside_eq {id : String} {b : Block} (hb : g.block? id = some b) :
    g.scopesInside id = b.role.scopes id := by
  rw [scopesInside, hb]
  exact (b.scopes_role id).symm

theorem mem_scopesInside {id : String} {t : Scope} (ht : t ∈ g.scopesInside id) :
    g.shape.HasScope t ∧ t.parent = some id := by
  unfold scopesInside at ht
  cases hb : g.block? id with
  | none =>
      rw [hb] at ht
      cases ht
  | some b =>
      rw [hb] at ht
      exact ⟨mem_scopes.1 (mem_scopes_of_block? hb ht), parent_of_mem_bodyScopes ht⟩

section Laid

variable (h : g.shape.Laid run)
include h

/-!
# A tree of scopes
-/

theorem not_nested_in_itself (id : String) : ¬ Relation.TransGen g.StandsIn id id := fun hcycle =>
  Nat.lt_irrefl _ (rank_lt_of_standsIn h.toNested hcycle)

theorem slot_of_mem_blocksIn {s : Scope} (hs : g.shape.HasScope s) {id : String}
    (hid : id ∈ g.blocksIn s) :
    ∃ x ∈ g.shape.slots, x.id = id ∧ x.parent = s.parent ∧ x.role.isBlock := by
  obtain ⟨-, -, -, -, -, hblocks⟩ := run_eq_blocksIn h hs
  obtain ⟨n, hn, hnid, hparent, hblock⟩ := hblocks id hid
  exact ⟨n.slot, slot_mem hn, hnid, hparent, n.isBlock_slot.trans hblock⟩

/-- What holds of a scope when it holds of the scopes inside its blocks holds of every scope. -/
theorem scope_induction {P : Scope -> Prop}
    (hstep : ∀ s, g.shape.HasScope s ->
      (∀ id ∈ g.blocksIn s, ∀ t ∈ g.scopesInside id, P t) -> P s) :
    ∀ s, g.shape.HasScope s -> P s := by
  -- a block has its place behind that of its container
  have hbody : ∀ p s, g.shape.HasScope s -> s.parent = some p -> P s := by
    intro p
    induction hdepth : g.shape.slots.length - g.shape.rank p using Nat.strongRecOn
      generalizing p with
    | ind depth ih =>
        intro s hs hparent
        refine hstep s hs fun id hid t ht => ?_
        obtain ⟨x, hx, rfl, hxparent, -⟩ := slot_of_mem_blocksIn h hs hid
        obtain ⟨ht, htparent⟩ := mem_scopesInside ht
        have hlow := h.rank_lt hx (hxparent.trans hparent)
        have hhigh := Shape.rank_lt_length hx
        exact ih _ (by omega) x.id rfl t ht htparent
  intro s hs
  refine hstep s hs fun id _ t ht => ?_
  obtain ⟨ht, htparent⟩ := mem_scopesInside ht
  exact hbody id t ht htparent

/-!
# What is inside a scope
-/

theorem scopeOf?_eq {n : Node} (hn : n ∈ g.nodes) (hblock : n.isBlock) {s : Scope}
    (hs : g.shape.HasScope s) (hmem : n.id ∈ g.chain s) : g.scopeOf? n.id = some s := by
  have hin : ∀ t, g.shape.HasScope t -> n.id ∈ g.chain t -> n.id ∈ g.blocksIn t := by
    intro t ht htmem
    rw [chain_eq h ht] at htmem
    exact (mem_blocksIn h ht (slot_mem hn)).2 ⟨htmem, n.isBlock_slot.trans hblock⟩
  have hparent : n.parent = s.parent := by
    rw [chain_eq h hs] at hmem
    exact h.parent_of_mem_run hs (slot_mem hn) hmem
  rw [scopeOf?, node?_eq_some h.distinct hn]
  dsimp only
  rw [hparent]
  cases hp : s.parent with
  | none => rw [hs.eq_root hp]
  | some p =>
      obtain ⟨b, hb, hscope⟩ := exists_block?_of_hasScope h.distinct hs hp
      obtain ⟨m, hm, hmb⟩ := Option.bind_eq_some_iff.1 hb
      dsimp only
      rw [hm]
      dsimp only
      rw [Node.conditional?, hmb, Option.bind_some]
      cases b with
      | leaf l => cases hscope
      | loop a =>
          rw [List.mem_singleton.1 hscope]
          rfl
      | conditional c =>
          have hlisted : s ∈ c.branchIds.map (Scope.ofBranch p) := hscope
          dsimp only [Block.conditional?]
          cases hfound : (c.branchIds.map (Scope.ofBranch p)).find? fun t =>
              (g.chain t).contains n.id with
          | none =>
              have hnot := List.find?_eq_none.1 hfound s hlisted
              exact absurd (List.contains_iff_mem.2 hmem) hnot
          | some t =>
              have htlisted : t ∈ g.scopesInside p := by
                rw [scopesInside_eq hb]
                exact List.mem_of_find?_eq_some hfound
              have ht := (mem_scopesInside htlisted).1
              have htmem := List.find?_some hfound
              rw [List.contains_iff_mem] at htmem
              rw [scope_eq_of_mem_blocksIn h ht hs (hin t ht htmem) (hin s hs hmem)]

theorem chainsApart_of_laid : g.ChainsApart := by
  intro s hs id hid hblock
  obtain ⟨n, hn, rfl, hn'⟩ := exists_node_of_block? hblock
  exact scopeOf?_eq h hn hn' (mem_scopes.1 hs) hid

theorem checked_of_laid (hd : g.Distinct) : g.Checked where
  distinct := h.distinct
  parents := by
    intro n hn p hp
    obtain hnone | ⟨x, hx, hxp, hcontainer⟩ := h.parents n.slot (slot_mem hn)
    · cases hp.symm.trans hnone
    · cases hp.symm.trans hxp
      obtain ⟨m, hm, rfl⟩ := mem_slots.1 hx
      rw [m.isContainer_slot] at hcontainer
      exact ⟨m, hm, rfl, (Option.any_eq_true _ _).1 hcontainer⟩
  connected := by
    intro n hn hblock
    obtain ⟨s, ⟨hs, hmem⟩, -⟩ := h.placed n.slot (slot_mem hn) (n.isBlock_slot.trans hblock)
    have hchain : n.id ∈ g.chain s := (chain_eq h hs).symm ▸ hmem
    exact ⟨s, scopeOf?_eq h hn hblock hs hchain, hchain⟩
  label := hd.label
  branches := hd.branches

theorem chain_eq_blocksIn {s : Scope} (hs : g.shape.HasScope s) :
    ∃ start marker, g.chain s = start :: (g.blocksIn s ++ [marker]) ∧
      g.block? start = none ∧ g.block? marker = none := by
  obtain ⟨start, marker, hrun, hstart, hmarker, -⟩ := run_eq_blocksIn h hs
  have hnone : ∀ {id p r}, (⟨id, p, r⟩ : Slot) ∈ g.shape.slots -> r.isBlock = false ->
      g.block? id = none := by
    intro id p r hslot hr
    rw [← Option.not_isSome_iff_eq_none, isSome_block? h.distinct hslot, hr]
    exact Bool.false_ne_true
  exact ⟨start, marker, (chain_eq h hs).trans hrun, hnone hstart rfl, hnone hmarker rfl⟩

/-- Where no level is missing another one adds nothing. -/
theorem met_succ_eq (levels : Nat) : ∀ s, g.shape.HasScope s ->
    (∀ x ∈ g.shape.slots, x.parent = s.parent -> g.nodes.length ≤ levels + g.shape.rank x.id) ->
      g.met (levels + 1) s = g.met levels s := by
  have hlength : g.shape.slots.length = g.nodes.length := by simp [shape]
  induction levels with
  | zero =>
      intro s hs hroom
      obtain ⟨start, marker, -, hstart, -⟩ := run_eq_blocksIn h hs
      have hlow := hroom _ hstart rfl
      have hhigh := Shape.rank_lt_length hstart
      omega
  | succ levels ih =>
      intro s hs hroom
      rw [met_succ, met_succ]
      refine List.flatMap_congr fun id hid => ?_
      unfold metAt
      cases hb : g.block? id with
      | none => rfl
      | some b =>
          obtain ⟨p, hx⟩ := slot_of_block? hb
          have hparent : p = s.parent := by
            rw [chain_eq h hs] at hid
            exact h.parent_of_mem_run hs hx hid
          have hlow := hroom _ hx hparent
          refine congrArg _ (List.flatMap_congr fun t ht => ih t ?_ fun y hy hyparent => ?_)
          · exact mem_scopes.1 (mem_scopes_of_block? hb ht)
          · have hdeeper := h.rank_lt hy (hyparent.trans (parent_of_mem_bodyScopes ht))
            dsimp only at hlow
            omega

theorem inside_eq {s : Scope} (hs : g.shape.HasScope s) :
    g.inside s = (g.blocksIn s).flatMap fun id => id :: (g.scopesInside id).flatMap g.inside := by
  obtain ⟨start, marker, hchain, hstart, hmarker⟩ := chain_eq_blocksIn h hs
  have hnone : ∀ {levels id}, g.block? id = none -> g.metAt levels s id = [] := by
    intro levels id hid
    rw [metAt, hid]
  have hblock : ∀ id ∈ g.blocksIn s, (g.metAt g.nodes.length s id).map Prod.snd =
      id :: (g.scopesInside id).flatMap g.inside := by
    intro id hid
    obtain ⟨x, hx, rfl, -, hrole⟩ := slot_of_mem_blocksIn h hs hid
    obtain ⟨b, hb, -⟩ := block?_of_slot h.distinct hx hrole
    simp only [metAt, scopesInside, hb, List.map_cons, List.map_flatMap]
    rfl
  rw [inside, ← met_succ_eq h _ s hs fun _ _ _ => Nat.le_add_right _ _, met_succ, hchain,
    List.flatMap_cons, hnone hstart, List.nil_append, List.flatMap_append, List.flatMap_singleton,
    hnone hmarker, List.append_nil, List.map_flatMap]
  exact List.flatMap_congr hblock

theorem mem_inside (hd : g.Distinct) {n : Node} (hn : n ∈ g.nodes) (hblock : n.isBlock) :
    n.id ∈ g.inside .root := by
  have hchecked := checked_of_laid h hd
  obtain ⟨s, hs, hmem⟩ := hchecked.connected n hn hblock
  have hsome : (g.block? n.id).isSome := by
    rw [block?_of_mem h.distinct hn]
    exact hblock
  have hmet := mem_met hchecked (not_nested_in_itself h) (hchecked.scopeOf? hn hs).1 hmem hsome
  exact List.mem_map_of_mem hmet

theorem nodup_inside (hd : g.Distinct) : (g.inside .root).Nodup := by
  have hapart := chainsApart_of_laid h
  have hnodup := nodup_met (checked_of_laid h hd) (not_nested_in_itself h) hapart g.nodes.length
    (s := .root) List.mem_cons_self
  refine hnodup.map_on ?_
  rintro ⟨t, id⟩ ht ⟨u, _⟩ hu rfl
  obtain ⟨htscope, htmem, hblock⟩ := of_mem_met _ List.mem_cons_self ht
  obtain ⟨huscope, humem, -⟩ := of_mem_met _ List.mem_cons_self hu
  have hscope := (hapart t htscope id htmem hblock).symm.trans (hapart u huscope id humem hblock)
  rw [Option.some.inj hscope]

/-!
# What is written down
-/

omit h in
theorem Depicts.scopesInside (hids : g.shape.ids.Nodup) {id : String} {x : Descriptor}
    (hx : g.Depicts id x) : g.scopesInside id = (x.bodies id).map Prod.fst := by
  obtain ⟨p, hslot⟩ := hx.carries.slot
  obtain ⟨b, hb, hrole⟩ := block?_of_slot hids hslot x.block.isBlock_role
  rw [scopesInside_eq hb, hrole, x.bodies_scopes]

theorem depicts_inside : ∀ s, g.shape.HasScope s -> ∀ xs, g.DepictsChain (g.blocksIn s) xs ->
    List.Forall₂ g.Depicts (g.inside s) (Descriptor.listInOrder xs) := by
  refine scope_induction h fun s hs ih xs hxs => ?_
  have hblocks : ∀ {ids xs}, List.Forall₂ g.Depicts ids xs -> ids ⊆ g.blocksIn s ->
      List.Forall₂ g.Depicts (ids.flatMap fun id => id :: (g.scopesInside id).flatMap g.inside)
        (Descriptor.listInOrder xs) := by
    intro ids xs hdepicts hsub
    induction hdepicts with
    | nil => exact .nil
    | @cons id x ids xs hx _ ihrest =>
        obtain ⟨hid, hsub⟩ := List.cons_subset.1 hsub
        rw [List.flatMap_cons, Descriptor.listInOrder, x.inOrder_eq id]
        refine List.rel_append (.cons hx ?_) (ihrest hsub)
        have hscopes := hx.scopesInside h.distinct
        rw [hscopes, List.flatMap_map, Descriptor.listInOrder_flatMap]
        refine forall₂_flatMap fun b hb => ?_
        have hscope : b.1 ∈ g.scopesInside id := hscopes ▸ List.mem_map_of_mem hb
        exact ih id hid b.1 hscope b.2 ((depicts_iff.1 hx).2 b hb)
  rw [inside_eq h hs]
  exact hblocks (depictsChain_iff.1 hxs) (List.Subset.refl _)

end Laid

/-!
# The walk
-/

/-- The blocks among some ids. -/
def blocksOf (g : Graph) (ids : List String) : List String :=
  ids.filter fun id => (g.block? id).isSome

/-- The walk of some ids comes to certain blocks, in their order, unless it has been there. -/
def Finds (g : Graph) (ids found : List String) : Prop :=
  ∀ listed, (g.blocksOf listed ++ found).Nodup ->
    g.blocksOf (g.visit ids listed) = g.blocksOf listed ++ found

theorem Finds.nil : g.Finds [] [] := by
  intro listed _
  rw [visit_nil, List.append_nil]

theorem Finds.append {ids ids' found found' : List String} (h : g.Finds ids found)
    (h' : g.Finds ids' found') : g.Finds (ids ++ ids') (found ++ found') := by
  intro listed hnodup
  rw [← List.append_assoc] at hnodup
  have hfirst := h listed (List.nodup_append.1 hnodup).1
  rw [visit_append, h' _ (hfirst ▸ hnodup), hfirst, List.append_assoc]

theorem Finds.flatMap {α : Type} {l : List α} {ids found : α -> List String}
    (h : ∀ a ∈ l, g.Finds (ids a) (found a)) : g.Finds (l.flatMap ids) (l.flatMap found) := by
  induction l with
  | nil => exact .nil
  | cons a l ih =>
      rw [List.flatMap_cons, List.flatMap_cons]
      exact (h a List.mem_cons_self).append (ih fun b hb => h b (List.mem_cons_of_mem _ hb))

theorem Finds.marker {id : String} (hid : g.block? id = none) : g.Finds [id] [] := by
  intro listed _
  have hbody : g.bodyIds id = [] := by
    rw [bodyIds, hid]
  rw [visit, hbody, List.append_nil, visit_nil, visit_nil, List.append_nil]
  split
  · rfl
  · simp [blocksOf, List.filter_append, hid]

theorem Finds.block {id : String} {found : List String} (hid : (g.block? id).isSome)
    (h : g.Finds (g.bodyIds id) found) : g.Finds [id] (id :: found) := by
  intro listed hnodup
  have hnew : id ∉ listed := by
    intro hmem
    have hlisted : id ∈ g.blocksOf listed := List.mem_filter.2 ⟨hmem, hid⟩
    exact (List.nodup_append.1 hnodup).2.2 id hlisted id List.mem_cons_self rfl
  have hblocks : g.blocksOf listed ++ id :: found = g.blocksOf (listed ++ [id]) ++ found := by
    simp [blocksOf, List.filter_append, hid]
  rw [visit, if_neg fun hmem => hnew (List.contains_iff_mem.1 hmem), List.append_nil, hblocks]
  exact h _ (hblocks ▸ hnodup)

/-- Nodes that the walk has not come to are no blocks if it has come to every block. -/
theorem blocksOf_foldl_append (ids : List String) : ∀ order : List String,
    (∀ id ∈ ids, (g.block? id).isSome -> id ∈ order) ->
      g.blocksOf (ids.foldl (fun order id => if order.contains id then order else order ++ [id])
        order) = g.blocksOf order := by
  induction ids with
  | nil => exact fun _ _ => rfl
  | cons id ids ih =>
      intro order hall
      rw [List.foldl_cons]
      split
      · exact ih order fun i hi => hall i (List.mem_cons_of_mem _ hi)
      · next hnew =>
          have hmarker : (g.block? id).isSome = false := by
            rw [← Bool.not_eq_true]
            exact fun hid => hnew (List.contains_iff_mem.2 (hall id List.mem_cons_self hid))
          rw [ih]
          · simp [blocksOf, List.filter_append, hmarker]
          · exact fun i hi hblock =>
              List.mem_append_left _ (hall i (List.mem_cons_of_mem _ hi) hblock)

section Laid

variable (h : g.shape.Laid run)
include h

theorem finds_inside : ∀ s, g.shape.HasScope s -> g.Finds (g.chain s) (g.inside s) := by
  refine scope_induction h fun s hs ih => ?_
  obtain ⟨start, marker, hchain, hstart, hmarker⟩ := chain_eq_blocksIn h hs
  have hblocks : g.Finds ((g.blocksIn s).flatMap fun id => [id])
      ((g.blocksIn s).flatMap fun id => id :: (g.scopesInside id).flatMap g.inside) := by
    refine .flatMap fun id hid => .block ?_ ?_
    · obtain ⟨x, hx, rfl, -, hrole⟩ := slot_of_mem_blocksIn h hs hid
      exact (isSome_block? h.distinct hx).trans hrole
    · rw [bodyIds_eq]
      exact .flatMap (ih id hid)
  rw [List.flatMap_singleton', ← inside_eq h hs] at hblocks
  rw [hchain]
  have hfinds := (Finds.marker hstart).append (hblocks.append (.marker hmarker))
  rwa [List.nil_append, List.append_nil] at hfinds

/-- The blocks of the order are those inside the top level. -/
theorem blocksOf_order (hd : g.Distinct) : g.blocksOf g.order = g.inside .root := by
  have hfound : g.blocksOf (g.visit (g.chain .root) []) = g.inside .root :=
    finds_inside h .root (Shape.hasScope_root _) [] (nodup_inside h hd)
  refine (blocksOf_foldl_append _ _ fun id hid hblock => ?_).trans hfound
  obtain ⟨n, hn, rfl⟩ := List.mem_map.1 hid
  rw [block?_of_mem h.distinct hn] at hblock
  have hmem := mem_inside h hd hn hblock
  rw [← hfound] at hmem
  exact List.mem_of_mem_filter hmem

end Laid
end Graph
end Workflow
