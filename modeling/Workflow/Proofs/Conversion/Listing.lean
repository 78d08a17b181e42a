import Workflow.Proofs.Conversion.Depiction

/-!
# Documents list every block once

The blocks of a document in order are those of the graph that depicts it, each once.  A
block is listed because its container is, and it is listed once because what is nested in
two blocks of one container is nested in one of them only.
-/

namespace Workflow

/-!
# Parts of a document
-/

namespace Descriptor

mutual

theorem inOrder_subset : ∀ (x : Descriptor) {y : Descriptor}, y ∈ x.inOrder ->
    y.inOrder ⊆ x.inOrder
  | .leaf h l, y, hy => by
      rw [List.mem_singleton.1 hy]
      exact List.Subset.refl _
  | .loop h a children, y, hy => by
      rcases List.mem_cons.1 hy with rfl | hy
      · exact List.Subset.refl _
      · exact List.Subset.trans (listInOrder_subset children hy) (List.subset_cons_self _ _)
  | .conditional h branches, y, hy => by
      rcases List.mem_cons.1 hy with rfl | hy
      · exact List.Subset.refl _
      · exact List.Subset.trans (branchesInOrder_subset branches hy) (List.subset_cons_self _ _)

theorem listInOrder_subset : ∀ (xs : List Descriptor) {y : Descriptor}, y ∈ listInOrder xs ->
    y.inOrder ⊆ listInOrder xs
  | x :: xs, y, hy => by
      rcases List.mem_append.1 hy with hy | hy
      · exact List.Subset.trans (inOrder_subset x hy) (List.subset_append_left _ _)
      · exact List.Subset.trans (listInOrder_subset xs hy) (List.subset_append_right _ _)

theorem branchesInOrder_subset : ∀ (branches : List (Branch × List Descriptor)) {y : Descriptor},
    y ∈ branchesInOrder branches -> y.inOrder ⊆ branchesInOrder branches
  | (_, children) :: rest, y, hy => by
      rcases List.mem_append.1 hy with hy | hy
      · exact List.Subset.trans (listInOrder_subset children hy) (List.subset_append_left _ _)
      · exact List.Subset.trans (branchesInOrder_subset rest hy) (List.subset_append_right _ _)

end

theorem mem_listInOrder {xs : List Descriptor} {x : Descriptor} (hx : x ∈ xs) :
    x ∈ listInOrder xs := by
  induction xs with
  | nil => cases hx
  | cons y xs ih =>
      rcases List.mem_cons.1 hx with rfl | hx
      · exact List.mem_append_left _ x.mem_inOrder_self
      · exact List.mem_append_right _ (ih hx)

theorem mem_inOrder_of_body {x y : Descriptor} {id : String} {b : Scope × List Descriptor}
    (hb : b ∈ x.bodies id) (hy : y ∈ b.2) : y ∈ x.inOrder := by
  rw [inOrder_eq id]
  exact List.mem_cons_of_mem _ (mem_listInOrder (List.mem_flatMap.2 ⟨b, hb, hy⟩))

end Descriptor

theorem Block.role_reopened (b : Block) : b.reopened.role = b.role := by
  cases b <;> rfl

theorem Content.role_reopened (c : Content) : c.reopened.role = c.role := by
  cases c with
  | start => rfl
  | insertionMarker => rfl
  | block h b => exact b.role_reopened

theorem Content.eq_reopened {c c' : Content} (hrole : c'.role = c.role)
    (hmarker : c.role.isBlock = false) : c' = c.reopened := by
  cases c with
  | block h b => exact absurd b.isBlock_role (by simp_all [Content.role])
  | start =>
      cases c' with
      | start => rfl
      | insertionMarker => cases hrole
      | block h b => cases b <;> cases hrole
  | insertionMarker =>
      cases c' with
      | start => cases hrole
      | insertionMarker => rfl
      | block h b => cases b <;> cases hrole

namespace Graph

variable {g : Graph} {run : Scope -> List String}

theorem Carries.content (hids : g.shape.ids.Nodup) {n : Node} (hn : n ∈ g.nodes) {x : Descriptor}
    (h : g.Carries n.id x) : n.content.reopened = .block x.heading x.block := by
  rw [Carries, node?_eq_some hids hn] at h
  exact Option.some.inj h

theorem Carries.slot {id : String} {x : Descriptor} (h : g.Carries id x) :
    ∃ p, ⟨id, p, x.block.role⟩ ∈ g.shape.slots := by
  obtain ⟨n, hn, rfl, b, hcontent, hb⟩ := h.node
  refine ⟨n.parent, ?_⟩
  have hslot : n.slot = ⟨n.id, n.parent, x.block.role⟩ := by
    rw [Node.slot, hcontent, Content.role, ← hb, Block.role_reopened]
  exact hslot ▸ slot_mem hn

theorem Depicts.hasScope {id : String} {x : Descriptor} (h : g.Depicts id x)
    {b : Scope × List Descriptor} (hb : b ∈ x.bodies id) :
    g.shape.HasScope b.1 ∧ b.1.parent = some id := by
  obtain ⟨p, hp⟩ := h.carries.slot
  have hscope : b.1 ∈ x.block.role.scopes id :=
    x.bodies_scopes id ▸ List.mem_map_of_mem hb
  exact ⟨Or.inr ⟨_, hp, hscope⟩, Role.parent_of_mem_scopes hscope⟩

theorem Depicts.exists_body (hnested : g.shape.Nested) {id : String} {x : Descriptor}
    (h : g.Depicts id x) {s : Scope} (hs : g.shape.HasScope s) (hparent : s.parent = some id) :
    ∃ b ∈ x.bodies id, b.1 = s := by
  obtain ⟨p, hp⟩ := h.carries.slot
  rcases hs with rfl | ⟨y, hy, hscope⟩
  · cases hparent
  · have hid : y.id = id := by
      rw [Role.parent_of_mem_scopes hscope] at hparent
      exact Option.some.inj hparent
    rw [hnested.slot_unique hy hp hid] at hscope
    have hmem : s ∈ (x.bodies id).map Prod.fst := x.bodies_scopes id ▸ hscope
    obtain ⟨b, hb, hbs⟩ := List.mem_map.1 hmem
    exact ⟨b, hb, hbs⟩

/-!
# Every block is depicted
-/

section Laid

variable (h : g.shape.Laid run)
include h

theorem mem_blocksIn {s : Scope} (hs : g.shape.HasScope s) {x : Slot} (hx : x ∈ g.shape.slots) :
    x.id ∈ g.blocksIn s <-> x.id ∈ run s ∧ x.role.isBlock := by
  obtain ⟨start, marker, hrun, hstart, hmarker, hblocks⟩ := run_eq_blocksIn h hs
  rw [hrun]
  constructor
  · intro hmem
    obtain ⟨n, hn, hid, -, hblock⟩ := hblocks _ hmem
    refine ⟨by simp [hmem], ?_⟩
    rw [← h.slot_unique (slot_mem hn) hx hid, n.isBlock_slot]
    exact hblock
  · rintro ⟨hmem, hblock⟩
    simp only [List.mem_cons, List.mem_append, List.not_mem_nil, or_false] at hmem
    rcases hmem with heq | hmem | heq
    · exact absurd heq (h.ne_marker hx hblock hstart rfl)
    · exact hmem
    · exact absurd heq (h.ne_marker hx hblock hmarker rfl)

theorem exists_depicted {blocks : List Descriptor} (hroot : g.DepictsChain (g.blocksIn .root) blocks)
    {x : Slot} (hx : x ∈ g.shape.slots) (hblock : x.role.isBlock) :
    ∃ y ∈ Descriptor.listInOrder blocks, g.Depicts x.id y := by
  induction hrank : g.shape.rank x.id using Nat.strongRecOn generalizing x with
  | ind rank ih =>
      obtain ⟨s, ⟨hs, hmem⟩, -⟩ := h.placed x hx hblock
      have hin : x.id ∈ g.blocksIn s := (mem_blocksIn h hs hx).2 ⟨hmem, hblock⟩
      have hfound : ∀ {zs : List Descriptor}, g.DepictsChain (g.blocksIn s) zs ->
          ∃ z ∈ zs, g.Depicts x.id z := by
        intro zs hzs
        exact exists_of_forall₂ (depictsChain_iff.1 hzs) hin
      rcases hs with rfl | ⟨p, hp, hscope⟩
      · obtain ⟨z, hz, hdepicts⟩ := hfound hroot
        exact ⟨z, Descriptor.mem_listInOrder hz, hdepicts⟩
      · have hparent : x.parent = some p.id :=
          (h.parent_of_mem_run (Or.inr ⟨p, hp, hscope⟩) hx hmem).trans
            (Role.parent_of_mem_scopes hscope)
        have hcontainer := Role.isContainer_of_mem_scopes hscope
        obtain ⟨y, hy, hdepicts⟩ := ih _ (hrank ▸ h.rank_lt hx hparent) hp
          (Role.isBlock_of_isContainer hcontainer) rfl
        obtain ⟨b, hb, rfl⟩ := hdepicts.exists_body h.toNested (Or.inr ⟨p, hp, hscope⟩)
          (Role.parent_of_mem_scopes hscope)
        obtain ⟨z, hz, hzx⟩ := hfound ((depicts_iff.1 hdepicts).2 b hb)
        exact ⟨z, Descriptor.listInOrder_subset blocks hy (Descriptor.mem_inOrder_of_body hb hz),
          hzx⟩

end Laid

/-!
# Every block is listed once
-/

/-- A label names one block, and the branches of a conditional have different ids. -/
structure Distinct (g : Graph) : Prop where
  label : ∀ m ∈ g.nodes, ∀ n ∈ g.nodes, ∀ l, m.label? = some l -> n.label? = some l -> m = n
  branches : ∀ n ∈ g.nodes, ∀ c, n.conditional? = some c -> c.branchIds.Nodup

theorem Distinct.nodup_bodies (hd : g.Distinct) {id : String} {x : Descriptor}
    (hx : g.Depicts id x) :
    ((x.bodies id).map Prod.fst).Nodup := by
  rw [x.bodies_scopes]
  obtain ⟨n, hn, -, b, hcontent, hb⟩ := hx.carries.node
  rw [← hb, Block.role_reopened]
  cases b with
  | leaf l => exact List.nodup_nil
  | loop a => exact List.nodup_singleton _
  | conditional c =>
      have hc : n.conditional? = some c := by
        rw [Node.conditional?, Node.block?, hcontent]
        rfl
      refine (hd.branches n hn c hc).map fun b b' heq => ?_
      simpa [Scope.ofBranch] using heq

/-- The ids of nodes that depict some blocks, each once, and are nested in some roots. -/
structure Lists (g : Graph) (roots : List String) (xs : List Descriptor) (ids : List String) :
    Prop where
  depicts : List.Forall₂ g.Depicts ids xs
  nodup : ids.Nodup
  nested : ∀ id ∈ ids, ∃ c ∈ roots, Relation.ReflTransGen g.StandsIn id c

/-- What is listed for neighbours is listed for the chain they are in. -/
theorem exists_lists_chain (h : g.shape.Nested) {p : Option String} {roots : List String}
    {blocks : List Descriptor} (hdepicts : List.Forall₂ g.Depicts roots blocks) :
    roots.Nodup -> (∀ c ∈ roots, ∃ x ∈ g.shape.slots, x.id = c ∧ x.parent = p) ->
      (∀ c ∈ roots, ∀ x, g.Depicts c x -> ∃ ids, g.Lists [c] x.inOrder ids) ->
      ∃ ids, g.Lists roots (Descriptor.listInOrder blocks) ids := by
  induction hdepicts with
  | nil =>
      intro _ _ _
      exact ⟨[], .nil, List.nodup_nil, by simp⟩
  | @cons c x roots blocks hx _ ih =>
      intro hroots hparent hlists
      obtain ⟨hc, hroots⟩ := List.nodup_cons.1 hroots
      obtain ⟨first, hfirst⟩ := hlists c List.mem_cons_self x hx
      obtain ⟨rest, hrest⟩ := ih hroots (fun d hd => hparent d (List.mem_cons_of_mem _ hd))
        fun d hd => hlists d (List.mem_cons_of_mem _ hd)
      refine ⟨first ++ rest, List.rel_append hfirst.depicts hrest.depicts, ?_, fun id hid => ?_⟩
      · refine List.nodup_append.2 ⟨hfirst.nodup, hrest.nodup, ?_⟩
        rintro id hid id' hid' rfl
        obtain ⟨c', hc', hin⟩ := hfirst.nested id hid
        obtain ⟨d, hd, hin'⟩ := hrest.nested id hid'
        obtain ⟨y, hy, hyid, hyparent⟩ := hparent c List.mem_cons_self
        obtain ⟨z, hz, hzid, hzparent⟩ := hparent d (List.mem_cons_of_mem _ hd)
        rw [List.mem_singleton.1 hc', ← hyid] at hin
        rw [← hzid] at hin'
        have heq := eq_of_nested h hy hz (hyparent.trans hzparent.symm) hin hin'
        exact hc (hyid ▸ heq ▸ hzid ▸ hd)
      · rcases List.mem_append.1 hid with hid | hid
        · obtain ⟨c', hc', hin⟩ := hfirst.nested id hid
          exact ⟨c, List.mem_cons_self, List.mem_singleton.1 hc' ▸ hin⟩
        · obtain ⟨d, hd, hin⟩ := hrest.nested id hid
          exact ⟨d, List.mem_cons_of_mem _ hd, hin⟩

section Distinct

variable (h : g.shape.Laid run)
include h

theorem nodup_blocksIn {s : Scope} (hs : g.shape.HasScope s) : (g.blocksIn s).Nodup := by
  obtain ⟨start, marker, hrun, -⟩ := run_eq_blocksIn h hs
  have hnodup := (h.runs s hs).nodup
  rw [hrun] at hnodup
  exact (List.nodup_append.1 (List.nodup_cons.1 hnodup).2).1

theorem scope_eq_of_mem_blocksIn {s t : Scope} (hs : g.shape.HasScope s)
    (ht : g.shape.HasScope t) {id : String} (hids : id ∈ g.blocksIn s)
    (hidt : id ∈ g.blocksIn t) : s = t := by
  obtain ⟨-, -, -, -, -, hblocks⟩ := run_eq_blocksIn h hs
  obtain ⟨n, hn, rfl, -, -⟩ := hblocks id hids
  obtain ⟨hruns, hblock⟩ := (mem_blocksIn h hs (slot_mem hn)).1 hids
  obtain ⟨hrunt, -⟩ := (mem_blocksIn h ht (slot_mem hn)).1 hidt
  exact (h.placed n.slot (slot_mem hn) hblock).unique ⟨hs, hruns⟩ ⟨ht, hrunt⟩

variable (hd : g.Distinct)
include hd

/-- A block is listed with everything in it. -/
theorem exists_lists {id : String} {x : Descriptor} (hx : g.Depicts id x) :
    ∃ ids, g.Lists [id] x.inOrder ids := by
  induction hdepth : g.shape.slots.length - g.shape.rank id using Nat.strongRecOn
    generalizing id x with
  | ind depth ih =>
      have hscopes := fun b hb => hx.hasScope (b := b) hb
      have hbelow : ∀ c ∈ (x.bodies id).flatMap (fun b => g.blocksIn b.1),
          ∃ y ∈ g.shape.slots, y.id = c ∧ y.parent = some id := by
        intro c hc
        obtain ⟨b, hb, hc⟩ := List.mem_flatMap.1 hc
        obtain ⟨hs, hparent⟩ := hscopes b hb
        obtain ⟨-, -, -, -, -, hblocks⟩ := run_eq_blocksIn h hs
        obtain ⟨n, hn, hid, hnparent, -⟩ := hblocks c hc
        exact ⟨n.slot, slot_mem hn, hid, hnparent.trans hparent⟩
      have hnodup : ((x.bodies id).flatMap fun b => g.blocksIn b.1).Nodup := by
        refine List.nodup_flatMap.2 ⟨fun b hb => nodup_blocksIn h (hscopes b hb).1, ?_⟩
        refine (List.pairwise_map.1 (hd.nodup_bodies hx)).imp_of_mem ?_
        intro b b' hb hb' hne c hc hc'
        exact hne (scope_eq_of_mem_blocksIn h (hscopes b hb).1 (hscopes b' hb').1 hc hc')
      have hchain : List.Forall₂ g.Depicts ((x.bodies id).flatMap fun b => g.blocksIn b.1)
          ((x.bodies id).flatMap Prod.snd) :=
        forall₂_flatMap fun b hb => depictsChain_iff.1 ((depicts_iff.1 hx).2 b hb)
      obtain ⟨ids, hids⟩ := exists_lists_chain h.toNested hchain hnodup hbelow fun c hc y hy => by
        obtain ⟨z, hz, rfl, hparent⟩ := hbelow c hc
        have hlow := h.rank_lt hz hparent
        have hhigh := Shape.rank_lt_length hz
        exact ih _ (by omega) hy rfl
      have hin : ∀ i ∈ ids, Relation.TransGen g.StandsIn i id := by
        intro i hi
        obtain ⟨c, hc, hin⟩ := hids.nested i hi
        obtain ⟨z, hz, rfl, hparent⟩ := hbelow c hc
        obtain ⟨n, hn, rfl⟩ := mem_slots.1 hz
        exact Relation.TransGen.tail' hin ⟨n, hn, rfl, hparent⟩
      rw [x.inOrder_eq id]
      refine ⟨id :: ids, .cons hx hids.depicts, List.nodup_cons.2 ⟨fun hmem => ?_, hids.nodup⟩,
        fun i hi => ⟨id, List.mem_singleton_self _, ?_⟩⟩
      · exact Nat.lt_irrefl _ (rank_lt_of_standsIn h.toNested (hin id hmem))
      · rcases List.mem_cons.1 hi with rfl | hi
        · exact .refl
        · exact (hin i hi).to_reflTransGen

variable {blocks : List Descriptor} (hroot : g.DepictsChain (g.blocksIn .root) blocks)
include hroot

theorem exists_lists_root :
    ∃ ids, g.Lists (g.blocksIn .root) (Descriptor.listInOrder blocks) ids := by
  have hs := Shape.hasScope_root g.shape
  refine exists_lists_chain h.toNested (p := none) (depictsChain_iff.1 hroot)
    (nodup_blocksIn h hs) (fun c hc => ?_) fun c _ x hx => exists_lists h hd hx
  obtain ⟨-, -, -, -, -, hblocks⟩ := run_eq_blocksIn h hs
  obtain ⟨n, hn, hid, hparent, -⟩ := hblocks c hc
  exact ⟨n.slot, slot_mem hn, hid, hparent⟩

theorem exists_depicting {x : Descriptor} (hx : x ∈ Descriptor.listInOrder blocks) :
    ∃ id, g.Depicts id x := by
  obtain ⟨ids, hids⟩ := exists_lists_root h hd hroot
  obtain ⟨id, -, hdepicts⟩ := exists_of_forall₂ hids.depicts.flip hx
  exact ⟨id, hdepicts⟩

end Distinct

theorem eq_of_label_eq (hd : g.Distinct) {id id' : String} {x x' : Descriptor}
    (hx : g.Depicts id x) (hx' : g.Depicts id' x') (hlabel : x.label = x'.label) : id = id' := by
  obtain ⟨n, hn, rfl, b, hb, -⟩ := hx.carries.node
  obtain ⟨n', hn', rfl, b', hb', -⟩ := hx'.carries.node
  rw [hd.label n hn n' hn' x.label]
  · rw [Node.label?, Node.heading?, hb]
    rfl
  · rw [Node.label?, Node.heading?, hb', hlabel]
    rfl

theorem nodup_labels (h : g.shape.Laid run) (hd : g.Distinct) {blocks : List Descriptor}
    (hroot : g.DepictsChain (g.blocksIn .root) blocks) :
    ((Descriptor.listInOrder blocks).map Descriptor.label).Nodup := by
  obtain ⟨ids, hids⟩ := exists_lists_root h hd hroot
  exact nodup_map_of_forall₂ hids.depicts hids.nodup fun _ _ _ _ hx hx' => eq_of_label_eq hd hx hx'

end Graph
end Workflow
