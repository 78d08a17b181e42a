import Mathlib.Data.Set.Function
import Workflow.Proofs.Conversion.Listing

/-!
# Graphs of one document

Two graphs that depict one document have the same nodes in the same chains under other
ids.  Blocks correspond when they depict the same part of the document, and markers when
they are the same end of bodies that correspond.  What is shown for one graph holds for
the other, since the correspondence can be read both ways.
-/

namespace Workflow

/-- The scope inside another container. -/
def Scope.map (f : String -> String) (s : Scope) : Scope :=
  { s with parent := s.parent.map f }

namespace Graph

/-- A graph that is laid out, keeps names apart and depicts a document. -/
structure Records (g : Graph) (run : Scope -> List String) (blocks : List Descriptor) : Prop where
  laid : g.shape.Laid run
  distinct : g.Distinct
  depicts : g.DepictsChain (g.blocksIn .root) blocks

/-- The nodes and the chains of a graph under other ids, with the first branch of each
conditional shown. -/
structure IsCopy (g g' : Graph) (f : String -> String) : Prop where
  bijective : Set.BijOn f {id | id ∈ g.nodes.map Node.id} {id | id ∈ g'.nodes.map Node.id}
  nodes : ∀ n ∈ g.nodes, ⟨f n.id, n.parent.map f, n.content.reopened⟩ ∈ g'.nodes
  scopes : ∀ s ∈ g.scopes, s.map f ∈ g'.scopes
  chains : ∀ s ∈ g.scopes, g'.chain (s.map f) = (g.chain s).map f

/-!
# Nodes that correspond
-/

/-- Two nodes that depict the same block of a document. -/
def SameBlock (g g' : Graph) (blocks : List Descriptor) (a b : String) : Prop :=
  ∃ x ∈ Descriptor.listInOrder blocks, g.Depicts a x ∧ g'.Depicts b x

inductive Twin (g g' : Graph) (blocks : List Descriptor) : String -> String -> Prop where
  | block {a b : String} : SameBlock g g' blocks a b -> Twin g g' blocks a b
  | marker {a b : String} {p q : Option String} {r : Role} : r.isBlock = false ->
      Option.Rel (SameBlock g g' blocks) p q -> ⟨a, p, r⟩ ∈ g.shape.slots ->
      ⟨b, q, r⟩ ∈ g'.shape.slots -> Twin g g' blocks a b

variable {g g' : Graph} {run run' : Scope -> List String} {blocks : List Descriptor}

theorem SameBlock.symm {a b : String} (h : SameBlock g g' blocks a b) :
    SameBlock g' g blocks b a := by
  obtain ⟨x, hx, ha, hb⟩ := h
  exact ⟨x, hx, hb, ha⟩

theorem SameBlock.unique (hd : g'.Distinct) {a b c : String} (hb : SameBlock g g' blocks a b)
    (hc : SameBlock g g' blocks a c) : b = c := by
  obtain ⟨x, -, hax, hbx⟩ := hb
  obtain ⟨y, -, hay, hcy⟩ := hc
  rw [Depicts.unique x hax hay] at hbx
  exact eq_of_label_eq hd hbx hcy rfl

theorem SameBlock.slot {a b : String} (h : SameBlock g g' blocks a b) :
    ∃ p q r, ⟨a, p, r⟩ ∈ g.shape.slots ∧ ⟨b, q, r⟩ ∈ g'.shape.slots ∧ r.isBlock := by
  obtain ⟨x, -, ha, hb⟩ := h
  obtain ⟨p, hp⟩ := ha.carries.slot
  obtain ⟨q, hq⟩ := hb.carries.slot
  exact ⟨p, q, x.block.role, hp, hq, x.block.isBlock_role⟩

theorem rel_symm {p q : Option String} (h : Option.Rel (SameBlock g g' blocks) p q) :
    Option.Rel (SameBlock g' g blocks) q p := by
  cases h with
  | some h => exact .some h.symm
  | none => exact .none

theorem rel_unique (hd : g'.Distinct) {p q q' : Option String}
    (h : Option.Rel (SameBlock g g' blocks) p q) (h' : Option.Rel (SameBlock g g' blocks) p q') :
    q = q' := by
  cases h with
  | some h =>
      cases h' with
      | some h' => rw [h.unique hd h']
  | none =>
      cases h' with
      | none => rfl

theorem Twin.symm {a b : String} (h : Twin g g' blocks a b) : Twin g' g blocks b a := by
  cases h with
  | block h => exact .block h.symm
  | marker hr hpq ha hb => exact .marker hr (rel_symm hpq) hb ha

/-!
# One counterpart each
-/

section Records

variable (hg : g.Records run blocks) (hg' : g'.Records run' blocks)
include hg hg'

theorem Twin.unique {a b c : String} (hb : Twin g g' blocks a b) (hc : Twin g g' blocks a c) :
    b = c := by
  have hmixed : ∀ {b p r}, SameBlock g g' blocks a b -> ⟨a, p, r⟩ ∈ g.shape.slots ->
      r.isBlock = false -> False := by
    intro b p r hab ha hr
    obtain ⟨q, -, r', hq, -, hr'⟩ := hab.slot
    exact hg.laid.ne_marker hq hr' ha hr rfl
  cases hb with
  | block hb =>
      cases hc with
      | block hc => exact hb.unique hg'.distinct hc
      | marker hr _ ha _ => exact (hmixed hb ha hr).elim
  | marker hr hpq ha hb =>
      cases hc with
      | block hc => exact (hmixed hc ha hr).elim
      | marker hr' hpq' ha' hc =>
          obtain ⟨-, rfl, rfl⟩ := Slot.mk.inj (hg.laid.slot_unique ha ha' rfl)
          rw [rel_unique hg'.distinct hpq hpq'] at hb
          exact (hg'.laid.existsUnique_marker (hg'.laid.parents _ hc) hr).unique hb hc

theorem SameBlock.total {x : Slot} (hx : x ∈ g.shape.slots) (hblock : x.role.isBlock) :
    ∃ b, SameBlock g g' blocks x.id b := by
  obtain ⟨y, hy, hdepicts⟩ := exists_depicted hg.laid hg.depicts hx hblock
  obtain ⟨b, hb⟩ := exists_depicting hg'.laid hg'.distinct hg'.depicts hy
  exact ⟨b, y, hy, hdepicts, hb⟩

theorem rel_total {p : Option String} (hp : g.shape.HasBody p) :
    ∃ q, Option.Rel (SameBlock g g' blocks) p q ∧ g'.shape.HasBody q := by
  rcases hp with rfl | ⟨x, hx, rfl, hcontainer⟩
  · exact ⟨none, .none, Or.inl rfl⟩
  · obtain ⟨b, hb⟩ := SameBlock.total hg hg' hx (Role.isBlock_of_isContainer hcontainer)
    obtain ⟨p, q, r, hp, hq, -⟩ := hb.slot
    have hslot := hg.laid.slot_unique hx hp rfl
    rw [hslot] at hcontainer
    exact ⟨some b, .some hb, Or.inr ⟨_, hq, rfl, hcontainer⟩⟩

theorem Twin.total {a : String} (ha : a ∈ g.shape.ids) :
    ∃ b ∈ g'.shape.ids, Twin g g' blocks a b := by
  obtain ⟨x, hx, rfl⟩ := List.mem_map.1 ha
  cases hblock : x.role.isBlock with
  | true =>
      obtain ⟨b, hb⟩ := SameBlock.total hg hg' hx hblock
      obtain ⟨p, q, r, -, hq, -⟩ := hb.slot
      exact ⟨b, List.mem_map.2 ⟨_, hq, rfl⟩, .block hb⟩
  | false =>
      obtain ⟨q, hpq, hq⟩ := rel_total hg hg' (hg.laid.parents x hx)
      obtain ⟨b, hb, -⟩ := hg'.laid.existsUnique_marker hq hblock
      exact ⟨b, List.mem_map.2 ⟨_, hb, rfl⟩, .marker hblock hpq hx hb⟩

/-!
# Scopes that correspond
-/

omit hg hg' in
theorem forall₂_sameBlock {ids ids' : List String} {xs : List Descriptor}
    (h : g.DepictsChain ids xs) (h' : g'.DepictsChain ids' xs)
    (hxs : ∀ x ∈ xs, x ∈ Descriptor.listInOrder blocks) :
    List.Forall₂ (SameBlock g g' blocks) ids ids' := by
  rw [depictsChain_iff] at h h'
  induction h generalizing ids' with
  | nil =>
      cases h'
      exact .nil
  | cons hx _ ih =>
      cases h' with
      | cons hx' h' =>
          exact .cons ⟨_, hxs _ List.mem_cons_self, hx, hx'⟩
            (ih h' fun y hy => hxs y (List.mem_cons_of_mem _ hy))

theorem exists_scope {s : Scope} (hs : g.shape.HasScope s) :
    ∃ q, Option.Rel (SameBlock g g' blocks) s.parent q ∧ g'.shape.HasScope { s with parent := q } ∧
      List.Forall₂ (SameBlock g g' blocks) (g.blocksIn s) (g'.blocksIn { s with parent := q }) := by
  rcases hs with rfl | ⟨x, hx, hscope⟩
  · exact ⟨none, .none, Or.inl rfl, forall₂_sameBlock hg.depicts hg'.depicts fun y hy =>
      Descriptor.mem_listInOrder hy⟩
  · have hparent := Role.parent_of_mem_scopes hscope
    obtain ⟨b, y, hy, ha, hb⟩ := SameBlock.total hg hg' hx
      (Role.isBlock_of_isContainer (Role.isContainer_of_mem_scopes hscope))
    obtain ⟨body, hbody, hs⟩ := ha.exists_body hg.laid.toNested (Or.inr ⟨x, hx, hscope⟩) hparent
    have hbody' : ({ s with parent := some b }, body.2) ∈ y.bodies b :=
      hs ▸ Descriptor.mem_bodies_of_mem hbody
    refine ⟨some b, hparent ▸ .some ⟨y, hy, ha, hb⟩, (hb.hasScope hbody').1, ?_⟩
    refine forall₂_sameBlock (hs ▸ (depicts_iff.1 ha).2 body hbody)
      ((depicts_iff.1 hb).2 _ hbody') fun z hz => ?_
    exact Descriptor.listInOrder_subset blocks hy (Descriptor.mem_inOrder_of_body hbody hz)

theorem forall₂_chain {s : Scope} (hs : g.shape.HasScope s) :
    ∃ q, Option.Rel (SameBlock g g' blocks) s.parent q ∧ g'.shape.HasScope { s with parent := q } ∧
      List.Forall₂ (Twin g g' blocks) (g.chain s) (g'.chain { s with parent := q }) := by
  obtain ⟨q, hpq, hs', hblocks⟩ := exists_scope hg hg' hs
  obtain ⟨start, marker, hrun, hstart, hmarker, -⟩ := run_eq_blocksIn hg.laid hs
  obtain ⟨start', marker', hrun', hstart', hmarker', -⟩ := run_eq_blocksIn hg'.laid hs'
  refine ⟨q, hpq, hs', ?_⟩
  rw [chain_eq hg.laid hs, chain_eq hg'.laid hs', hrun, hrun']
  refine .cons (.marker rfl hpq hstart hstart') (List.rel_append ?_ (.cons ?_ .nil))
  · exact hblocks.imp fun _ _ h => .block h
  · exact .marker rfl hpq hmarker hmarker'

/-!
# The copy
-/

theorem exists_map : ∃ f : String -> String,
    ∀ a ∈ g.shape.ids, f a ∈ g'.shape.ids ∧ Twin g g' blocks a (f a) := by
  have htotal : ∀ a, ∃ b, a ∈ g.shape.ids -> b ∈ g'.shape.ids ∧ Twin g g' blocks a b := by
    intro a
    by_cases ha : a ∈ g.shape.ids
    · obtain ⟨b, hb, hab⟩ := Twin.total hg hg' ha
      exact ⟨b, fun _ => ⟨hb, hab⟩⟩
    · exact ⟨a, fun h => absurd h ha⟩
  choose f hf using htotal
  exact ⟨f, hf⟩

variable {f : String -> String}
  (hf : ∀ a ∈ g.shape.ids, f a ∈ g'.shape.ids ∧ Twin g g' blocks a (f a))
include hf

theorem map_eq {a b : String} (ha : a ∈ g.shape.ids) (hab : Twin g g' blocks a b) : f a = b :=
  Twin.unique hg hg' (hf a ha).2 hab

theorem map_block {a b : String} (hab : SameBlock g g' blocks a b) : f a = b := by
  obtain ⟨p, q, r, hp, -, -⟩ := hab.slot
  exact map_eq hg hg' hf (List.mem_map.2 ⟨_, hp, rfl⟩) (.block hab)

theorem map_parent {p q : Option String} (hpq : Option.Rel (SameBlock g g' blocks) p q) :
    p.map f = q := by
  cases hpq with
  | some hpq => rw [Option.map_some, map_block hg hg' hf hpq]
  | none => rfl

theorem map_scope {s : Scope} {q : Option String}
    (hpq : Option.Rel (SameBlock g g' blocks) s.parent q) :
    s.map f = { s with parent := q } := by
  rw [Scope.map, map_parent hg hg' hf hpq]

theorem map_bijOn : Set.BijOn f {id | id ∈ g.shape.ids} {id | id ∈ g'.shape.ids} := by
  refine ⟨fun a ha => (hf a ha).1, fun a ha b hb heq => ?_, fun b hb => ?_⟩
  · have hba := (hf b hb).2.symm
    rw [← heq] at hba
    exact Twin.unique hg' hg (hf a ha).2.symm hba
  · obtain ⟨a, ha, hba⟩ := Twin.total hg' hg hb
    exact ⟨a, ha, map_eq hg hg' hf ha hba.symm⟩

theorem map_chain {ids ids' : List String} (hids : ∀ id ∈ ids, id ∈ g.shape.ids)
    (h : List.Forall₂ (Twin g g' blocks) ids ids') : ids' = ids.map f := by
  induction h with
  | nil => rfl
  | cons hab _ ih =>
      rw [List.map_cons, map_eq hg hg' hf (hids _ List.mem_cons_self) hab,
        ih fun id hid => hids id (List.mem_cons_of_mem _ hid)]

theorem map_block_parent {a b : String} {p q : Option String} {r : Role}
    (hab : SameBlock g g' blocks a b) (ha : ⟨a, p, r⟩ ∈ g.shape.slots) (hr : r.isBlock)
    (hb : ⟨b, q, r⟩ ∈ g'.shape.slots) : q = p.map f := by
  obtain ⟨s, ⟨hs, hmem⟩, -⟩ := hg.laid.placed _ ha hr
  have hin : a ∈ g.blocksIn s := (mem_blocksIn hg.laid hs ha).2 ⟨hmem, hr⟩
  obtain ⟨q', hpq, hs', hblocks⟩ := exists_scope hg hg' hs
  obtain ⟨b', hb', hab'⟩ := exists_of_forall₂ hblocks hin
  rw [hab'.unique hg'.distinct hab] at hb'
  have hmem' := ((mem_blocksIn hg'.laid hs' hb).1 hb').1
  have hp : p = s.parent := hg.laid.parent_of_mem_run hs ha hmem
  have hq : q = q' := hg'.laid.parent_of_mem_run hs' hb hmem'
  rw [hp, hq, map_parent hg hg' hf hpq]

theorem map_node (hopen : ∀ n ∈ g'.nodes, n.content.reopened = n.content) {n : Node}
    (hn : n ∈ g.nodes) : ⟨f n.id, n.parent.map f, n.content.reopened⟩ ∈ g'.nodes := by
  cases hblock : n.slot.role.isBlock with
  | true =>
      obtain ⟨b, hab⟩ := SameBlock.total hg hg' (slot_mem hn) hblock
      obtain ⟨n', hn', rfl, hcontent⟩ : ∃ n' ∈ g'.nodes, n'.id = b ∧
          n'.content = n.content.reopened := by
        obtain ⟨x, -, ha, hb⟩ := hab
        obtain ⟨n', hn', rfl, -⟩ := hb.carries.node
        refine ⟨n', hn', rfl, ?_⟩
        rw [← hopen n' hn', hb.carries.content hg'.laid.distinct hn',
          ha.carries.content hg.laid.distinct hn]
      have hrole : n'.slot = ⟨n'.id, n'.parent, n.slot.role⟩ := by
        rw [Node.slot, hcontent, Content.role_reopened]
        rfl
      have hparent := map_block_parent hg hg' hf hab (slot_mem hn) hblock (hrole ▸ slot_mem hn')
      have hid : f n.id = n'.id := map_block hg hg' hf hab
      rw [hid, ← hparent, ← hcontent]
      exact hn'
  | false =>
      obtain ⟨q, hpq, hq⟩ := rel_total hg hg' (hg.laid.parents _ (slot_mem hn))
      obtain ⟨b, hb, -⟩ := hg'.laid.existsUnique_marker hq hblock
      have hid : f n.id = b := map_eq hg hg' hf (List.mem_map_of_mem (slot_mem hn))
        (.marker hblock hpq (slot_mem hn) hb)
      obtain ⟨n', hn', hslot⟩ := mem_slots.1 hb
      have hcontent : n'.content = n.content.reopened :=
        Content.eq_reopened (congrArg Slot.role hslot) hblock
      have hid' : n'.id = b := congrArg Slot.id hslot
      have hparent : n'.parent = q := congrArg Slot.parent hslot
      rw [hid, ← hid', ← Node.slot_parent, map_parent hg hg' hf hpq, ← hparent, ← hcontent]
      exact hn'

omit hf in
theorem exists_copy (hopen : ∀ n ∈ g'.nodes, n.content.reopened = n.content) :
    ∃ f, IsCopy g g' f := by
  obtain ⟨f, hf⟩ := exists_map hg hg'
  refine ⟨f, ?_, fun n hn => map_node hg hg' hf hopen hn, fun s hs => ?_, fun s hs => ?_⟩
  · rw [← ids_shape, ← ids_shape]
    exact map_bijOn hg hg' hf
  · obtain ⟨q, hpq, hs', -⟩ := exists_scope hg hg' (mem_scopes.1 hs)
    rw [map_scope hg hg' hf hpq]
    exact mem_scopes.2 hs'
  · obtain ⟨q, hpq, -, hchain⟩ := forall₂_chain hg hg' (mem_scopes.1 hs)
    rw [map_scope hg hg' hf hpq]
    refine map_chain hg hg' hf (fun id hid => ?_) hchain
    rw [chain_eq hg.laid (mem_scopes.1 hs)] at hid
    exact hg.laid.mem_ids_of_mem_run (mem_scopes.1 hs) hid

end Records
end Graph
end Workflow
