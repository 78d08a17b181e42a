import Workflow.Edit.Command
import Workflow.Proofs.Shape.Chain
import Workflow.Proofs.Shape.Role

/-!
# Edits of attributes keep the shape

Renaming, clearing references and changing attributes touch neither the nesting nor the
edges of a graph, and a block keeps its role in them.  Neither does the choice of the
branch that is shown.
-/

namespace Workflow

/-!
# Roles of changed blocks
-/

namespace Block

theorem role_retainLabels (keep : String -> Bool) (b : Block) :
    (b.retainLabels keep).1.role = b.role := by
  cases b with
  | leaf l => rfl
  | loop a =>
      simp only [retainLabels]
      split
      · split <;> rfl
      · rfl
  | conditional c =>
      simp only [retainLabels, role, Conditional.branchIds, List.map_map]
      congr 1
      refine List.map_congr_left fun b _ => ?_
      simp only [Function.comp_apply]
      split <;> rfl

theorem role_renameLabel (old new : String) (b : Block) :
    (b.renameLabel old new).1.role = b.role := by
  cases b with
  | leaf l => rfl
  | loop a =>
      simp only [renameLabel]
      split <;> rfl
  | conditional c =>
      simp only [renameLabel, role, Conditional.branchIds, List.map_map]
      congr 1
      refine List.map_congr_left fun b _ => ?_
      simp only [Function.comp_apply]
      split <;> rfl

theorem role_eq_leaf {b : Block} (hloop : b.kind ≠ .loop) (hcond : b.kind ≠ .conditional) :
    b.role = .leaf := by
  cases b with
  | leaf l => rfl
  | loop a => exact absurd rfl hloop
  | conditional c => exact absurd rfl hcond

theorem role_of_kind_eq_leaf {b : Block} {l : Leaf} (h : b.kind = l.kind) :
    b.role = .leaf := by
  refine role_eq_leaf (fun hloop => ?_) fun hcond => ?_
  · rw [h] at hloop
    cases l <;> cases hloop
  · rw [h] at hcond
    cases l <;> cases hcond

theorem role_replacement? {old new b : Block} (h : old.replacement? new = some b) :
    b.role = old.role := by
  cases old with
  | leaf l =>
      simp only [replacement?] at h
      split at h
      · next hkind =>
          cases h
          exact role_of_kind_eq_leaf hkind.symm
      · cases h
  | loop a =>
      cases new with
      | leaf l =>
          simp only [replacement?] at h
          split at h
          · next hkind => exact absurd (role_of_kind_eq_leaf hkind) (by simp [role])
          · cases h
      | loop a' =>
          simp only [replacement?, kind, if_true] at h
          cases h
          rfl
      | conditional c => simp [replacement?, kind] at h
  | conditional c =>
      cases new with
      | leaf l =>
          simp only [replacement?] at h
          split at h
          · next hkind => exact absurd (role_of_kind_eq_leaf hkind) (by simp [role])
          · cases h
      | loop a => simp [replacement?, kind] at h
      | conditional c' =>
          simp only [replacement?] at h
          split at h
          · next hids =>
              cases h
              exact congrArg Role.conditional hids.symm
          · cases h

end Block

namespace Node

theorem slot_mapBlock {f : Block -> Block} {n : Node}
    (hf : ∀ b, n.block? = some b -> (f b).role = b.role) : (n.mapBlock f).slot = n.slot := by
  obtain ⟨id, parent, content⟩ := n
  cases content with
  | start => rfl
  | insertionMarker => rfl
  | block h b => exact congrArg (Slot.mk id parent) (hf b rfl)

@[simp] theorem id_mapBlock (f : Block -> Block) (n : Node) : (n.mapBlock f).id = n.id := by
  obtain ⟨id, parent, content⟩ := n
  cases content <;> rfl

theorem slot_mapHeading (f : Heading -> Heading) (n : Node) : (n.mapHeading f).slot = n.slot := by
  obtain ⟨id, parent, content⟩ := n
  cases content <;> rfl

end Node

/-!
# Changing one node
-/

/-- Of the elements that satisfy `p`, the last is the one that is changed. -/
theorem modifyLast_eq (p : α -> Bool) (l : List α) :
    (l.reverse.find? p = none ∧ ∀ f, modifyLast p f l = l) ∨
      ∃ u a v, l = u ++ a :: v ∧ l.reverse.find? p = some a ∧ v.any p = false ∧
        ∀ f, modifyLast p f l = u ++ f a :: v := by
  induction l with
  | nil => exact Or.inl ⟨rfl, fun _ => rfl⟩
  | cons b rest ih =>
      rcases ih with ⟨hnone, hsame⟩ | ⟨u, a, v, rfl, hfound, hlast, hmodify⟩
      · have hany : rest.any p = false := by
          rw [List.any_eq_false]
          intro x hx
          exact List.find?_eq_none.1 hnone x (List.mem_reverse.2 hx)
        cases hb : p b with
        | false => exact Or.inl ⟨by simp [hnone, hb], fun f => by simp [modifyLast, hany, hb]⟩
        | true =>
            exact Or.inr ⟨[], b, rest, rfl, by simp [hnone, hb], hany,
              fun f => by simp [modifyLast, hany, hb]⟩
      · have hany : (u ++ a :: v).any p := by
          have ha := List.find?_some hfound
          simp [ha]
        refine Or.inr ⟨b :: u, a, v, rfl, ?_, hlast, fun f => ?_⟩
        · rw [List.reverse_cons, List.find?_append, hfound]
          rfl
        · rw [modifyLast, if_pos hany, hmodify]
          rfl

theorem find?_reverse_of_any_eq_false {p : α -> Bool} {l : List α} (h : l.any p = false) :
    l.reverse.find? p = none := by
  rw [List.find?_eq_none]
  exact fun a ha => List.any_eq_false.1 h a (List.mem_reverse.1 ha)

theorem find?_reverse_modifyLast {p : α -> Bool} {f : α -> α} (hf : ∀ a, p (f a) = p a)
    (l : List α) : (modifyLast p f l).reverse.find? p = (l.reverse.find? p).map f := by
  rcases modifyLast_eq p l with ⟨hnone, hsame⟩ | ⟨u, a, v, -, hfound, hlast, hmodify⟩
  · rw [hsame, hnone]
    rfl
  · have hfa : p (f a) = true := (hf a).trans (List.find?_some hfound)
    rw [hmodify, hfound, List.reverse_append, List.reverse_cons, List.append_assoc,
      List.find?_append, find?_reverse_of_any_eq_false hlast]
    simp [hfa]

theorem find?_reverse_modifyLast_of_not {p q : α -> Bool} {f : α -> α} (hf : ∀ a, q (f a) = q a)
    (hpq : ∀ a, p a -> q a = false) (l : List α) :
    (modifyLast p f l).reverse.find? q = l.reverse.find? q := by
  rcases modifyLast_eq p l with ⟨-, hsame⟩ | ⟨u, a, v, rfl, hfound, -, hmodify⟩
  · rw [hsame]
  · have ha := hpq a (List.find?_some hfound)
    simp [hmodify, List.find?_append, ha, hf]

namespace Graph

variable {g : Graph} {id : String}

theorem modifyNode_eq_of_none (h : g.node? id = none) (f : Node -> Node) :
    g.modifyNode id f = g := by
  rcases modifyLast_eq (fun n : Node => n.id == id) g.nodes with
    ⟨-, hsame⟩ | ⟨u, n, v, -, hfound, -, -⟩
  · rw [modifyNode, hsame]
  · rw [node?, hfound] at h
    cases h

theorem modifyNode_eq_of_some {n : Node} (h : g.node? id = some n) :
    ∃ u v, g.nodes = u ++ n :: v ∧ ∀ f, g.modifyNode id f = ⟨u ++ f n :: v, g.edges⟩ := by
  rcases modifyLast_eq (fun n : Node => n.id == id) g.nodes with
    ⟨hnone, -⟩ | ⟨u, m, v, hnodes, hfound, -, hmodify⟩
  · rw [node?, hnone] at h
    cases h
  · rw [node?, hfound] at h
    cases h
    exact ⟨u, v, hnodes, fun f => by rw [modifyNode, hmodify]⟩

theorem node?_modifyNode {f : Node -> Node} (hf : ∀ n, (f n).id = n.id) :
    (g.modifyNode id f).node? id = (g.node? id).map f :=
  find?_reverse_modifyLast (fun n => by rw [hf]) g.nodes

theorem node?_modifyNode_of_ne {f : Node -> Node} (hf : ∀ n, (f n).id = n.id) {i : String}
    (hne : i ≠ id) : (g.modifyNode id f).node? i = g.node? i := by
  refine find?_reverse_modifyLast_of_not (fun n => by rw [hf]) (fun n hn => ?_) g.nodes
  rw [beq_eq_false_iff_ne, eq_of_beq hn]
  exact hne.symm

theorem ids_setContent (g : Graph) (id : String) (c : Content) :
    (g.modifyNode id fun n => { n with content := c }).shape.ids = g.shape.ids := by
  cases h : g.node? id with
  | none => rw [modifyNode_eq_of_none h]
  | some n =>
      obtain ⟨u, v, hnodes, hmodify⟩ := modifyNode_eq_of_some h
      rw [hmodify, ids_shape, ids_shape, hnodes]
      simp

theorem shape_modifyNode {f : Node -> Node}
    (hf : ∀ n, g.node? id = some n -> (f n).slot = n.slot) :
    (g.modifyNode id f).shape = g.shape := by
  cases h : g.node? id with
  | none => rw [modifyNode_eq_of_none h]
  | some n =>
      obtain ⟨u, v, hnodes, hmodify⟩ := modifyNode_eq_of_some h
      rw [hmodify, shape, shape, hnodes]
      simp [hf n h]

theorem shape_modifyNode_withRole {f : Node -> Node} {r : Role} (hids : g.shape.ids.Nodup)
    (hf : ∀ n, g.node? id = some n -> (f n).slot = ⟨n.id, n.parent, r⟩) :
    (g.modifyNode id f).shape = ⟨Shape.withRole id r g.shape.slots, g.shape.links⟩ := by
  cases hn : g.node? id with
  | none =>
      have hid : id ∉ g.shape.ids := by
        intro hmem
        obtain ⟨x, hx, hxid⟩ := List.mem_map.1 hmem
        obtain ⟨n, hn', rfl⟩ := mem_slots.1 hx
        have hfound := node?_eq_some hids hn'
        rw [show n.id = id from hxid, hn] at hfound
        cases hfound
      rw [modifyNode_eq_of_none hn, Shape.withRole_of_not_mem r hid]
  | some n =>
      obtain ⟨u, v, hnodes, hmodify⟩ := modifyNode_eq_of_some hn
      have hid : n.slot.id = id := (mem_of_node? hn).2
      have hslots : g.shape.slots = u.map Node.slot ++ n.slot :: v.map Node.slot := by
        simp [shape, hnodes]
      rw [Shape.ids, hslots, List.map_append, List.map_cons, hid] at hids
      obtain ⟨-, hright, hdisjoint⟩ := List.nodup_append.1 hids
      have hu : id ∉ (u.map Node.slot).map Slot.id := fun hmem =>
        hdisjoint id hmem id List.mem_cons_self rfl
      have hv : id ∉ (v.map Node.slot).map Slot.id := (List.nodup_cons.1 hright).1
      have hchanged : n.slot.withRole id r = (f n).slot := by
        rw [Slot.withRole, if_pos hid, hf n hn]
        rfl
      rw [hmodify, hslots, Shape.withRole, List.map_append, List.map_cons, ← Shape.withRole,
        ← Shape.withRole, Shape.withRole_of_not_mem r hu, Shape.withRole_of_not_mem r hv,
        hchanged]
      simp [shape]

theorem shape_removeNodes (g : Graph) (ids : List String) : (g.removeNodes ids).shape =
    ⟨g.shape.slots.filter fun x => x.id ∉ ids,
      g.shape.links.filter fun l => l.source ∉ ids ∧ l.target ∉ ids⟩ := by
  simp only [shape, removeNodes, List.filter_map]
  congr 2
  · refine List.filter_congr fun n _ => Bool.eq_iff_iff.2 ?_
    simp only [Function.comp_apply, List.contains_eq_mem, Bool.not_eq_true',
      decide_eq_false_iff_not]
    exact decide_eq_true_iff.symm
  · refine List.filter_congr fun e _ => Bool.eq_iff_iff.2 ?_
    simp only [Function.comp_apply, List.contains_eq_mem, Bool.not_eq_true', Bool.and_eq_true,
      decide_eq_false_iff_not]
    exact decide_eq_true_iff.symm

/-!
# Edits that keep the shape
-/

theorem shape_modifyBlocks {f : Block -> Block} (hf : ∀ b, (f b).role = b.role)
    (ids : List String) : ∀ g : Graph, (g.modifyBlocks ids f).shape = g.shape := by
  induction ids with
  | nil => exact fun g => rfl
  | cons id ids ih =>
      intro g
      exact (ih _).trans (shape_modifyNode fun n _ => Node.slot_mapBlock fun b _ => hf b)

theorem edges_modifyBlocks (f : Block -> Block) (ids : List String) :
    ∀ g : Graph, (g.modifyBlocks ids f).edges = g.edges := by
  induction ids with
  | nil => exact fun _ => rfl
  | cons id ids ih => exact fun g => ih (g.modifyNode id (Node.mapBlock f))

theorem edges_pruneDangling (g : Graph) : g.pruneDangling.edges = g.edges :=
  edges_modifyBlocks _ _ g

theorem edges_pruneAll (labels : List String) :
    ∀ g : Graph, (g.pruneAll labels).edges = g.edges := by
  induction labels with
  | nil => exact fun _ => rfl
  | cons label labels ih => exact fun g => (ih (g.prune label)).trans (edges_modifyBlocks _ _ g)

theorem edges_repoint (g : Graph) (old new : String) : (g.repoint old new).edges = g.edges :=
  edges_modifyBlocks _ _ g

theorem shape_prune (g : Graph) (label : String) : (g.prune label).shape = g.shape :=
  shape_modifyBlocks (Block.role_retainLabels _) _ g

theorem shape_pruneDangling (g : Graph) : g.pruneDangling.shape = g.shape :=
  shape_modifyBlocks (Block.role_retainLabels _) _ g

theorem shape_pruneAll (labels : List String) :
    ∀ g : Graph, (g.pruneAll labels).shape = g.shape := by
  induction labels with
  | nil => exact fun g => rfl
  | cons label labels ih =>
      intro g
      exact (ih (g.prune label)).trans (g.shape_prune label)

theorem shape_repoint (g : Graph) (old new : String) : (g.repoint old new).shape = g.shape :=
  shape_modifyBlocks (Block.role_renameLabel old new) _ g

theorem shape_mapHeading (g : Graph) (id : String) (f : Heading -> Heading) :
    (g.modifyNode id (Node.mapHeading f)).shape = g.shape :=
  shape_modifyNode fun n _ => n.slot_mapHeading f

theorem shape_relabel (g : Graph) (id label : String) : (g.relabel id label).shape = g.shape := by
  simp only [relabel]
  split
  · rfl
  · split
    · rfl
    · rw [shape_repoint, shape_mapHeading]

theorem shape_updateBlock (g : Graph) (id : String) (b : Block) :
    (g.updateBlock id b).shape = g.shape := by
  unfold updateBlock
  split
  · rfl
  · next b' hb =>
      obtain ⟨old, hold, hreplacement⟩ := Option.bind_eq_some_iff.1 hb
      rw [shape_pruneDangling]
      refine shape_modifyNode fun n hn => Node.slot_mapBlock fun b hblock => ?_
      rw [block?, hn, Option.bind_some, hblock] at hold
      cases hold
      exact Block.role_replacement? hreplacement

/-!
# Branches that are shown
-/

theorem shape_modifyConditional {f : Conditional -> Conditional}
    (hf : ∀ c, g.conditional? id = some c -> (f c).branchIds = c.branchIds) :
    (g.modifyConditional id f).shape = g.shape := by
  refine shape_modifyNode fun n hn => Node.slot_mapBlock fun b hb => ?_
  cases b with
  | leaf l => rfl
  | loop a => rfl
  | conditional c =>
      refine congrArg Role.conditional (hf c (conditional?_eq_some.2 ?_))
      rw [block?, hn, Option.bind_some, hb]

theorem shape_modifyConditional_withRole {f : Conditional -> Conditional} {c : Conditional}
    (hids : g.shape.ids.Nodup) (hc : g.conditional? id = some c) :
    (g.modifyConditional id f).shape =
      ⟨Shape.withRole id (.conditional (f c).branchIds) g.shape.slots, g.shape.links⟩ := by
  refine shape_modifyNode_withRole hids fun n hn => ?_
  rw [conditional?_eq_some, block?, hn, Option.bind_some] at hc
  obtain ⟨nid, parent, content⟩ := n
  cases content with
  | start => cases hc
  | insertionMarker => cases hc
  | block heading b =>
      cases hc
      rfl

theorem shape_hideOthers (g : Graph) (conditional branch : String) :
    (g.hideOthers conditional branch).shape = g.shape := by
  simp only [hideOthers, shape, List.map_map, Shape.mk.injEq, true_and]
  refine List.map_congr_left fun e _ => ?_
  rw [Function.comp_apply]
  split
  · rfl
  · split <;> rfl

theorem shape_showBranch (g : Graph) (conditional branch : String) :
    (g.showBranch conditional branch).shape = g.shape := by
  unfold showBranch
  split
  · rw [shape_hideOthers]
    exact shape_modifyConditional fun _ _ => rfl
  · rfl

end Graph
end Workflow
