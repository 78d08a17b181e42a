import Workflow.Proofs.Layout.Drawn

/-!
# Displayed chains

When no two of the chains that are displayed meet, nothing on them is passed by: the top level is
drawn with its whole chain, and each container with the whole chain that it shows.  The boxes of
such a chain are those that its ids are stacked in.
-/

namespace Workflow
namespace Graph

variable {g : Graph}

/-- The ids on the chains that are displayed each belong to the container that shows them, and those
of the top level to none. -/
structure Owned (g : Graph) (owner : String -> Option String) : Prop where
  top : ∀ i ∈ g.chain .root, owner i = none
  shown : ∀ id s, g.shownScope? id = some s -> ∀ i ∈ g.chain s, owner i = some id

theorem eq_chain_of_sublist {s : Scope} {ids : List String} (hsublist : ids.Sublist (g.chain s))
    (hsubset : g.chain s ⊆ ids) : ids = g.chain s :=
  hsublist.eq_of_length_le (List.subperm_of_subset (nodup_chain g s) hsubset).length_le

theorem drawn_iff_exists_part {id : String} : g.Drawn (g.chain .root) id <->
    ∃ o ∈ Outline.listParts g.outline, o.id = id := by
  rw [← mem_outline, ← Outline.map_id_listParts]
  exact List.mem_map

theorem part_unique {o p : Outline} (ho : o ∈ Outline.listParts g.outline)
    (hp : p ∈ Outline.listParts g.outline) (hid : o.id = p.id) : o = p := by
  have hnodup := g.nodup_outline
  rw [← Outline.map_id_listParts] at hnodup
  exact List.inj_on_of_nodup_map hnodup ho hp hid

theorem follows_outline : ∀ o ∈ Outline.listParts g.outline, g.Follows o := by
  rcases g.enters_outline with ⟨after, houtline⟩
  exact houtline.follows

theorem sublist_outline : (g.outline.map Outline.id).Sublist (g.chain .root) := by
  rcases g.enters_outline with ⟨after, houtline⟩
  exact houtline.sublist

section Owned

variable {owner : String -> Option String} (h : g.Owned owner)
include h

theorem Owned.mem_cases {o : Outline} (ho : o ∈ Outline.listParts g.outline) :
    (owner o.id = none ∧ o ∈ g.outline) ∨
      ∃ i body, owner o.id = some i ∧ .container i body ∈ Outline.listParts g.outline ∧
        o ∈ body := by
  rcases Outline.mem_listParts_cases _ ho with ho | ⟨i, body, hpart, ho⟩
  · exact Or.inl ⟨h.top _ (sublist_outline.subset (List.mem_map_of_mem ho)), ho⟩
  · rcases follows_outline _ hpart with ⟨s, hs, hsublist⟩
    have howner := h.shown i s hs _ (hsublist.subset (List.mem_map_of_mem ho))
    exact Or.inr ⟨i, body, howner, hpart, ho⟩

theorem Owned.map_id_outline : g.outline.map Outline.id = g.chain .root := by
  apply eq_chain_of_sublist sublist_outline
  intro i hi
  rcases drawn_iff_exists_part.1 (.here hi) with ⟨o, ho, rfl⟩
  rcases h.mem_cases ho with ⟨-, ho⟩ | ⟨i, body, howner, -⟩
  · exact List.mem_map_of_mem ho
  · cases howner.symm.trans (h.top _ hi)

theorem Owned.map_id_body {id : String} {body : List Outline} {s : Scope}
    (hpart : .container id body ∈ Outline.listParts g.outline)
    (hs : g.shownScope? id = some s) : body.map Outline.id = g.chain s := by
  rcases follows_outline _ hpart with ⟨s', hs', hsublist⟩
  cases hs'.symm.trans hs
  apply eq_chain_of_sublist hsublist
  intro i hi
  have hdrawn : g.Drawn (g.chain .root) id := drawn_iff_exists_part.2 ⟨_, hpart, rfl⟩
  rcases drawn_iff_exists_part.1 (.inside hdrawn hs hi) with ⟨o, ho, rfl⟩
  have howner := h.shown id s hs o.id hi
  -- Drawn anywhere else, the id would belong to another container.
  rcases h.mem_cases ho with ⟨hnone, -⟩ | ⟨i, body', howner', hpart', ho⟩
  · cases hnone.symm.trans howner
  · cases howner.symm.trans howner'
    cases part_unique hpart hpart' rfl
    exact List.mem_map_of_mem ho

end Owned
end Graph

/-!
# The boxes of a chain
-/

namespace Layout

section Parts

variable {α : Type} [Length α] (s : LayoutSettings α) (measured : String -> Size α)

theorem mem_sizesOf {os : List Outline} {o : Outline} (ho : o ∈ os) :
    (o.id, sizeOf s measured o) ∈ sizesOf s measured os := by
  induction os with
  | nil => cases ho
  | cons first rest ih =>
      rcases List.mem_cons.1 ho with rfl | ho
      · exact List.mem_cons_self
      · exact List.mem_cons_of_mem _ (ih ho)

/-- The boxes of what stands right inside a container. -/
def boxesIn (id : String) (body : List Outline) : List (String × Box α) :=
  stackInside s (sizeOf s measured (.container id body)) (sizesOf s measured body)

mutual

theorem boxesIn_subset {id : String} {body : List Outline} : ∀ o : Outline,
    .container id body ∈ o.parts -> boxesIn s measured id body ⊆ boxesInside s measured o
  | .node i, h => by cases List.mem_singleton.1 h
  | .container i os, h => by
      rw [boxesInside]
      rcases List.mem_cons.1 h with heq | h
      · cases heq
        exact List.subset_append_left _ _
      · exact List.Subset.trans (boxesIn_subset_all os h) (List.subset_append_right _ _)

theorem boxesIn_subset_all {id : String} {body : List Outline} : ∀ os : List Outline,
    .container id body ∈ Outline.listParts os ->
      boxesIn s measured id body ⊆ boxesInsideAll s measured os
  | [], h => by cases h
  | o :: rest, h => by
      rw [boxesInsideAll]
      rcases List.mem_append.1 h with h | h
      · exact List.Subset.trans (boxesIn_subset o h) (List.subset_append_left _ _)
      · exact List.Subset.trans (boxesIn_subset_all rest h) (List.subset_append_right _ _)

end

theorem exists_box_of_sizes {boxes : List (String × Box α)} {os : List Outline} {o : Outline}
    (hsizes : boxes.map (fun e => (e.1, e.2.size)) = sizesOf s measured os) (ho : o ∈ os) :
    ∃ b, (o.id, b) ∈ boxes ∧ b.size = sizeOf s measured o := by
  have hmem := mem_sizesOf s measured ho
  rw [← hsizes] at hmem
  rcases List.mem_map.1 hmem with ⟨⟨id, b⟩, hb, heq⟩
  rcases Prod.mk.inj heq with ⟨rfl, hsize⟩
  exact ⟨b, hb, hsize⟩

theorem exists_box {os : List Outline} {o : Outline} (ho : o ∈ Outline.listParts os) :
    ∃ b, (o.id, b) ∈ boxesOf s measured os ∧ b.size = sizeOf s measured o := by
  rcases Outline.mem_listParts_cases _ ho with ho | ⟨i, body, hpart, ho⟩
  · rcases exists_box_of_sizes s measured (map_size_stackAll s _) ho with ⟨b, hb, hsize⟩
    exact ⟨b, List.mem_append_left _ hb, hsize⟩
  · rcases exists_box_of_sizes s measured (map_size_stackInside s _ _) ho with ⟨b, hb, hsize⟩
    exact ⟨b, List.mem_append_right _ (boxesIn_subset_all s measured os hpart hb), hsize⟩

end Parts

section Graph

variable {α : Type} [Length α] (s : LayoutSettings α) {g : Graph} (sizes : Table (Size α))
  {owner : String -> Option String}

theorem get?_boxes {e : String × Box α}
    (he : e ∈ boxesOf s (measuredSize s g sizes) g.outline) :
    (ofGraph s g sizes).boxes.get? e.1 = some e.2 :=
  Table.get?_ofList ((keys_boxesOf s _ _).nodup_iff.2 g.nodup_outline) he

theorem map_get?_boxes {boxes : List (String × Box α)}
    (h : boxes ⊆ boxesOf s (measuredSize s g sizes) g.outline) :
    (boxes.map Prod.fst).map (ofGraph s g sizes).boxes.get? = (boxes.map Prod.snd).map some := by
  rw [List.map_map, List.map_map]
  exact List.map_congr_left fun e he => get?_boxes s sizes (h he)

theorem map_get?_root (h : g.Owned owner) :
    (g.chain .root).map (ofGraph s g sizes).boxes.get? =
      ((stackAll s (sizesOf s (measuredSize s g sizes) g.outline)).map Prod.snd).map some := by
  rw [← map_get?_boxes s sizes (List.subset_append_left _ _), ← h.map_id_outline,
    keys_of_map_size (map_size_stackAll s _), keys_sizesOf]

/-- A container that is placed is large enough for some members, and in it the chain that it shows
is stacked with their sizes. -/
theorem exists_body (h : g.Owned owner) {id : String} {scope : Scope} {b : Box α}
    (hs : g.shownScope? id = some scope) (hb : (ofGraph s g sizes).boxes.get? id = some b) :
    ∃ body, b.size = sizeOf s (measuredSize s g sizes) (.container id body) ∧
      (g.chain scope).map (ofGraph s g sizes).boxes.get? =
        ((boxesIn s (measuredSize s g sizes) id body).map Prod.snd).map some := by
  have hdrawn : g.Drawn (g.chain .root) id := by
    rw [← contains_boxes s g sizes, Table.contains_iff, Table.mem_keys, hb]
    exact Option.some_ne_none b
  rcases Graph.drawn_iff_exists_part.1 hdrawn with ⟨o, ho, rfl⟩
  rcases exists_box s (measuredSize s g sizes) ho with ⟨b', hb', hsize⟩
  cases hb.symm.trans (get?_boxes s sizes hb')
  cases o with
  | node id => cases (Graph.follows_outline _ ho).symm.trans hs
  | container id body =>
      have hsubset := boxesIn_subset_all s (measuredSize s g sizes) g.outline ho
      have hget := map_get?_boxes s sizes (List.subset_append_of_subset_right _ hsubset)
      rw [boxesIn, keys_of_map_size (map_size_stackInside s _ _), keys_sizesOf,
        h.map_id_body ho hs] at hget
      exact ⟨body, hsize, hget⟩

end Graph
end Layout
end Workflow
