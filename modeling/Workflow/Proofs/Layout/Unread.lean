import Workflow.Proofs.Layout.Drawn

/-!
# What a layout does not read

Of a graph a layout reads the chain of the top level and, of every id that is drawn, the block with
the chain that it shows.  Of the sizes it reads those of the ids that are drawn.  The rest may be
anything.
-/

namespace Workflow
namespace Graph

variable {g g' : Graph}

/-- What is drawn of a graph is in another one as it is. -/
structure DrawnIn (g g' : Graph) : Prop where
  top : g'.chain .root = g.chain .root
  blocks : ∀ id, g.Drawn (g.chain .root) id -> g'.block? id = g.block? id
  chains : ∀ id s, g.Drawn (g.chain .root) id -> g.shownScope? id = some s ->
    g'.chain s = g.chain s

theorem shownScope?_congr {id : String} (h : g'.block? id = g.block? id) :
    g'.shownScope? id = g.shownScope? id := by
  rw [shownScope?, shownScope?, h]

theorem Enters.congr {chain entered after : List String} {os : List Outline}
    (h : g.Enters chain entered os after)
    (hblocks : ∀ id ∈ Outline.listIds os, g'.block? id = g.block? id)
    (hchains : ∀ id ∈ Outline.listIds os, ∀ s, g.shownScope? id = some s ->
      g'.chain s = g.chain s) : g'.Enters chain entered os after := by
  induction h with
  | done entered => exact .done entered
  | again hid _ ih => exact .again hid (ih hblocks hchains)
  | node hnew hs _ ih =>
      have hsame := shownScope?_congr (hblocks _ List.mem_cons_self)
      apply Enters.node hnew (hsame.trans hs)
      exact ih (fun i hi => hblocks i (List.mem_cons_of_mem _ hi))
        (fun i hi => hchains i (List.mem_cons_of_mem _ hi))
  | container hnew hs _ _ ihbody ihrest =>
      have hsame := shownScope?_congr (hblocks _ List.mem_cons_self)
      apply Enters.container hnew (hsame.trans hs)
      · rw [hchains _ List.mem_cons_self _ hs]
        exact ihbody
          (fun i hi => hblocks i (List.mem_cons_of_mem _ (List.mem_append_left _ hi)))
          (fun i hi => hchains i (List.mem_cons_of_mem _ (List.mem_append_left _ hi)))
      · exact ihrest
          (fun i hi => hblocks i (List.mem_cons_of_mem _ (List.mem_append_right _ hi)))
          (fun i hi => hchains i (List.mem_cons_of_mem _ (List.mem_append_right _ hi)))

theorem DrawnIn.outline_eq (h : g.DrawnIn g') : g'.outline = g.outline := by
  rcases g.enters_outline with ⟨after, houtline⟩
  have hsame : g'.Enters (g'.chain .root) [] g.outline after := by
    rw [h.top]
    exact houtline.congr (fun id hid => h.blocks id (mem_outline.1 hid))
      (fun id hid s => h.chains id s (mem_outline.1 hid))
  exact hsame.eq_outline.symm

end Graph

/-!
# Sizes that are not read
-/

namespace Layout

section Measured

variable {α : Type} [Length α] (s : LayoutSettings α) {measured measured' : String -> Size α}

mutual

theorem sizeOf_congr : ∀ o : Outline, (∀ id ∈ o.ids, measured' id = measured id) ->
    sizeOf s measured' o = sizeOf s measured o
  | .node id, h => h id (List.mem_singleton.2 rfl)
  | .container id body, h => by
      rw [sizeOf, sizeOf, h id List.mem_cons_self,
        sizesOf_congr body fun i hi => h i (List.mem_cons_of_mem _ hi)]

theorem sizesOf_congr : ∀ os : List Outline,
    (∀ id ∈ Outline.listIds os, measured' id = measured id) ->
      sizesOf s measured' os = sizesOf s measured os
  | [], _ => rfl
  | o :: rest, h => by
      rw [sizesOf, sizesOf, sizeOf_congr o fun i hi => h i (List.mem_append_left _ hi),
        sizesOf_congr rest fun i hi => h i (List.mem_append_right _ hi)]

end

mutual

theorem boxesInside_congr : ∀ o : Outline, (∀ id ∈ o.ids, measured' id = measured id) ->
    boxesInside s measured' o = boxesInside s measured o
  | .node _, _ => rfl
  | .container id body, h => by
      have hbody : ∀ i ∈ Outline.listIds body, measured' i = measured i :=
        fun i hi => h i (List.mem_cons_of_mem _ hi)
      rw [boxesInside, boxesInside, h id List.mem_cons_self, sizesOf_congr s body hbody,
        boxesInsideAll_congr body hbody]

theorem boxesInsideAll_congr : ∀ os : List Outline,
    (∀ id ∈ Outline.listIds os, measured' id = measured id) ->
      boxesInsideAll s measured' os = boxesInsideAll s measured os
  | [], _ => rfl
  | o :: rest, h => by
      rw [boxesInsideAll, boxesInsideAll,
        boxesInside_congr o fun i hi => h i (List.mem_append_left _ hi),
        boxesInsideAll_congr rest fun i hi => h i (List.mem_append_right _ hi)]

end

end Measured

section Graph

variable {α : Type} [Length α] (s : LayoutSettings α) (sizes : Table (Size α))
  {sizes' : Table (Size α)} {g g' : Graph}

theorem boxes_size_congr (houtline : g'.outline = g.outline)
    (hmeasured : ∀ id ∈ Outline.listIds g.outline,
      measuredSize s g' sizes' id = measuredSize s g sizes id) :
    (ofGraph s g' sizes').boxes = (ofGraph s g sizes).boxes ∧
      (ofGraph s g' sizes').size = (ofGraph s g sizes).size := by
  have hsizes := sizesOf_congr s g.outline hmeasured
  have hinside := boxesInsideAll_congr s g.outline hmeasured
  rw [← houtline] at hsizes hinside
  constructor
  · change Table.ofList (boxesOf s _ _) = Table.ofList (boxesOf s _ _)
    rw [boxesOf, boxesOf, hsizes, hinside, houtline]
  · change extentOf s (sizesOf s _ _) = extentOf s (sizesOf s _ _)
    rw [hsizes, houtline]

/-- The sizes of ids without a box are not read. -/
theorem ofGraph_congr_sizes (h : ∀ id, (ofGraph s g sizes).boxes.contains id ->
      sizes'.get? id = sizes.get? id) : ofGraph s g sizes' = ofGraph s g sizes := by
  have hmeasured : ∀ id ∈ Outline.listIds g.outline,
      measuredSize s g sizes' id = measuredSize s g sizes id := by
    intro id hid
    rw [measuredSize, h id ((contains_boxes_iff_mem_outline s g sizes).2 hid), ← measuredSize]
  rcases boxes_size_congr s sizes rfl hmeasured with ⟨hboxes, hsize⟩
  have hhidden : (ofGraph s g sizes').hidden = (ofGraph s g sizes).hidden :=
    congrArg (fun boxes : Table (Box α) => (Table.ofList
      (((g.nodes.map Node.id).filter fun id => !boxes.contains id).map fun id => (id, ()))).keys)
      hboxes
  calc ofGraph s g sizes'
      = ⟨(ofGraph s g sizes').boxes, (ofGraph s g sizes').hidden, (ofGraph s g sizes').size⟩ := rfl
    _ = ofGraph s g sizes := by rw [hboxes, hhidden, hsize]

theorem boxes_size_of_drawnIn (h : g.DrawnIn g') :
    (ofGraph s g' sizes).boxes = (ofGraph s g sizes).boxes ∧
      (ofGraph s g' sizes).size = (ofGraph s g sizes).size := by
  apply boxes_size_congr s sizes h.outline_eq
  intro id hid
  rw [measuredSize, h.blocks id (Graph.mem_outline.1 hid), ← measuredSize]

end Graph
end Layout
end Workflow
