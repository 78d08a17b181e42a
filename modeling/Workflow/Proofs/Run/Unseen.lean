import Workflow.Proofs.Layout.Unread
import Workflow.Proofs.Run.Hidden
import Workflow.Proofs.Run.Slots

/-!
# Out of sight

What is hidden has no influence on where the other nodes are placed.  The sizes of hidden nodes are
not read.  A block that is inserted out of sight changes the chain of one scope, which nothing that
is drawn shows, so the same ids are drawn after it.
-/

namespace Workflow

/-- An anchor out of sight is on a branch that its conditional does not show, or in a hidden
container at any depth. -/
inductive Anchor.OutOfSight (g : Graph) (hidden : List String) (a : Anchor) : Prop where
  | branch {p branch : String} {c : Conditional} : a.parent = some p -> a.branch = some branch ->
      g.conditional? p = some c -> branch ≠ c.active -> OutOfSight g hidden a
  | nested {p m : String} : a.parent = some p -> Relation.ReflTransGen g.StandsIn p m ->
      m ∈ hidden -> OutOfSight g hidden a

theorem Anchor.OutOfSight.place_ne_root {g : Graph} {hidden : List String} {a : Anchor}
    (h : a.OutOfSight g hidden) : a.place ≠ .root := by
  intro hroot
  have hnone : a.parent = none := congrArg Scope.parent hroot
  cases h with
  | branch hp => cases hnone.symm.trans hp
  | nested hp => cases hnone.symm.trans hp

namespace Graph

variable {g g' : Graph} {run : Scope -> List String}

section Laid

variable (h : g.shape.Laid run) (hshows : g.ShowsDeclared)
include h hshows

/-- What is drawn does not show the scope of an anchor out of sight. -/
theorem shownScope?_ne_place {α : Type} [Length α] (settings : LayoutSettings α)
    (sizes : Table (Size α)) {a : Anchor}
    (hsight : a.OutOfSight g (Layout.ofGraph settings g sizes).hidden) {id : String}
    (hdrawn : g.Drawn (g.chain .root) id) : g.shownScope? id ≠ some a.place := by
  intro hs
  have hparent : a.parent = some id := parent_of_shownScope? hs
  cases hsight with
  | branch hp hbranch hc hne =>
      have hplace : a.place = .ofBranch id _ := congrArg₂ Scope.mk hparent hbranch
      rw [hplace] at hs
      rcases active_of_shownScope? hs with ⟨c', hc', hactive⟩
      cases hp.symm.trans hparent
      cases hc.symm.trans hc'
      exact hne hactive
  | nested hp hin hm =>
      cases hp.symm.trans hparent
      have hcontains := ((Layout.mem_hidden settings g sizes).1 hm).1
      rcases exists_of_contains hcontains with ⟨n, hn, rfl⟩
      rcases ((Layout.showsActive_ofGraph h hshows settings sizes).hidden_iff n hn).1 hm with
        ⟨o, hno, hoff⟩
      exact not_offBranch_of_drawn h hshows hdrawn (hin.trans hno) hoff

theorem Gains.drawnIn {s : Scope} {p n id : String} {b : Block} (hgains : g.Gains g' s p n id b)
    (hids' : g'.shape.ids.Nodup) (hroot : s ≠ .root)
    (hunseen : ∀ i, g.Drawn (g.chain .root) i -> g.shownScope? i ≠ some s) : g.DrawnIn g' := by
  constructor
  case top => exact hgains.others .root (mem_scopes.2 (Shape.hasScope_root _)) hroot.symm
  case blocks =>
    intro i hdrawn
    rcases exists_of_contains (contains_of_drawn h hshows hdrawn) with ⟨m, hm, rfl⟩
    -- By its id a node that was there is still found, since ids are distinct.
    rcases hgains.nodes with ⟨label, markers, -, hnodes, -⟩
    have hm' : m ∈ g'.nodes := by
      rw [hnodes]
      exact List.mem_append_left _ hm
    rw [block?, block?, node?_eq_some h.distinct hm, node?_eq_some hids' hm']
  case chains =>
    intro i t hdrawn ht
    have hscope := hasScope_of_shownScope? h hshows ht
    apply hgains.others t (mem_scopes.2 hscope)
    intro hts
    exact hunseen i hdrawn (hts ▸ ht)

end Laid
end Graph

/-- A layout of a later graph places the nodes that were placed, each as before, and no others. -/
structure Layout.Retains {α : Type} (l' l : Layout α) (g' g : Graph) : Prop where
  boxes : l'.boxes = l.boxes
  size : l'.size = l.size
  hidden_iff : ∀ n ∈ g'.nodes, n.id ∈ l'.hidden <-> n.id ∈ l.hidden ∨ ¬ g.contains n.id

theorem Layout.retains_of_drawnIn {α : Type} [Length α] (settings : LayoutSettings α)
    (sizes : Table (Size α)) {g g' : Graph} (h : g.DrawnIn g')
    (hdrawn : ∀ id, g.Drawn (g.chain .root) id -> g.contains id) :
    (ofGraph settings g' sizes).Retains (ofGraph settings g sizes) g' g := by
  rcases boxes_size_of_drawnIn settings sizes h with ⟨hboxes, hsize⟩
  refine ⟨hboxes, hsize, ?_⟩
  intro n hn
  have hcontains := Graph.contains_of_mem hn
  rw [mem_hidden, mem_hidden, ← Graph.mem_outline, h.outline_eq, Graph.mem_outline]
  constructor
  · intro hhidden
    by_cases hold : g.contains n.id
    · exact Or.inl ⟨hold, hhidden.2⟩
    · exact Or.inr hold
  · intro hhidden
    rcases hhidden with hhidden | hnew
    · exact ⟨hcontains, hhidden.2⟩
    · exact ⟨hcontains, fun hplaced => hnew (hdrawn _ hplaced)⟩

namespace Draft

variable {d : Draft} {α : Type} [Length α]

/-- Sizes that differ for hidden nodes only give one layout.  A block that is inserted out of sight
moves nothing, and it is hidden with all that comes with it. -/
theorem layout_unseen (h : d.Reachable) (hshows : d.graph.ShowsDeclared)
    (settings : LayoutSettings α) (sizes : Table (Size α)) :
    (∀ sizes' : Table (Size α),
      (∀ n ∈ d.graph.nodes, n.id ∉ (Layout.ofGraph settings d.graph sizes).hidden ->
        sizes'.get? n.id = sizes.get? n.id) ->
      Layout.ofGraph settings d.graph sizes' = Layout.ofGraph settings d.graph sizes) ∧
    ∀ stem kind a, (d.apply stem (.addNode kind a)).created ≠ [] ->
      a.OutOfSight d.graph (Layout.ofGraph settings d.graph sizes).hidden ->
      (Layout.ofGraph settings (d.apply stem (.addNode kind a)).draft.graph sizes).Retains
        (Layout.ofGraph settings d.graph sizes) (d.apply stem (.addNode kind a)).draft.graph
        d.graph := by
  rcases h.laid with ⟨run, hlaid⟩
  have hcontains : ∀ id, d.graph.Drawn (d.graph.chain .root) id -> d.graph.contains id :=
    fun _ => Graph.contains_of_drawn hlaid.shape hshows
  constructor
  · intro sizes' hsizes
    apply Layout.ofGraph_congr_sizes settings sizes
    intro id hid
    have hdrawn := (Layout.contains_boxes settings d.graph sizes).1 hid
    rcases Graph.exists_of_contains (hcontains id hdrawn) with ⟨n, hn, rfl⟩
    apply hsizes n hn
    intro hhidden
    exact ((Layout.mem_hidden settings d.graph sizes).1 hhidden).2 hdrawn
  · intro stem kind a hcreated hsight
    have hgap : a.MarksGap d.graph := by
      by_contra hgap
      apply hcreated
      exact congrArg Prod.fst ((insertBlock_iff_marksGap h stem kind a).2.1 hgap)
    rcases hlaid.gains_insertBlock hgap stem kind with ⟨p, n, id, -, -, -, hgains⟩
    rcases hlaid.apply stem (.addNode kind a) with ⟨run', hlaid'⟩
    have hunseen : ∀ i, d.graph.Drawn (d.graph.chain .root) i ->
        d.graph.shownScope? i ≠ some a.place :=
      fun _ => Graph.shownScope?_ne_place hlaid.shape hshows settings sizes hsight
    exact Layout.retains_of_drawnIn settings sizes
      (hgains.drawnIn hlaid.shape hshows hlaid'.shape.distinct hsight.place_ne_root hunseen)
      hcontains

/-- Behind the wait in the loop that is not shown. -/
def behindWait : Anchor := ⟨some "#9", some "#8", some "#6", none⟩

theorem mem_hidden_folded {id : String} (hid : folded.graph.contains id)
    (hout : id ∉ Outline.listIds folded.graph.outline) (sizes : Table (Size Float)) :
    id ∈ (Layout.ofGraph LayoutSettings.standard folded.graph sizes).hidden :=
  (Layout.mem_hidden _ _ _).2 ⟨hid, fun hdrawn => hout (Graph.mem_outline.2 hdrawn)⟩

/-- The size of the hidden wait is not read, and behind it in its hidden loop a conditional can be
inserted that moves nothing. -/
theorem layout_unseen_folded :
    folded.Reachable ∧ folded.graph.ShowsDeclared ∧
      Layout.ofGraph LayoutSettings.standard folded.graph (Table.empty.insert "#9" ⟨9.0, 9.0⟩) =
        Layout.ofGraph LayoutSettings.standard folded.graph .empty ∧
      (folded.apply "pick" (.addNode .conditional behindWait)).created = ["#10"] ∧
      (Layout.ofGraph LayoutSettings.standard
          (folded.apply "pick" (.addNode .conditional behindWait)).draft.graph .empty).Retains
        (Layout.ofGraph LayoutSettings.standard folded.graph .empty)
        (folded.apply "pick" (.addNode .conditional behindWait)).draft.graph folded.graph := by
  have hunseen := layout_unseen reachable_folded showsDeclared_folded LayoutSettings.standard .empty
  have hcreated : (folded.apply "pick" (.addNode .conditional behindWait)).created = ["#10"] := by
    decide +kernel
  refine ⟨reachable_folded, showsDeclared_folded, ?_, hcreated, ?_⟩
  · apply hunseen.1
    intro n _ hshown
    rw [Table.get?_insert, if_neg]
    intro hid
    apply hshown
    rw [hid]
    exact mem_hidden_folded (by decide +kernel) (by decide +kernel) .empty
  · apply hunseen.2
    · rw [hcreated]
      exact List.cons_ne_nil _ _
    · exact .nested rfl .refl (mem_hidden_folded (by decide +kernel) (by decide +kernel) .empty)

end Draft
end Workflow
