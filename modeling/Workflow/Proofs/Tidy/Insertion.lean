import Workflow.Proofs.Edit.Placed
import Workflow.Proofs.Tidy.Basic

/-!
# Inserting keeps graphs tidy

A body that is created has one edge for each scope in it, from a start marker that no edge was
joined to.  A block that is put behind another is joined to it by the first edge into the block,
and the last of a row by the edge that was missing.
-/

namespace Workflow

/-!
# Bodies
-/

theorem pairwise_duplicate (l : List α) :
    l.Pairwise fun a b => a = b -> List.Duplicate a l := by
  rw [List.pairwise_iff_forall_sublist]
  rintro a b hab rfl
  exact List.duplicate_iff_sublist.2 hab

theorem pairwise_bodyLinks {slots : List Slot} {x : Slot} (hx : x ∈ slots)
    (start marker : String) :
    ((x.role.scopes x.id).map fun t => (⟨start, marker, t.tag⟩ : Link)).Pairwise
      fun l m => l = m -> Doubled slots l.tag := by
  cases hrole : x.role with
  | conditional branches =>
      rw [Role.scopes, List.map_map, List.pairwise_map]
      refine (pairwise_duplicate branches).imp fun {b c} hduplicate heq => ?_
      have hbc : b = c := by
        simpa using heq
      exact ⟨x, hx, branches, b, hrole, rfl, hduplicate hbc⟩
  | loop => exact List.pairwise_singleton _ _
  | start => exact List.Pairwise.nil
  | insertionMarker => exact List.Pairwise.nil
  | leaf => exact List.Pairwise.nil

theorem Graph.Tidy.furnish {g g' : Graph} (h : g.Tidy) {x : Slot} {start marker : String}
    {body : List Edge} (hslots : g.shape.slots ⊆ g'.shape.slots) (hx : x ∈ g'.shape.slots)
    (hmarker : ⟨marker, some x.id, .insertionMarker⟩ ∈ g'.shape.slots)
    (hedges : g'.edges = g.edges ++ body)
    (hlinks : body.map Edge.link = (x.role.scopes x.id).map fun t => ⟨start, marker, t.tag⟩)
    (hkinds : ∀ e ∈ body, e.IsInner)
    (hstart : ∀ l ∈ g.shape.links, l.source ≠ start) : g'.Tidy := by
  have hends : ∀ e ∈ body, e.source = start ∧ e.target = marker := fun e he =>
    Draft.ends_of_bodyLinks hlinks he
  refine h.extend hslots hedges (fun e he => ?_) ?_ fun e he hold => ?_
  · obtain ⟨hkind, hseen⟩ := hkinds e he
    cases ht : e.tag with
    | some t =>
        rw [Edge.ruled_of_tag ht, hkind, ht]
        rfl
    | none =>
        rw [Edge.ruled_of_untagged ht, hkind, ht]
        exact ⟨hseen ht, _, hmarker, (hends e he).2.symm, rfl⟩
  · rw [hlinks]
    exact pairwise_bodyLinks hx start marker
  · exact hstart _ hold (hends e he).1

namespace Draft

variable {d : Draft} {run : Scope -> List String}

theorem tidy_addBody (h : d.graph.Tidy) {x : Slot} {b : Block} (hx : x ∈ d.graph.shape.slots)
    (hrole : x.role = b.role) (hstart : ∀ l ∈ d.graph.shape.links, l.source ≠ d.supply.upcoming 1) :
    (d.addBody x.id b).graph.Tidy := by
  have hshape := (shape_addBody d x.id b).1
  obtain ⟨body, hedges, hlinks, hkinds⟩ := exists_edges_addBody d x.id b
  rw [← hrole] at hlinks
  refine h.furnish (x := x) ?_ ?_ ?_ hedges hlinks hkinds hstart
  · rw [hshape]
    exact List.subset_append_left _ _
  · rw [hshape]
    exact List.mem_append_left _ hx
  · rw [hshape]
    simp

theorem tidy_addBlock (h : d.graph.Tidy) (hissued : ∀ id ∈ d.graph.shape.ids, d.supply.Issued id)
    (hsource : ∀ l ∈ d.graph.shape.links, l.source ∈ d.graph.shape.ids) (p : Option String)
    (heading : Heading) (b : Block) : (d.addBlock p heading b).2.graph.Tidy := by
  have hnode := tidy_addNode h p (.block heading b)
  have hshape := shape_addNode d p (.block heading b)
  unfold addBlock
  dsimp only
  split
  · refine tidy_addBody (x := ⟨d.supply.upcoming 1, p, b.role⟩) hnode ?_ rfl fun l hl heq => ?_
    · rw [hshape]
      exact List.mem_append_right _ (List.mem_singleton.2 rfl)
    · rw [hshape] at hl
      exact not_mem_upcoming hissued (Nat.succ_pos 1) (heq ▸ hsource l hl)
  · exact hnode

/-!
# Rows of blocks
-/

theorem tidy_openAt (h : d.graph.Tidy) (a : Anchor) : (d.openAt a).graph.Tidy := by
  unfold openAt
  split
  · exact h.transfer (List.filter_sublist.map _)
      (fun e he => ⟨e, List.mem_of_mem_filter he, .refl _⟩)
      (fun e _ x hx _ => ⟨x, hx, rfl, rfl⟩) fun l _ hd => hd
  · exact h

section Row

variable {s : Scope} {u v : List String} {p n : String} {a : Anchor} {hidden : Bool}

theorem tidy_closeAt (h : d.LaidBut run [⟨p, n, s.tag⟩]) (ht : d.graph.Tidy)
    (hp : a.previous = some p) (hn : a.next = some n) (htag : a.tag = s.tag)
    (hhidden : s.tag = none -> hidden = false) : (d.closeAt a hidden).graph.Tidy := by
  simp only [closeAt, hp, hn, htag]
  have htarget := (h.mem_ids (Or.inl (List.mem_singleton.2 rfl))).2
  exact tidy_addEdge ht (fun id => Graph.ruled_kindInto h.shape.distinct htarget hhidden id p)
    (h.absent _ (List.mem_singleton.2 rfl))

theorem tidy_putAfter (h : d.LaidBut run [⟨p, n, s.tag⟩]) (ht : d.graph.Tidy)
    (hs : d.graph.shape.HasScope s) (hrun : run s = u ++ p :: n :: v)
    (hp : a.previous = some p) (hparent : a.parent = s.parent) (htag : a.tag = s.tag)
    (hhidden : s.tag = none -> hidden = false) (heading : Heading) (b : Block) :
    (d.putAfter a none hidden heading b).2.graph.Tidy := by
  have hblock := tidy_addBlock ht h.issued (fun l hl => (h.mem_ids (Or.inr hl)).1) s.parent
    heading b
  have hshape := (shape_addBlock d s.parent heading b).1
  have hids := (h.putAfter hp hparent htag none hidden heading b hs hrun).shape.distinct
  rw [shape_putAfter hp hparent htag] at hids
  have hfresh : d.supply.upcoming 1 ∉ d.graph.shape.ids := not_mem_upcoming h.issued Nat.one_pos
  have hfresh' : d.supply.upcoming 2 ∉ d.graph.shape.ids :=
    not_mem_upcoming h.issued Nat.two_pos
  have hpmem : p ∈ d.graph.shape.ids := (h.mem_ids (Or.inl (List.mem_singleton.2 rfl))).1
  simp only [putAfter, hp, hparent, htag, Option.getD_none]
  refine tidy_addEdge hblock (fun id => Graph.ruled_kindInto ?_ ?_ hhidden id p) ?_
  · rw [hshape]
    exact hids
  · rw [hshape]
    exact List.mem_map.2 ⟨_, List.mem_append_right _ List.mem_cons_self, rfl⟩
  · -- what was there does not lead to the block, and what is in its body does not begin before it
    rw [hshape]
    intro hl
    rcases List.mem_append.1 hl with hold | hbody
    · exact hfresh (h.mem_ids (Or.inr hold)).2
    · obtain ⟨t, -, heq⟩ := List.mem_map.1 hbody
      have hsource : d.supply.upcoming 2 = p := congrArg Link.source heq
      exact hfresh' (hsource ▸ hpmem)

theorem tidy_putRow (hhidden : s.tag = none -> hidden = false) (row : List (Heading × Block)) :
    ∀ {d : Draft} {run : Scope -> List String} {u : List String} {p : String} {a : Anchor},
      d.LaidBut run [⟨p, n, s.tag⟩] -> d.graph.Tidy -> d.graph.shape.HasScope s ->
      run s = u ++ p :: n :: v -> a.previous = some p -> a.next = some n ->
      a.parent = s.parent -> a.tag = s.tag -> (putRow none hidden d a row).2.graph.Tidy := by
  induction row with
  | nil =>
      intro d run u p a h ht _ _ hp hn _ htag
      exact tidy_closeAt h ht hp hn htag hhidden
  | cons entry row ih =>
      intro d run u p a h ht hs hrun hp hn hparent htag
      obtain ⟨heading, b⟩ := entry
      refine ih (u := u ++ [p]) (h.putAfter hp hparent htag none hidden heading b hs hrun)
        (tidy_putAfter h ht hs hrun hp hparent htag hhidden heading b)
        (hasScope_putAfter hp hparent htag none hidden heading b hs) ?_ ?_ hn hparent htag
      · rw [insertRun_of_hasScope h.issued hs, Function.update_self]
        simp
      · exact congrArg some (putAfter_fst d a none hidden heading b)

end Row

theorem tidy_splice (h : d.Laid run) (ht : d.graph.Tidy) {a : Anchor} (hvalid : a.isValid d.graph)
    (row : List (Heading × Block)) : (d.splice a none row).2.graph.Tidy := by
  obtain ⟨hs, p, n, hp, hn, u, v, hrun⟩ := (Anchor.isValid_iff h.shape).1 hvalid
  have hscope : (d.openAt a).graph.shape.HasScope a.place := by
    simp only [openAt, hp, hn]
    exact hs
  refine tidy_putRow (fun htag => ?_) row (h.openAt hs ⟨u, v, hrun⟩ hp hn a.tag_eq)
    (tidy_openAt ht a) hscope hrun hp hn rfl a.tag_eq
  rw [a.tag_eq, htag]
  rfl

/-!
# The insertions
-/

theorem tidy_insertBlock (h : d.Laid run) (ht : d.graph.Tidy) (stem : String) (kind : Kind)
    (a : Anchor) : (d.insertBlock stem kind a).2.graph.Tidy := by
  unfold insertBlock
  split
  · next hvalid => exact tidy_splice h ht hvalid _
  · exact ht

theorem tidy_insertRecorded (h : d.Laid run) (ht : d.graph.Tidy) (stem : String)
    (blocks : List RecordedBlock) {point : InsertionPoint} (hkind : point.edgeKind = none) :
    (d.insertRecorded stem blocks point).2.graph.Tidy := by
  unfold insertRecorded
  split
  · exact ht
  · next hcond =>
      simp only [Bool.or_eq_true, Bool.not_eq_true', not_or, Bool.not_eq_false] at hcond
      rw [hkind]
      exact (tidy_splice h ht hcond.2 _).of_edges (Graph.shape_pruneDangling _)
        (Graph.edges_pruneDangling _)

end Draft
end Workflow
