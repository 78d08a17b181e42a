import Workflow.Proofs.Tidy.Removal

/-!
# Branches and attributes keep graphs tidy

A branch that is declared anew has one edge, which no other repeats.  With a branch that goes all
its edges go, and the branches left are listed as often as they were.  Which branch is shown makes
a difference to edges with a tag only.
-/

namespace Workflow
namespace Graph

variable {g : Graph} {run : Scope -> List String} {id branch : String}

/-!
# Edges that stay
-/

theorem edges_relabel (g : Graph) (id label : String) : (g.relabel id label).edges = g.edges := by
  unfold relabel
  dsimp only
  split
  · rfl
  · split
    · rfl
    · exact edges_repoint _ _ _

theorem edges_updateBlock (g : Graph) (id : String) (b : Block) :
    (g.updateBlock id b).edges = g.edges := by
  unfold updateBlock
  split
  · rfl
  · exact edges_pruneDangling _

theorem exists_of_mem_showBranch {e' : Edge} (he' : e' ∈ (g.showBranch id branch).edges) :
    ∃ e ∈ g.edges, e'.Alike e := by
  unfold showBranch at he'
  split at he'
  · obtain ⟨e, he, rfl⟩ := List.mem_map.1 he'
    refine ⟨e, he, ?_⟩
    cases ht : e.tag with
    | none => exact .refl _
    | some t =>
        dsimp only
        have hneed : e.tag ≠ none := ht ▸ Option.some_ne_none t
        split <;> exact ⟨by simp [Edge.link, ht], rfl, fun hnone => absurd hnone hneed⟩
  · exact ⟨e', he', .refl _⟩

theorem exists_of_mem_undeclareBranch {e' : Edge}
    (he' : e' ∈ (g.undeclareBranch id branch).edges) :
    ∃ e ∈ g.edges, e'.Alike e := by
  unfold undeclareBranch at he'
  split at he'
  · exact ⟨e', he', .refl _⟩
  · dsimp only at he'
    split at he'
    · split at he'
      · exact ⟨e', he', .refl _⟩
      · -- what is left of the branches does not matter for the edges
        obtain ⟨e, he, hsame⟩ := exists_of_mem_showBranch he'
        exact ⟨e, he, hsame⟩
    · exact ⟨e', he', .refl _⟩

theorem Tidy.showBranch (ht : g.Tidy) (id branch : String) : (g.showBranch id branch).Tidy :=
  ht.of_shape (shape_showBranch g id branch) fun _ => exists_of_mem_showBranch

theorem Tidy.dropBranch (ht : g.Tidy) (hids : g.shape.ids.Nodup) (id branch : String) :
    ((g.removeBranchEdges id branch).undeclareBranch id branch).Tidy := by
  have hremoved : (g.removeBranchEdges id branch).Tidy := by
    refine ht.transfer (List.filter_sublist.map _)
      (fun e he => ⟨e, List.mem_of_mem_filter he, .refl _⟩)
      (fun e _ x hx _ => ⟨x, hx, rfl, rfl⟩) fun l _ hd => hd
  cases hc : g.conditional? id with
  | none =>
      have hnone : (g.removeBranchEdges id branch).conditional? id = none := hc
      rw [undeclareBranch, hnone]
      exact hremoved
  | some c =>
      obtain ⟨p, hslot⟩ := slot_of_block? (conditional?_eq_some.1 hc)
      have hshape : ((g.removeBranchEdges id branch).undeclareBranch id branch).shape = _ :=
        shape_dropBranch hids hc
      refine ht.withRole hids hslot rfl (r := .conditional (c.branchIds.filter (· ≠ branch))) rfl
        ?_ ?_ (fun e' he' => ?_) fun l hl branches b hrole htag hduplicate => ?_
      · rw [hshape]
        rfl
      · rw [hshape]
        exact List.filter_sublist
      · obtain ⟨e, he, hsame⟩ := exists_of_mem_undeclareBranch he'
        exact ⟨e, List.mem_of_mem_filter he, hsame⟩
      · cases hrole
        rw [hshape] at hl
        have hne : b ≠ branch := by
          rintro rfl
          exact of_decide_eq_true (List.mem_filter.1 hl).2 htag
        have hpair := (List.duplicate_iff_sublist.1 hduplicate).filter fun b => decide (b ≠ branch)
        refine ⟨_, rfl, List.duplicate_iff_sublist.2 ?_⟩
        simpa [hne] using hpair

end Graph

/-- Whether a command sets the kind of the edges it creates. -/
def Command.forcesKind : Command -> Bool
  | .importRecorded _ point => point.edgeKind.isSome
  | _ => false

namespace Draft

variable {d : Draft} {run : Scope -> List String}

/-!
# Declaring a branch
-/

theorem tidy_addBranch (h : d.Laid run) (ht : d.graph.Tidy) (id : String) (b : Branch) :
    (d.addBranch id b).graph.Tidy := by
  cases hc : d.graph.conditional? id with
  | none => simpa [addBranch, hc] using ht
  | some c =>
      cases hb : c.hasBranch b.id with
      | true => simpa [addBranch, hc, hb] using ht
      | false =>
          obtain ⟨start, marker, -, -, hadd⟩ := exists_addBranch_eq h hc b hb
          obtain ⟨p, hslot⟩ := Graph.slot_of_block? (Graph.conditional?_eq_some.1 hc)
          have hshape := Graph.shape_modifyConditional_withRole
            (f := fun c => { c with branches := c.branches ++ [b] }) h.shape.distinct hc
          have hlonger : (d.graph.modifyConditional id fun c =>
              { c with branches := c.branches ++ [b] }).Tidy := by
            refine ht.withRole h.shape.distinct hslot rfl (Block.isBlock_role (.conditional _))
              (congrArg Shape.slots hshape) ?_ (fun e he => ⟨e, he, .refl _⟩)
              fun l _ branches b' hrole _ hduplicate => ?_
            · rw [hshape]
            · cases hrole
              refine ⟨_, rfl, hduplicate.mono_sublist ?_⟩
              simp [Conditional.branchIds]
          rw [hadd]
          refine tidy_addEdge hlonger (fun _ => rfl) ?_
          -- an edge of the branch would make it one that was declared
          have hlinks := congrArg Shape.links hshape
          intro hl
          have hold : ⟨start, marker, some ⟨id, b.id⟩⟩ ∈ d.graph.shape.links := hlinks ▸ hl
          obtain ⟨s, hs, htag, -⟩ := h.shape.slots_of_link hold
          rw [Scope.eq_ofBranch_of_tag htag.symm] at hs
          obtain ⟨c', hc', hhas⟩ := (Graph.hasScope_ofBranch h.shape.distinct).1 hs
          cases hc.symm.trans hc'
          rw [hb] at hhas
          cases hhas

/-!
# Taking a branch back
-/

theorem tidy_removeBlocks (ids : List String) : ∀ {d : Draft} {run}, d.Laid run -> d.graph.Tidy ->
    (ids.foldl removeBlock d).graph.Tidy ∧ ∃ run', (ids.foldl removeBlock d).Laid run' := by
  induction ids with
  | nil => exact fun {d run} h ht => ⟨ht, run, h⟩
  | cons id ids ih =>
      intro d run h ht
      obtain ⟨run', hlaid⟩ := h.removeBlock id
      exact ih hlaid (tidy_removeBlock h ht id)

theorem tidy_removeBranch (h : d.Laid run) (ht : d.graph.Tidy) (id branch : String) :
    (d.removeBranch id branch).graph.Tidy := by
  unfold removeBranch
  split
  · obtain ⟨hremoved, run', hlaid⟩ := tidy_removeBlocks
      ((d.graph.chain (.ofBranch id branch)).filter fun id => (d.graph.block? id).isSome) h ht
    exact hremoved.dropBranch hlaid.shape.distinct id branch
  · exact ht

/-!
# Every command
-/

/-- A command keeps a graph tidy unless it sets the kind of its edges. -/
theorem tidy_apply (h : d.Laid run) (ht : d.graph.Tidy) (stem : String) {c : Command}
    (hkind : c.forcesKind = false) : (d.apply stem c).draft.graph.Tidy := by
  cases c with
  | addNode kind a => exact tidy_insertBlock h ht stem kind a
  | deleteNode id => exact tidy_removeBlock h ht id
  | retypeNode id kind => exact tidy_retypeBlock h ht stem id kind
  | importRecorded blocks point =>
      have hnone : point.edgeKind = none :=
        Option.not_isSome_iff_eq_none.1 (Bool.eq_false_iff.1 hkind)
      exact tidy_insertRecorded h ht stem blocks hnone
  | setActiveBranch id branch => exact ht.showBranch id branch
  | addBranch id b => exact tidy_addBranch h ht id b
  | removeBranch id branch => exact tidy_removeBranch h ht id branch
  | updateBlock id b =>
      exact ht.of_edges (Graph.shape_updateBlock _ id b) (Graph.edges_updateBlock _ id b)
  | relabel id label =>
      exact ht.of_edges (Graph.shape_relabel _ id label) (Graph.edges_relabel _ id label)
  | setContinueOnFailure id value => exact ht.of_edges (Graph.shape_mapHeading _ id _) rfl
  | setModel id model => exact ht.of_edges (Graph.shape_mapHeading _ id _) rfl

end Draft
end Workflow
