import Workflow.Proofs.Likeness.Problems
import Workflow.Proofs.Shown.Branching

/-!
# Saving what is not shown

Showing another branch of a conditional changes the node of the conditional and hides or uncovers
edges; the graph stays like it was, and again all conditionals are shown.  What is written down
is therefore the same, however often and in whatever order branches are switched.
-/

namespace Workflow

theorem forall₂_modifyLast {α : Type} {R : α -> α -> Prop} {f : α -> α} (hrefl : ∀ a, R a a)
    (hf : ∀ a, R a (f a)) (p : α -> Bool) (l : List α) :
    List.Forall₂ R l (modifyLast p f l) := by
  have hsame : ∀ l : List α, List.Forall₂ R l l :=
    fun l => List.forall₂_same.2 fun a _ => hrefl a
  rcases modifyLast_eq p l with ⟨-, hmodify⟩ | ⟨u, a, v, rfl, -, -, hmodify⟩
  · rw [hmodify]
    exact hsame l
  · rw [hmodify]
    exact List.rel_append (hsame u) (.cons (hf a) (hsame v))

namespace Graph

variable {g : Graph} {id branch : String}

/-!
# Showing a branch
-/

theorem like_modifyConditional {f : Conditional -> Conditional}
    (hf : ∀ c, (f c).branches = c.branches) (g : Graph) (id : String) :
    List.Forall₂ (Node.Like Eq) g.nodes (g.modifyConditional id f).nodes := by
  apply forall₂_modifyLast Node.Like.refl
  intro n
  obtain ⟨nid, parent, content⟩ := n
  cases content with
  | start => exact .refl _
  | insertionMarker => exact .refl _
  | block h b =>
      cases b with
      | leaf l => exact .refl _
      | loop a => exact .refl _
      | conditional c =>
          refine ⟨rfl, optionRel_eq_refl _, ?_⟩
          simp only [Node.mapBlock, Content.reopened, Block.reopened, Conditional.branchIds, hf]

theorem like_hideOthers (g : Graph) (id branch : String) :
    List.Forall₂ (Edge.Like Eq) g.edges (g.hideOthers id branch).edges := by
  refine List.forall₂_map_right_iff.2 (List.forall₂_same.2 fun e _ => ?_)
  have hrefl := Edge.Like.refl e
  cases htag : e.tag with
  | none => exact hrefl
  | some t =>
      dsimp only
      split
      · exact ⟨rfl, rfl, htag ▸ hrefl.tag⟩
      · exact hrefl

theorem like_showBranch (g : Graph) (id branch : String) : g.Like Eq (g.showBranch id branch) := by
  unfold showBranch
  split
  · have hnodes := like_modifyConditional (f := fun c => { c with active := branch })
      (fun _ => rfl) g id
    exact ⟨hnodes, like_hideOthers _ id branch⟩
  · exact ⟨List.forall₂_same.2 fun n _ => .refl n, List.forall₂_same.2 fun e _ => .refl e⟩

theorem ShowsAll.showBranch (h : g.ShowsAll) (id branch : String) :
    (g.showBranch id branch).ShowsAll := by
  by_cases hdeclared : ∃ c, g.conditional? id = some c ∧ c.hasBranch branch
  · obtain ⟨c, hc, hb⟩ := hdeclared
    intro i c' hc'
    by_cases hid : i = id
    · subst hid
      rw [conditional?_showBranch hc hb] at hc'
      cases hc'
      exact ⟨hb, shows_showBranch hc hb⟩
    · rw [conditional?_showBranch_of_ne hid] at hc'
      obtain ⟨hshown, hshows⟩ := h i c' hc'
      refine ⟨hshown, hshows.inherit fun e he t ht hti => ?_⟩
      exact (inheritsBut_showBranch g id branch).tags e he t ht (hti ▸ hid)
  · rw [Graph.showBranch, if_neg]
    · exact h
    · rwa [Option.any_eq_true]

/-!
# Switching branches
-/

/-- Shows branches one after another; each switch names a conditional and a branch. -/
def showBranches (g : Graph) (switches : List (String × String)) : Graph :=
  switches.foldl (fun g s => g.showBranch s.1 s.2) g

/-- What is written down of a graph does not depend on the branches that are shown. -/
theorem toDefinition?_showBranches {f : FrontMatter} {d : Definition}
    (h : g.toDefinition? f = .ok d) (switches : List (String × String)) :
    (g.showBranches switches).toDefinition? f = .ok d := by
  induction switches generalizing g with
  | nil => exact h
  | cons s switches ih =>
      apply ih
      have hshown := showsAll_of_problems (toDefinition?_eq_ok.1 h).1
      exact toDefinition?_of_like biUnique_eq (like_showBranch g s.1 s.2)
        (hshown.showBranch s.1 s.2) h

/-- Both branches of the conditional of `orders` in turn, and one that it does not have. -/
def switches : List (String × String) :=
  [("#6", "small"), ("#6", "other"), ("#6", "large"), ("#6", "small")]

theorem toDefinition?_showBranches_orders :
    let g := (Draft.ofBlocks {} Definition.orders.blocks).graph
    ((g.showBranches switches).conditional? "#6").map Conditional.active = some "small" ∧
      ∃ d, g.toDefinition? Definition.orders.frontMatter = .ok d ∧
        (g.showBranches switches).toDefinition? Definition.orders.frontMatter = .ok d := by
  have hexport := (toDefinition?_eq_ok (f := Definition.orders.frontMatter)).2
    ⟨Definition.problems_orders, rfl⟩
  exact ⟨by decide +kernel, _, hexport, toDefinition?_showBranches hexport switches⟩

end Graph
end Workflow
