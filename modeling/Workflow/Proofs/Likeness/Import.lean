import Workflow.Proofs.Conversion.Import
import Workflow.Proofs.Likeness.Problems

/-!
# Imports of one definition

Two imports of the same blocks go through the same steps.  Each step gives out the next ids of its
own supply, so the graphs are alike by the relation between ids that were given out in the same
step.  Beyond that the nodes have the same contents and the same edges are hidden, so one graph
shows all its conditionals when the other does.
-/

namespace Workflow

/-- Drafts of graphs that are alike and hide the same edges, and whose next ids correspond. -/
structure Draft.Matches (R : String -> String -> Prop) (d d' : Draft) : Prop where
  nodes : List.Forall₂ (fun n n' => n.Like R n' ∧ n.content = n'.content)
    d.graph.nodes d'.graph.nodes
  edges : List.Forall₂ (fun e e' => e.Like R e' ∧ e.hidden = e'.hidden)
    d.graph.edges d'.graph.edges
  upcoming : ∀ k, R (d.supply.upcoming (k + 1)) (d'.supply.upcoming (k + 1))

namespace Draft

variable {R : String -> String -> Prop} {d d' : Draft}

/-!
# Steps
-/

theorem upcoming_addNode (d : Draft) (p : Option String) (c : Content) (k : Nat) :
    (d.addNode p c).2.supply.upcoming k = d.supply.upcoming (k + 1) := by
  simp only [addNode, Supply.upcoming, Nat.add_assoc, Nat.add_comm 1 k]

theorem Matches.addNode (h : d.Matches R d') {p p' : Option String} (hp : Option.Rel R p p')
    (c : Content) : (d.addNode p c).2.Matches R (d'.addNode p' c).2 where
  nodes := List.rel_append h.nodes (.cons ⟨⟨h.upcoming 0, hp, rfl⟩, rfl⟩ .nil)
  edges := h.edges
  upcoming := by
    intro k
    rw [upcoming_addNode, upcoming_addNode]
    exact h.upcoming (k + 1)

theorem Matches.addEdge (h : d.Matches R d') {source source' target target' : String}
    {tag tag' : Option BranchTag} (hsource : R source source') (htarget : R target target')
    (htag : Option.Rel (BranchTag.Like R) tag tag') (kind kind' : EdgeKind) (hidden : Bool) :
    (d.addEdge source target kind tag hidden).Matches R
      (d'.addEdge source' target' kind' tag' hidden) where
  nodes := h.nodes
  edges := List.rel_append h.edges (.cons ⟨⟨hsource, htarget, htag⟩, rfl⟩ .nil)
  upcoming := h.upcoming

theorem Matches.addContainer (h : d.Matches R d') {p p' : Option String} (hp : Option.Rel R p p')
    (heading : Heading) (b : Block) :
    (d.addContainer p heading b).Matches R (d'.addContainer p' heading b) :=
  have hid := h.upcoming 0
  ((h.addNode hp _).addNode (.some hid) _).addNode (.some hid) _

mutual

theorem Matches.addDescriptor : ∀ (x : Descriptor) {d d' : Draft} {p p' : Option String},
    d.Matches R d' -> Option.Rel R p p' ->
      R (d.addDescriptor p x).1 (d'.addDescriptor p' x).1 ∧
        (d.addDescriptor p x).2.Matches R (d'.addDescriptor p' x).2
  | .leaf _ _, _, _, _, _, h, hp => ⟨h.upcoming 0, h.addNode hp _⟩
  | .loop heading a children, _, _, _, _, h, hp =>
      ⟨h.upcoming 0, Matches.addChain children (h.addContainer hp heading (.loop a))
        (.some (h.upcoming 0)) .none false (h.upcoming 2) (h.upcoming 1)⟩
  | .conditional heading branches, _, _, _, _, h, hp =>
      ⟨h.upcoming 0, Matches.addBranches branches (h.addContainer hp heading _)
        (h.upcoming 0) (h.upcoming 1) (h.upcoming 2) false⟩

theorem Matches.addChain : ∀ (blocks : List Descriptor) {d d' : Draft} {p p' : Option String}
    {tag tag' : Option BranchTag}, d.Matches R d' -> Option.Rel R p p' ->
      Option.Rel (BranchTag.Like R) tag tag' -> ∀ (hidden : Bool)
      {marker marker' previous previous' : String}, R marker marker' -> R previous previous' ->
      (d.addChain p tag hidden marker previous blocks).Matches R
        (d'.addChain p' tag' hidden marker' previous' blocks)
  | [], _, _, _, _, _, _, h, _, htag, hidden, _, _, _, _, hmarker, hprevious =>
      h.addEdge hprevious hmarker htag _ _ hidden
  | x :: rest, _, _, _, _, _, _, h, hp, htag, hidden, _, _, _, _, hmarker, hprevious =>
      have hx := Matches.addDescriptor x h hp
      Matches.addChain rest (hx.2.addEdge hprevious hx.1 htag _ _ hidden) hp htag hidden hmarker
        hx.1

theorem Matches.addBranches : ∀ (branches : List (Branch × List Descriptor)) {d d' : Draft}
    {container container' start start' marker marker' : String}, d.Matches R d' ->
      R container container' -> R start start' -> R marker marker' -> ∀ hidden : Bool,
      (d.addBranches container start marker hidden branches).Matches R
        (d'.addBranches container' start' marker' hidden branches)
  | [], _, _, _, _, _, _, _, _, h, _, _, _, _ => h
  | (b, children) :: rest, _, _, container, container', _, _, _, _, h, hcontainer, hstart, hmarker,
      hidden =>
      have htag : Option.Rel (BranchTag.Like R) (some ⟨container, b.id⟩)
          (some ⟨container', b.id⟩) := .some ⟨hcontainer, rfl⟩
      Matches.addBranches rest (Matches.addChain children h (.some hcontainer) htag hidden hmarker
        hstart) hcontainer hstart hmarker true

end

/-!
# Whole imports
-/

end Draft
end Workflow
