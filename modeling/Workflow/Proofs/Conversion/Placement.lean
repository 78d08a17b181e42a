import Workflow.Proofs.Conversion.Depiction

/-!
# Places in documents

A document is read as the list of its blocks, each with the container and the branch that it
stands on.  For the document that is written down along the chains of a graph, any graph, this
is the list of the nodes that are met on the way.
-/

namespace Workflow

/-- A block of a document with the label of its container and the id of its branch. -/
structure Placement where
  container : Option String
  branch : Option String
  heading : Heading
  block : Block

namespace Descriptor

mutual

def placements (container branch : Option String) : Descriptor -> List Placement
  | .leaf h l => [⟨container, branch, h, .leaf l⟩]
  | .loop h a children =>
      ⟨container, branch, h, .loop a⟩ :: listPlacements (some h.label) none children
  | .conditional h branches =>
      ⟨container, branch, h, (Descriptor.conditional h branches).block⟩ ::
        branchPlacements h.label branches

def listPlacements (container branch : Option String) : List Descriptor -> List Placement
  | [] => []
  | x :: rest => placements container branch x ++ listPlacements container branch rest

def branchPlacements (container : String) : List (Branch × List Descriptor) -> List Placement
  | [] => []
  | (b, children) :: rest =>
      listPlacements (some container) (some b.id) children ++ branchPlacements container rest

end

mutual

theorem labels_placements : ∀ (x : Descriptor) (container branch : Option String),
    (x.placements container branch).map (fun p => p.heading.label) =
      x.inOrder.map Descriptor.label
  | .leaf h l, _, _ => rfl
  | .loop h a children, _, _ => by
      rw [placements, inOrder, List.map_cons, List.map_cons, labels_listPlacements children]
      rfl
  | .conditional h branches, _, _ => by
      rw [placements, inOrder, List.map_cons, List.map_cons, labels_branchPlacements branches]
      rfl

theorem labels_listPlacements : ∀ (xs : List Descriptor) (container branch : Option String),
    (listPlacements container branch xs).map (fun p => p.heading.label) =
      (listInOrder xs).map Descriptor.label
  | [], _, _ => rfl
  | x :: xs, container, branch => by
      rw [listPlacements, listInOrder, List.map_append, List.map_append, labels_placements x,
        labels_listPlacements xs]

theorem labels_branchPlacements : ∀ (branches : List (Branch × List Descriptor))
    (container : String), (branchPlacements container branches).map (fun p => p.heading.label) =
      (branchesInOrder branches).map Descriptor.label
  | [], _ => rfl
  | (b, children) :: rest, container => by
      rw [branchPlacements, branchesInOrder, List.map_append, List.map_append,
        labels_listPlacements children, labels_branchPlacements rest]

end

theorem listPlacements_eq (container branch : Option String) (xs : List Descriptor) :
    listPlacements container branch xs = xs.flatMap (placements container branch) := by
  induction xs with
  | nil => rfl
  | cons x xs ih => rw [listPlacements, List.flatMap_cons, ih]

theorem branchPlacements_eq (container : String) (branches : List (Branch × List Descriptor)) :
    branchPlacements container branches =
      branches.flatMap fun b => listPlacements (some container) (some b.1.id) b.2 := by
  induction branches with
  | nil => rfl
  | cons b branches ih =>
      obtain ⟨b, children⟩ := b
      rw [branchPlacements, List.flatMap_cons, ih]

end Descriptor

namespace Definition

/-- The blocks of a definition at all levels, each with its place. -/
def placements (d : Definition) : List Placement :=
  Descriptor.listPlacements none none d.blocks

/-- The places at which blocks of a label stand. -/
def placesOf (d : Definition) (label : String) : List Placement :=
  d.placements.filter fun p => p.heading.label == label

theorem labels_eq_placements (d : Definition) :
    d.labels = d.placements.map fun p => p.heading.label :=
  (Descriptor.labels_listPlacements d.blocks none none).symm

end Definition

/-!
# What is met along chains
-/

namespace Graph

variable {g : Graph}

/-- The blocks on the chain of a scope and, so many levels deep, those inside them, each with the
scope on whose chain it is met. -/
def met (g : Graph) : Nat -> Scope -> List (Scope × String)
  | 0, _ => []
  | levels + 1, s =>
      (g.chain s).flatMap fun id =>
        match g.block? id with
        | none => []
        | some b => (s, id) :: (bodyScopes id b).flatMap (met g levels)

def labelOf? (g : Graph) (id : String) : Option String :=
  (g.node? id).bind Node.label?

/-- A block that is met in a scope, as it is placed in the document. -/
def placement? (g : Graph) (m : Scope × String) : Option Placement :=
  (g.node? m.2).bind fun n =>
    match n.content with
    | .block h b => some ⟨m.1.parent.bind g.labelOf?, m.1.branch, h, b.reopened⟩
    | _ => none

theorem labelOf?_eq {id : String} {n : Node} {h : Heading} {b : Block} (hn : g.node? id = some n)
    (hc : n.content = .block h b) : g.labelOf? id = some h.label := by
  rw [labelOf?, hn, Option.bind_some, Node.label?, Node.heading?, hc]
  rfl

theorem placement?_eq {s : Scope} {id : String} {n : Node} {h : Heading} {b : Block}
    (hn : g.node? id = some n) (hc : n.content = .block h b) : g.placement? (s, id) =
      some ⟨s.parent.bind g.labelOf?, s.branch, h, b.reopened⟩ := by
  rw [placement?, hn, Option.bind_some, hc]

theorem block_conditional (h : Heading) (c : Conditional) (inside : Branch -> List Descriptor) :
    (Descriptor.conditional h (c.branches.map fun b => (b, inside b))).block =
      (Block.conditional c).reopened := by
  simp [Descriptor.block, Block.reopened, Conditional.branchIds, Function.comp_def]

/-- What is written down for a scope places what is met in it. -/
theorem listPlacements_descriptorsTo (levels : Nat) : ∀ s : Scope,
    Descriptor.listPlacements (s.parent.bind g.labelOf?) s.branch (g.descriptorsTo levels s) =
      (g.met levels s).filterMap g.placement? := by
  induction levels with
  | zero => exact fun _ => rfl
  | succ levels ih =>
      intro s
      rw [Descriptor.listPlacements_eq, descriptorsTo, met, List.filterMap_filterMap,
        List.filterMap_flatMap, List.filterMap_eq_flatMap_toList, List.flatMap_assoc]
      apply List.flatMap_congr
      intro id _
      cases hn : g.node? id with
      | none => simp [block?, hn]
      | some n =>
          obtain ⟨-, hid⟩ := mem_of_node? hn
          cases hc : n.content with
          | start => simp [block?, hn, describe?, Node.block?, hc]
          | insertionMarker => simp [block?, hn, describe?, Node.block?, hc]
          | block h b =>
              have hlabel := labelOf?_eq hn hc
              have hplace : g.placement? (s, id) =
                  some ⟨s.parent.bind g.labelOf?, s.branch, h, b.reopened⟩ :=
                placement?_eq hn hc
              have hblock : g.block? id = some b := by
                rw [block?, hn, Option.bind_some, Node.block?, hc]
              have hinside : ∀ t : Scope, t.parent = some id ->
                  Descriptor.listPlacements (some h.label) t.branch (g.descriptorsTo levels t) =
                    (g.met levels t).filterMap g.placement? := by
                intro t ht
                rw [← ih t, ht, Option.bind_some, hlabel]
              rw [hblock, Option.bind_some, describe?, hc]
              simp only [List.filterMap_cons_some hplace]
              cases b with
              | leaf l => rfl
              | loop a =>
                  simp only [Option.toList_some, List.flatMap_cons, List.flatMap_nil,
                    List.append_nil, Descriptor.placements, bodyScopes, hid]
                  rw [← hinside (.body id) rfl]
                  rfl
              | conditional c =>
                  simp only [Option.toList_some, List.flatMap_cons, List.flatMap_nil,
                    List.append_nil, Descriptor.placements, bodyScopes, hid,
                    Descriptor.branchPlacements_eq, Conditional.branchIds, List.flatMap_map,
                    List.filterMap_flatMap]
                  have hbranches : ∀ b ∈ c.branches,
                      Descriptor.listPlacements (some h.label) (some b.id)
                        (g.descriptorsTo levels (.ofBranch id b.id)) =
                          (g.met levels (.ofBranch id b.id)).filterMap g.placement? :=
                    fun b _ => hinside (.ofBranch id b.id) rfl
                  rw [List.flatMap_congr hbranches, block_conditional]

end Graph
end Workflow
