import Workflow.Layout.Basic
import Workflow.Proofs.Layout.Entering
import Workflow.Proofs.Table
import Workflow.Proofs.Walk

/-!
# What is drawn

An outline holds the ids on the chain it is drawn for and, inside the containers among them, those
on the chains that are shown.  A container is entered where it is met first, and what it shows is
drawn there, so nothing is lost when a later chain passes it by.  What an outline holds has one box
each, and the other nodes are hidden.
-/

namespace Workflow
namespace Graph

variable {g : Graph}

inductive Drawn (g : Graph) (chain : List String) : String -> Prop where
  | here {id : String} : id ∈ chain -> Drawn g chain id
  | inside {container id : String} {s : Scope} : Drawn g chain container ->
      g.shownScope? container = some s -> id ∈ g.chain s -> Drawn g chain id

theorem Drawn.trans {chain chain' : List String} {id : String} (h : g.Drawn chain' id)
    (hchain : ∀ c ∈ chain', g.Drawn chain c) : g.Drawn chain id := by
  induction h with
  | here hid => exact hchain _ hid
  | inside _ hs hid ih => exact .inside ih hs hid

theorem Drawn.cons {rest : List String} {id first : String} (h : g.Drawn rest id) :
    g.Drawn (first :: rest) id :=
  h.trans fun _ hc => .here (List.mem_cons_of_mem _ hc)

theorem Enters.drawn {chain entered after : List String} {os : List Outline}
    (h : g.Enters chain entered os after) : ∀ id ∈ Outline.listIds os, g.Drawn chain id := by
  induction h with
  | done entered =>
      intro id hid
      cases hid
  | again _ _ ih => exact fun id hid => (ih id hid).cons
  | node _ _ _ ih =>
      intro id hid
      rcases List.mem_cons.1 hid with rfl | hid
      · exact .here List.mem_cons_self
      · exact (ih id hid).cons
  | container _ hs _ _ ihbody ihrest =>
      intro id hid
      rcases List.mem_append.1 hid with hid | hid
      · rcases List.mem_cons.1 hid with rfl | hid
        · exact .here List.mem_cons_self
        · exact (ihbody id hid).trans fun _ hc => .inside (.here List.mem_cons_self) hs hc
      · exact (ihrest id hid).cons

/-- The outline of a graph holds what is drawn from the top level on. -/
theorem mem_outline {id : String} :
    id ∈ Outline.listIds g.outline <-> g.Drawn (g.chain .root) id := by
  rcases g.enters_outline with ⟨after, houtline⟩
  have hentered : ∀ i ∈ after, i ∈ Outline.listIds g.outline := fun i hi =>
    (houtline.mem_iff.1 hi).resolve_left List.not_mem_nil
  constructor
  · exact houtline.drawn id
  · intro h
    induction h with
    | here hid => exact hentered _ (houtline.chain_subset hid)
    | inside _ hs hid ih => exact hentered _ (houtline.shown_subset ih hs hid)

end Graph

/-!
# Boxes
-/

namespace Layout

section Keys

variable {α : Type} [Length α] (s : LayoutSettings α)

theorem map_size_stack (width : α) (members : List (String × Size α)) : ∀ y,
    (stack s width y members).map (fun e => (e.1, e.2.size)) = members := by
  induction members with
  | nil => exact fun _ => rfl
  | cons m rest ih => exact fun y => congrArg (m :: ·) (ih _)

theorem map_size_stackAll (members : List (String × Size α)) :
    (stackAll s members).map (fun e => (e.1, e.2.size)) = members :=
  map_size_stack s _ members _

theorem map_size_stackInside (size : Size α) (members : List (String × Size α)) :
    (stackInside s size members).map (fun e => (e.1, e.2.size)) = members := by
  rw [stackInside, List.map_map]
  exact map_size_stackAll s members

omit [Length α] in
theorem keys_of_map_size {boxes : List (String × Box α)} {members : List (String × Size α)}
    (h : boxes.map (fun e => (e.1, e.2.size)) = members) :
    boxes.map Prod.fst = members.map Prod.fst := by
  rw [← h, List.map_map]
  rfl

theorem keys_sizesOf (measured : String -> Size α) (os : List Outline) :
    (sizesOf s measured os).map Prod.fst = os.map Outline.id := by
  induction os with
  | nil => rfl
  | cons o rest ih => exact congrArg (o.id :: ·) ih

mutual

theorem perm_ids (measured : String -> Size α) : ∀ o : Outline,
    (o.id :: (boxesInside s measured o).map Prod.fst).Perm o.ids
  | .node _ => .refl _
  | .container i body => by
      rw [boxesInside, List.map_append, keys_of_map_size (map_size_stackInside s _ _), keys_sizesOf]
      exact (perm_listIds measured body).cons i

theorem perm_listIds (measured : String -> Size α) : ∀ os : List Outline,
    (os.map Outline.id ++ (boxesInsideAll s measured os).map Prod.fst).Perm (Outline.listIds os)
  | [] => .refl _
  | o :: rest => by
      have hfirst := perm_ids measured o
      have hrest := perm_listIds measured rest
      rw [boxesInsideAll, List.map_cons, List.map_append, List.cons_append, ← List.append_assoc]
      apply ((List.perm_append_comm.append_right _).cons o.id).trans
      rw [List.append_assoc]
      exact hfirst.append hrest

end

/-- The boxes of outlines with those inside them. -/
def boxesOf (measured : String -> Size α) (os : List Outline) : List (String × Box α) :=
  stackAll s (sizesOf s measured os) ++ boxesInsideAll s measured os

theorem keys_boxesOf (measured : String -> Size α) (os : List Outline) :
    ((boxesOf s measured os).map Prod.fst).Perm (Outline.listIds os) := by
  rw [boxesOf, List.map_append, keys_of_map_size (map_size_stackAll s _), keys_sizesOf]
  exact perm_listIds s measured os

end Keys

/-!
# What a layout covers
-/

/-- Each node is placed or hidden, and not both.  The top level is placed, and with a container the
chain that it shows. -/
structure Covers {α : Type} (l : Layout α) (g : Graph) : Prop where
  split : ∀ n ∈ g.nodes, n.id ∈ l.hidden <-> ¬ l.boxes.contains n.id
  top : ∀ id ∈ g.chain .root, l.boxes.contains id
  loop : ∀ id a, g.block? id = some (.loop a) -> l.boxes.contains id ->
    ∀ i ∈ g.chain (.body id), l.boxes.contains i
  conditional : ∀ id c, g.block? id = some (.conditional c) -> l.boxes.contains id ->
    ∀ i ∈ g.chain (.ofBranch id c.active), l.boxes.contains i

section Graph

variable {α : Type} [Length α] (s : LayoutSettings α) (g : Graph) (sizes : Table (Size α))
  {id : String}

theorem contains_boxes_iff_mem_outline :
    (ofGraph s g sizes).boxes.contains id <-> id ∈ Outline.listIds g.outline := by
  rw [Table.contains_iff, ← (keys_boxesOf s (measuredSize s g sizes) g.outline).mem_iff]
  exact Table.mem_keys_ofList

theorem contains_boxes :
    (ofGraph s g sizes).boxes.contains id <-> g.Drawn (g.chain .root) id := by
  rw [contains_boxes_iff_mem_outline, Graph.mem_outline]

theorem mem_hidden :
    id ∈ (ofGraph s g sizes).hidden <-> g.contains id ∧ ¬ g.Drawn (g.chain .root) id := by
  have hhidden : id ∈ (ofGraph s g sizes).hidden <->
      id ∈ (g.nodes.map Node.id).filter fun id => !(ofGraph s g sizes).boxes.contains id :=
    Table.mem_keys_ofList_ids
  rw [hhidden, List.mem_filter, Graph.contains_iff, Bool.not_eq_true', ← Bool.not_eq_true,
    contains_boxes]

theorem covers_ofGraph : (ofGraph s g sizes).Covers g where
  split := by
    intro n hn
    rw [mem_hidden, contains_boxes]
    exact and_iff_right (Graph.contains_of_mem hn)
  top := by
    intro id hid
    exact (contains_boxes s g sizes).2 (.here hid)
  loop := by
    intro id a hloop hplaced i hi
    have hs : g.shownScope? id = some (.body id) := by rw [Graph.shownScope?, hloop]
    exact (contains_boxes s g sizes).2 (.inside ((contains_boxes s g sizes).1 hplaced) hs hi)
  conditional := by
    intro id c hconditional hplaced i hi
    have hs : g.shownScope? id = some (.ofBranch id c.active) := by
      rw [Graph.shownScope?, hconditional]
    exact (contains_boxes s g sizes).2 (.inside ((contains_boxes s g sizes).1 hplaced) hs hi)

/-- The layout of any graph comes to an end, and so does every chain that it goes along.  It enters
each id at most once, places what it enters, and covers the graph. -/
theorem ofGraph_total :
    (∃ entered, (∀ os after, g.Enters (g.chain .root) [] os after <->
        os = g.outline ∧ after = entered) ∧
      entered.Nodup ∧ ∀ id, (ofGraph s g sizes).boxes.contains id <-> id ∈ entered) ∧
    (∀ s id next, id ∈ g.chain s -> g.next? s id = some next -> next ∈ g.chain s) ∧
    (ofGraph s g sizes).Covers g := by
  rcases g.enters_outline with ⟨entered, houtline⟩
  refine ⟨⟨entered, ?_, houtline.nodup List.nodup_nil, ?_⟩, fun _ _ _ => Graph.next?_mem_chain,
    covers_ofGraph s g sizes⟩
  · intro os after
    constructor
    · exact houtline.unique
    · intro h
      rw [h.1, h.2]
      exact houtline
  · intro id
    rw [contains_boxes_iff_mem_outline, houtline.mem_iff]
    simp

/-- Of two loops that stand in each other, each is entered once. -/
example : Outline.listIds Graph.tangled.outline = ["start", "outer", "inner"] := by decide

end Graph
end Layout
end Workflow
