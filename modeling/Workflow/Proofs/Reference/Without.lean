import Workflow.Graph.Basic
import Workflow.Proofs.Reference.Block

/-!
# Blocks without some references

Clearing the references to several labels one label after another is the same as clearing them
at once, so it matters which labels they are, but not their order.
-/

namespace Workflow

/-- Whether a key refers to the output of a block with one of the labels. -/
def OutputKey.isOf (labels : List String) (key : String) : Bool :=
  (label? key).any labels.contains

def Branch.without (labels : List String) (b : Branch) : Branch :=
  { b with mergeLabel := b.mergeLabel.filter fun l => !labels.contains l }

/-- The block without its references to some labels. -/
def Block.without (labels : List String) : Block -> Block
  | leaf l => leaf (l.mapKeys fun keys => keys.filter fun key => !OutputKey.isOf labels key)
  | loop a => loop { a with loopOver := a.loopOver.filter fun key => !OutputKey.isOf labels key }
  | conditional c => conditional { c with branches := c.branches.map (Branch.without labels) }

/-!
# Keeping all other labels
-/

theorem Leaf.mapKeys_congr {f g : List String -> List String} {l : Leaf}
    (h : f l.parameterKeys = g l.parameterKeys) : l.mapKeys f = l.mapKeys g := by
  cases l <;> simp_all [mapKeys, parameterKeys, parameterKeys?]

theorem OutputKey.keepsKey_eq {keep : String -> Bool} {labels : List String} {key : String}
    (h : ∀ l, (Reference.ofKey key).label? = some l -> keep l = !labels.contains l) :
    Block.keepsKey keep key = !isOf labels key := by
  rw [Reference.label?_ofKey] at h
  unfold Block.keepsKey isOf
  cases hkey : label? key with
  | none => rfl
  | some l => exact h l hkey

theorem Block.retainLabels_eq_without {keep : String -> Bool} {labels : List String} {b : Block}
    (h : ∀ r ∈ b.held, ∀ l, r.label? = some l -> keep l = !labels.contains l) :
    (b.retainLabels keep).1 = b.without labels := by
  cases b with
  | leaf l =>
      have hkeys : l.parameterKeys.filter (keepsKey keep) =
          l.parameterKeys.filter fun key => !OutputKey.isOf labels key := by
        apply List.filter_congr
        intro key hkey
        exact OutputKey.keepsKey_eq (h _ (List.mem_map_of_mem hkey))
      simp only [retainLabels, without]
      rw [Leaf.mapKeys_congr hkeys]
  | loop a =>
      rcases a with ⟨loopOver, completeIfEmpty⟩
      cases loopOver with
      | none => rfl
      | some key =>
          have hkey := OutputKey.keepsKey_eq (h _ (List.mem_map_of_mem (List.mem_singleton.2 rfl)))
          simp only [retainLabels, without, hkey, Option.filter_some]
          cases OutputKey.isOf labels key <;> rfl
  | conditional c =>
      have hbranches : c.branches.map (fun b =>
          if keepsMerge keep b then b else { b with mergeLabel := none }) =
            c.branches.map (Branch.without labels) := by
        apply List.map_congr_left
        intro b hb
        rcases b with ⟨id, name, expression, mergeLabel, isDefault⟩
        cases mergeLabel with
        | none => rfl
        | some l =>
            have hl := h (.label l) (List.mem_map_of_mem (List.mem_filterMap.2 ⟨_, hb, rfl⟩)) l rfl
            simp only [keepsMerge, Branch.without, hl, Option.filter_some]
            cases labels.contains l <;> rfl
      simp only [retainLabels, without, hbranches]

theorem Block.retainLabels_ne (label : String) (b : Block) :
    (b.retainLabels fun l => l != label).1 = b.without [label] := by
  apply retainLabels_eq_without
  intro r _ l _
  exact Bool.eq_iff_iff.2 (by simp)

/-!
# Clearing several labels
-/

namespace OutputKey

theorem isOf_append (labels labels' : List String) (key : String) :
    isOf (labels ++ labels') key = (isOf labels key || isOf labels' key) := by
  unfold isOf
  cases label? key <;> simp

end OutputKey

theorem Leaf.mapKeys_mapKeys (f g : List String -> List String) (l : Leaf) :
    (l.mapKeys f).mapKeys g = l.mapKeys fun keys => g (f keys) := by
  cases l <;> rfl

theorem Branch.without_without (labels labels' : List String) (b : Branch) :
    (b.without labels).without labels' = b.without (labels ++ labels') := by
  simp [without, Option.filter_filter]

namespace Block

theorem without_without (labels labels' : List String) (b : Block) :
    (b.without labels).without labels' = b.without (labels ++ labels') := by
  cases b with
  | leaf l =>
      simp only [without, Leaf.mapKeys_mapKeys, List.filter_filter, OutputKey.isOf_append,
        Bool.not_or, Bool.and_comm]
  | loop a =>
      simp only [without, Option.filter_filter, OutputKey.isOf_append, Bool.not_or]
  | conditional c =>
      simp only [without, List.map_map, Function.comp_def, Branch.without_without]

theorem without_congr {labels labels' : List String} (h : ∀ l, l ∈ labels <-> l ∈ labels')
    (b : Block) : b.without labels = b.without labels' := by
  have hcontains : ∀ l, labels.contains l = labels'.contains l := fun l =>
    Bool.eq_iff_iff.2 (by simpa using h l)
  have hkey : OutputKey.isOf labels = OutputKey.isOf labels' := by
    funext key
    unfold OutputKey.isOf
    rw [funext hcontains]
  have hbranch : Branch.without labels = Branch.without labels' := by
    funext b
    simp only [Branch.without, hcontains]
  cases b <;> simp only [without, hkey, hbranch]

end Block

/-!
# Labels that nothing refers to
-/

theorem OutputKey.isOf_eq_false {labels : List String} {key : String}
    (h : ∀ l ∈ labels, (Reference.ofKey key).label? ≠ some l) : isOf labels key = false := by
  rw [Reference.label?_ofKey] at h
  unfold isOf
  cases hkey : label? key with
  | none => rfl
  | some l =>
      simp only [Option.any_some, List.contains_eq_mem, decide_eq_false_iff_not]
      exact fun hl => h l hl hkey

theorem Leaf.mapKeys_eq_self {f : List String -> List String} {l : Leaf}
    (h : f l.parameterKeys = l.parameterKeys) : l.mapKeys f = l := by
  cases l <;> simp_all [mapKeys, parameterKeys, parameterKeys?]

theorem Block.without_eq_self {labels : List String} {b : Block}
    (h : ∀ r ∈ b.held, ∀ l ∈ labels, r.label? ≠ some l) : b.without labels = b := by
  cases b with
  | leaf l =>
      rw [without, Leaf.mapKeys_eq_self]
      refine List.filter_eq_self.2 fun key hkey => ?_
      rw [OutputKey.isOf_eq_false (h _ (List.mem_map_of_mem hkey)), Bool.not_false]
  | loop a =>
      obtain ⟨loopOver, completeIfEmpty⟩ := a
      cases loopOver with
      | none => rfl
      | some key =>
          have hkey := OutputKey.isOf_eq_false
            (h _ (List.mem_map_of_mem (List.mem_singleton.2 rfl)))
          simp [without, Option.filter_some, hkey]
  | conditional c =>
      have hbranches : c.branches.map (Branch.without labels) = c.branches := by
        refine (List.map_congr_left fun b hb => ?_).trans (List.map_id _)
        obtain ⟨id, name, expression, mergeLabel, isDefault⟩ := b
        cases mergeLabel with
        | none => rfl
        | some l =>
            have hl : l ∉ labels := fun hl =>
              h (.label l) (List.mem_map_of_mem (List.mem_filterMap.2 ⟨_, hb, rfl⟩)) l hl rfl
            simp [Branch.without, Option.filter_some, hl]
      simp only [without, hbranches]

theorem Block.without_nil (b : Block) : b.without [] = b :=
  without_eq_self fun _ _ _ hl => absurd hl List.not_mem_nil

/-!
# Nodes
-/

namespace Node

theorem mapBlock_mapBlock (f f' : Block -> Block) (n : Node) :
    (n.mapBlock f).mapBlock f' = n.mapBlock fun b => f' (f b) := by
  obtain ⟨id, parent, content⟩ := n
  cases content <;> rfl

theorem mapBlock_id (n : Node) : (n.mapBlock fun b => b) = n := by
  obtain ⟨id, parent, content⟩ := n
  cases content <;> rfl

theorem block?_mapBlock (f : Block -> Block) (n : Node) :
    (n.mapBlock f).block? = n.block?.map f := by
  rcases n with ⟨i, parent, content⟩
  cases content <;> rfl

theorem mapBlock_congr {f g : Block -> Block} {n : Node}
    (h : ∀ b, n.block? = some b -> f b = g b) : n.mapBlock f = n.mapBlock g := by
  rcases n with ⟨i, parent, content⟩
  cases content with
  | start => rfl
  | insertionMarker => rfl
  | block heading b => simp only [mapBlock, h b rfl]

theorem mapBlock_of_none {f : Block -> Block} {n : Node} (h : n.block? = none) :
    n.mapBlock f = n := by
  rcases n with ⟨i, parent, content⟩
  cases content with
  | start => rfl
  | insertionMarker => rfl
  | block heading b => cases h

end Node

end Workflow
