import Mathlib.Logic.Relation
import Workflow.Conversion.ToDefinition
import Workflow.Proofs.Shape.Chain

/-!
# Where writing comes to an end

The blocks of a scope are written down with what stands in their bodies.  This comes to an end
exactly when no scope that is come to lies inside itself.  Each level then has a node that none of
the levels below comes to, so there are no more levels than nodes.
-/

namespace Workflow

theorem length_filter_lt_length_filter {α : Type} {p q : α -> Bool} {xs : List α}
    (himp : ∀ x ∈ xs, q x -> p x) {x : α} (hmem : x ∈ xs) (hp : p x) (hq : ¬ q x) :
    (xs.filter q).length < (xs.filter p).length := by
  have hfilter : xs.filter q = (xs.filter p).filter q := by
    rw [List.filter_filter]
    apply List.filter_congr
    intro y hy
    cases hqy : q y with
    | false => rfl
    | true => exact (himp y hy hqy).symm
  rw [hfilter, List.length_filter_lt_length_iff_exists]
  exact ⟨x, List.mem_filter.2 ⟨hmem, hp⟩, hq⟩

namespace Graph

variable {g : Graph} {s t : Scope}

def nodesOn (g : Graph) (s : Scope) : List Node :=
  (g.chain s).filterMap g.node?

theorem mem_nodes_of_mem_nodesOn {n : Node} (h : n ∈ g.nodesOn s) : n ∈ g.nodes := by
  rcases List.mem_filterMap.1 h with ⟨id, -, hn⟩
  exact (mem_of_node? hn).1

/-- A scope is a body of a block on the chain of another one. -/
def BodyOn (g : Graph) (t s : Scope) : Prop :=
  ∃ n ∈ g.nodesOn s, ∃ b, n.block? = some b ∧ t ∈ bodyScopes n.id b

/-- What a scope is written down as, after all that is inside it. -/
inductive Writes (g : Graph) : Scope -> List Descriptor -> Prop where
  | chain {s : Scope} {inside : Scope -> List Descriptor} :
      (∀ t, g.BodyOn t s -> Writes g t (inside t)) ->
      Writes g s ((g.nodesOn s).filterMap (describe? inside))

/-!
# What is inside
-/

theorem describe?_congr {inside inside' : Scope -> List Descriptor} {n : Node}
    (h : ∀ b, n.block? = some b -> ∀ t ∈ bodyScopes n.id b, inside t = inside' t) :
    describe? inside n = describe? inside' n := by
  rcases n with ⟨id, parent, content⟩
  cases content with
  | start => rfl
  | insertionMarker => rfl
  | block heading b =>
      have hbody := h b rfl
      cases b with
      | leaf l => rfl
      | loop a =>
          simp only [describe?, hbody (.body id) (List.mem_singleton.2 rfl)]
      | conditional c =>
          have hbranches : ∀ b ∈ c.branches, (b, inside (.ofBranch id b.id)) =
              (b, inside' (.ofBranch id b.id)) := by
            intro b hb
            rw [hbody _ (List.mem_map_of_mem (List.mem_map_of_mem hb))]
          simp only [describe?, List.map_congr_left hbranches]

theorem filterMap_describe?_congr {inside inside' : Scope -> List Descriptor}
    (h : ∀ t, g.BodyOn t s -> inside t = inside' t) :
    (g.nodesOn s).filterMap (describe? inside) = (g.nodesOn s).filterMap (describe? inside') := by
  apply List.filterMap_congr
  intro n hn
  apply describe?_congr
  intro b hb t ht
  exact h t ⟨n, hn, b, hb, ht⟩

/-!
# Scopes that do not lie inside themselves
-/

/-- No scope that is come to from a scope lies inside itself. -/
def WellNested (g : Graph) (s : Scope) : Prop :=
  ∀ t, Relation.ReflTransGen g.BodyOn t s -> ¬ Relation.TransGen g.BodyOn t t

theorem WellNested.of_bodyOn (h : g.WellNested s) (ht : g.BodyOn t s) : g.WellNested t := by
  intro u hu
  exact h u (hu.tail ht)

/-- A node is on the chain of a scope or of one inside it. -/
def ReachedFrom (g : Graph) (s : Scope) (n : Node) : Prop :=
  ∃ t, Relation.ReflTransGen g.BodyOn t s ∧ n ∈ g.nodesOn t

open Classical in
noncomputable def reached (g : Graph) (s : Scope) : Nat :=
  (g.nodes.filter fun n => decide (g.ReachedFrom s n)).length

theorem reached_le : g.reached s <= g.nodes.length :=
  List.length_filter_le _ _

open Classical in
theorem reached_lt (h : g.WellNested s) (ht : g.BodyOn t s) : g.reached t < g.reached s := by
  rcases ht with ⟨n, hn, b, hb, hscope⟩
  have ht : g.BodyOn t s := ⟨n, hn, b, hb, hscope⟩
  unfold reached
  apply length_filter_lt_length_filter _ (mem_nodes_of_mem_nodesOn hn)
  · exact decide_eq_true ⟨s, .refl, hn⟩
  · intro hreached
    rcases of_decide_eq_true hreached with ⟨u, hu, hmem⟩
    have hinside : g.BodyOn t u := ⟨n, hmem, b, hb, hscope⟩
    exact h t (.single ht) (.head' hinside hu)
  · intro m _ hm
    rcases of_decide_eq_true hm with ⟨u, hu, hmem⟩
    exact decide_eq_true ⟨u, hu.tail ht, hmem⟩

open Classical in
theorem nodesOn_eq_nil_of_reached (h : g.reached s = 0) : g.nodesOn s = [] := by
  apply List.eq_nil_iff_forall_not_mem.2
  intro n hn
  have hreached : g.ReachedFrom s n := ⟨s, .refl, hn⟩
  have hnone := List.filter_eq_nil_iff.1 (List.eq_nil_of_length_eq_zero h)
  exact hnone n (mem_nodes_of_mem_nodesOn hn) (decide_eq_true hreached)

/-!
# Enough levels
-/

/-- Where writing ends, one level for each node that is reached is enough. -/
theorem writes_descriptorsTo (levels : Nat) : ∀ {s : Scope}, g.WellNested s ->
    g.reached s <= levels -> g.Writes s (g.descriptorsTo levels s) := by
  induction levels with
  | zero =>
      intro s _ hreached
      have hempty := nodesOn_eq_nil_of_reached (Nat.le_zero.1 hreached)
      have hwrites : g.Writes s ((g.nodesOn s).filterMap (describe? fun _ => [])) := by
        constructor
        intro t ht
        rcases ht with ⟨n, hn, -⟩
        rw [hempty] at hn
        cases hn
      rw [hempty] at hwrites
      exact hwrites
  | succ levels ih =>
      intro s hnested hreached
      constructor
      intro t ht
      apply ih (hnested.of_bodyOn ht)
      have hlt := reached_lt hnested ht
      omega

theorem Writes.unique {ds : List Descriptor} (h : g.Writes s ds) :
    ∀ {ds' : List Descriptor}, g.Writes s ds' -> ds = ds' := by
  induction h with
  | chain _ ih =>
      intro ds' h'
      cases h' with
      | chain h' => exact filterMap_describe?_congr fun t ht => ih t ht (h' t ht)

theorem Writes.wellNested {ds : List Descriptor} (h : g.Writes s ds) : g.WellNested s := by
  induction h with
  | @chain s inside _ ih =>
      intro t ht hinside
      -- what lies in the scope lies in one of the bodies on its chain
      rcases Relation.ReflTransGen.cases_tail ht with rfl | ⟨u, htu, hus⟩
      · rcases Relation.TransGen.tail'_iff.1 hinside with ⟨u, hsu, hus⟩
        exact ih u hus s hsu hinside
      · exact ih u hus t htu hinside

/-- Writing a scope comes to an end exactly when no scope inside it lies inside itself. -/
theorem exists_writes_iff : (∃ ds, g.Writes s ds) <-> g.WellNested s := by
  constructor
  · intro h
    rcases h with ⟨ds, h⟩
    exact h.wellNested
  · intro h
    exact ⟨_, writes_descriptorsTo _ h (Nat.le_refl _)⟩

theorem Writes.eq_descriptors {ds : List Descriptor} (h : g.Writes s ds) : g.descriptors s = ds :=
  (writes_descriptorsTo _ h.wellNested reached_le).unique h

end Graph
end Workflow
