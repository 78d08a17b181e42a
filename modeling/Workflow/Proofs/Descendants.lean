import Mathlib.Computability.StateTransition
import Workflow.Graph.Indexed
import Workflow.Proofs.Shape.Nest
import Workflow.Proofs.Shape.Reduction
import Workflow.Proofs.Walk

/-!
# Searches of what is nested in a node

A search looks into the ids of a queue, and queues what stands in them.  Nothing counts down while
it runs.  It ends because it lists each id once: ids are distinct, so an id stands in one container,
and the node it began with is not nested in itself.  When it is, the search never ends.
-/

namespace Workflow

/-!
# What stands in a node
-/

namespace Graph

variable {g : Graph}

theorem mem_childIds_iff {id container : String} :
    id ∈ g.childIds container <-> g.StandsIn id container := by
  simp only [childIds, StandsIn, List.mem_map, List.mem_filter, beq_iff_eq]
  constructor
  · intro h
    rcases h with ⟨n, ⟨hn, hparent⟩, hid⟩
    exact ⟨n, hn, hid, hparent⟩
  · intro h
    rcases h with ⟨n, hn, hid, hparent⟩
    exact ⟨n, ⟨hn, hparent⟩, hid⟩

theorem nodup_childIds (hids : (g.nodes.map Node.id).Nodup) (container : String) :
    (g.childIds container).Nodup :=
  (List.filter_sublist.map Node.id).nodup hids

theorem mem_ids_of_nested {id container : String}
    (h : Relation.TransGen g.StandsIn id container) : id ∈ g.nodes.map Node.id := by
  rcases Relation.TransGen.head'_iff.1 h with ⟨-, ⟨n, hn, hid, -⟩, -⟩
  exact hid ▸ List.mem_map_of_mem hn

/-!
# Steps of a search
-/

/-- How far a search from an id has come.  What it found stands in the ids it has looked into; the
queue is what it found and has not looked into. -/
structure Searched (g : Graph) (id : String) (seen queue found : List String) : Prop where
  found_eq : found = seen.flatMap g.childIds
  queued : id :: found = seen ++ queue
  nodup : (id :: found).Nodup
  nested : ∀ i ∈ found, Relation.TransGen g.StandsIn i id
  ordered : ∀ i ∈ found, ∀ p ∈ found, g.StandsIn i p -> [p, i].Sublist found

/-- A list of what is nested in a node: all of it, each id once, and none before the container it
stands in. -/
structure ListsNested (g : Graph) (id : String) (found : List String) : Prop where
  nodup : found.Nodup
  mem_iff : ∀ i, i ∈ found <-> Relation.TransGen g.StandsIn i id
  ordered : ∀ n ∈ g.nodes, ∀ p ∈ found, n.parent = some p -> [p, n.id].Sublist found

namespace Searched

variable {id next : String} {seen queue rest found : List String}

theorem start (g : Graph) (id : String) : g.Searched id [] [id] [] where
  found_eq := rfl
  queued := rfl
  nodup := List.nodup_singleton id
  nested := List.forall_mem_nil _
  ordered := List.forall_mem_nil _

theorem next_mem (h : g.Searched id seen (next :: rest) found) : next ∈ id :: found := by
  rw [h.queued]
  exact List.mem_append_right _ List.mem_cons_self

theorem next_notMem (h : g.Searched id seen (next :: rest) found) : next ∉ seen := by
  have hnodup := h.nodup
  rw [h.queued] at hnodup
  intro hmem
  exact (List.nodup_append.1 hnodup).2.2 next hmem next List.mem_cons_self rfl

section Step

variable (hids : (g.nodes.map Node.id).Nodup) (hself : ¬ Relation.TransGen g.StandsIn id id)
include hids hself

/-- What stands in the next id was not found before: it would stand in another id too, or the search
would have come back to where it began. -/
theorem child_notMem (h : g.Searched id seen (next :: rest) found) {c : String}
    (hc : g.StandsIn c next) : c ∉ id :: found := by
  intro hmem
  rcases List.mem_cons.1 hmem with rfl | hmem
  · apply hself
    rcases List.mem_cons.1 h.next_mem with rfl | hnext
    · exact .single hc
    · exact .head hc (h.nested next hnext)
  · rw [h.found_eq] at hmem
    rcases List.mem_flatMap.1 hmem with ⟨p, hp, hcp⟩
    have hsame : next = p := standsIn_unique (ids_shape g ▸ hids) hc (mem_childIds_iff.1 hcp)
    exact h.next_notMem (hsame ▸ hp)

theorem step (h : g.Searched id seen (next :: rest) found) :
    g.Searched id (seen ++ [next]) (rest ++ g.childIds next) (found ++ g.childIds next) where
  found_eq := by
    rw [List.flatMap_append, List.flatMap_singleton, ← h.found_eq]
  queued := by
    rw [← List.cons_append, h.queued]
    simp only [List.append_assoc, List.cons_append, List.nil_append]
  nodup := by
    rw [← List.cons_append, List.nodup_append]
    refine ⟨h.nodup, nodup_childIds hids next, ?_⟩
    intro i hi c hc heq
    exact h.child_notMem hids hself (mem_childIds_iff.1 hc) (heq ▸ hi)
  nested := by
    intro i hi
    rcases List.mem_append.1 hi with hi | hi
    · exact h.nested i hi
    · have hchild := mem_childIds_iff.1 hi
      rcases List.mem_cons.1 h.next_mem with rfl | hnext
      · exact .single hchild
      · exact .head hchild (h.nested next hnext)
  ordered := by
    intro i hi p hp hin
    have hnew : ∀ {c}, c ∈ g.childIds next -> c ∉ id :: found := fun hc =>
      h.child_notMem hids hself (mem_childIds_iff.1 hc)
    rcases List.mem_append.1 hi with hi | hi
    · -- the container of what was found before was looked into, so it is not new either
      have hseen := hi
      rw [h.found_eq] at hseen
      rcases List.mem_flatMap.1 hseen with ⟨q, hq, hiq⟩
      have hsame : p = q := standsIn_unique (ids_shape g ▸ hids) hin (mem_childIds_iff.1 hiq)
      have hpfound : p ∈ id :: found := h.queued ▸ List.mem_append_left _ (hsame ▸ hq)
      rcases List.mem_append.1 hp with hp | hp
      · exact (h.ordered i hi p hp hin).trans (List.sublist_append_left _ _)
      · exact absurd hpfound (hnew hp)
    · have hsame : next = p := standsIn_unique (ids_shape g ▸ hids) (mem_childIds_iff.1 hi) hin
      rcases List.mem_append.1 hp with hp | hp
      · exact (List.singleton_sublist.2 hp).append (List.singleton_sublist.2 hi)
      · exact absurd (hsame ▸ h.next_mem) (hnew hp)

end Step

/-- A search has no more to look into than there are nodes. -/
theorem length_le (h : g.Searched id seen queue found) (hid : id ∈ g.nodes.map Node.id) :
    seen.length + queue.length ≤ g.nodes.length := by
  have hsubset : id :: found ⊆ g.nodes.map Node.id :=
    List.cons_subset.2 ⟨hid, fun i hi => mem_ids_of_nested (h.nested i hi)⟩
  have hle := (h.nodup.subperm hsubset).length_le
  rwa [h.queued, List.length_append, List.length_map] at hle

/-!
# The end of a search
-/

theorem seen_eq (h : g.Searched id seen [] found) : seen = id :: found := by
  rw [h.queued, List.append_nil]

theorem mem_iff (h : g.Searched id seen [] found) {i : String} :
    i ∈ found <-> Relation.TransGen g.StandsIn i id := by
  have hclosed : ∀ {c p : String}, g.StandsIn c p -> p ∈ id :: found -> c ∈ found := by
    intro c p hc hp
    rw [h.found_eq, h.seen_eq]
    exact List.mem_flatMap.2 ⟨p, hp, mem_childIds_iff.2 hc⟩
  constructor
  · exact h.nested i
  · intro hin
    induction hin using Relation.TransGen.head_induction_on with
    | single hc => exact hclosed hc List.mem_cons_self
    | head hc _ ih => exact hclosed hc (List.mem_cons_of_mem _ ih)

theorem listsNested (h : g.Searched id seen [] found) : g.ListsNested id found where
  nodup := (List.nodup_cons.1 h.nodup).2
  mem_iff := fun _ => h.mem_iff
  ordered := by
    intro n hn p hp hparent
    have hin : g.StandsIn n.id p := ⟨n, hn, rfl, hparent⟩
    exact h.ordered n.id (h.mem_iff.2 (.head hin (h.mem_iff.1 hp))) p hp hin

end Searched
end Graph

/-!
# Runs of a search
-/

namespace Indexed

/-- The list at the end of a search.  There is none when the queue never becomes empty. -/
def gather (x : Indexed) (queue found : List String) : Part (List String) :=
  (StateTransition.eval x.advance? ⟨queue, found⟩).map Frontier.found

/-- Every id nested in a node at any depth, or why there is none to begin with. -/
def descendants (x : Indexed) (id : String) : Part (Except GraphError (List String)) :=
  match x.getNode id with
  | .ok _ => (x.gather [id] []).map .ok
  | .error e => .some (.error e)

variable {x : Indexed} {id : String} {queue found after : List String}

theorem advance?_eq_some {s t : Frontier} : x.advance? s = some t <->
    ∃ id rest, s.queue = id :: rest ∧
      t = ⟨rest ++ x.toGraph.childIds id, s.found ++ x.toGraph.childIds id⟩ := by
  rcases s with ⟨queue, found⟩
  cases queue with
  | nil => simp [advance?]
  | cons id rest => simp [advance?, childIds_eq, eq_comm]

theorem mem_gather : after ∈ x.gather queue found <->
    StateTransition.Reaches x.advance? ⟨queue, found⟩ ⟨[], after⟩ := by
  rw [gather, Part.mem_map_iff]
  constructor
  · intro h
    rcases h with ⟨⟨left, all⟩, hmem, hall⟩
    rcases StateTransition.mem_eval.1 hmem with ⟨hreach, hend⟩
    cases left with
    | nil => exact hall ▸ hreach
    | cons next rest => cases hend
  · intro h
    exact ⟨_, StateTransition.mem_eval.2 ⟨h, rfl⟩, rfl⟩

theorem gather_nil (x : Indexed) (found : List String) : x.gather [] found = .some found :=
  Part.eq_some_iff.2 (mem_gather.2 .refl)

theorem gather_cons (next : String) (rest found : List String) :
    x.gather (next :: rest) found =
      x.gather (rest ++ x.toGraph.childIds next) (found ++ x.toGraph.childIds next) := by
  have hstep : x.advance? ⟨next :: rest, found⟩ =
      some ⟨rest ++ x.toGraph.childIds next, found ++ x.toGraph.childIds next⟩ :=
    advance?_eq_some.2 ⟨next, rest, rfl, rfl⟩
  rw [gather, gather, StateTransition.reaches_eval (.single hstep)]

/-- A search ends: the ids it has looked into become more with every step, and they are distinct ids
of nodes. -/
theorem exists_gather (hids : (x.nodes.map Node.id).Nodup)
    (hself : ¬ Relation.TransGen x.StandsIn id id) (hid : id ∈ x.nodes.map Node.id)
    {seen : List String} (h : x.Searched id seen queue found) :
    ∃ after, x.gather queue found = .some after ∧ x.Searched id (id :: after) [] after := by
  induction hleft : x.nodes.length - seen.length using Nat.strongRecOn
    generalizing seen queue found with
  | _ left ih =>
      cases queue with
      | nil =>
          refine ⟨found, x.gather_nil found, ?_⟩
          rw [← h.seen_eq]
          exact h
      | cons next rest =>
          have hle := h.length_le hid
          rw [List.length_cons] at hle
          have hless : x.nodes.length - (seen ++ [next]).length < left := by
            rw [List.length_append, List.length_singleton]
            omega
          rw [gather_cons]
          exact ih _ hless (h.step hids hself) rfl

theorem prefix_of_gather (h : after ∈ x.gather queue found) : found <+: after := by
  have hrun : ∀ s, StateTransition.Reaches x.advance? ⟨queue, found⟩ s -> found <+: s.found := by
    intro s hreach
    induction hreach with
    | refl => exact List.prefix_rfl
    | tail _ hstep ih =>
        rcases advance?_eq_some.1 hstep with ⟨next, rest, -, hnext⟩
        rw [hnext]
        exact ih.trans (List.prefix_append _ _)
  exact hrun _ (mem_gather.1 h)

/-!
# Generations

The queue holds a generation, followed by what of the next one was found already.
-/

theorem gather_append (ids rest found : List String) : x.gather (ids ++ rest) found =
    x.gather (rest ++ ids.flatMap x.toGraph.childIds)
      (found ++ ids.flatMap x.toGraph.childIds) := by
  induction ids generalizing rest found with
  | nil => simp only [List.nil_append, List.flatMap_nil, List.append_nil]
  | cons id ids ih =>
      rw [List.cons_append, gather_cons, List.append_assoc, ih, List.flatMap_cons,
        List.append_assoc, List.append_assoc]

theorem generations_nil (g : Graph) (n : Nat) : g.generations n [] = [] := by
  induction n with
  | zero => rfl
  | succ n ih => rw [Graph.generations, List.flatMap_nil, List.nil_append, ih]

/-- A search that ends finds one generation after another, and there are no more of them than there
are ids on its list. -/
theorem eq_generations_of_gather (n : Nat) {ids : List String}
    (h : after ∈ x.gather ids found) (hn : after.length ≤ found.length + n) :
    after = found ++ x.toGraph.generations n ids := by
  induction n generalizing ids found with
  | zero => rw [Graph.generations, List.append_nil, (prefix_of_gather h).eq_of_length_le hn]
  | succ n ih =>
      rw [← List.append_nil ids, gather_append, List.nil_append] at h
      rw [Graph.generations]
      cases hnext : ids.flatMap x.toGraph.childIds with
      | nil =>
          rw [hnext, List.append_nil, gather_nil] at h
          rw [generations_nil, List.append_nil, List.append_nil, Part.mem_some_iff.1 h]
      | cons c rest =>
          rw [hnext] at h
          have hroom : after.length ≤ (found ++ c :: rest).length + n := by
            rw [List.length_append, List.length_cons]
            omega
          rw [ih h hroom, List.append_assoc]

/-!
# Searches that never end
-/

/-- Something in the queue has an id nested in it, or is that id. -/
def Holds (x : Indexed) (id : String) (queue : List String) : Prop :=
  ∃ q ∈ queue, Relation.ReflTransGen x.StandsIn id q

/-- While the queue holds an id that is nested in itself, it does so after the next step. -/
theorem holds_of_advance? (hcycle : Relation.TransGen x.StandsIn id id) {s t : Frontier}
    (hstep : x.advance? s = some t) (h : x.Holds id s.queue) : x.Holds id t.queue := by
  rcases advance?_eq_some.1 hstep with ⟨next, rest, hqueue, ht⟩
  rcases h with ⟨q, hq, hidq⟩
  rw [ht]
  rw [hqueue] at hq
  rcases List.mem_cons.1 hq with heq | hq
  · -- a cycle that ends in the id that is taken off goes through what stands in it
    rcases Relation.TransGen.tail'_iff.1 (hcycle.trans_left hidq) with ⟨p, hidp, hpq⟩
    exact ⟨p, List.mem_append_right _ (Graph.mem_childIds_iff.2 (heq ▸ hpq)), hidp⟩
  · exact ⟨q, List.mem_append_left _ hq, hidq⟩

theorem gather_eq_none (hcycle : Relation.TransGen x.StandsIn id id) (h : x.Holds id queue)
    (found : List String) : x.gather queue found = .none := by
  have hrun : ∀ s, StateTransition.Reaches x.advance? ⟨queue, found⟩ s -> x.Holds id s.queue := by
    intro s hreach
    induction hreach with
    | refl => exact h
    | tail _ hstep ih => exact holds_of_advance? hcycle hstep ih
  rw [Part.eq_none_iff]
  intro after hafter
  rcases hrun _ (mem_gather.1 hafter) with ⟨q, hq, -⟩
  exact List.not_mem_nil hq

/-!
# Descendants
-/

theorem isSome_node?_iff : (x.node? id).isSome <-> id ∈ x.nodes.map Node.id := by
  rw [isSome_node?, contains_eq, Graph.contains_iff]

theorem descendants_of_notMem (hid : id ∉ x.nodes.map Node.id) :
    x.descendants id = .some (.error (.notFound id)) := by
  have hnone : x.node? id = none := by
    rwa [← isSome_node?_iff, Option.not_isSome_iff_eq_none] at hid
  rw [descendants, getNode, hnone]

theorem descendants_of_mem (hid : id ∈ x.nodes.map Node.id) :
    x.descendants id = (x.gather [id] []).map .ok := by
  rcases Option.isSome_iff_exists.1 (isSome_node?_iff.2 hid) with ⟨n, hn⟩
  rw [descendants, getNode, hn]

/-- The search in a node ends with its descendants, unless the node is nested in itself. -/
theorem gather_descendants (hids : (x.nodes.map Node.id).Nodup)
    (hself : ¬ Relation.TransGen x.StandsIn id id) (hid : id ∈ x.nodes.map Node.id) :
    x.gather [id] [] = .some (x.toGraph.descendants id) ∧
      x.ListsNested id (x.toGraph.descendants id) := by
  rcases exists_gather hids hself hid (.start x.toGraph id) with ⟨after, hafter, hsearched⟩
  have hlength : after.length ≤ ([] : List String).length + x.nodes.length := by
    have hle := hsearched.length_le hid
    simp only [List.length_cons, List.length_nil] at hle ⊢
    omega
  have hall : after = x.toGraph.descendants id :=
    eq_generations_of_gather x.nodes.length (Part.eq_some_iff.1 hafter) hlength
  rw [← hall]
  exact ⟨hafter, hsearched.listsNested⟩

/-- The search for what is nested in a node comes to an end, with all of it in order; only in a node
that is nested in itself it goes on for ever. -/
theorem descendants_total (hids : (x.nodes.map Node.id).Nodup) (id : String) :
    (id ∉ x.nodes.map Node.id -> x.descendants id = .some (.error (.notFound id))) ∧
    (id ∈ x.nodes.map Node.id -> ¬ Relation.TransGen x.StandsIn id id ->
      x.descendants id = .some (.ok (x.toGraph.descendants id)) ∧
        x.ListsNested id (x.toGraph.descendants id)) ∧
    (id ∈ x.nodes.map Node.id -> Relation.TransGen x.StandsIn id id ->
      x.descendants id = .none) := by
  refine ⟨descendants_of_notMem, fun hid hself => ?_, fun hid hcycle => ?_⟩
  · rcases gather_descendants hids hself hid with ⟨hgather, hnested⟩
    rw [descendants_of_mem hid, hgather, Part.map_some]
    exact ⟨rfl, hnested⟩
  · have hqueue : x.Holds id [id] := ⟨id, List.mem_singleton_self id, .refl⟩
    rw [descendants_of_mem hid, gather_eq_none hcycle hqueue, Part.map_none]

/-- Loops in loops, listed after what stands in them, and two that stand in each other. -/
def crates : Indexed :=
  ofParts
    [⟨"pebble", some "small", .insertionMarker⟩,
     ⟨"small", some "large", .block { label := "small" } (.loop {})⟩,
     ⟨"rope", some "large", .start⟩,
     ⟨"large", none, .block { label := "large" } (.loop {})⟩,
     ⟨"hook", some "nobody", .start⟩,
     ⟨"left", some "right", .block { label := "left" } (.loop {})⟩,
     ⟨"right", some "left", .block { label := "right" } (.loop {})⟩]
    []

theorem descendants_total_crates : (crates.nodes.map Node.id).Nodup ∧
    ¬ Relation.TransGen crates.StandsIn "large" "large" ∧
    crates.descendants "large" = .some (.ok ["small", "rope", "pebble"]) ∧
    crates.ListsNested "large" ["small", "rope", "pebble"] ∧
    crates.descendants "nobody" = .some (.error (.notFound "nobody")) ∧
    Relation.TransGen crates.StandsIn "left" "left" ∧ crates.descendants "left" = .none := by
  have hids : (crates.nodes.map Node.id).Nodup := by decide
  have htop : ∀ n ∈ crates.nodes, n.id = "large" -> n.parent = none := by decide
  have hself : ¬ Relation.TransGen crates.StandsIn "large" "large" := by
    intro h
    rcases Relation.TransGen.head'_iff.1 h with ⟨p, ⟨n, hn, hid, hparent⟩, -⟩
    rw [htop n hn hid] at hparent
    cases hparent
  have hleft : crates.StandsIn "left" "right" := ⟨_, List.mem_of_getElem? (i := 5) rfl, rfl, rfl⟩
  have hright : crates.StandsIn "right" "left" := ⟨_, List.mem_of_getElem? (i := 6) rfl, rfl, rfl⟩
  have hcycle := Relation.TransGen.head hleft (.single hright)
  have hdescendants : crates.toGraph.descendants "large" = ["small", "rope", "pebble"] := by decide
  have hlarge := (descendants_total hids "large").2.1 (by decide) hself
  rw [hdescendants] at hlarge
  exact ⟨hids, hself, hlarge.1, hlarge.2, (descendants_total hids "nobody").1 (by decide), hcycle,
    (descendants_total hids "left").2.2 (by decide) hcycle⟩

end Indexed

/-!
# The nest of a node
-/

namespace Graph

variable {g : Graph} {id : String}

theorem listsNested_descendants (h : g.shape.Nested) (hid : id ∈ g.shape.ids) :
    g.ListsNested id (g.descendants id) := by
  have hself : ¬ Relation.TransGen g.StandsIn id id := fun hcycle =>
    Nat.lt_irrefl _ (rank_lt_of_standsIn h hcycle)
  exact (Indexed.gather_descendants (x := .ofGraph g) (ids_shape g ▸ h.distinct) hself
    (ids_shape g ▸ hid)).2

theorem isNest_descendants (h : g.shape.Nested) (hid : id ∈ g.shape.ids) :
    g.shape.IsNest id (g.descendants id) := by
  have hlists := listsNested_descendants h hid
  constructor
  case notSelf =>
    intro hmem
    exact Nat.lt_irrefl _ (rank_lt_of_standsIn h ((hlists.mem_iff id).1 hmem))
  case closed =>
    intro x hx
    rw [hlists.mem_iff, Relation.TransGen.head'_iff]
    constructor
    · intro hin
      rcases hin with ⟨p, hin, hp⟩
      refine ⟨p, (standsIn_iff h hx).1 hin, ?_⟩
      rcases Relation.reflTransGen_iff_eq_or_transGen.1 hp with heq | hp
      · exact Or.inl heq.symm
      · exact Or.inr ((hlists.mem_iff p).2 hp)
    · intro hfound
      rcases hfound with ⟨p, hparent, hp⟩
      refine ⟨p, (standsIn_iff h hx).2 hparent, ?_⟩
      rcases hp with heq | hp
      · exact heq ▸ .refl
      · exact ((hlists.mem_iff p).1 hp).to_reflTransGen

end Graph
end Workflow
