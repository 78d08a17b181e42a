import Workflow.Proofs.Chain
import Workflow.Proofs.Order

/-!
# The walk of any graph

The order of a graph is walked from scope to scope: after an id come the chains inside it, and then
the rest of the chain it is on.  The walk comes to an end whatever the nodes and edges are, since an
id that is listed is not entered again.  It lists no id twice, and only ids that are on some chain.
-/

namespace Workflow
namespace Graph

variable {g : Graph}

/-!
# Walks

A walk of some ids goes from what is listed before them to what is listed after them.
-/

inductive Walks (g : Graph) : List String -> List String -> List String -> Prop where
  | done (listed : List String) : Walks g [] listed listed
  | again {id : String} {rest listed after : List String} :
      id ∈ listed -> Walks g rest listed after -> Walks g (id :: rest) listed after
  | enter {id : String} {rest listed between after : List String} :
      id ∉ listed -> Walks g (g.bodyIds id) (listed ++ [id]) between ->
        Walks g rest between after -> Walks g (id :: rest) listed after

theorem Walks.split {ids listed after : List String} (h : g.Walks ids listed after) :
    ∀ {first second : List String}, ids = first ++ second ->
      ∃ between, g.Walks first listed between ∧ g.Walks second between after := by
  induction h with
  | done listed =>
      intro first second hids
      rcases List.append_eq_nil_iff.1 hids.symm with ⟨rfl, rfl⟩
      exact ⟨listed, .done listed, .done listed⟩
  | @again id rest listed after hlisted hrest ih =>
      intro first second hids
      rcases List.cons_eq_append_iff.1 hids with ⟨rfl, rfl⟩ | ⟨first, rfl, hsplit⟩
      · exact ⟨listed, .done listed, .again hlisted hrest⟩
      · rcases ih hsplit with ⟨between, hfirst, hsecond⟩
        exact ⟨between, .again hlisted hfirst, hsecond⟩
  | @enter id rest listed inside after hnew hinside hrest _ ih =>
      intro first second hids
      rcases List.cons_eq_append_iff.1 hids with ⟨rfl, rfl⟩ | ⟨first, rfl, hsplit⟩
      · exact ⟨listed, .done listed, .enter hnew hinside hrest⟩
      · rcases ih hsplit with ⟨between, hfirst, hsecond⟩
        exact ⟨between, .enter hnew hinside hfirst, hsecond⟩

theorem visit_nil (g : Graph) (order : List String) : g.visit [] order = order := by
  rw [visit]

theorem visit_append (g : Graph) (first order second : List String) :
    g.visit (first ++ second) order = g.visit second (g.visit first order) := by
  induction first, order using visit.induct g with
  | case1 order => rw [List.nil_append, visit_nil]
  | case2 order id rest hlisted ih =>
      rw [List.cons_append, visit, visit, if_pos hlisted, if_pos hlisted]
      exact ih
  | case3 order id rest hnew ih =>
      rw [List.cons_append, visit, visit, if_neg hnew, if_neg hnew, ← List.append_assoc]
      exact ih

theorem walks_visit (g : Graph) (agenda order : List String) :
    g.Walks agenda order (g.visit agenda order) := by
  induction agenda, order using visit.induct g with
  | case1 order =>
      rw [visit_nil]
      exact .done order
  | case2 order id rest hlisted ih =>
      rw [visit, if_pos hlisted]
      exact .again (List.contains_iff_mem.1 hlisted) ih
  | case3 order id rest hnew ih =>
      rw [visit, if_neg hnew]
      rcases ih.split rfl with ⟨between, hinside, hrest⟩
      exact .enter (fun hmem => hnew (List.contains_iff_mem.2 hmem)) hinside hrest

/-- The visit is the one walk there is. -/
theorem walks_iff {ids listed after : List String} :
    g.Walks ids listed after <-> after = g.visit ids listed := by
  constructor
  · intro h
    induction h with
    | done listed => rw [visit_nil]
    | again hlisted _ ih =>
        rw [visit, if_pos (List.contains_iff_mem.2 hlisted)]
        exact ih
    | enter hnew _ _ ihinside ihrest =>
        rw [visit, if_neg fun hmem => hnew (List.contains_iff_mem.1 hmem), visit_append, ← ihinside]
        exact ihrest
  · intro h
    rw [h]
    exact walks_visit g ids listed

/-!
# What a walk lists
-/

theorem exists_chain_of_mem_bodyIds {container id : String} (h : id ∈ g.bodyIds container) :
    ∃ s, id ∈ g.chain s := by
  unfold bodyIds at h
  split at h
  · cases h
  · rcases List.mem_flatMap.1 h with ⟨s, -, hid⟩
    exact ⟨s, hid⟩

theorem Walks.nodup {ids listed after : List String} (h : g.Walks ids listed after)
    (hlisted : listed.Nodup) : after.Nodup := by
  induction h with
  | done _ => exact hlisted
  | again _ _ ih => exact ih hlisted
  | enter hnew _ _ ihinside ihrest =>
      apply ihrest
      apply ihinside
      rw [← List.concat_eq_append, List.nodup_concat]
      exact ⟨hnew, hlisted⟩

theorem Walks.mem_cases {ids listed after : List String} (h : g.Walks ids listed after)
    {id : String} (hid : id ∈ after) :
    id ∈ listed ∨ id ∈ ids ∨ ∃ s, id ∈ g.chain s := by
  induction h with
  | done _ => exact Or.inl hid
  | again _ _ ih =>
      rcases ih hid with hlisted | hrest | hchain
      · exact Or.inl hlisted
      · exact Or.inr (Or.inl (List.mem_cons_of_mem _ hrest))
      · exact Or.inr (Or.inr hchain)
  | @enter first rest listed between after _ _ _ ihinside ihrest =>
      rcases ihrest hid with hbetween | hrest | hchain
      · rcases ihinside hbetween with hlisted | hinside | hchain
        · rcases List.mem_append.1 hlisted with hlisted | hfirst
          · exact Or.inl hlisted
          · exact Or.inr (Or.inl (List.mem_cons.2 (Or.inl (List.mem_singleton.1 hfirst))))
        · exact Or.inr (Or.inr (exists_chain_of_mem_bodyIds hinside))
        · exact Or.inr (Or.inr hchain)
      · exact Or.inr (Or.inl (List.mem_cons_of_mem _ hrest))
      · exact Or.inr (Or.inr hchain)

/-!
# The order
-/

theorem walks_order (g : Graph) : ∃ listed,
    (∀ after, g.Walks (g.chain .root) [] after <-> after = listed) ∧
      g.order = g.appendUnlisted listed :=
  ⟨g.visit (g.chain .root) [], fun _ => walks_iff, rfl⟩

theorem nodup_order (g : Graph) : g.order.Nodup :=
  nodup_foldl_append _ _ ((walks_visit g _ _).nodup List.nodup_nil)

theorem mem_order_cases {id : String} (h : id ∈ g.order) :
    id ∈ g.nodes.map Node.id ∨ ∃ e ∈ g.edges, e.target = id := by
  have hchain : ∀ {s : Scope}, id ∈ g.chain s ->
      id ∈ g.nodes.map Node.id ∨ ∃ e ∈ g.edges, e.target = id := by
    intro s hid
    rcases mem_chain_cases hid with ⟨n, hn, rfl, -⟩ | ⟨e, he, -, htarget⟩
    · exact Or.inl (List.mem_map_of_mem hn)
    · exact Or.inr ⟨e, he, htarget⟩
  rcases (mem_foldl_append _ _).1 h with hwalked | hnode
  · rcases (walks_visit g _ _).mem_cases hwalked with hnil | hroot | ⟨s, hshown⟩
    · cases hnil
    · exact hchain hroot
    · exact hchain hshown
  · exact Or.inl hnode

theorem contains_iff {id : String} : g.contains id <-> id ∈ g.nodes.map Node.id := by
  simp [contains]

theorem contains_of_mem {n : Node} (hn : n ∈ g.nodes) : g.contains n.id :=
  contains_iff.2 (List.mem_map_of_mem hn)

theorem exists_of_contains {id : String} (h : g.contains id) : ∃ n ∈ g.nodes, n.id = id :=
  List.mem_map.1 (contains_iff.1 h)

/-- The order of any graph lists each of its nodes once and nothing that no edge leads to, and it
ends: the walk comes to an end, and so does every chain that it goes along. -/
theorem order_total (g : Graph) :
    (∃ listed, (∀ after, g.Walks (g.chain .root) [] after <-> after = listed) ∧
      g.order = g.appendUnlisted listed) ∧
    (∀ s id next, id ∈ g.chain s -> g.next? s id = some next -> next ∈ g.chain s) ∧
    g.order.Nodup ∧
    (∀ n ∈ g.nodes, n.id ∈ g.order) ∧
    (∀ id ∈ g.order, ¬ g.contains id -> ∃ e ∈ g.edges, e.target = id) ∧
    ((∀ e ∈ g.edges, g.contains e.source ∧ g.contains e.target) -> (g.nodes.map Node.id).Nodup ->
      g.order.Perm (g.nodes.map Node.id)) := by
  have htargets : ∀ id ∈ g.order, ¬ g.contains id -> ∃ e ∈ g.edges, e.target = id := by
    intro id hid hunknown
    rcases mem_order_cases hid with hnode | htarget
    · exact absurd (contains_iff.2 hnode) hunknown
    · exact htarget
  refine ⟨walks_order g, fun s id next => next?_mem_chain, nodup_order g, fun n => mem_order,
    htargets, ?_⟩
  intro hjoined hids
  rw [List.perm_ext_iff_of_nodup (nodup_order g) hids]
  intro id
  constructor
  · intro hid
    by_contra hunknown
    rcases htargets id hid fun hnode => hunknown (contains_iff.1 hnode) with ⟨e, he, rfl⟩
    exact hunknown (contains_iff.1 (hjoined e he).2)
  · intro hid
    rcases List.mem_map.1 hid with ⟨n, hn, rfl⟩
    exact mem_order hn

/-- Two loops that stand in each other, with edges that go round between their bodies. -/
def tangled : Graph where
  nodes :=
    [⟨"start", none, .start⟩,
      ⟨"outer", some "inner", .block { label := "outer" } (.loop {})⟩,
      ⟨"inner", some "outer", .block { label := "inner" } (.loop {})⟩,
      ⟨"alone", some "nobody", .insertionMarker⟩]
  edges :=
    [⟨"e1", "start", "outer", .insertable, none, false⟩,
      ⟨"e2", "outer", "inner", .insertable, none, false⟩,
      ⟨"e3", "inner", "outer", .plain, none, true⟩]

theorem order_total_tangled :
    (∀ e ∈ tangled.edges, tangled.contains e.source ∧ tangled.contains e.target) ∧
      (tangled.nodes.map Node.id).Nodup ∧
      tangled.order.Perm ["start", "outer", "inner", "alone"] := by
  have hjoined : ∀ e ∈ tangled.edges, tangled.contains e.source ∧ tangled.contains e.target := by
    decide
  have hids : (tangled.nodes.map Node.id).Nodup := by decide
  exact ⟨hjoined, hids, (order_total tangled).2.2.2.2.2 hjoined hids⟩

end Graph
end Workflow
