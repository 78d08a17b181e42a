import Workflow.Proofs.Chain
import Workflow.Proofs.Conversion.Levels
import Workflow.Proofs.Conversion.Placement
import Workflow.Proofs.Run.Reopening

/-!
# What is written down of any graph

A graph without problems is written down whether or not it came from editing.  Every block of it
is then found at its place.  It is found once, and the document can be imported, exactly when no
chain passes through a block of another scope: the check looks at the chain that a block is on
and not at the blocks that are on a chain.
-/

namespace Workflow
namespace Graph

variable {g : Graph}

/-!
# Checked graphs
-/

/-- What the check tells of the nodes of a graph without problems. -/
structure Checked (g : Graph) : Prop where
  distinct : g.shape.ids.Nodup
  parents : ∀ n ∈ g.nodes, ∀ p, n.parent = some p ->
    ∃ m ∈ g.nodes, m.id = p ∧ ∃ b, m.block? = some b ∧ b.isContainer
  connected : ∀ n ∈ g.nodes, n.isBlock -> ∃ s, g.scopeOf? n.id = some s ∧ n.id ∈ g.chain s
  label : ∀ m ∈ g.nodes, ∀ n ∈ g.nodes, ∀ l, m.label? = some l -> n.label? = some l -> m = n
  branches : ∀ n ∈ g.nodes, ∀ c, n.conditional? = some c -> c.branchIds.Nodup

theorem checked_of_problems {parameters : List Parameter} (hids : g.shape.ids.Nodup)
    (h : g.problems parameters = []) : g.Checked where
  distinct := hids
  parents := by
    intro n hn p hp
    obtain ⟨before, hnone⟩ := nodeProblems_eq_nil (nodesProblems_eq_nil h) n
      (mem_nodes_in_order hids hn)
    have hparent := (List.append_eq_nil_iff.1 hnone).1
    rw [parentProblems, hp] at hparent
    dsimp only at hparent
    split at hparent
    · next hcontainer =>
        obtain ⟨m, hm, hmc⟩ := (Option.any_eq_true _ _).1 hcontainer
        obtain ⟨hmem, hid⟩ := mem_of_node? hm
        exact ⟨m, hmem, hid, (Option.any_eq_true _ _).1 hmc⟩
    · cases hparent
  connected := by
    intro n hn hblock
    obtain ⟨before, hnone⟩ := nodeProblems_eq_nil (nodesProblems_eq_nil h) n
      (mem_nodes_in_order hids hn)
    obtain ⟨id, parent, content⟩ := n
    cases content with
    | start => cases hblock
    | insertionMarker => cases hblock
    | block heading b =>
        have hproblems := (List.append_eq_nil_iff.1 hnone).2
        have hconnected := (List.append_eq_nil_iff.1 hproblems).2
        split at hconnected
        · next hcond =>
            obtain ⟨s, hs, hmem⟩ := (Option.any_eq_true _ _).1 hcond
            exact ⟨s, hs, List.contains_iff_mem.1 hmem⟩
        · cases hconnected
  label := fun m hm n hn l hml hnl => eq_of_label h hids hm hn hml hnl
  branches := fun n hn c hc => nodup_branchIds h hids hn hc

theorem parent_of_mem_bodyScopes {id : String} {b : Block} {s : Scope} (h : s ∈ bodyScopes id b) :
    s.parent = some id :=
  Role.parent_of_mem_scopes (b.scopes_role id ▸ h)

theorem mem_scopes_of_block {n : Node} {b : Block} {s : Scope} (hn : n ∈ g.nodes)
    (hb : n.block? = some b) (hs : s ∈ bodyScopes n.id b) : s ∈ g.scopes := by
  apply List.mem_cons_of_mem
  apply List.mem_flatMap.2
  refine ⟨n, hn, ?_⟩
  rwa [hb]

theorem mem_scopes_cases {s : Scope} (hs : s ∈ g.scopes) :
    s = .root ∨ ∃ n ∈ g.nodes, ∃ b, n.block? = some b ∧ s ∈ bodyScopes n.id b := by
  rcases List.mem_cons.1 hs with hroot | hs
  · exact Or.inl hroot
  · obtain ⟨n, hn, hs⟩ := List.mem_flatMap.1 hs
    cases hb : n.block? with
    | none =>
        rw [hb] at hs
        cases hs
    | some b =>
        rw [hb] at hs
        exact Or.inr ⟨n, hn, b, hb, hs⟩

theorem block?_of_mem (hids : g.shape.ids.Nodup) {n : Node} (hn : n ∈ g.nodes) :
    g.block? n.id = n.block? := by
  rw [block?, node?_eq_some hids hn, Option.bind_some]

theorem Checked.scopeOf? (h : g.Checked) {n : Node} (hn : n ∈ g.nodes) {s : Scope}
    (hs : g.scopeOf? n.id = some s) : s ∈ g.scopes ∧ s.parent = n.parent := by
  rw [Graph.scopeOf?, node?_eq_some h.distinct hn] at hs
  dsimp only at hs
  cases hp : n.parent with
  | none =>
      rw [hp] at hs
      cases hs
      exact ⟨List.mem_cons_self, rfl⟩
  | some p =>
      obtain ⟨m, hm, rfl, b, hb, hcontainer⟩ := h.parents n hn p hp
      rw [hp] at hs
      dsimp only at hs
      rw [node?_eq_some h.distinct hm] at hs
      dsimp only at hs
      rw [Node.conditional?, hb, Option.bind_some] at hs
      cases b with
      | leaf l => cases l <;> cases hcontainer
      | loop a =>
          cases hs
          exact ⟨mem_scopes_of_block hm hb (List.mem_singleton.2 rfl), rfl⟩
      | conditional c =>
          have hmem : s ∈ bodyScopes m.id (.conditional c) := List.mem_of_find?_eq_some hs
          exact ⟨mem_scopes_of_block hm hb hmem, parent_of_mem_bodyScopes hmem⟩

theorem Checked.nodup_bodyScopes (h : g.Checked) {id : String} {b : Block}
    (hb : g.block? id = some b) : (bodyScopes id b).Nodup := by
  cases b with
  | leaf l => exact List.nodup_nil
  | loop a => exact List.nodup_singleton _
  | conditional c =>
      obtain ⟨n, hn, hnb⟩ := Option.bind_eq_some_iff.1 hb
      have hc : n.conditional? = some c := by
        rw [Node.conditional?, hnb]
        rfl
      apply (h.branches n (mem_of_node? hn).1 c hc).map
      intro x y hxy
      exact Option.some.inj (congrArg Scope.branch hxy)

/-!
# Nesting without a cycle
-/

/-- Where nesting has no cycle there are fewer containers around a node than nodes. -/
theorem exists_depth (hacyclic : ∀ id, ¬ Relation.TransGen g.StandsIn id id) :
    ∃ depth : String -> Nat,
      (∀ m ∈ g.nodes, ∀ id, g.StandsIn id m.id -> depth m.id < depth id) ∧
      ∀ n ∈ g.nodes, depth n.id < g.nodes.length := by
  classical
  let around : String -> Node -> Bool := fun id m => decide (Relation.TransGen g.StandsIn id m.id)
  refine ⟨fun id => (g.nodes.filter (around id)).length, ?_, ?_⟩
  · intro m hm id hin
    apply length_filter_lt_length_filter _ hm
    · exact decide_eq_true (Relation.TransGen.single hin)
    · simpa only [around, decide_eq_true_eq] using hacyclic m.id
    · intro n _ hn
      exact decide_eq_true (Relation.TransGen.head hin (of_decide_eq_true hn))
  · intro n hn
    rw [List.length_filter_lt_length_iff_exists]
    refine ⟨n, hn, ?_⟩
    simpa only [around, decide_eq_true_eq] using hacyclic n.id

/-!
# What is met
-/

/-- What is met at one block of a scope: the block and what is met inside it. -/
def metAt (g : Graph) (levels : Nat) (s : Scope) (id : String) : List (Scope × String) :=
  match g.block? id with
  | none => []
  | some b => (s, id) :: (bodyScopes id b).flatMap (g.met levels)

theorem met_succ (g : Graph) (levels : Nat) (s : Scope) :
    g.met (levels + 1) s = (g.chain s).flatMap (g.metAt levels s) := rfl

theorem mem_metAt {levels : Nat} {s : Scope} {id : String} {x : Scope × String} :
    x ∈ g.metAt levels s id <-> ∃ b, g.block? id = some b ∧
      (x = (s, id) ∨ ∃ t ∈ bodyScopes id b, x ∈ g.met levels t) := by
  unfold metAt
  cases hb : g.block? id with
  | none => simp
  | some b => simp [List.mem_flatMap]

theorem mem_met_succ {levels : Nat} {s : Scope} {x : Scope × String} :
    x ∈ g.met (levels + 1) s <-> ∃ id ∈ g.chain s, ∃ b, g.block? id = some b ∧
      (x = (s, id) ∨ ∃ t ∈ bodyScopes id b, x ∈ g.met levels t) := by
  simp only [met_succ, List.mem_flatMap, mem_metAt]

theorem mem_scopes_of_block? {id : String} {b : Block} {s : Scope} (hb : g.block? id = some b)
    (hs : s ∈ bodyScopes id b) : s ∈ g.scopes := by
  obtain ⟨n, hn, hnb⟩ := Option.bind_eq_some_iff.1 hb
  obtain ⟨hmem, rfl⟩ := mem_of_node? hn
  exact mem_scopes_of_block hmem hnb hs

section Met

variable (h : g.Checked)
include h

/-- Every scope is come to while there are levels left for what stands in it. -/
theorem exists_met_subset {depth : String -> Nat}
    (hdepth : ∀ m ∈ g.nodes, ∀ id, g.StandsIn id m.id -> depth m.id < depth id)
    (hbound : ∀ n ∈ g.nodes, depth n.id < g.nodes.length) {n : Node} (hn : n ∈ g.nodes) {s : Scope}
    (hs : s ∈ g.scopes) (hparent : s.parent = n.parent) :
    ∃ levels, g.nodes.length ≤ levels + depth n.id ∧
      g.met levels s ⊆ g.met g.nodes.length .root := by
  induction hd : depth n.id using Nat.strongRecOn generalizing n s with
  | ind d ih =>
      cases hp : n.parent with
      | none =>
          rcases mem_scopes_cases hs with rfl | ⟨m, hm, b, hb, hscope⟩
          · exact ⟨g.nodes.length, Nat.le_add_right _ _, List.Subset.refl _⟩
          · cases ((parent_of_mem_bodyScopes hscope).symm.trans hparent).trans hp
      | some p =>
          obtain ⟨m, hm, rfl, b, hb, hscope⟩ : ∃ m ∈ g.nodes, m.id = p ∧
              ∃ b, m.block? = some b ∧ s ∈ bodyScopes m.id b := by
            rcases mem_scopes_cases hs with rfl | ⟨m, hm, b, hb, hscope⟩
            · cases hparent.trans hp
            · cases ((parent_of_mem_bodyScopes hscope).symm.trans hparent).trans hp
              exact ⟨m, hm, rfl, b, hb, hscope⟩
          have hlt := hdepth m hm n.id ⟨n, hn, rfl, hp⟩
          have hmb : m.isBlock := by
            rw [Node.isBlock, hb]
            rfl
          obtain ⟨t, ht, hmem⟩ := h.connected m hm hmb
          obtain ⟨htscope, htparent⟩ := h.scopeOf? hm ht
          obtain ⟨levels, hlevels, hsubset⟩ := ih (depth m.id) (hd ▸ hlt) hm htscope htparent rfl
          have hroom := hbound m hm
          cases levels with
          | zero => omega
          | succ levels =>
              refine ⟨levels, by omega, List.Subset.trans ?_ hsubset⟩
              intro x hx
              exact mem_met_succ.2 ⟨m.id, hmem, b, (block?_of_mem h.distinct hm).trans hb,
                Or.inr ⟨s, hscope, hx⟩⟩

theorem mem_met (hacyclic : ∀ id, ¬ Relation.TransGen g.StandsIn id id) {s : Scope}
    (hs : s ∈ g.scopes) {id : String} (hid : id ∈ g.chain s)
    (hblock : (g.block? id).isSome) : (s, id) ∈ g.met g.nodes.length .root := by
  obtain ⟨depth, hdepth, hbound⟩ := exists_depth hacyclic
  obtain ⟨n, hn, hparent⟩ := exists_of_mem_chain hid
  obtain ⟨levels, hlevels, hsubset⟩ :=
    exists_met_subset h hdepth hbound hn hs hparent.symm
  have hroom := hbound n hn
  cases levels with
  | zero => omega
  | succ levels =>
      obtain ⟨b, hb⟩ := Option.isSome_iff_exists.1 hblock
      exact hsubset (mem_met_succ.2 ⟨id, hid, b, hb, Or.inl rfl⟩)

end Met

theorem exists_node_of_block? {id : String} (h : (g.block? id).isSome) :
    ∃ n ∈ g.nodes, n.id = id ∧ n.isBlock := by
  obtain ⟨b, hb⟩ := Option.isSome_iff_exists.1 h
  obtain ⟨n, hn, hb⟩ := Option.bind_eq_some_iff.1 hb
  obtain ⟨hmem, hid⟩ := mem_of_node? hn
  refine ⟨n, hmem, hid, ?_⟩
  rw [Node.isBlock, hb]
  rfl

theorem of_mem_met (levels : Nat) : ∀ {s t : Scope} {id : String}, s ∈ g.scopes ->
    (t, id) ∈ g.met levels s -> t ∈ g.scopes ∧ id ∈ g.chain t ∧ (g.block? id).isSome := by
  induction levels with
  | zero =>
      intro s t id _ hmem
      cases hmem
  | succ levels ih =>
      intro s t id hs hmem
      obtain ⟨i, hi, b, hb, heq | ⟨u, hu, hmem⟩⟩ := mem_met_succ.1 hmem
      · cases heq
        rw [hb]
        exact ⟨hs, hi, rfl⟩
      · exact ih (mem_scopes_of_block? hb hu) hmem

/-!
# Chains apart
-/

/-- No chain passes through a block of another scope. -/
def ChainsApart (g : Graph) : Prop :=
  ∀ s ∈ g.scopes, ∀ id ∈ g.chain s, (g.block? id).isSome -> g.scopeOf? id = some s

section Apart

variable (h : g.Checked) (hacyclic : ∀ id, ¬ Relation.TransGen g.StandsIn id id)
  (hapart : g.ChainsApart)

include h hapart

theorem exists_node_of_mem_chain {s : Scope} (hs : s ∈ g.scopes) {id : String}
    (hid : id ∈ g.chain s) (hblock : (g.block? id).isSome) :
    ∃ n ∈ g.nodes, n.id = id ∧ n.parent = s.parent := by
  obtain ⟨n, hn, rfl, -⟩ := exists_node_of_block? hblock
  obtain ⟨-, hparent⟩ := h.scopeOf? hn (hapart s hs n.id hid hblock)
  exact ⟨n, hn, rfl, hparent.symm⟩

theorem nested_of_mem_metAt (levels : Nat) : ∀ {s t : Scope} {i id : String},
    (t, id) ∈ g.metAt levels s i ->
      (g.block? i).isSome ∧ Relation.ReflTransGen g.StandsIn id i := by
  induction levels with
  | zero =>
      intro s t i id hmem
      obtain ⟨b, hb, heq | ⟨u, -, hmem⟩⟩ := mem_metAt.1 hmem
      · cases heq
        exact ⟨by rw [hb]; rfl, .refl⟩
      · cases hmem
  | succ levels ih =>
      intro s t i id hmem
      obtain ⟨b, hb, heq | ⟨u, hu, hmem⟩⟩ := mem_metAt.1 hmem
      · cases heq
        exact ⟨by rw [hb]; rfl, .refl⟩
      · obtain ⟨j, hj, hmem⟩ := List.mem_flatMap.1 (met_succ g levels u ▸ hmem)
        obtain ⟨hjblock, hnested⟩ := ih hmem
        obtain ⟨m, hm, rfl, hparent⟩ :=
          exists_node_of_mem_chain h hapart (mem_scopes_of_block? hb hu) hj hjblock
        refine ⟨by rw [hb]; rfl, hnested.tail ⟨m, hm, rfl, ?_⟩⟩
        exact hparent.trans (parent_of_mem_bodyScopes hu)

theorem nested_of_mem_met {levels : Nat} {s t : Scope} {id : String}
    (hmem : (t, id) ∈ g.met levels s) :
    ∃ i ∈ g.chain s, (g.block? i).isSome ∧ Relation.ReflTransGen g.StandsIn id i := by
  cases levels with
  | zero => cases hmem
  | succ levels =>
      obtain ⟨i, hi, hmem⟩ := List.mem_flatMap.1 (met_succ g levels s ▸ hmem)
      exact ⟨i, hi, nested_of_mem_metAt h hapart levels hmem⟩

include hacyclic

/-- Nothing is met in two blocks of one body. -/
theorem eq_of_nested_in_chains {s t : Scope} (hs : s ∈ g.scopes) (ht : t ∈ g.scopes)
    (hparent : s.parent = t.parent) {i j id : String} (hi : i ∈ g.chain s) (hj : j ∈ g.chain t)
    (hiblock : (g.block? i).isSome) (hjblock : (g.block? j).isSome)
    (hidi : Relation.ReflTransGen g.StandsIn id i) (hidj : Relation.ReflTransGen g.StandsIn id j) :
    i = j ∧ s = t := by
  obtain ⟨m, hm, rfl, hmparent⟩ := exists_node_of_mem_chain h hapart hs hi hiblock
  obtain ⟨n, hn, rfl, hnparent⟩ := exists_node_of_mem_chain h hapart ht hj hjblock
  have heq := eq_of_standsIn h.distinct hacyclic hm hn
    ((hmparent.trans hparent).trans hnparent.symm) hidi hidj
  have hscope := (hapart s hs m.id hi hiblock).symm.trans (heq ▸ hapart t ht n.id hj hjblock)
  exact ⟨heq, Option.some.inj hscope⟩

theorem nodup_met (levels : Nat) : ∀ {s : Scope}, s ∈ g.scopes -> (g.met levels s).Nodup := by
  induction levels with
  | zero => exact fun _ => List.nodup_nil
  | succ levels ih =>
      intro s hs
      have hbody : ∀ {i b}, g.block? i = some b ->
          ((bodyScopes i b).flatMap (g.met levels)).Nodup := by
        intro i b hb
        have hscope : ∀ t ∈ bodyScopes i b, t ∈ g.scopes := fun t => mem_scopes_of_block? hb
        apply List.nodup_flatMap.2
        constructor
        · exact fun t ht => ih (hscope t ht)
        · apply (h.nodup_bodyScopes hb).imp_of_mem
          rintro t u ht hu hne ⟨v, id⟩ hvt hvu
          obtain ⟨j, hj, hjblock, hidj⟩ := nested_of_mem_met h hapart hvt
          obtain ⟨k, hk, hkblock, hidk⟩ := nested_of_mem_met h hapart hvu
          have hparent : t.parent = u.parent :=
            (parent_of_mem_bodyScopes ht).trans (parent_of_mem_bodyScopes hu).symm
          exact hne (eq_of_nested_in_chains h hacyclic hapart (hscope t ht) (hscope u hu) hparent
            hj hk hjblock hkblock hidj hidk).2
      rw [met_succ]
      apply List.nodup_flatMap.2
      constructor
      · intro i hi
        rw [metAt]
        cases hb : g.block? i with
        | none => exact List.nodup_nil
        | some b =>
            refine List.nodup_cons.2 ⟨fun hmem => ?_, hbody hb⟩
            -- a block is not nested in itself
            obtain ⟨t, ht, hmem⟩ := List.mem_flatMap.1 hmem
            obtain ⟨j, hj, hjblock, hij⟩ := nested_of_mem_met h hapart hmem
            obtain ⟨m, hm, rfl, hparent⟩ :=
              exists_node_of_mem_chain h hapart (mem_scopes_of_block? hb ht) hj hjblock
            exact hacyclic i (Relation.TransGen.tail' hij
              ⟨m, hm, rfl, hparent.trans (parent_of_mem_bodyScopes ht)⟩)
      · apply (g.nodup_chain s).imp_of_mem
        intro i j hi hj hne x hxi hxj
        obtain ⟨hiblock, hidi⟩ := nested_of_mem_metAt h hapart levels hxi
        obtain ⟨hjblock, hidj⟩ := nested_of_mem_metAt h hapart levels hxj
        exact hne (eq_of_nested_in_chains h hacyclic hapart hs hs rfl hi hj hiblock hjblock
          hidi hidj).1

end Apart

/-!
# The document
-/

section Document

variable {f : FrontMatter} {d : Definition} (hd : g.toDefinition? f = .ok d)
include hd

theorem placements_eq_met :
    d.placements = (g.met g.nodes.length .root).filterMap g.placement? := by
  obtain ⟨-, rfl⟩ := toDefinition?_eq_ok.1 hd
  exact g.listPlacements_descriptorsTo g.nodes.length .root

theorem labels_eq_met :
    d.labels = (g.met g.nodes.length .root).filterMap fun m => g.labelOf? m.2 := by
  rw [d.labels_eq_placements, placements_eq_met hd, List.map_filterMap]
  congr 1
  funext m
  rw [placement?, labelOf?]
  cases g.node? m.2 with
  | none => rfl
  | some n =>
      obtain ⟨id, parent, content⟩ := n
      cases content <;> rfl

omit hd in
theorem length_placesOf (d : Definition) (l : String) :
    (d.placesOf l).length = d.labels.count l := by
  rw [Definition.placesOf, ← List.countP_eq_length_filter, d.labels_eq_placements, List.count,
    List.countP_map]
  rfl

variable (hids : g.shape.ids.Nodup)
  (hacyclic : ∀ id, ¬ Relation.TransGen g.StandsIn id id)
include hids hacyclic

/-- Every block is written down at the place where it stands. -/
theorem exists_place {n : Node} (hn : n ∈ g.nodes) {h : Heading} {b : Block}
    (hc : n.content = .block h b) : ∃ p ∈ d.placesOf h.label,
      p.container = n.parent.bind g.labelOf? ∧ p.branch = (g.scopeOf? n.id).bind Scope.branch ∧
        p.heading = h ∧ p.block = b.reopened := by
  have hchecked := checked_of_problems hids (toDefinition?_eq_ok.1 hd).1
  have hb : n.block? = some b := by
    rw [Node.block?, hc]
  obtain ⟨s, hs, hmem⟩ := hchecked.connected n hn (by rw [Node.isBlock, hb]; rfl)
  obtain ⟨hscope, hparent⟩ := hchecked.scopeOf? hn hs
  have hmet := mem_met hchecked hacyclic hscope hmem (by rw [block?_of_mem hids hn, hb]; rfl)
  have hplace := placement?_eq (s := s) (node?_eq_some hids hn) hc
  refine ⟨⟨s.parent.bind g.labelOf?, s.branch, h, b.reopened⟩,
    List.mem_filter.2 ⟨?_, beq_self_eq_true h.label⟩, ?_, ?_, rfl, rfl⟩
  · rw [placements_eq_met hd]
    exact List.mem_filterMap.2 ⟨_, hmet, hplace⟩
  · rw [hparent]
  · rw [hs]
    rfl

theorem nodup_labels_iff_chainsApart : d.labels.Nodup <-> g.ChainsApart := by
  have hchecked := checked_of_problems hids (toDefinition?_eq_ok.1 hd).1
  rw [labels_eq_met hd]
  constructor
  · intro hnodup s hs id hid hblock
    obtain ⟨n, hn, rfl, hnblock⟩ := exists_node_of_block? hblock
    obtain ⟨t, ht, hmem⟩ := hchecked.connected n hn hnblock
    obtain ⟨l, hl⟩ := Node.exists_label hnblock
    have hlabel : g.labelOf? n.id = some l := by
      rw [labelOf?, node?_eq_some hids hn, Option.bind_some, hl]
    have heq := eq_of_nodup_filterMap hnodup (mem_met hchecked hacyclic hs hid hblock)
      (mem_met hchecked hacyclic (hchecked.scopeOf? hn ht).1 hmem hblock) hlabel hlabel
    rw [ht, (Prod.mk.inj heq).1]
  · intro hapart
    apply List.pairwise_filterMap.2
    apply (nodup_met hchecked hacyclic hapart _ List.mem_cons_self).imp_of_mem
    rintro ⟨s, i⟩ ⟨t, j⟩ hi hj hne l hl k hk rfl
    obtain ⟨hs, hischain, hiblock⟩ := of_mem_met _ List.mem_cons_self hi
    obtain ⟨ht, hjchain, hjblock⟩ := of_mem_met _ List.mem_cons_self hj
    obtain ⟨m, hm, rfl, -⟩ := exists_node_of_block? hiblock
    obtain ⟨n, hn, rfl, -⟩ := exists_node_of_block? hjblock
    rw [labelOf?, node?_eq_some hids hm, Option.bind_some] at hl
    rw [labelOf?, node?_eq_some hids hn, Option.bind_some] at hk
    obtain rfl := hchecked.label m hm n hn l hl hk
    have hscope := (hapart s hs m.id hischain hiblock).symm.trans (hapart t ht m.id hjchain hjblock)
    exact hne (by rw [Option.some.inj hscope])

theorem nodup_labels_iff_once : d.labels.Nodup <->
    ∀ n ∈ g.nodes, ∀ l, n.label? = some l -> (d.placesOf l).length = 1 := by
  constructor
  · intro hnodup n hn l hl
    obtain ⟨h, hh, rfl⟩ := Option.map_eq_some_iff.1 hl
    obtain ⟨b, hc⟩ := Node.exists_carried_of_heading hh
    obtain ⟨p, hp, -, -, rfl, -⟩ :=
      exists_place hd hids hacyclic hn (Content.carried?_eq_some.1 hc)
    rw [length_placesOf]
    apply List.count_eq_one_of_mem hnodup
    rw [d.labels_eq_placements]
    exact List.mem_map_of_mem (List.mem_of_mem_filter hp)
  · intro honce
    apply List.nodup_iff_count_le_one.2
    intro l
    by_cases hl : l ∈ d.labels
    · rw [labels_eq_met hd] at hl
      obtain ⟨m, -, hlabel⟩ := List.mem_filterMap.1 hl
      obtain ⟨n, hn, hlabel⟩ := Option.bind_eq_some_iff.1 hlabel
      rw [← length_placesOf, honce n (mem_of_node? hn).1 l hlabel]
    · rw [List.count_eq_zero_of_not_mem hl]
      exact Nat.zero_le 1

omit hids hacyclic in
theorem exists_toDraft?_iff (s : Supply) : (∃ d', d.toDraft? s = .ok d') <-> d.labels.Nodup := by
  obtain ⟨-, rfl⟩ := toDefinition?_eq_ok.1 hd
  exact (Definition.exists_toDraft?_iff_labels _ s).trans (and_iff_right rfl)

/-- Of a graph that is written down every block is at its place.  The document can be imported
again, and every block is in it once, exactly when the chains of the graph are apart. -/
theorem places_and_toDraft?_iff_chainsApart (s : Supply) :
    (∀ n ∈ g.nodes, ∀ h b, n.content = .block h b -> ∃ p ∈ d.placesOf h.label,
      p.container = n.parent.bind g.labelOf? ∧ p.branch = (g.scopeOf? n.id).bind Scope.branch ∧
        p.heading = h ∧ p.block = b.reopened) ∧
    ((∀ n ∈ g.nodes, ∀ l, n.label? = some l -> (d.placesOf l).length = 1) <-> g.ChainsApart) ∧
    ((∃ d', d.toDraft? s = .ok d') <-> g.ChainsApart) := by
  have hlabels := nodup_labels_iff_chainsApart hd hids hacyclic
  refine ⟨fun n hn h b hc => exists_place hd hids hacyclic hn hc, ?_, ?_⟩
  · exact (nodup_labels_iff_once hd hids hacyclic).symm.trans hlabels
  · exact (exists_toDraft?_iff hd s).trans hlabels

end Document

/-- Both branches of a conditional go through one block. -/
def crossed : Graph where
  nodes :=
    [⟨"start", none, .start⟩, ⟨"end", none, .insertionMarker⟩,
      ⟨"fork", none, .block { label := "fork" } (.conditional
        { branches :=
            [{ id := "left", label := "If", expression := some "total > 100" },
              { id := "right", label := "Else", isDefault := true }]
          active := "left" })⟩,
      ⟨"open", some "fork", .start⟩, ⟨"close", some "fork", .insertionMarker⟩,
      ⟨"inner", some "fork", .block { label := "inner" } (.leaf (.wait {}))⟩]
  edges :=
    [⟨"e1", "start", "fork", .insertable, none, false⟩, ⟨"e2", "fork", "end", .plain, none, false⟩,
      ⟨"e3", "open", "inner", .branch, some ⟨"fork", "left"⟩, false⟩,
      ⟨"e4", "inner", "close", .branch, some ⟨"fork", "left"⟩, false⟩,
      ⟨"e5", "open", "inner", .branch, some ⟨"fork", "right"⟩, true⟩,
      ⟨"e6", "inner", "close", .branch, some ⟨"fork", "right"⟩, true⟩]

theorem acyclic_crossed : ∀ id, ¬ Relation.TransGen crossed.StandsIn id id := by
  have hfork : ∀ {id container}, crossed.StandsIn id container ->
      container = "fork" ∧ id ≠ "fork" := by
    rintro id container ⟨n, hn, rfl, hparent⟩
    simp only [crossed, List.mem_cons, List.not_mem_nil, or_false] at hn
    rcases hn with rfl | rfl | rfl | rfl | rfl | rfl
    · cases hparent
    · cases hparent
    · cases hparent
    · exact ⟨(Option.some.inj hparent).symm, by decide⟩
    · exact ⟨(Option.some.inj hparent).symm, by decide⟩
    · exact ⟨(Option.some.inj hparent).symm, by decide⟩
  intro id hcycle
  obtain ⟨p, hp, -⟩ := Relation.TransGen.head'_iff.1 hcycle
  obtain ⟨q, -, hq⟩ := Relation.TransGen.tail'_iff.1 hcycle
  exact (hfork hp).2 (hfork hq).1

theorem problems_crossed : crossed.problems (crossed.reconcile []) = [] := by
  decide +kernel

theorem places_and_toDraft?_iff_chainsApart_crossed :
    ∃ d, crossed.toDefinition? { title := "crossed" } = .ok d ∧
      (∃ p ∈ d.placesOf "inner", p.container = some "fork") ∧
      ((∃ d', d.toDraft? = .ok d') <-> crossed.ChainsApart) ∧ ¬ crossed.ChainsApart := by
  have hd : crossed.toDefinition? { title := "crossed" } = .ok _ :=
    toDefinition?_eq_ok.2 ⟨problems_crossed, rfl⟩
  obtain ⟨hplaces, -, hdraft⟩ :=
    places_and_toDraft?_iff_chainsApart hd (by decide) acyclic_crossed {}
  obtain ⟨p, hp, hcontainer, -⟩ := hplaces
    ⟨"inner", some "fork", .block { label := "inner" } (.leaf (.wait {}))⟩ (by simp [crossed])
    { label := "inner" } (.leaf (.wait {})) rfl
  refine ⟨_, hd, ⟨p, hp, hcontainer⟩, hdraft, fun hapart => ?_⟩
  have hright := hapart (.ofBranch "fork" "right") (by decide +kernel) "inner" (by decide +kernel)
    (by decide +kernel)
  have hleft : crossed.scopeOf? "inner" = some (.ofBranch "fork" "left") := by decide +kernel
  have heq := congrArg (Option.bind · Scope.branch) (hleft.symm.trans hright)
  exact absurd heq (by decide)

/-- A graph without problems that is written down with one block twice. -/
theorem toDraft?_crossed : crossed.shape.ids.Nodup ∧
    (∀ id, ¬ Relation.TransGen crossed.StandsIn id id) ∧
    ∃ d, crossed.toDefinition? { title := "crossed" } = .ok d ∧
      d.labels = ["fork", "inner", "inner"] ∧ d.toDraft? = .error (.duplicateLabel "inner") := by
  refine ⟨by decide, acyclic_crossed, _, toDefinition?_eq_ok.2 ⟨problems_crossed, rfl⟩, ?_, ?_⟩
  · decide +kernel
  · rfl

end Graph
end Workflow
