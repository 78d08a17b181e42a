import Mathlib.Data.List.Perm.Subperm
import Workflow.Graph.Chain

/-!
# Chains of any graph

Whatever the nodes and edges are, a chain passes through no id twice, begins at a node and goes on
along edges.  It ends only where there is no next id or the next one has been passed: every id that
it goes on from is the source of another edge, so it is given enough steps.
-/

namespace Workflow
namespace Graph

variable {g : Graph}

/-!
# What is on a chain
-/

theorem follow_nodup (s : Scope) (fuel : Nat) : ∀ (seen : List String) (id? : Option String),
    (g.follow s fuel seen id?).Nodup ∧ ∀ id ∈ g.follow s fuel seen id?, id ∉ seen := by
  induction fuel with
  | zero => simp [follow]
  | succ fuel ih =>
      intro seen id?
      cases id? with
      | none => simp [follow]
      | some id =>
          rw [follow]
          split
          · simp
          · next hseen =>
              obtain ⟨hnodup, hfresh⟩ := ih (id :: seen) (g.next? s id)
              constructor
              · exact List.nodup_cons.2 ⟨fun hmem => hfresh id hmem List.mem_cons_self, hnodup⟩
              · intro i hi
                rcases List.mem_cons.1 hi with rfl | hi
                · exact fun hmem => hseen (List.contains_iff_mem.2 hmem)
                · exact fun hmem => hfresh i hi (List.mem_cons_of_mem _ hmem)

theorem nodup_chain (g : Graph) (s : Scope) : (g.chain s).Nodup :=
  (follow_nodup s _ [] _).1

theorem exists_node_of_head? {s : Scope} {id : String} (h : g.head? s = some id) :
    ∃ n ∈ g.nodes, n.id = id ∧ n.parent = s.parent := by
  unfold head? at h
  split at h
  · next n hn =>
      cases h
      have hparent := List.find?_some hn
      rw [Bool.and_eq_true, beq_iff_eq] at hparent
      exact ⟨n, List.mem_of_find?_eq_some hn, rfl, hparent.1⟩
  · rcases Option.map_eq_some_iff.1 h with ⟨n, hn, rfl⟩
    have hparent := List.find?_some hn
    rw [Bool.and_eq_true, beq_iff_eq] at hparent
    exact ⟨n, List.mem_of_find?_eq_some hn, rfl, hparent.1⟩

theorem exists_of_mem_chain {s : Scope} {id : String} (h : id ∈ g.chain s) :
    ∃ n ∈ g.nodes, n.parent = s.parent := by
  cases hhead : g.head? s with
  | none =>
      rw [chain, hhead] at h
      cases h
  | some first =>
      rcases exists_node_of_head? hhead with ⟨n, hn, -, hparent⟩
      exact ⟨n, hn, hparent⟩

theorem exists_edge_of_next? {s : Scope} {id next : String} (h : g.next? s id = some next) :
    ∃ e ∈ g.edges, s.admits e ∧ e.source = id ∧ e.target = next := by
  rcases Option.map_eq_some_iff.1 h with ⟨e, he, rfl⟩
  have hadmits := List.find?_some he
  rw [Bool.and_eq_true, beq_iff_eq] at hadmits
  exact ⟨e, List.mem_of_find?_eq_some he, hadmits.2, hadmits.1, rfl⟩

theorem mem_follow_cases {s : Scope} {id : String} (fuel : Nat) :
    ∀ {seen : List String} {id? : Option String}, id ∈ g.follow s fuel seen id? ->
      id? = some id ∨ ∃ e ∈ g.edges, s.admits e ∧ e.target = id := by
  induction fuel with
  | zero =>
      intro seen id? h
      cases h
  | succ fuel ih =>
      intro seen id? h
      cases id? with
      | none => cases h
      | some first =>
          rw [follow] at h
          split at h
          · cases h
          · rcases List.mem_cons.1 h with rfl | h
            · exact Or.inl rfl
            · rcases ih h with hnext | htarget
              · rcases exists_edge_of_next? hnext with ⟨e, he, hadmits, -, htarget⟩
                exact Or.inr ⟨e, he, hadmits, htarget⟩
              · exact Or.inr htarget

theorem mem_chain_cases {s : Scope} {id : String} (h : id ∈ g.chain s) :
    (∃ n ∈ g.nodes, n.id = id ∧ n.parent = s.parent) ∨
      ∃ e ∈ g.edges, s.admits e ∧ e.target = id := by
  rcases mem_follow_cases _ h with hhead | htarget
  · exact Or.inl (exists_node_of_head? hhead)
  · exact Or.inr htarget

/-!
# Where a chain ends
-/

/-- After each id of a list, and first of all, comes an id of the list or one passed before. -/
def RunsOut (g : Graph) (s : Scope) (seen ids : List String) (id? : Option String) : Prop :=
  (∀ first, id? = some first -> first ∈ seen ++ ids) ∧
    ∀ id ∈ ids, ∀ next, g.next? s id = some next -> next ∈ seen ++ ids

theorem RunsOut.cons {s : Scope} {seen rest : List String} {id : String}
    (h : g.RunsOut s (id :: seen) rest (g.next? s id)) :
    g.RunsOut s seen (id :: rest) (some id) := by
  have hmove : ∀ {i}, i ∈ id :: seen ++ rest -> i ∈ seen ++ id :: rest := by
    intro i hi
    simpa [or_left_comm] using hi
  constructor
  · intro first hfirst
    cases hfirst
    exact List.mem_append_right _ List.mem_cons_self
  · intro i hi next hnext
    rcases List.mem_cons.1 hi with rfl | hi
    · exact hmove (h.1 next hnext)
    · exact hmove (h.2 i hi next hnext)

theorem follow_none (g : Graph) (s : Scope) (fuel : Nat) (seen : List String) :
    g.follow s fuel seen none = [] := by
  cases fuel <;> rfl

/-- The steps reach to the end, or each of them has gone on along another edge. -/
theorem runsOut_follow (s : Scope) (fuel : Nat) : ∀ (seen : List String) (id? : Option String),
    g.RunsOut s seen (g.follow s fuel seen id?) id? ∨
      (g.follow s fuel seen id?).length = fuel ∧
        ∀ id ∈ g.follow s fuel seen id?, id ∈ g.edges.map Edge.source := by
  induction fuel with
  | zero =>
      intro seen id?
      exact Or.inr ⟨rfl, fun id hid => absurd hid List.not_mem_nil⟩
  | succ fuel ih =>
      intro seen id?
      cases id? with
      | none => simp [follow, RunsOut]
      | some id =>
          rw [follow]
          split
          · next hseen =>
              simp [RunsOut, List.contains_iff_mem.1 hseen]
          · cases hnext : g.next? s id with
            | none =>
                rw [follow_none]
                apply Or.inl
                apply RunsOut.cons
                simp [RunsOut, hnext]
            | some after =>
                rcases ih (id :: seen) (some after) with hends | ⟨hlength, hsources⟩
                · rw [← hnext] at hends ⊢
                  exact Or.inl hends.cons
                · rcases exists_edge_of_next? hnext with ⟨e, he, -, rfl, -⟩
                  apply Or.inr
                  constructor
                  · rw [List.length_cons, hlength]
                  · exact List.forall_mem_cons.2 ⟨List.mem_map_of_mem he, hsources⟩

/-- A chain is not broken off: it holds what comes next after each of its ids. -/
theorem next?_mem_chain {s : Scope} {id next : String} (hid : id ∈ g.chain s)
    (hnext : g.next? s id = some next) : next ∈ g.chain s := by
  rcases runsOut_follow s (g.edges.length + 1) [] (g.head? s) with hends | ⟨hlength, hsources⟩
  · exact hends.2 id hid next hnext
  · have hle := ((nodup_chain g s).subperm hsources).length_le
    rw [List.length_map, chain, hlength] at hle
    omega

end Graph
end Workflow
