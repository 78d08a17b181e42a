import Workflow.Proofs.Order
import Workflow.Validation.Check

/-!
# Graphs without problems

Every node is in the order of the graph, so a graph without problems has no problem at
any of its nodes.  Two consequences are used again and again: a label names one block,
and the branches of a conditional have different ids.
-/

namespace Workflow

theorem repeats_eq_nil {α : Type} [BEq α] [LawfulBEq α] {xs seen : List α} :
    repeats xs seen = [] <-> xs.Nodup ∧ ∀ x ∈ xs, x ∉ seen := by
  induction xs generalizing seen with
  | nil => simp [repeats]
  | cons x xs ih =>
      rw [repeats]
      cases hx : seen.contains x with
      | true =>
          have hmem : x ∈ seen := List.contains_iff_mem.1 hx
          simp [hmem]
      | false =>
          have hfresh : x ∉ seen := fun hmem => by
            rw [List.contains_iff_mem.2 hmem] at hx
            cases hx
          simp only [Bool.false_eq_true, if_false, ih, List.mem_cons, not_or, List.nodup_cons,
            forall_eq_or_imp]
          constructor
          · intro h
            exact ⟨⟨fun hmem => (h.2 x hmem).1 rfl, h.1⟩, hfresh, fun y hy => (h.2 y hy).2⟩
          · intro h
            refine ⟨h.1.2, fun y hy => ⟨?_, h.2.2 y hy⟩⟩
            intro heq
            exact h.1.1 (heq ▸ hy)

theorem eq_of_nodup_filterMap {α β : Type} {f : α -> Option β} {l : List α}
    (h : (l.filterMap f).Nodup) {a b : α} {c : β} (ha : a ∈ l) (hb : b ∈ l)
    (hac : f a = some c) (hbc : f b = some c) : a = b := by
  induction l with
  | nil => cases ha
  | cons x l ih =>
      have hother : ∀ {y : α}, y ∈ l -> f y = some c -> f x = some c -> False := by
        intro y hy hyc hxc
        rw [List.filterMap_cons_some hxc] at h
        exact (List.nodup_cons.1 h).1 (List.mem_filterMap.2 ⟨y, hy, hyc⟩)
      have hrest : (l.filterMap f).Nodup := by
        cases hx : f x with
        | none => rwa [List.filterMap_cons_none hx] at h
        | some d =>
            rw [List.filterMap_cons_some hx] at h
            exact (List.nodup_cons.1 h).2
      rcases List.mem_cons.1 ha with rfl | ha' <;> rcases List.mem_cons.1 hb with hbx | hb'
      · exact hbx.symm
      · exact (hother hb' hbc hac).elim
      · exact (hother ha' hac (hbx ▸ hbc)).elim
      · exact ih hrest ha' hb'

namespace Graph

variable {g : Graph}

/-!
# Problems of nodes
-/

theorem nodeProblems_eq_nil {keys : List String} {nodes : List Node} :
    ∀ {seen : List String}, g.nodesProblems keys seen nodes = [] ->
      ∀ n ∈ nodes, ∃ before, g.nodeProblems keys before n = [] := by
  induction nodes with
  | nil => simp
  | cons m nodes ih =>
      intro seen h n hn
      rw [nodesProblems, List.append_eq_nil_iff] at h
      rcases List.mem_cons.1 hn with rfl | hn
      · exact ⟨seen, h.1⟩
      · exact ih h.2 n hn

theorem nodup_labels_of_nodesProblems {keys : List String} {nodes : List Node} :
    ∀ {seen : List String}, g.nodesProblems keys seen nodes = [] ->
      (nodes.filterMap Node.label?).Nodup ∧ ∀ l ∈ nodes.filterMap Node.label?, l ∉ seen := by
  induction nodes with
  | nil => simp
  | cons n nodes ih =>
      intro seen h
      rw [nodesProblems, List.append_eq_nil_iff] at h
      obtain ⟨hnodup, hfresh⟩ := ih h.2
      cases hl : n.label? with
      | none =>
          rw [hl] at hfresh
          rw [List.filterMap_cons_none hl]
          exact ⟨hnodup, hfresh⟩
      | some l =>
          rw [hl] at hfresh
          have hnew : l ∉ seen := by
            obtain ⟨id, parent, content⟩ := n
            cases content with
            | start => cases hl
            | insertionMarker => cases hl
            | block heading b =>
                cases hl
                have hblock := (List.append_eq_nil_iff.1 h.1).2
                simp only [blockProblems, List.append_eq_nil_iff] at hblock
                have hlabel := hblock.1.1.1.1
                split at hlabel
                · cases hlabel
                · split at hlabel
                  · cases hlabel
                  · next hseen => exact fun hmem => hseen (List.contains_iff_mem.2 hmem)
          rw [List.filterMap_cons_some hl, List.nodup_cons, List.forall_mem_cons]
          refine ⟨⟨fun hmem => ?_, hnodup⟩, hnew, fun k hk hseen => ?_⟩
          · exact hfresh l hmem (by simp)
          · exact hfresh k hk (by simp [hseen])

section Problems

variable {parameters : List Parameter} (h : g.problems parameters = [])
include h

theorem nodesProblems_eq_nil : g.nodesProblems (parameters.map Parameter.key) []
    (g.order.filterMap g.node?) = [] := by
  simp only [problems, List.append_eq_nil_iff] at h
  exact h.1.1.2

variable (hids : g.shape.ids.Nodup)
include hids

theorem eq_of_label {m n : Node} {l : String} (hm : m ∈ g.nodes) (hn : n ∈ g.nodes)
    (hml : m.label? = some l) (hnl : n.label? = some l) : m = n := by
  have hnodup := (nodup_labels_of_nodesProblems (nodesProblems_eq_nil h)).1
  exact eq_of_nodup_filterMap hnodup (mem_nodes_in_order hids hm) (mem_nodes_in_order hids hn)
    hml hnl

theorem nodup_branchIds {n : Node} {c : Conditional} (hn : n ∈ g.nodes)
    (hc : n.conditional? = some c) : c.branchIds.Nodup := by
  obtain ⟨before, hnone⟩ := nodeProblems_eq_nil (nodesProblems_eq_nil h) n
    (mem_nodes_in_order hids hn)
  obtain ⟨id, parent, content⟩ := n
  cases content with
  | start => cases hc
  | insertionMarker => cases hc
  | block heading b =>
      have hb : b.conditional? = some c := hc
      have hblock := (List.append_eq_nil_iff.1 hnone).2
      simp only [blockProblems, List.append_eq_nil_iff, Block.branchProblems, hb,
        List.map_eq_nil_iff] at hblock
      exact (repeats_eq_nil.1 hblock.1.2.1.2).1

end Problems
end Graph
end Workflow
