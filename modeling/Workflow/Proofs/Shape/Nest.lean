import Mathlib.Logic.Relation
import Workflow.Proofs.Shape.Chain

/-!
# Nesting

A container is listed before what stands in it, so its place in the list bounds how deep
a node can be nested, and no node is nested in itself.
-/

namespace Workflow
namespace Shape

def rank (k : Shape) (id : String) : Nat :=
  k.ids.idxOf id

theorem rank_lt_length {k : Shape} {x : Slot} (hx : x ∈ k.slots) :
    k.rank x.id < k.slots.length := by
  have hmem : x.id ∈ k.ids := List.mem_map_of_mem hx
  have hlt := List.idxOf_lt_length_of_mem hmem
  rwa [ids, List.length_map] at hlt

theorem getElem?_rank {k : Shape} (h : k.Nested) {x : Slot} (hx : x ∈ k.slots) :
    k.slots[k.rank x.id]? = some x := by
  have hmem : x.id ∈ k.ids := List.mem_map_of_mem hx
  have hid : (k.slots[k.rank x.id]?).map Slot.id = some x.id := by
    rw [← List.getElem?_map]
    exact List.getElem?_idxOf hmem
  obtain ⟨y, hy, hyx⟩ := Option.map_eq_some_iff.1 hid
  rw [hy, h.slot_unique (List.mem_of_getElem? hy) hx hyx]

theorem Nested.rank_lt {k : Shape} (h : k.Nested) {x : Slot} (hx : x ∈ k.slots) {p : String}
    (hparent : x.parent = some p) : k.rank p < k.rank x.id := by
  obtain hbody | ⟨y, hy, hyp, -⟩ := h.parents x hx
  · rw [hparent] at hbody
    cases hbody
  · cases hparent.symm.trans hyp
    rcases Nat.lt_trichotomy (k.rank y.id) (k.rank x.id) with hlt | heq | hgt
    · exact hlt
    · have hsame := getElem?_rank h hx
      rw [← heq, getElem?_rank h hy] at hsame
      cases hsame
      exact absurd hparent (h.notSelf _ hx)
    · obtain ⟨hi, hxi⟩ := List.getElem?_eq_some_iff.1 (getElem?_rank h hx)
      obtain ⟨hj, hyj⟩ := List.getElem?_eq_some_iff.1 (getElem?_rank h hy)
      have hpair := List.pairwise_iff_getElem.1 h.ordered _ _ hi hj hgt
      rw [hxi, hyj] at hpair
      exact absurd hparent hpair

theorem HasScope.eq_root {k : Shape} {s : Scope} (h : k.HasScope s) (hparent : s.parent = none) :
    s = .root := by
  rcases h with rfl | ⟨x, -, hs⟩
  · rfl
  · cases (Role.parent_of_mem_scopes hs).symm.trans hparent

end Shape

namespace Graph

variable {g : Graph}

/-!
# Standing in a container
-/

/-- A node with one id stands in a container with the other. -/
def StandsIn (g : Graph) (id container : String) : Prop :=
  ∃ n ∈ g.nodes, n.id = id ∧ n.parent = some container

theorem rank_lt_of_standsIn (h : g.shape.Nested) {id container : String}
    (hin : Relation.TransGen g.StandsIn id container) :
    g.shape.rank container < g.shape.rank id := by
  have hstep : ∀ {a b}, g.StandsIn a b -> g.shape.rank b < g.shape.rank a := by
    rintro a b ⟨n, hn, rfl, hparent⟩
    exact h.rank_lt (slot_mem hn) hparent
  induction hin with
  | single hab => exact hstep hab
  | tail _ hbc ih => exact Nat.lt_trans (hstep hbc) ih

theorem standsIn_unique (hids : g.shape.ids.Nodup) : Relator.RightUnique g.StandsIn := by
  rintro id p q ⟨m, hm, rfl, hp⟩ ⟨n, hn, hid, hq⟩
  have hslots : n.slot = m.slot :=
    List.inj_on_of_nodup_map hids (slot_mem hn) (slot_mem hm) hid
  have hparent : n.parent = m.parent := congrArg Slot.parent hslots
  rw [hp, hq] at hparent
  exact (Option.some.inj hparent).symm

theorem standsIn_iff (h : g.shape.Nested) {x : Slot} (hx : x ∈ g.shape.slots) {p : String} :
    g.StandsIn x.id p <-> x.parent = some p := by
  constructor
  · intro hin
    rcases hin with ⟨n, hn, hid, hparent⟩
    rw [← h.slot_unique (slot_mem hn) hx hid]
    exact hparent
  · intro hparent
    rcases mem_slots.1 hx with ⟨n, hn, rfl⟩
    exact ⟨n, hn, rfl, hparent⟩

/-- What is nested in two nodes of one body is nested in one node. -/
theorem eq_of_standsIn (hids : g.shape.ids.Nodup)
    (hacyclic : ∀ id, ¬ Relation.TransGen g.StandsIn id id) {m n : Node} (hm : m ∈ g.nodes)
    (hn : n ∈ g.nodes) (hparent : m.parent = n.parent) {id : String}
    (hidm : Relation.ReflTransGen g.StandsIn id m.id)
    (hidn : Relation.ReflTransGen g.StandsIn id n.id) : m.id = n.id := by
  have hnot : ∀ {m n : Node}, m ∈ g.nodes -> n ∈ g.nodes -> m.parent = n.parent ->
      Relation.ReflTransGen g.StandsIn m.id n.id -> m.id = n.id := by
    intro m n hm hn hparent hin
    rcases hin.cases_head with heq | ⟨p, ⟨m', hm', hid, hp⟩, hpn⟩
    · exact heq
    · have hslots : m'.slot = m.slot :=
        List.inj_on_of_nodup_map hids (slot_mem hm') (slot_mem hm) hid
      have hnp : n.parent = some p := by
        rw [← hparent, ← hp]
        exact (congrArg Slot.parent hslots).symm
      exact absurd (Relation.TransGen.head' ⟨n, hn, rfl, hnp⟩ hpn) (hacyclic n.id)
  rcases Relation.ReflTransGen.total_of_right_unique (standsIn_unique hids) hidm hidn with hmn | hnm
  · exact hnot hm hn hparent hmn
  · exact (hnot hn hm hparent.symm hnm).symm

theorem eq_of_nested (h : g.shape.Nested) {x y : Slot} (hx : x ∈ g.shape.slots)
    (hy : y ∈ g.shape.slots) (hparent : x.parent = y.parent) {id : String}
    (hidx : Relation.ReflTransGen g.StandsIn id x.id)
    (hidy : Relation.ReflTransGen g.StandsIn id y.id) : x.id = y.id := by
  obtain ⟨m, hm, rfl⟩ := mem_slots.1 hx
  obtain ⟨n, hn, rfl⟩ := mem_slots.1 hy
  exact eq_of_standsIn h.distinct
    (fun id hcycle => Nat.lt_irrefl _ (rank_lt_of_standsIn h hcycle)) hm hn hparent hidx hidy

end Graph
end Workflow
