import Mathlib.Data.List.Perm.Subperm
import Workflow.Proofs.Shape.Basic

/-!
# Chains of laid out graphs

In a graph whose shape is laid out, the chain of each scope is its run.  The chain is
found by following first edges, so the work is to see that a node has at most one edge
to follow in its scope, and that the chain is given enough steps.
-/

namespace Workflow
namespace Graph

variable {g : Graph} {run : Scope -> List String}

theorem mem_slots {x : Slot} : x ∈ g.shape.slots <-> ∃ n ∈ g.nodes, n.slot = x :=
  List.mem_map

theorem mem_links {l : Link} : l ∈ g.shape.links <-> ∃ e ∈ g.edges, e.link = l :=
  List.mem_map

theorem slot_mem {n : Node} (h : n ∈ g.nodes) : n.slot ∈ g.shape.slots :=
  List.mem_map_of_mem h

theorem link_mem {e : Edge} (h : e ∈ g.edges) : e.link ∈ g.shape.links :=
  List.mem_map_of_mem h

theorem ids_shape (g : Graph) : g.shape.ids = g.nodes.map Node.id := by
  simp only [Shape.ids, shape, List.map_map]
  rfl

/-!
# Scopes
-/

/-- Every scope of a graph: the top level, the bodies of loops and the branches. -/
def scopes (g : Graph) : List Scope :=
  .root :: g.nodes.flatMap fun n =>
    match n.block? with
    | none => []
    | some b => bodyScopes n.id b

theorem mem_scopes {s : Scope} : s ∈ g.scopes <-> g.shape.HasScope s := by
  have hinside : ∀ n : Node, (match n.block? with
      | none => []
      | some b => bodyScopes n.id b) = n.slot.role.scopes n.id := by
    intro n
    obtain ⟨id, parent, content⟩ := n
    cases content with
    | start => rfl
    | insertionMarker => rfl
    | block h b => exact (b.scopes_role id).symm
  simp only [scopes, hinside, List.mem_cons, List.mem_flatMap, Shape.HasScope]
  refine or_congr_right ⟨?_, ?_⟩
  · rintro ⟨n, hn, hs⟩
    exact ⟨n.slot, slot_mem hn, hs⟩
  · rintro ⟨x, hx, hs⟩
    obtain ⟨n, hn, rfl⟩ := mem_slots.1 hx
    exact ⟨n, hn, hs⟩

/-!
# Looking nodes up
-/

theorem node?_eq_some (hids : g.shape.ids.Nodup) {n : Node} (hn : n ∈ g.nodes) :
    g.node? n.id = some n := by
  rw [ids_shape] at hids
  cases hfound : g.node? n.id with
  | none =>
      have h := List.find?_eq_none.1 hfound n (List.mem_reverse.2 hn)
      simp at h
  | some m =>
      have hm : m ∈ g.nodes := List.mem_reverse.1 (List.mem_of_find?_eq_some hfound)
      have hid : m.id = n.id := by simpa using List.find?_some hfound
      rw [List.inj_on_of_nodup_map hids hm hn hid]

theorem mem_of_node? {id : String} {n : Node} (h : g.node? id = some n) :
    n ∈ g.nodes ∧ n.id = id :=
  ⟨List.mem_reverse.1 (List.mem_of_find?_eq_some h), by simpa using List.find?_some h⟩

theorem slot_of_block? {id : String} {b : Block} (h : g.block? id = some b) :
    ∃ p, ⟨id, p, b.role⟩ ∈ g.shape.slots := by
  obtain ⟨n, hn, hb⟩ := Option.bind_eq_some_iff.1 h
  obtain ⟨hmem, hid⟩ := mem_of_node? hn
  obtain ⟨nid, parent, content⟩ := n
  cases content with
  | start => cases hb
  | insertionMarker => cases hb
  | block heading b' =>
      cases hb
      cases hid
      exact ⟨parent, slot_mem hmem⟩

theorem block?_of_slot (hids : g.shape.ids.Nodup) {x : Slot} (hx : x ∈ g.shape.slots)
    (hblock : x.role.isBlock) : ∃ b, g.block? x.id = some b ∧ b.role = x.role := by
  obtain ⟨n, hn, rfl⟩ := mem_slots.1 hx
  have hfound := node?_eq_some hids hn
  obtain ⟨id, parent, content⟩ := n
  cases content with
  | start => cases hblock
  | insertionMarker => cases hblock
  | block heading b => exact ⟨b, by rw [block?, Node.slot_id, hfound]; rfl, rfl⟩

theorem isSome_block? (hids : g.shape.ids.Nodup) {x : Slot} (hx : x ∈ g.shape.slots) :
    (g.block? x.id).isSome = x.role.isBlock := by
  cases hblock : x.role.isBlock with
  | true =>
      obtain ⟨b, hb, -⟩ := block?_of_slot hids hx hblock
      rw [hb]
      rfl
  | false =>
      cases hb : g.block? x.id with
      | none => rfl
      | some b =>
          obtain ⟨p, hp⟩ := slot_of_block? hb
          rw [List.inj_on_of_nodup_map hids hx hp rfl, b.isBlock_role] at hblock
          cases hblock

theorem hasBlocks_iff : g.hasBlocks <-> ∃ x ∈ g.shape.slots, x.role.isBlock := by
  rw [hasBlocks, List.any_eq_true]
  constructor
  · rintro ⟨n, hn, hblock⟩
    exact ⟨n.slot, slot_mem hn, n.isBlock_slot ▸ hblock⟩
  · rintro ⟨x, hx, hblock⟩
    obtain ⟨n, hn, rfl⟩ := mem_slots.1 hx
    exact ⟨n, hn, n.isBlock_slot ▸ hblock⟩

theorem exists_block?_of_hasScope (hids : g.shape.ids.Nodup) {s : Scope} {id : String}
    (h : g.shape.HasScope s) (hid : s.parent = some id) :
    ∃ b, g.block? id = some b ∧ s ∈ b.role.scopes id := by
  rcases h with rfl | ⟨x, hx, hs⟩
  · cases hid
  · obtain ⟨b, hb, hrole⟩ :=
      block?_of_slot hids hx (Role.isBlock_of_isContainer (Role.isContainer_of_mem_scopes hs))
    cases Option.some.inj ((Role.parent_of_mem_scopes hs).symm.trans hid)
    exact ⟨b, hb, hrole ▸ hs⟩

theorem hasScope_body (hids : g.shape.ids.Nodup) {id : String} :
    g.shape.HasScope (.body id) <-> ∃ a, g.block? id = some (.loop a) := by
  constructor
  · intro h
    obtain ⟨b, hb, hs⟩ := exists_block?_of_hasScope hids h rfl
    cases b with
    | leaf l => simp [Block.role, Role.scopes] at hs
    | loop a => exact ⟨a, hb⟩
    | conditional c =>
        obtain ⟨b, -, hb⟩ := List.mem_map.1 hs
        cases hb
  · rintro ⟨a, ha⟩
    obtain ⟨p, hp⟩ := slot_of_block? ha
    exact Or.inr ⟨_, hp, List.mem_singleton.2 rfl⟩

theorem conditional?_eq_some {id : String} {c : Conditional} :
    g.conditional? id = some c <-> g.block? id = some (.conditional c) := by
  rw [conditional?, block?]
  cases g.node? id with
  | none => simp
  | some n =>
      simp only [Option.bind_some, Node.conditional?]
      cases n.block? with
      | none => simp
      | some b => cases b <;> simp [Block.conditional?]

theorem hasScope_ofBranch (hids : g.shape.ids.Nodup) {id branch : String} :
    g.shape.HasScope (.ofBranch id branch) <->
      ∃ c, g.conditional? id = some c ∧ c.hasBranch branch := by
  constructor
  · intro h
    obtain ⟨b, hb, hs⟩ := exists_block?_of_hasScope hids h rfl
    cases b with
    | leaf l => simp [Block.role, Role.scopes] at hs
    | loop a =>
        simp only [Block.role, Role.scopes, List.mem_singleton] at hs
        cases hs
    | conditional c =>
        refine ⟨c, conditional?_eq_some.2 hb, ?_⟩
        obtain ⟨b', hmem, hbranch⟩ := List.mem_map.1 hs
        cases hbranch
        obtain ⟨b, hbmem, rfl⟩ := List.mem_map.1 hmem
        exact List.any_eq_true.2 ⟨b, hbmem, by simp⟩
  · rintro ⟨c, hc, hbranch⟩
    obtain ⟨p, hp⟩ := slot_of_block? (conditional?_eq_some.1 hc)
    obtain ⟨b, hb, heq⟩ := List.any_eq_true.1 hbranch
    refine Or.inr ⟨_, hp, List.mem_map.2 ⟨b.id, List.mem_map_of_mem hb, ?_⟩⟩
    rw [beq_iff_eq.1 heq]

theorem find?_role {r : Role} {test : Node -> Bool}
    (htest : ∀ n : Node, n.slot.role = r <-> test n) {p : Option String} {id : String}
    (hunique : ∃! id, ⟨id, p, r⟩ ∈ g.shape.slots) (hid : ⟨id, p, r⟩ ∈ g.shape.slots) :
    (g.nodes.find? fun n => n.parent == p && test n).map Node.id = some id := by
  obtain ⟨n, hn, hslot⟩ := mem_slots.1 hid
  cases hfound : g.nodes.find? fun n => n.parent == p && test n with
  | none =>
      have hnot := List.find?_eq_none.1 hfound n hn
      have hrole : test n := (htest n).1 (by rw [hslot])
      have hparent : n.parent = p := by rw [← Node.slot_parent, hslot]
      simp [hrole, hparent] at hnot
  | some m =>
      have hm := List.find?_some hfound
      simp only [Bool.and_eq_true, beq_iff_eq] at hm
      have hmslot : m.slot = ⟨m.id, p, r⟩ := by
        rw [← hm.1, ← (htest m).2 hm.2]
        rfl
      have hmem := hmslot ▸ slot_mem (List.mem_of_find?_eq_some hfound)
      rw [Option.map_some, hunique.unique hmem hid]

section Markers

variable (h : g.shape.Laid run) {p : Option String} {id : String}
include h

theorem startMarker?_eq (hid : ⟨id, p, .start⟩ ∈ g.shape.slots) :
    (g.startMarker? p).map Node.id = some id :=
  find?_role (fun _ => Node.slot_role_eq_start) (h.start p (h.parents _ hid)) hid

theorem insertionMarker?_eq (hid : ⟨id, p, .insertionMarker⟩ ∈ g.shape.slots) :
    (g.insertionMarker? p).map Node.id = some id :=
  find?_role (fun _ => Node.slot_role_eq_insertionMarker)
    (h.marker p (h.parents _ hid)) hid

end Markers

/-!
# Following a run
-/

section Follow

variable (h : g.shape.Laid run) {s : Scope} (hs : g.shape.HasScope s)
include h hs

theorem adjacent_of_admits {e : Edge} (he : e ∈ g.edges) (hadmits : s.admits e)
    (hsource : e.source ∈ run s) : Adjacent (run s) e.source e.target := by
  refine (h.adjacent_iff hs).2 ⟨?_, hsource⟩
  rw [← Scope.admits_iff.1 hadmits]
  exact link_mem he

theorem next?_eq_some {a b : String} (hab : Adjacent (run s) a b) :
    g.next? s a = some b := by
  obtain ⟨hlink, ha⟩ := (h.adjacent_iff hs).1 hab
  obtain ⟨e, he, hedge⟩ := mem_links.1 hlink
  cases hfound : g.edges.find? fun e => e.source == a && s.admits e with
  | none =>
      have hnot := List.find?_eq_none.1 hfound e he
      have hadmits : s.admits e := Scope.admits_iff.2 (congrArg Link.tag hedge)
      have hsource : e.source = a := congrArg Link.source hedge
      simp [hadmits, hsource] at hnot
  | some f =>
      have hf := List.find?_some hfound
      simp only [Bool.and_eq_true, beq_iff_eq] at hf
      have haf := adjacent_of_admits h hs (List.mem_of_find?_eq_some hfound) hf.2
        (hf.1 ▸ ha)
      rw [hf.1] at haf
      simp only [next?, hfound, Option.map_some]
      rw [haf.right_unique (h.runs s hs).nodup hab]

theorem next?_eq_none {a : String} (ha : a ∈ run s) (hlast : ∀ b, ¬ Adjacent (run s) a b) :
    g.next? s a = none := by
  rw [next?, Option.map_eq_none_iff]
  refine List.find?_eq_none.2 fun e he hcond => ?_
  simp only [Bool.and_eq_true, beq_iff_eq] at hcond
  have hae := adjacent_of_admits h hs he hcond.2 (hcond.1 ▸ ha)
  exact hlast e.target (hcond.1 ▸ hae)

theorem follow_eq (rest : List String) : ∀ (fuel : Nat) (seen : List String) (id : String),
    run s = seen.reverse ++ id :: rest -> rest.length < fuel ->
      g.follow s fuel seen (some id) = id :: rest := by
  have hnodup := (h.runs s hs).nodup
  induction rest with
  | nil =>
      intro fuel seen id hrun hfuel
      obtain ⟨fuel, rfl⟩ := Nat.exists_eq_succ_of_ne_zero (Nat.ne_of_gt hfuel)
      have hid : id ∈ run s := by simp [hrun]
      have hseen : id ∉ seen := by
        rw [hrun] at hnodup
        intro hmem
        exact (List.nodup_append.1 hnodup).2.2 id (List.mem_reverse.2 hmem) id (by simp) rfl
      have hnext : g.next? s id = none := by
        refine next?_eq_none h hs hid fun b hb => ?_
        rw [hrun] at hb hnodup
        exact hseen (List.mem_reverse.1 hb.left_mem_of_concat)
      simp only [follow, hnext, List.contains_iff_mem, hseen, if_false]
      cases fuel <;> rfl
  | cons next rest ih =>
      intro fuel seen id hrun hfuel
      obtain ⟨fuel, rfl⟩ := Nat.exists_eq_succ_of_ne_zero (Nat.ne_zero_of_lt hfuel)
      have hseen : id ∉ seen := by
        rw [hrun] at hnodup
        intro hmem
        exact (List.nodup_append.1 hnodup).2.2 id (List.mem_reverse.2 hmem) id (by simp) rfl
      have hnext : g.next? s id = some next :=
        next?_eq_some h hs ⟨seen.reverse, rest, hrun⟩
      have hrest := ih fuel (id :: seen) next (by simp [hrun])
        (by simpa using Nat.lt_of_succ_lt_succ hfuel)
      simp only [follow, hnext, List.contains_iff_mem, hseen, if_false, hrest]

theorem length_run_le : (run s).length <= g.edges.length + 1 := by
  obtain ⟨start, blocks, marker, hrun, -⟩ := (h.runs s hs).ends
  have hnodup := (h.runs s hs).nodup
  rw [hrun] at hnodup ⊢
  have hsub : blocks ++ [marker] ⊆ g.edges.map Edge.target := by
    intro id hid
    obtain ⟨a, ha⟩ := exists_adjacent_of_mem_tail (z := start) hid
    rw [← hrun] at ha
    obtain ⟨e, he, hedge⟩ := mem_links.1 ((h.adjacent_iff hs).1 ha).1
    exact List.mem_map.2 ⟨e, he, congrArg Link.target hedge⟩
  have hle := ((List.nodup_cons.1 hnodup).2.subperm hsub).length_le
  rw [List.length_map] at hle
  simpa using hle

theorem chain_eq : g.chain s = run s := by
  obtain ⟨start, blocks, marker, hrun, hstart, -⟩ := (h.runs s hs).ends
  have hhead : g.head? s = some start := by
    have hfound := startMarker?_eq h hstart
    simp only [head?]
    cases hm : g.startMarker? s.parent with
    | none => simp [hm] at hfound
    | some m => simpa [hm] using hfound
  have hlength := length_run_le h hs
  rw [hrun, List.length_cons] at hlength
  rw [chain, hhead, follow_eq h hs (blocks ++ [marker]) _ [] start hrun (by omega), hrun]

end Follow
end Graph
end Workflow
