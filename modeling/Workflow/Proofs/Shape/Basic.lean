import Mathlib.Data.List.Nodup
import Workflow.Graph.Chain
import Workflow.Proofs.Adjacent

/-!
# Shapes of graphs

The shape of a graph is what its chains and its nesting depend on.  Of a node it keeps
the id, the container and the role, of an edge the two ends and the tag.  Labels,
attributes, edge kinds, visibility and edge ids are left out, so an edit of those does
not touch the shape.

A shape is laid out when every scope has a run: a list of ids from its start marker to
its insertion marker whose pairs of neighbours are the links of the scope.
-/

namespace Workflow

/-!
# Roles
-/

inductive Role where
  | start
  | insertionMarker
  | leaf
  | loop
  | conditional (branches : List String)
  deriving DecidableEq, Repr

namespace Role

def isBlock : Role -> Bool
  | start => false
  | insertionMarker => false
  | _ => true

def isContainer : Role -> Bool
  | loop => true
  | conditional _ => true
  | _ => false

def scopes (id : String) : Role -> List Scope
  | loop => [.body id]
  | conditional branches => branches.map (Scope.ofBranch id)
  | _ => []

theorem isBlock_of_isContainer {r : Role} (h : r.isContainer) : r.isBlock := by
  cases r <;> first | rfl | simp [isContainer] at h

end Role

namespace Block

def role : Block -> Role
  | leaf _ => .leaf
  | loop _ => .loop
  | conditional c => .conditional c.branchIds

theorem isBlock_role (b : Block) : b.role.isBlock := by
  cases b <;> rfl

theorem isContainer_role (b : Block) : b.role.isContainer = b.isContainer := by
  cases b with
  | leaf l => cases l <;> rfl
  | loop a => rfl
  | conditional c => rfl

theorem scopes_role (id : String) (b : Block) : b.role.scopes id = Graph.bodyScopes id b := by
  cases b <;> rfl

end Block

def Content.role : Content -> Role
  | .start => .start
  | .insertionMarker => .insertionMarker
  | .block _ b => b.role

/-!
# The shape of a graph
-/

structure Slot where
  id : String
  parent : Option String
  role : Role
  deriving DecidableEq, Repr

structure Link where
  source : String
  target : String
  tag : Option BranchTag
  deriving DecidableEq, Repr

@[ext]
structure Shape where
  slots : List Slot
  links : List Link
  deriving DecidableEq, Repr

def Node.slot (n : Node) : Slot :=
  ⟨n.id, n.parent, n.content.role⟩

def Edge.link (e : Edge) : Link :=
  ⟨e.source, e.target, e.tag⟩

def Graph.shape (g : Graph) : Shape :=
  ⟨g.nodes.map Node.slot, g.edges.map Edge.link⟩

namespace Node

@[simp] theorem slot_id (n : Node) : n.slot.id = n.id := rfl

@[simp] theorem slot_parent (n : Node) : n.slot.parent = n.parent := rfl

theorem isBlock_slot (n : Node) : n.slot.role.isBlock = n.isBlock := by
  obtain ⟨id, parent, content⟩ := n
  cases content with
  | start => rfl
  | insertionMarker => rfl
  | block h b => exact b.isBlock_role

theorem isContainer_slot (n : Node) : n.slot.role.isContainer = n.isContainer := by
  obtain ⟨id, parent, content⟩ := n
  cases content with
  | start => rfl
  | insertionMarker => rfl
  | block h b => exact b.isContainer_role

theorem slot_role_eq_start {n : Node} : n.slot.role = .start <-> n.isStart := by
  obtain ⟨id, parent, content⟩ := n
  cases content with
  | start => simp [slot, Content.role, isStart]
  | insertionMarker => simp [slot, Content.role, isStart]
  | block h b => cases b <;> simp [slot, Content.role, isStart, Block.role]

theorem slot_role_eq_insertionMarker {n : Node} :
    n.slot.role = .insertionMarker <-> n.isInsertionMarker := by
  obtain ⟨id, parent, content⟩ := n
  cases content with
  | start => simp [slot, Content.role, isInsertionMarker]
  | insertionMarker => simp [slot, Content.role, isInsertionMarker]
  | block h b => cases b <;> simp [slot, Content.role, isInsertionMarker, Block.role]

end Node

/-!
# Tags of scopes
-/

namespace Scope

def tag (s : Scope) : Option BranchTag :=
  match s.parent, s.branch with
  | some p, some b => some ⟨p, b⟩
  | _, _ => none

@[simp] theorem tag_root : root.tag = none := rfl

@[simp] theorem tag_body (p : String) : (body p).tag = none := rfl

@[simp] theorem tag_ofBranch (c b : String) : (ofBranch c b).tag = some ⟨c, b⟩ := rfl

@[simp] theorem parent_root : root.parent = none := rfl

@[simp] theorem parent_body (p : String) : (body p).parent = some p := rfl

@[simp] theorem parent_ofBranch (c b : String) : (ofBranch c b).parent = some c := rfl

theorem admits_iff {s : Scope} {e : Edge} : s.admits e <-> e.tag = s.tag := by
  obtain ⟨parent, branch⟩ := s
  cases parent with
  | none => simp [admits, tag]
  | some p =>
      cases branch with
      | none => simp [admits, tag]
      | some b => simp [admits, tag, Edge.inBranch]

end Scope

theorem Role.parent_of_mem_scopes {r : Role} {id : String} {s : Scope}
    (h : s ∈ r.scopes id) : s.parent = some id := by
  cases r with
  | loop => simp_all [scopes]
  | conditional branches =>
      obtain ⟨b, -, rfl⟩ := List.mem_map.1 h
      rfl
  | _ => simp [scopes] at h

theorem Role.isContainer_of_mem_scopes {r : Role} {id : String} {s : Scope}
    (h : s ∈ r.scopes id) : r.isContainer := by
  cases r with
  | loop => rfl
  | conditional branches => rfl
  | _ => simp [scopes] at h

theorem Role.scopes_eq_nil {r : Role} (h : r.isContainer = false) (id : String) :
    r.scopes id = [] := by
  cases r <;> first | rfl | cases h

theorem Role.eq_of_mem_scopes {r : Role} {id : String} {s t : Scope}
    (hs : s ∈ r.scopes id) (ht : t ∈ r.scopes id) (htag : s.tag = t.tag) : s = t := by
  cases r with
  | loop => simp_all [scopes]
  | conditional branches =>
      obtain ⟨b, -, rfl⟩ := List.mem_map.1 hs
      obtain ⟨c, -, rfl⟩ := List.mem_map.1 ht
      simp only [Scope.tag_ofBranch, Option.some.injEq, BranchTag.mk.injEq] at htag
      rw [htag.2]
  | _ => simp [scopes] at hs

namespace Shape

/-!
# Scopes and bodies
-/

def ids (k : Shape) : List String :=
  k.slots.map Slot.id

def HasScope (k : Shape) (s : Scope) : Prop :=
  s = .root ∨ ∃ x ∈ k.slots, s ∈ x.role.scopes x.id

/-- The top level and every container have a body. -/
def HasBody (k : Shape) (p : Option String) : Prop :=
  p = none ∨ ∃ x ∈ k.slots, p = some x.id ∧ x.role.isContainer

theorem hasScope_root (k : Shape) : k.HasScope .root :=
  Or.inl rfl

theorem HasScope.hasBody {k : Shape} {s : Scope} (h : k.HasScope s) : k.HasBody s.parent := by
  rcases h with rfl | ⟨x, hx, hs⟩
  · exact Or.inl rfl
  · exact Or.inr ⟨x, hx, Role.parent_of_mem_scopes hs, Role.isContainer_of_mem_scopes hs⟩

/-!
# Runs
-/

/-- A list of ids from the start marker of a scope to its insertion marker, with
different blocks of the scope between them. -/
structure IsRun (k : Shape) (s : Scope) (run : List String) : Prop where
  nodup : run.Nodup
  ends : ∃ start blocks marker,
    run = start :: (blocks ++ [marker]) ∧
    ⟨start, s.parent, .start⟩ ∈ k.slots ∧
    ⟨marker, s.parent, .insertionMarker⟩ ∈ k.slots ∧
    ∀ id ∈ blocks, ∃ x ∈ k.slots, x.id = id ∧ x.parent = s.parent ∧ x.role.isBlock

/-- Containers and their bodies.  A container is listed before what stands in it, so
nesting has no cycle, and every body has one marker at each end. -/
structure Nested (k : Shape) : Prop where
  distinct : k.ids.Nodup
  parents : ∀ x ∈ k.slots, k.HasBody x.parent
  notSelf : ∀ x ∈ k.slots, x.parent ≠ some x.id
  ordered : k.slots.Pairwise fun x y => x.parent ≠ some y.id
  start : ∀ p, k.HasBody p -> ∃! id, ⟨id, p, .start⟩ ∈ k.slots
  marker : ∀ p, k.HasBody p -> ∃! id, ⟨id, p, .insertionMarker⟩ ∈ k.slots

/-- The invariant of edited graphs, with the run of each scope given: the links are the
pairs of neighbours on the runs, and every block is on one run. -/
structure Laid (k : Shape) (run : Scope -> List String) : Prop extends k.Nested where
  runs : ∀ s, k.HasScope s -> k.IsRun s (run s)
  exact : ∀ l, l ∈ k.links <->
    ∃ s, k.HasScope s ∧ l.tag = s.tag ∧ Adjacent (run s) l.source l.target
  placed : ∀ x ∈ k.slots, x.role.isBlock -> ∃! s, k.HasScope s ∧ x.id ∈ run s

namespace Nested

variable {k : Shape}

theorem slot_unique (h : k.Nested) {x y : Slot} (hx : x ∈ k.slots) (hy : y ∈ k.slots)
    (hid : x.id = y.id) : x = y :=
  List.inj_on_of_nodup_map h.distinct hx hy hid

theorem ne_marker (h : k.Nested) {x : Slot} (hx : x ∈ k.slots) (hblock : x.role.isBlock)
    {id : String} {p : Option String} {r : Role} (hid : ⟨id, p, r⟩ ∈ k.slots)
    (hr : r.isBlock = false) : x.id ≠ id := by
  intro heq
  rw [h.slot_unique hx hid heq, hr] at hblock
  cases hblock

theorem existsUnique_marker (h : k.Nested) {p : Option String} (hp : k.HasBody p) {r : Role}
    (hr : r.isBlock = false) : ∃! id, ⟨id, p, r⟩ ∈ k.slots := by
  cases r with
  | start => exact h.start p hp
  | insertionMarker => exact h.marker p hp
  | leaf => cases hr
  | loop => cases hr
  | conditional branches => cases hr

theorem scope_unique (h : k.Nested) {s t : Scope} (hs : k.HasScope s) (ht : k.HasScope t)
    (hparent : s.parent = t.parent) (htag : s.tag = t.tag) : s = t := by
  rcases hs with rfl | ⟨x, hx, hsx⟩ <;> rcases ht with rfl | ⟨y, hy, hty⟩
  · rfl
  · rw [Role.parent_of_mem_scopes hty] at hparent
    cases hparent
  · rw [Role.parent_of_mem_scopes hsx] at hparent
    cases hparent
  · rw [Role.parent_of_mem_scopes hsx, Role.parent_of_mem_scopes hty] at hparent
    have hxy : x = y := h.slot_unique hx hy (Option.some.inj hparent)
    subst hxy
    exact Role.eq_of_mem_scopes hsx hty htag

theorem parent_ne_of_not_mem {id : String} (hid : id ∉ k.ids) {p : Option String}
    (hp : k.HasBody p) : p ≠ some id := by
  rcases hp with rfl | ⟨x, hx, rfl, -⟩
  · simp
  · exact fun heq => hid (List.mem_map.2 ⟨x, hx, Option.some.inj heq⟩)

end Nested

namespace Laid

variable {k : Shape} {run : Scope -> List String}

theorem slot_of_mem_run (h : k.Laid run) {s : Scope} (hs : k.HasScope s) {id : String}
    (hid : id ∈ run s) : ∃ x ∈ k.slots, x.id = id ∧ x.parent = s.parent := by
  obtain ⟨start, blocks, marker, hrun, hstart, hmarker, hblocks⟩ := (h.runs s hs).ends
  rw [hrun] at hid
  simp only [List.mem_cons, List.mem_append, List.not_mem_nil, or_false] at hid
  rcases hid with rfl | hid | rfl
  · exact ⟨_, hstart, rfl, rfl⟩
  · obtain ⟨x, hx, hxid, hparent, -⟩ := hblocks id hid
    exact ⟨x, hx, hxid, hparent⟩
  · exact ⟨_, hmarker, rfl, rfl⟩

theorem eq_nil_of_marker (h : k.Laid run) {s : Scope} (hs : k.HasScope s) {marker : String}
    (hmarker : ⟨marker, s.parent, .insertionMarker⟩ ∈ k.slots) {u rest : List String}
    (hrun : run s = u ++ marker :: rest) : rest = [] := by
  obtain ⟨start, blocks, marker', hends, -, hmarker', -⟩ := (h.runs s hs).ends
  have heq : marker' = marker :=
    (h.marker s.parent (h.parents _ hmarker)).unique hmarker' hmarker
  have hnodup := (h.runs s hs).nodup
  rcases List.eq_nil_or_concat rest with hnil | ⟨rest, last, rfl⟩
  · exact hnil
  · rw [List.concat_eq_append] at hrun
    have hsplit : (u ++ marker :: rest) ++ [last] = (start :: blocks) ++ [marker] := by
      rw [← heq, List.append_assoc, List.cons_append, List.cons_append, ← hends, hrun, heq]
    have hlast : last = marker := (List.cons.inj (List.append_inj' hsplit rfl).2).1
    rw [hrun, hlast] at hnodup
    have hmem : marker ∈ rest ++ [marker] := by simp
    exact absurd hmem (List.nodup_cons.1 (List.nodup_append.1 hnodup).2.1).1

theorem parent_of_mem_run (h : k.Laid run) {s : Scope} (hs : k.HasScope s) {x : Slot}
    (hx : x ∈ k.slots) (hid : x.id ∈ run s) : x.parent = s.parent := by
  obtain ⟨y, hy, hyid, hparent⟩ := h.slot_of_mem_run hs hid
  rw [h.slot_unique hx hy hyid.symm, hparent]

theorem scope_eq_of_mem_run (h : k.Laid run) {s t : Scope} (hs : k.HasScope s)
    (ht : k.HasScope t) (htag : s.tag = t.tag) {id : String} (hids : id ∈ run s)
    (hidt : id ∈ run t) : s = t := by
  obtain ⟨x, hx, rfl, hparent⟩ := h.slot_of_mem_run hs hids
  exact h.scope_unique hs ht (hparent ▸ h.parent_of_mem_run ht hx hidt) htag

theorem adjacent_iff (h : k.Laid run) {s : Scope} (hs : k.HasScope s) {a b : String} :
    Adjacent (run s) a b <-> ⟨a, b, s.tag⟩ ∈ k.links ∧ a ∈ run s := by
  constructor
  · intro hab
    exact ⟨(h.exact _).2 ⟨s, hs, rfl, hab⟩, hab.left_mem⟩
  · rintro ⟨hlink, ha⟩
    obtain ⟨t, ht, htag, hab⟩ := (h.exact _).1 hlink
    rw [h.scope_eq_of_mem_run hs ht htag ha hab.left_mem]
    exact hab

theorem slots_of_link (h : k.Laid run) {l : Link} (hl : l ∈ k.links) :
    ∃ s, k.HasScope s ∧ l.tag = s.tag ∧ l.source ∈ run s ∧ l.target ∈ run s := by
  obtain ⟨s, hs, htag, hab⟩ := (h.exact l).1 hl
  exact ⟨s, hs, htag, hab.left_mem, hab.right_mem⟩

theorem mem_ids_of_mem_run (h : k.Laid run) {s : Scope} (hs : k.HasScope s) {id : String}
    (hid : id ∈ run s) : id ∈ k.ids := by
  obtain ⟨x, hx, hxid, -⟩ := h.slot_of_mem_run hs hid
  exact List.mem_map.2 ⟨x, hx, hxid⟩

theorem source_mem (h : k.Laid run) {l : Link} (hl : l ∈ k.links) : l.source ∈ k.ids := by
  obtain ⟨s, hs, -, hsource, -⟩ := h.slots_of_link hl
  exact h.mem_ids_of_mem_run hs hsource

theorem target_mem (h : k.Laid run) {l : Link} (hl : l ∈ k.links) : l.target ∈ k.ids := by
  obtain ⟨s, hs, -, -, htarget⟩ := h.slots_of_link hl
  exact h.mem_ids_of_mem_run hs htarget

/-- The layout depends on which links there are, not on their order or number. -/
theorem congr_links (h : k.Laid run) {links : List Link}
    (hlinks : ∀ l, l ∈ links <-> l ∈ k.links) : Laid ⟨k.slots, links⟩ run where
  distinct := h.distinct
  parents := h.parents
  notSelf := h.notSelf
  ordered := h.ordered
  start := h.start
  marker := h.marker
  runs s hs := ⟨(h.runs s hs).nodup, (h.runs s hs).ends⟩
  exact l := (hlinks l).trans (h.exact l)
  placed := h.placed

/-- Only the runs of scopes that exist matter. -/
theorem congr_run (h : k.Laid run) {run' : Scope -> List String}
    (hrun : ∀ s, k.HasScope s -> run' s = run s) : k.Laid run' where
  toNested := h.toNested
  runs s hs := by
    rw [hrun s hs]
    exact h.runs s hs
  exact l := by
    rw [h.exact l]
    refine exists_congr fun s => and_congr_right fun hs => ?_
    rw [hrun s hs]
  placed x hx hblock := by
    obtain ⟨s, ⟨hs, hxs⟩, hunique⟩ := h.placed x hx hblock
    refine ⟨s, ⟨hs, by rwa [hrun s hs]⟩, ?_⟩
    rintro t ⟨ht, hxt⟩
    rw [hrun t ht] at hxt
    exact hunique t ⟨ht, hxt⟩

end Laid
end Shape
end Workflow
