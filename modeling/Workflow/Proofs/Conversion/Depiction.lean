import Workflow.Conversion.ToDefinition
import Workflow.Proofs.Shape.Nest

/-!
# What a graph depicts

A node depicts a block of a document when it carries the same heading and attributes and
the chains inside it depict the bodies of the block.  Which branch of a conditional is
shown is not part of a document.  A graph that is laid out depicts the document that is
written down along its chains, and it depicts no other.
-/

namespace Workflow

/-!
# Lists that are related
-/

theorem forall₂_filterMap {α β : Type} {R : α -> β -> Prop} {f : α -> Option β} {l : List α}
    (h : ∀ a ∈ l, ∃ b, f a = some b ∧ R a b) : List.Forall₂ R l (l.filterMap f) := by
  induction l with
  | nil => exact .nil
  | cons a l ih =>
      obtain ⟨b, hb, hab⟩ := h a List.mem_cons_self
      rw [List.filterMap_cons_some hb]
      exact .cons hab (ih fun c hc => h c (List.mem_cons_of_mem _ hc))

theorem exists_of_forall₂ {α β : Type} {R : α -> β -> Prop} {l : List α} {m : List β}
    (h : List.Forall₂ R l m) {a : α} (ha : a ∈ l) : ∃ b ∈ m, R a b := by
  induction h with
  | nil => cases ha
  | cons hab _ ih =>
      rcases List.mem_cons.1 ha with rfl | ha
      · exact ⟨_, List.mem_cons_self, hab⟩
      · obtain ⟨b, hb, hab⟩ := ih ha
        exact ⟨b, List.mem_cons_of_mem _ hb, hab⟩

theorem nodup_map_of_forall₂ {α β γ : Type} {R : α -> β -> Prop} {f : β -> γ} {l : List α}
    {m : List β} (h : List.Forall₂ R l m) (hl : l.Nodup)
    (hf : ∀ a a' b b', R a b -> R a' b' -> f b = f b' -> a = a') : (m.map f).Nodup := by
  induction h with
  | nil => exact List.nodup_nil
  | @cons a b l m hab hlm ih =>
      obtain ⟨ha, hl⟩ := List.nodup_cons.1 hl
      rw [List.map_cons]
      refine List.nodup_cons.2 ⟨fun hmem => ?_, ih hl⟩
      obtain ⟨b', hb', heq⟩ := List.mem_map.1 hmem
      obtain ⟨a', ha', hab'⟩ := exists_of_forall₂ hlm.flip hb'
      exact ha (hf a a' b b' hab hab' heq.symm ▸ ha')

theorem forall₂_flatMap {α β γ : Type} {R : α -> β -> Prop} {l : List γ} {f : γ -> List α}
    {f' : γ -> List β} (h : ∀ c ∈ l, List.Forall₂ R (f c) (f' c)) :
    List.Forall₂ R (l.flatMap f) (l.flatMap f') := by
  induction l with
  | nil => exact .nil
  | cons c l ih =>
      rw [List.flatMap_cons, List.flatMap_cons]
      exact List.rel_append (h c List.mem_cons_self) (ih fun d hd => h d (List.mem_cons_of_mem _ hd))

/-!
# Depiction
-/

/-- The block with its first branch shown. -/
def Block.reopened : Block -> Block
  | .conditional c => .conditional { c with active := c.branchIds.head?.getD "" }
  | b => b

def Content.reopened : Content -> Content
  | .block h b => .block h b.reopened
  | c => c

namespace Graph

/-- The blocks of a scope: its chain without the marker at each end. -/
def blocksIn (g : Graph) (s : Scope) : List String :=
  (g.chain s).tail.dropLast

def Carries (g : Graph) (id : String) (x : Descriptor) : Prop :=
  (g.node? id).map (fun n => n.content.reopened) = some (.block x.heading x.block)

mutual

def Depicts (g : Graph) (id : String) : Descriptor -> Prop
  | .leaf h l => g.Carries id (.leaf h l)
  | .loop h a children =>
      g.Carries id (.loop h a children) ∧ DepictsChain g (g.blocksIn (.body id)) children
  | .conditional h branches =>
      g.Carries id (.conditional h branches) ∧ DepictsBranches g id branches

def DepictsChain (g : Graph) : List String -> List Descriptor -> Prop
  | [], [] => True
  | id :: ids, x :: rest => Depicts g id x ∧ DepictsChain g ids rest
  | _, _ => False

def DepictsBranches (g : Graph) (id : String) : List (Branch × List Descriptor) -> Prop
  | [] => True
  | (b, children) :: rest =>
      DepictsChain g (g.blocksIn (.ofBranch id b.id)) children ∧ DepictsBranches g id rest

end

variable {g : Graph} {run : Scope -> List String}

theorem Carries.node {id : String} {x : Descriptor} (h : g.Carries id x) :
    ∃ n ∈ g.nodes, n.id = id ∧ ∃ b, n.content = .block x.heading b ∧ b.reopened = x.block := by
  obtain ⟨n, hn, hcontent⟩ := Option.map_eq_some_iff.1 h
  obtain ⟨hmem, hid⟩ := mem_of_node? hn
  refine ⟨n, hmem, hid, ?_⟩
  cases hc : n.content with
  | start => simp [hc, Content.reopened] at hcontent
  | insertionMarker => simp [hc, Content.reopened] at hcontent
  | block heading b =>
      simp only [hc, Content.reopened, Content.block.injEq] at hcontent
      exact ⟨b, by rw [hcontent.1], hcontent.2⟩

theorem depictsChain_iff {ids : List String} {blocks : List Descriptor} :
    g.DepictsChain ids blocks <-> List.Forall₂ g.Depicts ids blocks := by
  induction blocks generalizing ids with
  | nil => cases ids <;> simp [DepictsChain]
  | cons x rest ih => cases ids <;> simp [DepictsChain, ih]

theorem depictsBranches_iff {id : String} {branches : List (Branch × List Descriptor)} :
    g.DepictsBranches id branches <->
      ∀ b ∈ branches, g.DepictsChain (g.blocksIn (.ofBranch id b.1.id)) b.2 := by
  induction branches with
  | nil => simp [DepictsBranches]
  | cons b rest ih => simp [DepictsBranches, ih]

/-!
# Bodies
-/

end Graph

namespace Descriptor

/-- The bodies of a block that a node stands for, each with its scope. -/
def bodies (id : String) : Descriptor -> List (Scope × List Descriptor)
  | leaf _ _ => []
  | loop _ _ children => [(.body id, children)]
  | conditional _ branches => branches.map fun b => (.ofBranch id b.1.id, b.2)

theorem bodies_scopes (id : String) (x : Descriptor) :
    (x.bodies id).map Prod.fst = x.block.role.scopes id := by
  cases x with
  | leaf h l => rfl
  | loop h a children => rfl
  | conditional h branches =>
      simp [bodies, block, Block.role, Role.scopes, Conditional.branchIds, Function.comp_def]

/-- The bodies of a block are the same for every node that stands for it. -/
theorem mem_bodies_of_mem {id id' : String} {x : Descriptor} {b : Scope × List Descriptor}
    (hb : b ∈ x.bodies id) : ({ b.1 with parent := some id' }, b.2) ∈ x.bodies id' := by
  cases x with
  | leaf h l => cases hb
  | loop h a children =>
      rw [List.mem_singleton.1 hb]
      exact List.mem_singleton.2 rfl
  | conditional h branches =>
      obtain ⟨c, hc, rfl⟩ := List.mem_map.1 hb
      exact List.mem_map.2 ⟨c, hc, rfl⟩

theorem listInOrder_append (xs ys : List Descriptor) :
    listInOrder (xs ++ ys) = listInOrder xs ++ listInOrder ys := by
  induction xs with
  | nil => rfl
  | cons x xs ih => rw [List.cons_append, listInOrder, listInOrder, ih, List.append_assoc]

theorem branchesInOrder_eq (branches : List (Branch × List Descriptor)) :
    branchesInOrder branches = listInOrder (branches.flatMap Prod.snd) := by
  induction branches with
  | nil => rfl
  | cons b branches ih =>
      rw [branchesInOrder, List.flatMap_cons, listInOrder_append, ih]

theorem inOrder_eq (id : String) (x : Descriptor) :
    x.inOrder = x :: listInOrder ((x.bodies id).flatMap Prod.snd) := by
  cases x with
  | leaf h l => rfl
  | loop h a children => simp [inOrder, bodies]
  | conditional h branches =>
      rw [inOrder, branchesInOrder_eq, bodies, List.flatMap_map]

theorem mem_inOrder_self (x : Descriptor) : x ∈ x.inOrder := by
  rw [inOrder_eq ""]
  exact List.mem_cons_self

end Descriptor

namespace Graph

variable {g : Graph} {run : Scope -> List String}

theorem depicts_iff {id : String} {x : Descriptor} :
    g.Depicts id x <->
      g.Carries id x ∧ ∀ b ∈ x.bodies id, g.DepictsChain (g.blocksIn b.1) b.2 := by
  cases x with
  | leaf h l => simp [Depicts, Descriptor.bodies]
  | loop h a children => simp [Depicts, Descriptor.bodies]
  | conditional h branches =>
      rw [Depicts, depictsBranches_iff, Descriptor.bodies, List.forall_mem_map]

theorem Depicts.carries {id : String} {x : Descriptor} (h : g.Depicts id x) :
    g.Carries id x :=
  (depicts_iff.1 h).1

/-!
# A graph depicts one document
-/

theorem Carries.unique {id : String} {x y : Descriptor} (hx : g.Carries id x)
    (hy : g.Carries id y) : x.heading = y.heading ∧ x.block = y.block := by
  have h := hx.symm.trans hy
  simpa only [Option.some.injEq, Content.block.injEq] using h

mutual

theorem Depicts.unique : ∀ (x : Descriptor) {y : Descriptor} {id : String},
    g.Depicts id x -> g.Depicts id y -> x = y
  | .leaf h l, y, id, hx, hy => by
      obtain ⟨hheading, hblock⟩ := hx.carries.unique hy.carries
      cases y <;> simp_all [Descriptor.heading, Descriptor.block]
  | .loop h a children, y, id, hx, hy => by
      obtain ⟨hheading, hblock⟩ := hx.carries.unique hy.carries
      cases y with
      | leaf h' l => simp [Descriptor.block] at hblock
      | conditional h' branches => simp [Descriptor.block] at hblock
      | loop h' a' children' =>
          rw [Depicts] at hx hy
          have hchildren := DepictsChain.unique children hx.2 hy.2
          simp_all [Descriptor.heading, Descriptor.block]
  | .conditional h branches, y, id, hx, hy => by
      obtain ⟨hheading, hblock⟩ := hx.carries.unique hy.carries
      cases y with
      | leaf h' l => simp [Descriptor.block] at hblock
      | loop h' a children => simp [Descriptor.block] at hblock
      | conditional h' branches' =>
          rw [Depicts] at hx hy
          simp only [Descriptor.block, Block.conditional.injEq, Conditional.mk.injEq] at hblock
          have hbranches := DepictsBranches.unique branches hblock.1 hx.2 hy.2
          simp_all [Descriptor.heading]

theorem DepictsChain.unique : ∀ (xs : List Descriptor) {ys : List Descriptor}
    {ids : List String}, g.DepictsChain ids xs -> g.DepictsChain ids ys -> xs = ys
  | [], ys, ids, hx, hy => by
      cases ids with
      | nil => cases ys <;> simp_all [DepictsChain]
      | cons id ids => simp [DepictsChain] at hx
  | x :: xs, ys, ids, hx, hy => by
      cases ids with
      | nil => simp [DepictsChain] at hx
      | cons id ids =>
          cases ys with
          | nil => simp [DepictsChain] at hy
          | cons y ys =>
              rw [DepictsChain] at hx hy
              rw [Depicts.unique x hx.1 hy.1, DepictsChain.unique xs hx.2 hy.2]

theorem DepictsBranches.unique : ∀ (xs : List (Branch × List Descriptor))
    {ys : List (Branch × List Descriptor)} {id : String}, xs.map Prod.fst = ys.map Prod.fst ->
      g.DepictsBranches id xs -> g.DepictsBranches id ys -> xs = ys
  | [], ys, id, hfst, _, _ => by
      cases ys <;> simp_all
  | (b, children) :: xs, ys, id, hfst, hx, hy => by
      cases ys with
      | nil => simp at hfst
      | cons c ys =>
          obtain ⟨c, others⟩ := c
          simp only [List.map_cons, List.cons.injEq] at hfst
          obtain ⟨rfl, hfst⟩ := hfst
          rw [DepictsBranches] at hx hy
          rw [DepictsChain.unique children hx.1 hy.1,
            DepictsBranches.unique xs hfst hx.2 hy.2]

end

/-!
# A graph depicts the document along its chains
-/

def describeId? (g : Graph) (inside : Scope -> List Descriptor) (id : String) :
    Option Descriptor :=
  (g.node? id).bind (describe? inside)

section Laid

variable (h : g.shape.Laid run) {s : Scope} (hs : g.shape.HasScope s)
include h hs

theorem run_eq_blocksIn : ∃ start marker,
    run s = start :: (g.blocksIn s ++ [marker]) ∧
    ⟨start, s.parent, .start⟩ ∈ g.shape.slots ∧
    ⟨marker, s.parent, .insertionMarker⟩ ∈ g.shape.slots ∧
    ∀ id ∈ g.blocksIn s, ∃ n ∈ g.nodes, n.id = id ∧ n.parent = s.parent ∧ n.isBlock := by
  obtain ⟨start, blocks, marker, hrun, hstart, hmarker, hblocks⟩ := (h.runs s hs).ends
  have heq : g.blocksIn s = blocks := by
    rw [blocksIn, chain_eq h hs, hrun, List.tail_cons, List.dropLast_concat]
  rw [heq]
  refine ⟨start, marker, hrun, hstart, hmarker, fun id hid => ?_⟩
  obtain ⟨x, hx, hxid, hparent, hblock⟩ := hblocks id hid
  obtain ⟨n, hn, rfl⟩ := mem_slots.1 hx
  exact ⟨n, hn, hxid, hparent, n.isBlock_slot ▸ hblock⟩

theorem describe_chain (inside : Scope -> List Descriptor) :
    ((g.chain s).filterMap g.node?).filterMap (describe? inside) =
      (g.blocksIn s).filterMap (g.describeId? inside) := by
  obtain ⟨start, marker, hrun, hstart, hmarker, -⟩ := run_eq_blocksIn h hs
  have hnone : ∀ {id : String} {p : Option String} {r : Role},
      ⟨id, p, r⟩ ∈ g.shape.slots -> r.isBlock = false -> g.describeId? inside id = none := by
    intro id p r hslot hr
    obtain ⟨n, hn, hslot⟩ := mem_slots.1 hslot
    have hid : n.id = id := congrArg Slot.id hslot
    rw [describeId?, ← hid, node?_eq_some h.distinct hn, Option.bind_some]
    have hrole : n.content.role = r := congrArg Slot.role hslot
    unfold describe?
    cases hc : n.content with
    | start => rfl
    | insertionMarker => rfl
    | block heading b =>
        rw [hc, Content.role] at hrole
        rw [← hrole, b.isBlock_role] at hr
        cases hr
  rw [List.filterMap_filterMap, chain_eq h hs, hrun]
  change (start :: (g.blocksIn s ++ [marker])).filterMap (g.describeId? inside) = _
  rw [List.filterMap_cons_none (hnone hstart rfl), List.filterMap_append,
    List.filterMap_cons_none (hnone hmarker rfl), List.filterMap_nil, List.append_nil]

end Laid

theorem depicts_describe (hids : g.shape.ids.Nodup) {inside : Scope -> List Descriptor} {n : Node}
    (hn : n ∈ g.nodes) (hblock : n.isBlock)
    (hinside : ∀ t, g.shape.HasScope t -> t.parent = some n.id ->
      g.DepictsChain (g.blocksIn t) (inside t)) :
    ∃ x, describe? inside n = some x ∧ g.Depicts n.id x := by
  have hnode := node?_eq_some hids hn
  have hscope : ∀ t, t ∈ n.content.role.scopes n.id -> g.shape.HasScope t :=
    fun t ht => Or.inr ⟨n.slot, slot_mem hn, ht⟩
  have hcarries : ∀ {x : Descriptor}, n.content.reopened = .block x.heading x.block ->
      g.Carries n.id x := by
    intro x hx
    rw [Carries, hnode, Option.map_some, hx]
  unfold describe?
  cases hc : n.content with
  | start => simp [Node.isBlock, Node.block?, hc] at hblock
  | insertionMarker => simp [Node.isBlock, Node.block?, hc] at hblock
  | block heading b =>
      rw [hc] at hscope hcarries
      cases b with
      | leaf l =>
          refine ⟨_, rfl, ?_⟩
          rw [Depicts]
          exact hcarries rfl
      | loop a =>
          refine ⟨_, rfl, ?_⟩
          rw [Depicts]
          exact ⟨hcarries rfl, hinside _ (hscope _ (List.mem_singleton.2 rfl)) rfl⟩
      | conditional c =>
          refine ⟨_, rfl, ?_⟩
          rw [Depicts, depictsBranches_iff]
          constructor
          · refine hcarries ?_
            simp [Content.reopened, Block.reopened, Descriptor.heading, Descriptor.block,
              Conditional.branchIds, Function.comp_def]
          · intro b hb
            obtain ⟨b, hmem, rfl⟩ := List.mem_map.1 hb
            exact hinside _ (hscope _ (List.mem_map_of_mem (List.mem_map_of_mem hmem))) rfl

/-- A scope is written down to its ends when no more levels are left out than its container
has places before it. -/
theorem depicts_descriptorsTo (h : g.shape.Laid run) (levels : Nat) :
    ∀ s, g.shape.HasScope s ->
      (∀ x ∈ g.shape.slots, x.parent = s.parent ->
        g.nodes.length ≤ levels + g.shape.rank x.id) ->
      g.DepictsChain (g.blocksIn s) (g.descriptorsTo levels s) := by
  have hlength : g.shape.slots.length = g.nodes.length := by simp [shape]
  induction levels with
  | zero =>
      intro s hs hdeep
      obtain ⟨start, marker, -, hstart, -⟩ := run_eq_blocksIn h hs
      have hlow := hdeep _ hstart rfl
      have hhigh := Shape.rank_lt_length hstart
      omega
  | succ levels ih =>
      intro s hs hdeep
      obtain ⟨start, marker, -, -, -, hblocks⟩ := run_eq_blocksIn h hs
      rw [descriptorsTo, describe_chain h hs, depictsChain_iff]
      refine forall₂_filterMap fun id hid => ?_
      obtain ⟨n, hn, rfl, hparent, hblock⟩ := hblocks id hid
      rw [describeId?, node?_eq_some h.distinct hn, Option.bind_some]
      refine depicts_describe h.distinct hn hblock fun t ht htparent => ih t ht ?_
      intro y hy hyparent
      have hlow := hdeep n.slot (slot_mem hn) hparent
      have hnested := h.rank_lt hy (hyparent.trans htparent)
      rw [Node.slot_id] at hlow
      omega

theorem depicts_descriptors (h : g.shape.Laid run) :
    g.DepictsChain (g.blocksIn .root) (g.descriptors .root) :=
  depicts_descriptorsTo h _ _ (Shape.hasScope_root _) fun _ _ _ => Nat.le_add_right _ _

end Graph
end Workflow
