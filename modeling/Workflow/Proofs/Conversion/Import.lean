import Workflow.Proofs.Conversion.Labels
import Workflow.Proofs.Draft

/-!
# Imported definitions are laid out

Importing creates nodes and edges only.  The chain of a body is built from its start
marker on while the link to its insertion marker is missing; inside a block that is
placed the same goes on in the body of the block.  Chains of different branches stay
apart because their tags do, which is why the branches of a conditional have to be
distinct.
-/

namespace Workflow

/-- A conditional whose branches have different ids. -/
def Descriptor.DistinctBranches : Descriptor -> Prop
  | .conditional _ branches => (branches.map fun b => b.1.id).Nodup
  | _ => True

def Definition.DistinctBranches (d : Definition) : Prop :=
  ∀ x ∈ d.allBlocks, x.DistinctBranches

namespace Draft

/-!
# Importing only creates
-/

section Creation

/-- What creating nodes and edges keeps. -/
structure Creation (P : Draft -> Prop) : Prop where
  addNode : ∀ d p c, P d -> P (d.addNode p c).2
  addEdge : ∀ d source target kind tag hidden, P d ->
    P (d.addEdge source target kind tag hidden)

variable {P : Draft -> Prop}

mutual

theorem Creation.addDescriptor (h : Creation P) : ∀ (x : Descriptor) (d : Draft)
    (parent : Option String), P d -> P (d.addDescriptor parent x).2
  | .leaf _ _, d, parent, hd => h.addNode d parent _ hd
  | .loop _ _ children, _, _, hd =>
      h.addChain children _ _ _ _ _ _ (h.addNode _ _ _ (h.addNode _ _ _ (h.addNode _ _ _ hd)))
  | .conditional _ branches, _, _, hd =>
      h.addBranches branches _ _ _ _ _
        (h.addNode _ _ _ (h.addNode _ _ _ (h.addNode _ _ _ hd)))

theorem Creation.addChain (h : Creation P) : ∀ (blocks : List Descriptor) (d : Draft)
    (parent : Option String) (tag : Option BranchTag) (hidden : Bool) (marker previous : String),
    P d -> P (d.addChain parent tag hidden marker previous blocks)
  | [], _, _, _, _, _, _, hd => h.addEdge _ _ _ _ _ _ hd
  | b :: rest, d, parent, _, _, _, _, hd =>
      h.addChain rest _ _ _ _ _ _ (h.addEdge _ _ _ _ _ _ (h.addDescriptor b d parent hd))

theorem Creation.addBranches (h : Creation P) : ∀ (branches : List (Branch × List Descriptor))
    (d : Draft) (container start marker : String) (hidden : Bool),
    P d -> P (d.addBranches container start marker hidden branches)
  | [], _, _, _, _, _, hd => hd
  | (_, children) :: rest, _, _, _, _, _, hd =>
      h.addBranches rest _ _ _ _ _ (h.addChain children _ _ _ _ _ _ hd)

end

theorem Creation.ofBlocks (h : Creation P) (s : Supply) (blocks : List Descriptor)
    (hempty : P { supply := s }) : P (ofBlocks s blocks) :=
  h.addChain blocks _ _ _ _ _ _ (h.addNode _ _ _ (h.addNode _ _ _ hempty))

end Creation

/-- Every id is used once and has been given out. -/
structure Fresh (d : Draft) : Prop where
  distinct : d.graph.shape.ids.Nodup
  issued : ∀ id ∈ d.graph.shape.ids, d.supply.Issued id

theorem creation_fresh : Creation Fresh where
  addNode d p c h := by
    have hafter := supply_addNode d p c
    constructor
    case distinct =>
      rw [shape_addNode, Shape.ids, List.map_append]
      refine List.nodup_append.2 ⟨h.distinct, List.nodup_singleton _, ?_⟩
      rintro id hid id' hid' rfl
      have hid' : id = d.supply.upcoming 1 := List.mem_singleton.1 hid'
      exact not_mem_upcoming h.issued Nat.one_pos (hid' ▸ hid)
    case issued =>
      intro id hid
      rw [shape_addNode, Shape.ids, List.map_append] at hid
      rcases List.mem_append.1 hid with hid | hid
      · exact (h.issued id hid).after hafter
      · rw [List.mem_singleton.1 hid]
        exact hafter.issued (Nat.le_refl 1)
  addEdge d source target kind tag hidden h := by
    have hafter := supply_addEdge d source target kind tag hidden
    constructor
    case distinct =>
      rw [shape_addEdge]
      exact h.distinct
    case issued =>
      rw [shape_addEdge]
      exact fun id hid => (h.issued id hid).after hafter

theorem fresh_ofBlocks (s : Supply) (blocks : List Descriptor) : (ofBlocks s blocks).Fresh :=
  creation_fresh.ofBlocks s blocks ⟨List.nodup_nil, fun _ hid => absurd hid List.not_mem_nil⟩

/-- Nothing is taken away from a graph. -/
structure Extends (g : Graph) (d : Draft) : Prop where
  nodes : g.nodes ⊆ d.graph.nodes
  edges : g.edges ⊆ d.graph.edges

theorem Extends.refl (d : Draft) : Extends d.graph d :=
  ⟨fun _ hn => hn, fun _ he => he⟩

theorem Extends.trans {g : Graph} {d d' : Draft} (h : Extends g d) (h' : Extends d.graph d') :
    Extends g d' :=
  ⟨fun _ hn => h'.nodes (h.nodes hn), fun _ he => h'.edges (h.edges he)⟩

theorem slots_subset_of_extends {g : Graph} {d : Draft} (h : Extends g d) :
    g.shape.slots ⊆ d.graph.shape.slots :=
  List.map_subset _ h.nodes

theorem creation_extends (g : Graph) : Creation (Extends g) where
  addNode _ _ _ h := ⟨fun _ hn => List.mem_append_left _ (h.nodes hn), h.edges⟩
  addEdge _ _ _ _ _ _ h := ⟨h.nodes, fun _ he => List.mem_append_left _ (h.edges he)⟩

/-!
# Importing lays chains out
-/

/-- The scopes of a draft stay, and so do the runs of those that are not excepted. -/
def KeepsBut (except : Scope -> Prop) (d d' : Draft) (run run' : Scope -> List String) : Prop :=
  ∀ t, d.graph.shape.HasScope t ->
    d'.graph.shape.HasScope t ∧ (¬ except t -> run' t = run t)

section Lay

variable {d : Draft} {run : Scope -> List String} {missing : List Link}

/-- The nodes of a container with an empty body. -/
def addContainer (d : Draft) (parent : Option String) (h : Heading) (b : Block) : Draft :=
  (((d.addNode parent (.block h b)).2.addNode (some (d.supply.upcoming 1)) .start).2.addNode
    (some (d.supply.upcoming 1)) .insertionMarker).2

theorem shape_addContainer (d : Draft) (parent : Option String) (h : Heading) (b : Block) :
    (d.addContainer parent h b).graph.shape =
      ⟨d.graph.shape.slots ++ ⟨d.supply.upcoming 1, parent, b.role⟩ ::
        [⟨d.supply.upcoming 2, some (d.supply.upcoming 1), .start⟩,
          ⟨d.supply.upcoming 3, some (d.supply.upcoming 1), .insertionMarker⟩],
        d.graph.shape.links⟩ := by
  rw [addContainer, shape_addNode, shape_addNode, shape_addNode, List.append_assoc,
    List.append_assoc]
  rfl

theorem scopes_conditional (h : Heading) (branches : List (Branch × List Descriptor))
    (id : String) : (Descriptor.conditional h branches).block.role.scopes id =
      branches.map fun b => .ofBranch id b.1.id := by
  simp only [Descriptor.block, Block.role, Conditional.branchIds, Role.scopes, List.map_map,
    Function.comp_def]

/-- The links in an empty body of a role. -/
def bodyLinks (start marker id : String) (r : Role) : List Link :=
  (r.scopes id).map fun t => ⟨start, marker, t.tag⟩

section Container

variable {s : Scope} {u v : List String} {p n : String} (parent : Option String) (h : Heading)
  (b : Block)

theorem hasScope_addContainer {t : Scope} :
    (d.addContainer parent h b).graph.shape.HasScope t <->
      d.graph.shape.HasScope t ∨ t ∈ b.role.scopes (d.supply.upcoming 1) := by
  rw [shape_addContainer]
  simp only [Shape.HasScope, List.mem_append, List.mem_cons, List.not_mem_nil, or_false]
  constructor
  · rintro (rfl | ⟨x, hx | rfl | rfl | rfl, ht⟩)
    · exact Or.inl (Or.inl rfl)
    · exact Or.inl (Or.inr ⟨x, hx, ht⟩)
    · exact Or.inr ht
    · simp [Role.scopes] at ht
    · simp [Role.scopes] at ht
  · rintro ((rfl | ⟨x, hx, ht⟩) | ht)
    · exact Or.inl rfl
    · exact Or.inr ⟨x, Or.inl hx, ht⟩
    · exact Or.inr ⟨_, Or.inr (Or.inl rfl), ht⟩

/-- Placing a block changes the run that it is placed on and no other. -/
theorem keepsBut_insertRun {d' : Draft} {row : List String} {start marker : String}
    (hissued : ∀ id ∈ d.graph.shape.ids, d.supply.Issued id)
    (hslots : d.graph.shape.slots ⊆ d'.graph.shape.slots) :
    KeepsBut (· = s) d d' run
      (Shape.insertRun run s row (d.supply.upcoming 1) start marker) := by
  intro t ht
  constructor
  · exact ht.elim Or.inl fun ⟨x, hx, hxt⟩ => Or.inr ⟨x, hslots hx, hxt⟩
  · intro hts
    rw [insertRun_of_hasScope hissued ht, Function.update_of_ne hts]

theorem LaidBut.addLeaf (hd : d.LaidBut run (⟨p, n, s.tag⟩ :: missing))
    (hs : d.graph.shape.HasScope s) (hrun : run s = u ++ p :: n :: v) (l : Leaf) :
    ∃ run', (d.addNode s.parent (.block h (.leaf l))).2.LaidBut run'
        (⟨p, d.supply.upcoming 1, s.tag⟩ :: ⟨d.supply.upcoming 1, n, s.tag⟩ :: missing) ∧
      run' s = u ++ p :: d.supply.upcoming 1 :: n :: v ∧
      KeepsBut (· = s) d (d.addNode s.parent (.block h (.leaf l))).2 run run' := by
  have hshape : (d.addNode s.parent (.block h (.leaf l))).2.graph.shape =
      ⟨d.graph.shape.slots ++ [⟨d.supply.upcoming 1, s.parent, .leaf⟩],
        d.graph.shape.links ++ []⟩ := by
    rw [List.append_nil]
    exact shape_addNode d s.parent (.block h (.leaf l))
  have hp : p ≠ d.supply.upcoming 1 := by
    rintro rfl
    exact not_mem_upcoming hd.issued Nat.one_pos
      (hd.shape.mem_ids_of_mem_run hs (by simp [hrun]))
  have hlinks : ∀ l : Link, l ∈ [⟨p, d.supply.upcoming 1, s.tag⟩,
      ⟨d.supply.upcoming 1, n, s.tag⟩] ∨ l ∈ ([] : List Link) <->
        (l = ⟨p, d.supply.upcoming 1, s.tag⟩ ∨ l = ⟨d.supply.upcoming 1, n, s.tag⟩) ∨
          ∃ t ∈ Role.leaf.scopes (d.supply.upcoming 1),
            l = ⟨d.supply.upcoming 2, d.supply.upcoming 3, t.tag⟩ := by
    simp [Role.scopes]
  refine ⟨_, hd.place hs hrun (rfl : Role.leaf.isBlock) hshape ⟨rfl, rfl⟩ hlinks
    (by simp [hp]) (by simp), ?_, keepsBut_insertRun hd.issued ?_⟩
  · rw [insertRun_of_hasScope hd.issued hs, Function.update_self]
  · rw [hshape]
    exact List.subset_append_left _ _

/-- A container between two neighbours, with the links around it and in its body missing. -/
theorem LaidBut.addContainer (hd : d.LaidBut run (⟨p, n, s.tag⟩ :: missing))
    (hs : d.graph.shape.HasScope s) (hrun : run s = u ++ p :: n :: v)
    (hb : b.role.isContainer)
    (hbody : ((b.role.scopes (d.supply.upcoming 1)).map Scope.tag).Nodup) :
    ∃ run', (d.addContainer s.parent h b).LaidBut run'
        (bodyLinks (d.supply.upcoming 2) (d.supply.upcoming 3) (d.supply.upcoming 1) b.role ++
          [⟨p, d.supply.upcoming 1, s.tag⟩, ⟨d.supply.upcoming 1, n, s.tag⟩] ++ missing) ∧
      run' s = u ++ p :: d.supply.upcoming 1 :: n :: v ∧
      KeepsBut (· = s) d (d.addContainer s.parent h b) run run' ∧
      ∀ t ∈ b.role.scopes (d.supply.upcoming 1),
        run' t = [d.supply.upcoming 2, d.supply.upcoming 3] := by
  have hdistinct : ∀ i j, i ≠ j -> d.supply.upcoming i ≠ d.supply.upcoming j :=
    fun i j hij heq => hij (d.supply.upcoming_injective heq)
  have hp : ∀ i, 0 < i -> p ≠ d.supply.upcoming i := by
    rintro i hi rfl
    exact not_mem_upcoming hd.issued hi (hd.shape.mem_ids_of_mem_run hs (by simp [hrun]))
  have hshape : (d.addContainer s.parent h b).graph.shape =
      ⟨d.graph.shape.slots ++ ⟨d.supply.upcoming 1, s.parent, b.role⟩ ::
        Shape.bodySlots (d.supply.upcoming 1) (d.supply.upcoming 2) (d.supply.upcoming 3) b.role,
        d.graph.shape.links ++ []⟩ := by
    rw [shape_addContainer, Shape.bodySlots, if_pos hb, List.append_nil]
  have hsupply : d.supply.After (d.addContainer s.parent h b).supply
      (if b.role.isContainer then 3 else 1) := by
    rw [if_pos hb]
    exact ⟨rfl, rfl⟩
  refine ⟨_, hd.place hs hrun b.isBlock_role hshape hsupply (fun l => ?_) ?_
    fun l _ => List.not_mem_nil, ?_, keepsBut_insertRun hd.issued ?_, fun t ht => ?_⟩
  · simp only [bodyLinks, List.mem_append, List.mem_map, List.mem_cons, List.not_mem_nil,
      false_or, eq_comm, or_comm]
  · refine List.nodup_append.2 ⟨?_, by simp [hp], ?_⟩
    · refine List.Nodup.of_map Link.tag ?_
      simpa [bodyLinks, Function.comp_def] using hbody
    · rintro l hl l' hl' rfl
      obtain ⟨t, -, rfl⟩ := List.mem_map.1 hl
      simp only [List.mem_cons, Link.mk.injEq, List.not_mem_nil, or_false] at hl'
      rcases hl' with ⟨heq, -⟩ | ⟨heq, -⟩
      · exact hp 2 (by omega) heq.symm
      · exact hdistinct 2 1 (by omega) heq
  · rw [insertRun_of_hasScope hd.issued hs, Function.update_self]
  · rw [hshape]
    exact List.subset_append_left _ _
  · exact if_pos (Role.parent_of_mem_scopes ht)

theorem LaidBut.addLoop (hd : d.LaidBut run (⟨p, n, s.tag⟩ :: missing))
    (hs : d.graph.shape.HasScope s) (hrun : run s = u ++ p :: n :: v) (a : Attributes.Loop) :
    ∃ run', (d.addContainer s.parent h (.loop a)).LaidBut run'
        (⟨d.supply.upcoming 2, d.supply.upcoming 3, none⟩ :: ⟨p, d.supply.upcoming 1, s.tag⟩ ::
          ⟨d.supply.upcoming 1, n, s.tag⟩ :: missing) ∧
      run' s = u ++ p :: d.supply.upcoming 1 :: n :: v ∧
      KeepsBut (· = s) d (d.addContainer s.parent h (.loop a)) run run' ∧
      (d.addContainer s.parent h (.loop a)).graph.shape.HasScope (.body (d.supply.upcoming 1)) ∧
      run' (.body (d.supply.upcoming 1)) = [d.supply.upcoming 2, d.supply.upcoming 3] := by
  obtain ⟨run', hlaid, hrun', hkeeps, hbody⟩ :=
    hd.addContainer h (.loop a) hs hrun rfl (by simp [Block.role, Role.scopes])
  refine ⟨run', hlaid, hrun', hkeeps, ?_, hbody _ (List.mem_singleton.2 rfl)⟩
  exact (hasScope_addContainer s.parent h (.loop a)).2 (Or.inr (List.mem_singleton.2 rfl))

theorem LaidBut.addConditional (hd : d.LaidBut run (⟨p, n, s.tag⟩ :: missing))
    (hs : d.graph.shape.HasScope s) (hrun : run s = u ++ p :: n :: v)
    {branches : List (Branch × List Descriptor)}
    (hdistinct : (branches.map fun b => b.1.id).Nodup) :
    let d' := d.addContainer s.parent h (Descriptor.conditional h branches).block
    ∃ run', d'.LaidBut run'
        ((branches.map fun b => ⟨d.supply.upcoming 2, d.supply.upcoming 3,
          some ⟨d.supply.upcoming 1, b.1.id⟩⟩) ++
            (⟨p, d.supply.upcoming 1, s.tag⟩ :: ⟨d.supply.upcoming 1, n, s.tag⟩ :: missing)) ∧
      run' s = u ++ p :: d.supply.upcoming 1 :: n :: v ∧
      KeepsBut (· = s) d d' run run' ∧
      ∀ b ∈ branches, d'.graph.shape.HasScope (.ofBranch (d.supply.upcoming 1) b.1.id) ∧
        run' (.ofBranch (d.supply.upcoming 1) b.1.id) =
          [d.supply.upcoming 2, d.supply.upcoming 3] := by
  have hscopes := scopes_conditional h branches (d.supply.upcoming 1)
  obtain ⟨run', hlaid, hrun', hkeeps, hbody⟩ :=
    hd.addContainer h (Descriptor.conditional h branches).block hs hrun rfl (by
      rw [hscopes, List.map_map]
      refine List.Nodup.of_map (fun t => (t.map BranchTag.branch).getD "") ?_
      rw [List.map_map]
      exact hdistinct)
  have hlinks : bodyLinks (d.supply.upcoming 2) (d.supply.upcoming 3)
      (d.supply.upcoming 1) (Descriptor.conditional h branches).block.role =
        branches.map fun b =>
          ⟨d.supply.upcoming 2, d.supply.upcoming 3, some ⟨d.supply.upcoming 1, b.1.id⟩⟩ := by
    rw [bodyLinks, hscopes, List.map_map]
    rfl
  rw [hlinks, List.append_assoc] at hlaid
  refine ⟨run', hlaid, hrun', hkeeps, fun b hb => ?_⟩
  have hmem : Scope.ofBranch (d.supply.upcoming 1) b.1.id ∈
      (Descriptor.conditional h branches).block.role.scopes (d.supply.upcoming 1) :=
    hscopes ▸ List.mem_map_of_mem hb
  exact ⟨(hasScope_addContainer _ _ _).2 (Or.inr hmem), hbody _ hmem⟩

end Container

/-- Filling the body of a new block changes no run that was there before. -/
theorem KeepsBut.inner {d d' d'' : Draft} {run run' run'' : Scope -> List String} {s : Scope}
    {id : String} (hid : id ∉ d.graph.shape.ids) (h : KeepsBut (· = s) d d' run run')
    (h' : KeepsBut (fun t => t.parent = some id) d' d'' run' run'') :
    KeepsBut (· = s) d d'' run run'' := by
  intro t ht
  obtain ⟨ht', hrun⟩ := h t ht
  obtain ⟨ht'', hrun'⟩ := h' t ht'
  refine ⟨ht'', fun hts => (hrun' ?_).trans (hrun hts)⟩
  exact Shape.Nested.parent_ne_of_not_mem hid ht.hasBody

theorem keepsBut_addEdge (except : Scope -> Prop) (d : Draft) (run : Scope -> List String)
    (source target : String) (kind : EdgeKind) (tag : Option BranchTag) (hidden : Bool) :
    KeepsBut except d (d.addEdge source target kind tag hidden) run run := by
  intro t ht
  rw [shape_addEdge]
  exact ⟨ht, fun _ => rfl⟩

mutual

/-- A block is placed with the links to its neighbours missing. -/
theorem laid_addDescriptor : ∀ (x : Descriptor), (∀ y ∈ x.inOrder, y.DistinctBranches) ->
    ∀ {d : Draft} {run : Scope -> List String} {missing : List Link} {s : Scope}
      {u v : List String} {p n : String},
      d.LaidBut run (⟨p, n, s.tag⟩ :: missing) -> d.graph.shape.HasScope s ->
      run s = u ++ p :: n :: v ->
      ∃ run', (d.addDescriptor s.parent x).2.LaidBut run'
          (⟨p, (d.addDescriptor s.parent x).1, s.tag⟩ ::
            ⟨(d.addDescriptor s.parent x).1, n, s.tag⟩ :: missing) ∧
        run' s = u ++ p :: (d.addDescriptor s.parent x).1 :: n :: v ∧
        KeepsBut (· = s) d (d.addDescriptor s.parent x).2 run run'
  | .leaf h l, _, d, run, missing, s, u, v, p, n, hd, hs, hrun => by
      exact hd.addLeaf h hs hrun l
  | .loop h a children, hx, d, run, missing, s, u, v, p, n, hd, hs, hrun => by
      have heq : d.addDescriptor s.parent (.loop h a children) =
          (d.supply.upcoming 1, (d.addContainer s.parent h (.loop a)).addChain
            (some (d.supply.upcoming 1)) none false (d.supply.upcoming 3)
            (d.supply.upcoming 2) children) := rfl
      obtain ⟨run₁, hlaid₁, hrun₁, hkeeps₁, hscope, hbody⟩ := hd.addLoop h hs hrun a
      obtain ⟨run₂, hlaid₂, hkeeps₂⟩ := laid_addChain children
        (fun y hy => hx y (List.mem_cons_of_mem _ hy)) (u := []) false hlaid₁ hscope hbody
      have hkeeps := hkeeps₁.inner (not_mem_upcoming hd.issued Nat.one_pos) (fun t ht =>
        ⟨(hkeeps₂ t ht).1, fun hparent => (hkeeps₂ t ht).2 fun hts => hparent (hts ▸ rfl)⟩)
      have hparent := Shape.Nested.parent_ne_of_not_mem
        (not_mem_upcoming hd.issued Nat.one_pos) hs.hasBody
      rw [heq]
      refine ⟨run₂, hlaid₂, ?_, hkeeps⟩
      rw [(hkeeps₂ s (hkeeps₁ s hs).1).2 fun hsbody => hparent (hsbody ▸ rfl), hrun₁]
  | .conditional h branches, hx, d, run, missing, s, u, v, p, n, hd, hs, hrun => by
      have hdistinct : (branches.map fun b => b.1.id).Nodup := hx _ List.mem_cons_self
      have heq : d.addDescriptor s.parent (.conditional h branches) =
          (d.supply.upcoming 1,
            (d.addContainer s.parent h (Descriptor.conditional h branches).block).addBranches
              (d.supply.upcoming 1) (d.supply.upcoming 2) (d.supply.upcoming 3) false
              branches) := rfl
      obtain ⟨run₁, hlaid₁, hrun₁, hkeeps₁, hbranches⟩ := hd.addConditional h hs hrun hdistinct
      obtain ⟨run₂, hlaid₂, hkeeps₂⟩ := laid_addBranches branches
        (fun y hy => hx y (List.mem_cons_of_mem _ hy)) hdistinct false hlaid₁ hbranches
      have hparent := Shape.Nested.parent_ne_of_not_mem
        (not_mem_upcoming hd.issued Nat.one_pos) hs.hasBody
      rw [heq]
      refine ⟨run₂, hlaid₂, ?_,
        hkeeps₁.inner (not_mem_upcoming hd.issued Nat.one_pos) hkeeps₂⟩
      rw [(hkeeps₂ s (hkeeps₁ s hs).1).2 hparent, hrun₁]

theorem laid_addChain : ∀ (blocks : List Descriptor),
    (∀ y ∈ Descriptor.listInOrder blocks, y.DistinctBranches) ->
    ∀ {d : Draft} {run : Scope -> List String} {missing : List Link} {s : Scope}
      {u v : List String} {p n : String} (hidden : Bool),
      d.LaidBut run (⟨p, n, s.tag⟩ :: missing) -> d.graph.shape.HasScope s ->
      run s = u ++ p :: n :: v ->
      ∃ run', (d.addChain s.parent s.tag hidden n p blocks).LaidBut run' missing ∧
        KeepsBut (· = s) d (d.addChain s.parent s.tag hidden n p blocks) run run'
  | [], _, d, run, missing, s, u, v, p, n, hidden, hd, hs, hrun =>
      ⟨run, hd.addEdge _ hidden, keepsBut_addEdge _ _ _ _ _ _ _ _⟩
  | x :: rest, hx, d, run, missing, s, u, v, p, n, hidden, hd, hs, hrun => by
      obtain ⟨run₁, hlaid₁, hrun₁, hkeeps₁⟩ := laid_addDescriptor x
        (fun y hy => hx y (List.mem_append_left _ hy)) hd hs hrun
      have hlink := hlaid₁.addEdge (if s.tag.isSome then .branch else .insertable) hidden
      have hkeeps := keepsBut_addEdge (· = s) (d.addDescriptor s.parent x).2 run₁ p
        (d.addDescriptor s.parent x).1 (if s.tag.isSome then .branch else .insertable)
        s.tag hidden
      obtain ⟨run₂, hlaid₂, hkeeps₂⟩ := laid_addChain rest
        (fun y hy => hx y (List.mem_append_right _ hy)) (u := u ++ [p]) hidden hlink
        (hkeeps s (hkeeps₁ s hs).1).1 (by simpa using hrun₁)
      refine ⟨run₂, hlaid₂, fun t ht => ?_⟩
      obtain ⟨ht₁, hrun₁⟩ := hkeeps₁ t ht
      obtain ⟨ht₂, hrun₂⟩ := hkeeps₂ t (hkeeps t ht₁).1
      exact ⟨ht₂, fun hts => (hrun₂ hts).trans (hrun₁ hts)⟩

theorem laid_addBranches : ∀ (branches : List (Branch × List Descriptor)),
    (∀ y ∈ Descriptor.branchesInOrder branches, y.DistinctBranches) ->
    (branches.map fun b => b.1.id).Nodup ->
    ∀ {d : Draft} {run : Scope -> List String} {missing : List Link} {id p n : String}
      (hidden : Bool),
      d.LaidBut run ((branches.map fun b => ⟨p, n, some ⟨id, b.1.id⟩⟩) ++ missing) ->
      (∀ b ∈ branches, d.graph.shape.HasScope (.ofBranch id b.1.id) ∧
        run (.ofBranch id b.1.id) = [p, n]) ->
      ∃ run', (d.addBranches id p n hidden branches).LaidBut run' missing ∧
        KeepsBut (fun t => t.parent = some id) d (d.addBranches id p n hidden branches) run run'
  | [], _, _, d, run, missing, id, p, n, hidden, hd, _ =>
      ⟨run, hd, fun t ht => ⟨ht, fun _ => rfl⟩⟩
  | (b, children) :: rest, hx, hnodup, d, run, missing, id, p, n, hidden, hd, hs => by
      obtain ⟨hb, hrest⟩ := List.nodup_cons.1 hnodup
      obtain ⟨hscope, hrun⟩ := hs _ List.mem_cons_self
      obtain ⟨run₁, hlaid₁, hkeeps₁⟩ := laid_addChain children
        (fun y hy => hx y (List.mem_append_left _ hy)) (s := .ofBranch id b.id) (u := [])
        hidden hd hscope hrun
      obtain ⟨run₂, hlaid₂, hkeeps₂⟩ := laid_addBranches rest
        (fun y hy => hx y (List.mem_append_right _ hy)) hrest true hlaid₁ (fun c hc => by
          obtain ⟨hcscope, hcrun⟩ := hs c (List.mem_cons_of_mem _ hc)
          refine ⟨(hkeeps₁ _ hcscope).1, ((hkeeps₁ _ hcscope).2 fun heq => hb ?_).trans hcrun⟩
          have hid : c.1.id = b.id := by
            simpa [Scope.ofBranch] using heq
          exact List.mem_map.2 ⟨c, hc, hid⟩)
      refine ⟨run₂, hlaid₂, fun t ht => ⟨(hkeeps₂ t (hkeeps₁ t ht).1).1, fun hparent => ?_⟩⟩
      rw [(hkeeps₂ t (hkeeps₁ t ht).1).2 hparent]
      exact (hkeeps₁ t ht).2 fun heq => hparent (heq ▸ rfl)

end

end Lay

theorem laidBut_markers (s : Supply) :
    ((Draft.addNode { supply := s } none .start).2.addNode none .insertionMarker).2.LaidBut
      (emptyRun s) [⟨s.upcoming 1, s.upcoming 2, none⟩] where
  shape := (laid_emptyState s).shape
  absent := fun _ _ => List.not_mem_nil
  nodup := List.nodup_singleton _
  issued := (laid_emptyState s).issued

theorem laid_ofBlocks (s : Supply) {blocks : List Descriptor}
    (h : ∀ y ∈ Descriptor.listInOrder blocks, y.DistinctBranches) :
    ∃ run, (ofBlocks s blocks).Laid run := by
  obtain ⟨run, hlaid, -⟩ := laid_addChain blocks h (s := .root) (u := []) (v := []) false
    (laidBut_markers s) (Shape.hasScope_root _) rfl
  exact ⟨run, hlaid.laid⟩

end Draft

/-- A definition whose conditionals have distinct branches is laid out. -/
theorem Definition.laid_toDraft? {d : Definition} {s : Supply} {g : Draft}
    (hbranches : d.DistinctBranches) (h : d.toDraft? s = .ok g) : ∃ run, g.Laid run := by
  obtain ⟨-, -, rfl⟩ := eq_of_toDraft? h
  exact Draft.laid_ofBlocks s hbranches

end Workflow
