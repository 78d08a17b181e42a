import Workflow.Proofs.Conversion.Import
import Workflow.Proofs.Tidy.Insertion

/-!
# Imported definitions are tidy

Importing adds the edges that a layout misses, so none of them is there already.  An edge of a
chain leads to the next block or, at the end, to the marker of the body.
-/

namespace Workflow
namespace Draft

variable {d : Draft} {run : Scope -> List String} {missing : List Link}

theorem tidy_link {source : String} {tag : Option BranchTag} {x : Slot}
    (hd : d.LaidBut run (⟨source, x.id, tag⟩ :: missing)) (ht : d.graph.Tidy)
    (hx : x ∈ d.graph.shape.slots) {hidden : Bool} (hhidden : tag = none -> hidden = false) :
    (d.link source x.id x.role.entry tag hidden).graph.Tidy := by
  refine tidy_addEdge ht (fun id => ?_) (hd.absent _ List.mem_cons_self)
  cases tag with
  | some t => rfl
  | none => exact ⟨hhidden rfl, x, hx, rfl, rfl⟩

theorem slots_subset_addDescriptor (x : Descriptor) (d : Draft) (parent : Option String) :
    d.graph.shape.slots ⊆ (d.addDescriptor parent x).2.graph.shape.slots :=
  slots_subset_of_extends ((creation_extends d.graph).addDescriptor x d parent (.refl d))

theorem exists_slot_addDescriptor (x : Descriptor) (d : Draft) (parent : Option String) :
    ∃ y ∈ (d.addDescriptor parent x).2.graph.shape.slots,
      y.id = (d.addDescriptor parent x).1 ∧ y.role.isBlock := by
  cases x with
  | leaf h l =>
      refine ⟨⟨d.supply.upcoming 1, parent, .leaf⟩, ?_, rfl, rfl⟩
      rw [show (d.addDescriptor parent (.leaf h l)).2 =
        (d.addNode parent (.block h (.leaf l))).2 from rfl, shape_addNode]
      exact List.mem_append_right _ (List.mem_singleton.2 rfl)
  | loop h a children =>
      refine ⟨⟨d.supply.upcoming 1, parent, .loop⟩, ?_, rfl, rfl⟩
      have hext := (creation_extends (d.addContainer parent h (.loop a)).graph).addChain children
        (d.addContainer parent h (.loop a)) (some (d.supply.upcoming 1)) none false
        (d.supply.upcoming 3) (d.supply.upcoming 2) (.refl _)
      apply slots_subset_of_extends hext
      rw [shape_addContainer]
      exact List.mem_append_right _ List.mem_cons_self
  | conditional h branches =>
      have hrole := (Descriptor.conditional h branches).block.isBlock_role
      refine ⟨⟨d.supply.upcoming 1, parent, (Descriptor.conditional h branches).block.role⟩, ?_,
        rfl, hrole⟩
      have hext := (creation_extends (d.addContainer parent h
        (Descriptor.conditional h branches).block).graph).addBranches branches
          (d.addContainer parent h (Descriptor.conditional h branches).block)
          (d.supply.upcoming 1) (d.supply.upcoming 2) (d.supply.upcoming 3) false (.refl _)
      apply slots_subset_of_extends hext
      rw [shape_addContainer]
      exact List.mem_append_right _ List.mem_cons_self

theorem tidy_addContainer (ht : d.graph.Tidy) (parent : Option String) (h : Heading) (b : Block) :
    (d.addContainer parent h b).graph.Tidy :=
  tidy_addNode (tidy_addNode (tidy_addNode ht _ _) _ _) _ _

theorem marker_mem_addContainer (d : Draft) (parent : Option String) (h : Heading) (b : Block) :
    ⟨d.supply.upcoming 3, some (d.supply.upcoming 1), .insertionMarker⟩ ∈
      (d.addContainer parent h b).graph.shape.slots := by
  rw [shape_addContainer]
  simp

mutual

theorem tidy_addDescriptor : ∀ (x : Descriptor), (∀ y ∈ x.inOrder, y.DistinctBranches) ->
    ∀ {d : Draft} {run : Scope -> List String} {missing : List Link} {s : Scope}
      {u v : List String} {p n : String},
      d.LaidBut run (⟨p, n, s.tag⟩ :: missing) -> d.graph.Tidy -> d.graph.shape.HasScope s ->
      run s = u ++ p :: n :: v -> (d.addDescriptor s.parent x).2.graph.Tidy
  | .leaf h l, _, d, _, _, s, _, _, _, _, _, ht, _, _ => tidy_addNode ht s.parent _
  | .loop h a children, hx, d, run, missing, s, u, v, p, n, hd, ht, hs, hrun => by
      obtain ⟨run', hlaid, -, -, hscope, hbody⟩ := hd.addLoop h hs hrun a
      exact tidy_addChain children (fun y hy => hx y (List.mem_cons_of_mem _ hy)) (u := [])
        hlaid (tidy_addContainer ht s.parent h _) hscope hbody
        (marker_mem_addContainer d s.parent h _) fun _ => rfl
  | .conditional h branches, hx, d, run, missing, s, u, v, p, n, hd, ht, hs, hrun => by
      have hdistinct : (branches.map fun b => b.1.id).Nodup := hx _ List.mem_cons_self
      obtain ⟨run', hlaid, -, -, hbranches⟩ := hd.addConditional h hs hrun hdistinct
      exact tidy_addBranches branches (fun y hy => hx y (List.mem_cons_of_mem _ hy)) hdistinct
        hlaid (tidy_addContainer ht s.parent h _) hbranches
        (marker_mem_addContainer d s.parent h _)

theorem tidy_addChain : ∀ (blocks : List Descriptor),
    (∀ y ∈ Descriptor.listInOrder blocks, y.DistinctBranches) ->
    ∀ {d : Draft} {run : Scope -> List String} {missing : List Link} {s : Scope}
      {u v : List String} {p n : String} {q : Option String} {hidden : Bool},
      d.LaidBut run (⟨p, n, s.tag⟩ :: missing) -> d.graph.Tidy -> d.graph.shape.HasScope s ->
      run s = u ++ p :: n :: v -> ⟨n, q, .insertionMarker⟩ ∈ d.graph.shape.slots ->
      (s.tag = none -> hidden = false) ->
      (d.addChain s.parent s.tag hidden n p blocks).graph.Tidy
  | [], _, d, run, missing, s, u, v, p, n, q, hidden, hd, ht, hs, hrun, hmarker, hhidden =>
      tidy_link (x := ⟨n, q, .insertionMarker⟩) hd ht hmarker hhidden
  | x :: rest, hx, d, run, missing, s, u, v, p, n, q, hidden, hd, ht, hs, hrun, hmarker,
      hhidden => by
      have hfirst : ∀ y ∈ x.inOrder, y.DistinctBranches := fun y hy =>
        hx y (List.mem_append_left _ hy)
      obtain ⟨run', hlaid, hrun', hkeeps⟩ := laid_addDescriptor x hfirst hd hs hrun
      obtain ⟨y, hy, hyid, hyblock⟩ := exists_slot_addDescriptor x d s.parent
      have hblock := tidy_addDescriptor x hfirst hd ht hs hrun
      have hlinked : ((d.addDescriptor s.parent x).2.link p (d.addDescriptor s.parent x).1
          .insertable s.tag hidden).graph.Tidy := by
        rw [← hyid, ← Role.entry_of_isBlock hyblock]
        exact tidy_link (hyid ▸ hlaid) hblock hy hhidden
      refine tidy_addChain rest (fun y hy => hx y (List.mem_append_right _ hy)) (u := u ++ [p])
        (hlaid.addEdge _ hidden) hlinked ?_ (by simpa using hrun') (q := q) ?_ hhidden
      · exact (keepsBut_addEdge (· = s) _ run' p _ _ s.tag hidden s (hkeeps s hs).1).1
      · exact slots_subset_addDescriptor x d s.parent hmarker

theorem tidy_addBranches : ∀ (branches : List (Branch × List Descriptor)),
    (∀ y ∈ Descriptor.branchesInOrder branches, y.DistinctBranches) ->
    (branches.map fun b => b.1.id).Nodup ->
    ∀ {d : Draft} {run : Scope -> List String} {missing : List Link} {id p n : String}
      {q : Option String} {hidden : Bool},
      d.LaidBut run ((branches.map fun b => ⟨p, n, some ⟨id, b.1.id⟩⟩) ++ missing) ->
      d.graph.Tidy ->
      (∀ b ∈ branches, d.graph.shape.HasScope (.ofBranch id b.1.id) ∧
        run (.ofBranch id b.1.id) = [p, n]) ->
      ⟨n, q, .insertionMarker⟩ ∈ d.graph.shape.slots ->
      (d.addBranches id p n hidden branches).graph.Tidy
  | [], _, _, d, _, _, _, _, _, _, _, _, ht, _, _ => ht
  | (b, children) :: rest, hx, hnodup, d, run, missing, id, p, n, q, hidden, hd, ht, hs,
      hmarker => by
      obtain ⟨hb, hrest⟩ := List.nodup_cons.1 hnodup
      obtain ⟨hscope, hrun⟩ := hs _ List.mem_cons_self
      have hfirst : ∀ y ∈ Descriptor.listInOrder children, y.DistinctBranches := fun y hy =>
        hx y (List.mem_append_left _ hy)
      obtain ⟨run', hlaid, hkeeps⟩ := laid_addChain children hfirst (s := .ofBranch id b.id)
        (u := []) hidden hd hscope hrun
      refine tidy_addBranches rest (fun y hy => hx y (List.mem_append_right _ hy)) hrest hlaid
        ?_ (fun c hc => ?_) (q := q) ?_
      · exact tidy_addChain children hfirst (s := .ofBranch id b.id) (u := []) hd ht hscope hrun
          hmarker fun htag => by cases htag
      · obtain ⟨hcscope, hcrun⟩ := hs c (List.mem_cons_of_mem _ hc)
        refine ⟨(hkeeps _ hcscope).1, ((hkeeps _ hcscope).2 fun heq => hb ?_).trans hcrun⟩
        have hid : c.1.id = b.id := by
          simpa [Scope.ofBranch] using heq
        exact List.mem_map.2 ⟨c, hc, hid⟩
      · exact slots_subset_of_extends ((creation_extends d.graph).addChain children d (some id)
          (some ⟨id, b.id⟩) hidden n p (.refl d)) hmarker

end

theorem tidy_ofBlocks (s : Supply) {blocks : List Descriptor}
    (h : ∀ y ∈ Descriptor.listInOrder blocks, y.DistinctBranches) :
    (ofBlocks s blocks).graph.Tidy := by
  have hempty : (Draft.graph { supply := s }).Tidy :=
    ⟨fun e he => absurd he List.not_mem_nil, List.Pairwise.nil⟩
  exact tidy_addChain blocks h (s := .root) (u := []) (v := []) (q := none) (laidBut_markers s)
    (tidy_addNode (tidy_addNode hempty _ _) _ _) (Shape.hasScope_root _) rfl
    (List.mem_cons_of_mem _ List.mem_cons_self) fun _ => rfl

end Draft

theorem Definition.tidy_toDraft? {d : Definition} {s : Supply} {g : Draft}
    (hbranches : d.DistinctBranches) (h : d.toDraft? s = .ok g) : g.graph.Tidy := by
  obtain ⟨-, -, rfl⟩ := eq_of_toDraft? h
  exact Draft.tidy_ofBlocks s hbranches

end Workflow
