import Mathlib.Data.List.Forall2
import Workflow.Proofs.Conversion.Depiction
import Workflow.Proofs.Order

/-!
# Graphs that are alike

Two graphs are alike when their nodes and edges correspond one after another, under other ids and
with other branches shown.  A relation between ids says which id stands for which; it pairs no id
with two.  Chains, scopes and the order of a graph are computed by comparing ids only, so those of
graphs that are alike correspond as well, and both graphs are written down as the same blocks.
-/

namespace Workflow

/-!
# Relations on options and lists
-/

section Relations

variable {α β γ δ : Type} {R : α -> β -> Prop} {S : γ -> δ -> Prop}

theorem optionRel_bind {o : Option α} {o' : Option β} {f : α -> Option γ} {f' : β -> Option δ}
    (h : Option.Rel R o o') (hf : ∀ a b, R a b -> Option.Rel S (f a) (f' b)) :
    Option.Rel S (o.bind f) (o'.bind f') := by
  cases h with
  | some h => exact hf _ _ h
  | none => exact .none

theorem optionRel_map {o : Option α} {o' : Option β} {f : α -> γ} {f' : β -> δ}
    (h : Option.Rel R o o') (hf : ∀ a b, R a b -> S (f a) (f' b)) :
    Option.Rel S (o.map f) (o'.map f') := by
  cases h with
  | some h => exact .some (hf _ _ h)
  | none => exact .none

theorem any_eq_of_optionRel {o : Option α} {o' : Option β} {p : α -> Bool} {q : β -> Bool}
    (h : Option.Rel R o o') (hpq : ∀ a b, R a b -> p a = q b) : o.any p = o'.any q := by
  cases h with
  | some h => exact hpq _ _ h
  | none => rfl

theorem exists_of_optionRel_left {a : α} {o : Option β} (h : Option.Rel R (some a) o) :
    ∃ b, o = some b ∧ R a b := by
  cases h with
  | some h => exact ⟨_, rfl, h⟩

theorem exists_of_optionRel_right {o : Option α} {b : β} (h : Option.Rel R o (some b)) :
    ∃ a, o = some a ∧ R a b := by
  cases h with
  | some h => exact ⟨_, rfl, h⟩

theorem optionRel_eq_refl (o : Option α) : Option.Rel Eq o o := by
  cases o with
  | none => exact .none
  | some a => exact .some rfl

theorem biUnique_eq : Relator.BiUnique (@Eq α) :=
  ⟨fun _ _ _ h h' => h.trans h'.symm, fun _ _ _ h h' => h.symm.trans h'⟩

theorem biUnique_optionRel (hR : Relator.BiUnique R) : Relator.BiUnique (Option.Rel R) := by
  constructor
  · rintro _ _ _ (h | _) (h' | _)
    · exact congrArg some (hR.left h h')
    · rfl
  · rintro _ _ _ (h | _) (h' | _)
    · exact congrArg some (hR.right h h')
    · rfl

theorem find?_of_forall₂ {l : List α} {l' : List β} {p : α -> Bool} {q : β -> Bool}
    (h : List.Forall₂ R l l') (hpq : ∀ a b, R a b -> p a = q b) :
    Option.Rel R (l.find? p) (l'.find? q) := by
  induction h with
  | nil => exact .none
  | @cons a b l l' hab _ ih =>
      rw [List.find?_cons, List.find?_cons, hpq a b hab]
      cases q b with
      | true => exact .some hab
      | false => exact ih

theorem any_eq_of_forall₂ {l : List α} {l' : List β} {p : α -> Bool} {q : β -> Bool}
    (h : List.Forall₂ R l l') (hpq : ∀ a b, R a b -> p a = q b) : l.any p = l'.any q := by
  induction h with
  | nil => rfl
  | cons hab _ ih => rw [List.any_cons, List.any_cons, hpq _ _ hab, ih]

theorem filter_of_forall₂ {l : List α} {l' : List β} {p : α -> Bool} {q : β -> Bool}
    (h : List.Forall₂ R l l') (hpq : ∀ a b, R a b -> p a = q b) :
    List.Forall₂ R (l.filter p) (l'.filter q) :=
  List.rel_filter (fun a b hab => iff_of_eq (congrArg (· = true) (hpq a b hab))) h

theorem filterMap_eq_of_forall₂ {l : List α} {l' : List β} {f : α -> Option γ}
    {f' : β -> Option γ} (h : List.Forall₂ R l l') (hf : ∀ a b, R a b -> f a = f' b) :
    l.filterMap f = l'.filterMap f' := by
  induction h with
  | nil => rfl
  | cons hab _ ih => rw [List.filterMap_cons, List.filterMap_cons, hf _ _ hab, ih]

section Same

variable (hR : Relator.BiUnique R) [BEq α] [LawfulBEq α] [BEq β] [LawfulBEq β]
include hR

theorem beq_eq_of_rel {a b : α} {a' b' : β} (ha : R a a') (hb : R b b') :
    (a == b) = (a' == b') := by
  rw [Bool.eq_iff_iff, beq_iff_eq, beq_iff_eq]
  exact Relator.rel_eq hR ha hb

theorem contains_eq_of_rel {l : List α} {l' : List β} {a : α} {a' : β}
    (h : List.Forall₂ R l l') (ha : R a a') : l.contains a = l'.contains a' := by
  rw [Bool.eq_iff_iff, List.contains_iff_mem, List.contains_iff_mem]
  exact List.rel_mem hR ha h

end Same

end Relations

/-!
# Likeness
-/

section Like

variable (R : String -> String -> Prop)

/-- Nodes with the same content, whatever their ids and the branch that is shown. -/
structure Node.Like (n n' : Node) : Prop where
  id : R n.id n'.id
  parent : Option.Rel R n.parent n'.parent
  content : n.content.reopened = n'.content.reopened

structure BranchTag.Like (t t' : BranchTag) : Prop where
  conditional : R t.conditional t'.conditional
  branch : t.branch = t'.branch

/-- Edges between the same nodes in the same branch, shown or hidden. -/
structure Edge.Like (e e' : Edge) : Prop where
  source : R e.source e'.source
  target : R e.target e'.target
  tag : Option.Rel (BranchTag.Like R) e.tag e'.tag

structure Scope.Like (s s' : Scope) : Prop where
  parent : Option.Rel R s.parent s'.parent
  branch : s.branch = s'.branch

structure Graph.Like (g g' : Graph) : Prop where
  nodes : List.Forall₂ (Node.Like R) g.nodes g'.nodes
  edges : List.Forall₂ (Edge.Like R) g.edges g'.edges

end Like

theorem Node.Like.refl (n : Node) : n.Like Eq n :=
  ⟨rfl, optionRel_eq_refl _, rfl⟩

theorem Edge.Like.refl (e : Edge) : e.Like Eq e := by
  refine ⟨rfl, rfl, ?_⟩
  cases e.tag with
  | none => exact .none
  | some t => exact .some ⟨rfl, rfl⟩

variable {R : String -> String -> Prop}

theorem BranchTag.biUnique_like (hR : Relator.BiUnique R) :
    Relator.BiUnique (BranchTag.Like R) := by
  constructor
  · rintro ⟨i, b⟩ ⟨j, c⟩ ⟨k, d⟩ ⟨hi, hb⟩ ⟨hj, hc⟩
    exact congrArg₂ BranchTag.mk (hR.left hi hj) (hb.trans hc.symm)
  · rintro ⟨i, b⟩ ⟨j, c⟩ ⟨k, d⟩ ⟨hj, hc⟩ ⟨hk, hd⟩
    exact congrArg₂ BranchTag.mk (hR.right hj hk) (hc.symm.trans hd)

theorem Scope.Like.root : Scope.Like R .root .root :=
  ⟨.none, rfl⟩

theorem Scope.Like.tag {s s' : Scope} (h : s.Like R s') :
    Option.Rel (BranchTag.Like R) s.tag s'.tag := by
  obtain ⟨parent, branch⟩ := s
  obtain ⟨parent', branch'⟩ := s'
  obtain ⟨hparent, rfl⟩ := h
  cases hparent with
  | none => exact .none
  | some hp =>
      cases branch with
      | none => exact .none
      | some b => exact .some ⟨hp, rfl⟩

theorem Scope.admits_eq (hR : Relator.BiUnique R) {s s' : Scope} {e e' : Edge}
    (hs : s.Like R s') (he : e.Like R e') : s.admits e = s'.admits e' := by
  rw [Bool.eq_iff_iff, admits_iff, admits_iff]
  exact Relator.rel_eq (biUnique_optionRel (BranchTag.biUnique_like hR)) he.tag hs.tag

theorem Content.cases_of_reopened {c c' : Content} (h : c.reopened = c'.reopened) :
    (c = .start ∧ c' = .start) ∨ (c = .insertionMarker ∧ c' = .insertionMarker) ∨
      ∃ heading b b', c = .block heading b ∧ c' = .block heading b' ∧ b.reopened = b'.reopened := by
  cases c <;> cases c' <;> simp_all [reopened]

namespace Node.Like

variable {n n' : Node} (h : n.Like R n')
include h

theorem isStart : n.isStart = n'.isStart := by
  rcases Content.cases_of_reopened h.content with ⟨hc, hc'⟩ | ⟨hc, hc'⟩ | ⟨_, _, _, hc, hc', -⟩ <;>
    simp only [Node.isStart, hc, hc']

theorem heading : n.heading? = n'.heading? := by
  rcases Content.cases_of_reopened h.content with ⟨hc, hc'⟩ | ⟨hc, hc'⟩ | ⟨_, _, _, hc, hc', -⟩ <;>
    simp only [Node.heading?, hc, hc']

theorem label : n.label? = n'.label? :=
  congrArg (Option.map Heading.label) h.heading

theorem block : Option.Rel (fun b b' : Block => b.reopened = b'.reopened) n.block? n'.block? := by
  unfold Node.block?
  rcases Content.cases_of_reopened h.content with ⟨hc, hc'⟩ | ⟨hc, hc'⟩ | ⟨_, _, _, hc, hc', hb⟩
  · rw [hc, hc']
    exact .none
  · rw [hc, hc']
    exact .none
  · rw [hc, hc']
    exact .some hb

end Node.Like

namespace Graph

variable {g g' : Graph} (hR : Relator.BiUnique R) (h : g.Like R g')

/-!
# Looking nodes up
-/

section LookUp

variable {id id' : String} {p p' : Option String}

include hR h

theorem rel_node? (hid : R id id') : Option.Rel (Node.Like R) (g.node? id) (g'.node? id') :=
  find?_of_forall₂ (List.rel_reverse h.nodes) fun _ _ hn => beq_eq_of_rel hR hn.id hid

theorem contains_eq (hid : R id id') : g.contains id = g'.contains id' :=
  any_eq_of_forall₂ h.nodes fun _ _ hn => beq_eq_of_rel hR hn.id hid

theorem rel_block? (hid : R id id') :
    Option.Rel (fun b b' : Block => b.reopened = b'.reopened) (g.block? id) (g'.block? id') :=
  optionRel_bind (rel_node? hR h hid) fun _ _ hn => hn.block

theorem rel_startMarker? (hp : Option.Rel R p p') :
    Option.Rel (Node.Like R) (g.startMarker? p) (g'.startMarker? p') := by
  apply find?_of_forall₂ h.nodes
  intro n n' hn
  rw [beq_eq_of_rel (biUnique_optionRel hR) hn.parent hp, hn.isStart]

end LookUp

/-!
# Chains
-/

section Chains

variable {s s' : Scope} (hs : s.Like R s')

include hR h hs

theorem rel_next? {id id' : String} (hid : R id id') :
    Option.Rel R (g.next? s id) (g'.next? s' id') := by
  refine optionRel_map (find?_of_forall₂ h.edges fun e e' he => ?_) fun _ _ he => he.target
  rw [beq_eq_of_rel hR he.source hid, Scope.admits_eq hR hs he]

theorem isEntered_eq {id id' : String} (hid : R id id') :
    g.isEntered s id = g'.isEntered s' id' := by
  apply any_eq_of_forall₂ h.edges
  intro e e' he
  have hsource := any_eq_of_optionRel (rel_node? hR h he.source) fun n n' hn =>
    beq_eq_of_rel (biUnique_optionRel hR) hn.parent hs.parent
  rw [beq_eq_of_rel hR he.target hid, Scope.admits_eq hR hs he, hsource]

theorem rel_head? : Option.Rel R (g.head? s) (g'.head? s') := by
  unfold head?
  have hstart := rel_startMarker? hR h hs.parent
  revert hstart
  generalize g.startMarker? s.parent = o, g'.startMarker? s'.parent = o'
  rintro (hn | _)
  · exact .some hn.id
  · refine optionRel_map (find?_of_forall₂ h.nodes fun n n' hn => ?_) fun _ _ hn => hn.id
    rw [beq_eq_of_rel (biUnique_optionRel hR) hn.parent hs.parent, isEntered_eq hR h hs hn.id]

theorem forall₂_follow (fuel : Nat) : ∀ {seen seen' : List String} {next next' : Option String},
    List.Forall₂ R seen seen' -> Option.Rel R next next' ->
      List.Forall₂ R (g.follow s fuel seen next) (g'.follow s' fuel seen' next') := by
  induction fuel with
  | zero =>
      intro _ _ _ _ _ _
      exact .nil
  | succ fuel ih =>
      intro seen seen' next next' hseen hnext
      cases hnext with
      | none => exact .nil
      | some hid =>
          rw [follow, follow, contains_eq_of_rel hR hseen hid]
          split
          · exact .nil
          · exact .cons hid (ih (.cons hid hseen) (rel_next? hR h hs hid))

theorem forall₂_chain_like : List.Forall₂ R (g.chain s) (g'.chain s') := by
  unfold chain
  rw [h.edges.length_eq]
  exact forall₂_follow hR h hs _ .nil (rel_head? hR h hs)

end Chains

/-!
# Scopes and order
-/

theorem bodyScopes_reopened (id : String) (b : Block) :
    bodyScopes id b.reopened = bodyScopes id b := by
  cases b <;> rfl

theorem forall₂_bodyScopes {id id' : String} {b b' : Block} (hid : R id id')
    (hb : b.reopened = b'.reopened) :
    List.Forall₂ (Scope.Like R) (bodyScopes id b) (bodyScopes id' b') := by
  rw [← bodyScopes_reopened id b, ← bodyScopes_reopened id' b', hb]
  cases b'.reopened with
  | leaf l => exact .nil
  | loop a => exact .cons ⟨.some hid, rfl⟩ .nil
  | conditional c =>
      refine List.forall₂_map_left_iff.2 (List.forall₂_map_right_iff.2 ?_)
      exact List.forall₂_same.2 fun b _ => ⟨.some hid, rfl⟩

include hR h

theorem forall₂_bodyIds {id id' : String} (hid : R id id') :
    List.Forall₂ R (g.bodyIds id) (g'.bodyIds id') := by
  unfold bodyIds
  have hblock := rel_block? hR h hid
  revert hblock
  generalize g.block? id = o, g'.block? id' = o'
  rintro (hb | _)
  · exact List.rel_flatMap (forall₂_bodyScopes hid hb) fun _ _ hs => forall₂_chain_like hR h hs
  · exact .nil

theorem forall₂_visit (agenda order : List String) : ∀ {agenda' order' : List String},
    List.Forall₂ R agenda agenda' -> List.Forall₂ R order order' ->
      List.Forall₂ R (g.visit agenda order) (g'.visit agenda' order') := by
  induction agenda, order using visit.induct g with
  | case1 order =>
      intro agenda' order' hagenda horder
      cases hagenda
      rw [visit, visit]
      exact horder
  | case2 order id rest hseen ih =>
      intro agenda' order' hagenda horder
      obtain ⟨id', rest', hid, hrest, rfl⟩ := List.forall₂_cons_left_iff.1 hagenda
      rw [visit, visit, ← contains_eq_of_rel hR horder hid, if_pos hseen, if_pos hseen]
      exact ih hrest horder
  | case3 order id rest hnew ih =>
      intro agenda' order' hagenda horder
      obtain ⟨id', rest', hid, hrest, rfl⟩ := List.forall₂_cons_left_iff.1 hagenda
      rw [visit, visit, ← contains_eq_of_rel hR horder hid, if_neg hnew, if_neg hnew]
      exact ih (List.rel_append (forall₂_bodyIds hR h hid) hrest)
        (List.rel_append horder (.cons hid .nil))

theorem forall₂_order : List.Forall₂ R g.order g'.order := by
  have hids : List.Forall₂ R (g.nodes.map Node.id) (g'.nodes.map Node.id) :=
    List.rel_map (fun _ _ hn => hn.id) h.nodes
  have hvisit := forall₂_visit hR h _ _ (forall₂_chain_like hR h .root) .nil
  refine List.rel_foldl (fun order order' horder id id' hid => ?_) hvisit hids
  rw [contains_eq_of_rel hR horder hid]
  split
  · exact horder
  · exact List.rel_append horder (.cons hid .nil)

theorem forall₂_nodes_in_order : List.Forall₂ (Node.Like R) (g.order.filterMap g.node?)
    (g'.order.filterMap g'.node?) :=
  List.rel_filterMap (fun _ _ hid => rel_node? hR h hid) (forall₂_order hR h)

/-!
# Descriptions
-/

omit hR h in
theorem describe?_eq {inside inside' : Scope -> List Descriptor} {n n' : Node} (hn : n.Like R n')
    (hinside : ∀ s s', s.Like R s' -> inside s = inside' s') :
    describe? inside n = describe? inside' n' := by
  unfold describe?
  rcases Content.cases_of_reopened hn.content with
    ⟨hc, hc'⟩ | ⟨hc, hc'⟩ | ⟨heading, b, b', hc, hc', hb⟩
  · rw [hc, hc']
  · rw [hc, hc']
  · rw [hc, hc']
    cases b <;> cases b' <;> simp [Block.reopened] at hb ⊢
    · exact hb
    · exact ⟨hb, hinside _ _ ⟨.some hn.id, rfl⟩⟩
    · rw [hb.1]
      exact List.map_congr_left fun b _ => congrArg _ (hinside _ _ ⟨.some hn.id, rfl⟩)

theorem descriptorsTo_eq (levels : Nat) : ∀ {s s' : Scope}, s.Like R s' ->
    g.descriptorsTo levels s = g'.descriptorsTo levels s' := by
  induction levels with
  | zero => exact fun _ => rfl
  | succ levels ih =>
      intro s s' hs
      have hnodes : List.Forall₂ (Node.Like R) ((g.chain s).filterMap g.node?)
          ((g'.chain s').filterMap g'.node?) :=
        List.rel_filterMap (fun _ _ hid => rel_node? hR h hid) (forall₂_chain_like hR h hs)
      rw [descriptorsTo, descriptorsTo]
      exact filterMap_eq_of_forall₂ hnodes fun n n' hn => describe?_eq hn fun s s' hs => ih hs

theorem descriptors_eq {s s' : Scope} (hs : s.Like R s') : g.descriptors s = g'.descriptors s' := by
  unfold descriptors
  rw [h.nodes.length_eq]
  exact descriptorsTo_eq hR h _ hs

end Graph
end Workflow
