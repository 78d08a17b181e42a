import Workflow.Proofs.Shape.Nest
import Workflow.Proofs.Walk

/-!
# Sources before targets

The walk of a graph lists an id before another one if every chain that it comes to the other on has
the first before it.  An edge of a graph that is laid out joins neighbours of one chain, so its
source is listed before its target, unless the target is on more than one chain: the branches of a
conditional end at one marker, and the walk comes to it on the first of them.
-/

namespace Workflow

variable {α : Type} {a b : α}

/-!
# Preceded elements
-/

/-- Wherever an element occurs in a list the other one is before it. -/
def Preceded (a b : α) (l : List α) : Prop :=
  ∀ u v, l = u ++ b :: v -> a ∈ u

theorem preceded_of_not_mem {l : List α} (h : b ∉ l) : Preceded a b l := by
  rintro u v rfl
  exact absurd (List.mem_append_right u List.mem_cons_self) h

theorem Preceded.append {l l' : List α} (h : Preceded a b l) (h' : Preceded a b l') :
    Preceded a b (l ++ l') := by
  intro u v hsplit
  rcases List.append_eq_append_iff.1 hsplit with ⟨w, rfl, hl'⟩ | ⟨w, hl, hrest⟩
  · exact List.mem_append_right _ (h' w v hl')
  · cases w with
    | nil => exact absurd (h' [] v hrest.symm) List.not_mem_nil
    | cons c w =>
        cases hrest
        exact h u w hl

theorem Preceded.concat {l : List α} {c : α} (h : Preceded a b l) (hc : c = b -> a ∈ l) :
    Preceded a b (l ++ [c]) := by
  intro u v hsplit
  rcases List.eq_nil_or_concat v with rfl | ⟨v, last, rfl⟩
  · obtain ⟨rfl, hcb⟩ := List.append_inj' hsplit rfl
    exact hc (List.cons.inj hcb).1
  · rw [List.concat_eq_append, ← List.cons_append, ← List.append_assoc] at hsplit
    exact h u v (List.append_inj' hsplit rfl).1

theorem Preceded.flatMap {β : Type} {l : List β} {f : β -> List α}
    (h : ∀ c ∈ l, Preceded a b (f c)) : Preceded a b (l.flatMap f) := by
  induction l with
  | nil => exact preceded_of_not_mem List.not_mem_nil
  | cons c l ih =>
      rw [List.flatMap_cons]
      exact (h c List.mem_cons_self).append (ih fun d hd => h d (List.mem_cons_of_mem _ hd))

theorem Adjacent.preceded {l : List α} (hl : l.Nodup) (h : Adjacent l a b) : Preceded a b l := by
  rintro u v rfl
  rcases List.eq_nil_or_concat u with rfl | ⟨u, c, rfl⟩
  · exact absurd h.right_mem_of_cons (List.nodup_cons.1 hl).1
  · rw [List.concat_eq_append] at hl h ⊢
    have hc : Adjacent (u ++ [c] ++ b :: v) c b := ⟨u, v, by simp⟩
    rw [h.left_unique hl hc]
    exact List.mem_append_right _ List.mem_cons_self

namespace Graph

variable {g : Graph} {run : Scope -> List String}

/-!
# What is walked
-/

theorem Walks.subset {ids listed after : List String} (h : g.Walks ids listed after) :
    ids ⊆ after ∧ listed ⊆ after := by
  induction h with
  | done listed => exact ⟨List.nil_subset _, List.Subset.refl _⟩
  | again hlisted _ ih => exact ⟨List.cons_subset.2 ⟨ih.2 hlisted, ih.1⟩, ih.2⟩
  | @enter id _ _ _ _ _ _ _ ihinside ihrest =>
      have hbetween := List.append_subset.1 ihinside.2
      have hid := ihrest.2 (hbetween.2 List.mem_cons_self)
      exact ⟨List.cons_subset.2 ⟨hid, ihrest.1⟩, List.Subset.trans hbetween.1 ihrest.2⟩

theorem Walks.closed {ids listed after : List String} (h : g.Walks ids listed after) {c : String}
    (hc : c ∈ after) : c ∈ listed ∨ g.bodyIds c ⊆ after := by
  induction h with
  | done listed => exact Or.inl hc
  | again _ _ ih => exact ih hc
  | @enter id _ _ _ _ _ hinside hrest ihinside ihrest =>
      rcases ihrest hc with hbetween | hbody
      · rcases ihinside hbetween with hlisted | hbody
        · rcases List.mem_append.1 hlisted with hlisted | hid
          · exact Or.inl hlisted
          · rw [List.mem_singleton.1 hid]
            exact Or.inr (List.Subset.trans hinside.subset.1 hrest.subset.2)
        · exact Or.inr (List.Subset.trans hbody hrest.subset.2)
      · exact Or.inr hbody

/-- An id that is preceded wherever the walk comes to it is preceded in what the walk lists. -/
theorem Walks.preceded {a b : String} (hbody : ∀ c, Preceded a b (g.bodyIds c))
    {ids listed after : List String} (h : g.Walks ids listed after) :
    (∀ u v, ids = u ++ b :: v -> a ∈ u ∨ a ∈ listed) -> Preceded a b listed ->
      Preceded a b after := by
  induction h with
  | done listed => exact fun _ hlisted => hlisted
  | @again id rest listed after hid _ ih =>
      intro hids hlisted
      refine ih (fun u v hrest => ?_) hlisted
      rcases hids (id :: u) v (congrArg _ hrest) with hu | ha
      · rcases List.mem_cons.1 hu with rfl | hu
        · exact Or.inr hid
        · exact Or.inl hu
      · exact Or.inr ha
  | @enter id rest listed between after _ hinside _ ihinside ihrest =>
      intro hids hlisted
      have hbetween : Preceded a b between := by
        refine ihinside (fun u v hsplit => Or.inl (hbody id u v hsplit)) (hlisted.concat ?_)
        rintro rfl
        exact (hids [] rest rfl).resolve_left List.not_mem_nil
      have hsubset := List.append_subset.1 hinside.subset.2
      refine ihrest (fun u v hrest => ?_) hbetween
      rcases hids (id :: u) v (congrArg _ hrest) with hu | ha
      · rcases List.mem_cons.1 hu with rfl | hu
        · exact Or.inr (hsubset.2 List.mem_cons_self)
        · exact Or.inl hu
      · exact Or.inr (hsubset.1 ha)

theorem exists_foldl_append (ids : List String) : ∀ order : List String, ∃ rest,
    ids.foldl (fun order id => if order.contains id then order else order ++ [id]) order =
      order ++ rest := by
  induction ids with
  | nil => exact fun order => ⟨[], (List.append_nil _).symm⟩
  | cons id ids ih =>
      intro order
      rw [List.foldl_cons]
      split
      · exact ih order
      · obtain ⟨rest, hrest⟩ := ih (order ++ [id])
        exact ⟨id :: rest, hrest.trans (List.append_assoc _ _ _)⟩

/-!
# Edges
-/

/-- The marker at the end of the branches of a conditional. -/
def ClosesConditional (g : Graph) (id : String) : Prop :=
  ∃ n ∈ g.nodes, n.id = id ∧ n.isInsertionMarker ∧
    ∃ container, n.parent = some container ∧ (g.conditional? container).isSome

section Laid

variable (h : g.shape.Laid run)
include h

theorem chain_subset_bodyIds {s : Scope} (hs : g.shape.HasScope s) {p : String}
    (hparent : s.parent = some p) : g.chain s ⊆ g.bodyIds p := by
  obtain ⟨b, hb, hscope⟩ := exists_block?_of_hasScope h.distinct hs hparent
  intro id hid
  rw [bodyIds, hb]
  exact List.mem_flatMap.2 ⟨s, b.scopes_role p ▸ hscope, hid⟩

theorem chain_subset_visit {s : Scope} (hs : g.shape.HasScope s) :
    g.chain s ⊆ g.visit (g.chain .root) [] := by
  have hwalks := g.walks_visit (g.chain .root) []
  have hbody : ∀ p s, g.shape.HasScope s -> s.parent = some p ->
      g.chain s ⊆ g.visit (g.chain .root) [] := by
    intro p
    induction hrank : g.shape.rank p using Nat.strongRecOn generalizing p with
    | ind rank ih =>
        intro s hs hparent
        refine List.Subset.trans (chain_subset_bodyIds h hs hparent) ?_
        refine (hwalks.closed ?_).resolve_left List.not_mem_nil
        obtain ⟨b, hb, -⟩ := exists_block?_of_hasScope h.distinct hs hparent
        obtain ⟨q, hx⟩ := slot_of_block? hb
        obtain ⟨t, ⟨ht, hmem⟩, -⟩ := h.placed _ hx b.isBlock_role
        have htparent := h.parent_of_mem_run ht hx hmem
        rw [← chain_eq h ht] at hmem
        cases hq : t.parent with
        | none =>
            rw [ht.eq_root hq] at hmem
            exact hwalks.subset.1 hmem
        | some r => exact ih _ (hrank ▸ h.rank_lt hx (htparent.trans hq)) r rfl t ht hq hmem
  cases hparent : s.parent with
  | none =>
      rw [hs.eq_root hparent]
      exact hwalks.subset.1
  | some p => exact hbody p s hs hparent

theorem not_adjacent_start {s : Scope} (hs : g.shape.HasScope s) {a id : String}
    (hid : ⟨id, s.parent, .start⟩ ∈ g.shape.slots) : ¬ Adjacent (run s) a id := by
  obtain ⟨start, blocks, marker, hrun, hstart, -⟩ := (h.runs s hs).ends
  have hnodup := (h.runs s hs).nodup
  have heq : start = id := (h.start s.parent (h.parents _ hid)).unique hstart hid
  rw [hrun, heq] at hnodup ⊢
  exact fun hadjacent => (List.nodup_cons.1 hnodup).1 hadjacent.right_mem_of_cons

/-- Apart from the marker at the end of a conditional, an id that something comes before is on one
chain only. -/
theorem scope_eq_of_adjacent {a b : String} (hopen : ¬ g.ClosesConditional b) {s t : Scope}
    (hs : g.shape.HasScope s) (ht : g.shape.HasScope t) (hab : Adjacent (run s) a b)
    (hb : b ∈ run t) : t = s := by
  obtain ⟨x, hx, rfl, hparent⟩ := h.slot_of_mem_run hs hab.right_mem
  have htparent := h.parent_of_mem_run ht hx hb
  cases hp : s.parent with
  | none => rw [hs.eq_root hp, ht.eq_root (htparent.symm.trans (hparent.trans hp))]
  | some p =>
      obtain ⟨c, hc, hscope⟩ := exists_block?_of_hasScope h.distinct hs hp
      obtain ⟨c', hc', htscope⟩ := exists_block?_of_hasScope h.distinct ht
        (htparent.symm.trans (hparent.trans hp))
      cases hc.symm.trans hc'
      cases c with
      | leaf l => cases hscope
      | loop a => rw [List.mem_singleton.1 hscope, List.mem_singleton.1 htscope]
      | conditional c =>
          cases hblock : x.role.isBlock with
          | true => exact (h.placed x hx hblock).unique ⟨ht, hb⟩ ⟨hs, hab.right_mem⟩
          | false =>
              obtain ⟨n, hn, rfl⟩ := mem_slots.1 hx
              have hrole : n.slot.role = .insertionMarker := by
                cases hr : n.slot.role with
                | start =>
                    refine absurd hab (not_adjacent_start h hs ?_)
                    rwa [← hparent, ← hr]
                | insertionMarker => rfl
                | _ =>
                    rw [hr] at hblock
                    cases hblock
              refine absurd ⟨n, hn, rfl, Node.slot_role_eq_insertionMarker.1 hrole, p, ?_, ?_⟩ hopen
              · exact hparent.trans hp
              · rw [conditional?_eq_some.2 hc]
                rfl

theorem precedes_of_edge {e : Edge} (he : e ∈ g.edges) (hopen : ¬ g.ClosesConditional e.target) :
    ∃ before after, g.order = before ++ e.target :: after ∧ e.source ∈ before := by
  obtain ⟨s, hs, -, hadjacent⟩ := (h.exact e.link).1 (link_mem he)
  have hchains : ∀ t, g.shape.HasScope t -> Preceded e.source e.target (g.chain t) := by
    intro t ht
    rw [chain_eq h ht]
    by_cases hmem : e.target ∈ run t
    · rw [scope_eq_of_adjacent h hopen hs ht hadjacent hmem]
      exact hadjacent.preceded (h.runs s hs).nodup
    · exact preceded_of_not_mem hmem
  have hbody : ∀ c, Preceded e.source e.target (g.bodyIds c) := by
    intro c
    unfold bodyIds
    cases hb : g.block? c with
    | none => exact preceded_of_not_mem List.not_mem_nil
    | some b =>
        refine .flatMap fun t ht => hchains t ?_
        obtain ⟨p, hx⟩ := slot_of_block? hb
        exact Or.inr ⟨_, hx, b.scopes_role c ▸ ht⟩
  have hwalked : Preceded e.source e.target (g.visit (g.chain .root) []) := by
    refine (g.walks_visit _ _).preceded hbody (fun u v hsplit => ?_)
      (preceded_of_not_mem List.not_mem_nil)
    exact Or.inl (hchains .root (Shape.hasScope_root _) u v hsplit)
  have htarget : e.target ∈ g.visit (g.chain .root) [] := by
    refine chain_subset_visit h hs ?_
    rw [chain_eq h hs]
    exact hadjacent.right_mem
  obtain ⟨u, v, hsplit⟩ := List.append_of_mem htarget
  obtain ⟨rest, hrest⟩ := exists_foldl_append (g.nodes.map Node.id) (g.visit (g.chain .root) [])
  refine ⟨u, v ++ rest, ?_, hwalked u v hsplit⟩
  rw [order, appendUnlisted, hrest, hsplit, List.append_assoc, List.cons_append]

end Laid
end Graph
end Workflow
