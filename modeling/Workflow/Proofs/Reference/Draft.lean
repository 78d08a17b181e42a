import Workflow.Proofs.Reference.Edit

/-!
# Edits of drafts and references

Inserting, removing and retyping blocks and giving up branches leaves every reference
settled.  A new branch comes with a merge label of its own, which nothing checks: it must
be known or may stray.
-/

namespace Workflow
namespace Draft

variable {d : Draft} {run : Scope -> List String} {stray : String -> Prop}

theorem settledBut_emptyState (s : Supply) : (emptyState s).graph.SettledBut stray := by
  rintro r ⟨c, hc, -⟩
  cases hc

/-!
# Inserting
-/

theorem settledBut_splice (hs : d.graph.SettledBut stray) {row : List (Heading × Block)}
    (hrow : ∀ c ∈ row, c.2.held = []) (a : Anchor) (kind : Option EdgeKind) :
    (d.splice a kind row).2.graph.SettledBut stray := by
  intro r hr l hl
  rcases hr with ⟨c, hc, hr⟩
  rw [contents_splice, List.mem_append] at hc
  rcases hc with hc | hc
  · apply (hs r ⟨c, hc, hr⟩ l hl).imp_left
    intro hlabel
    rw [labels_splice]
    exact List.mem_append_left _ hlabel
  · rw [hrow c hc] at hr
    cases hr

theorem settledBut_insertBlock (hs : d.graph.SettledBut stray) (stem : String) (kind : Kind)
    (a : Anchor) : (d.insertBlock stem kind a).2.graph.SettledBut stray := by
  unfold insertBlock
  split
  · apply settledBut_splice hs
    intro c hc
    rw [List.mem_singleton.1 hc]
    exact Block.held_fresh kind
  · exact hs

theorem settledBut_insertRecorded (h : d.Laid run) (hs : d.graph.SettledBut stray) (stem : String)
    (blocks : List RecordedBlock) (point : InsertionPoint) :
    (d.insertRecorded stem blocks point).2.graph.SettledBut stray := by
  obtain ⟨run', hlaid⟩ := h.insertRecorded stem blocks point
  have hids := hlaid.shape.distinct
  unfold insertRecorded at hids ⊢
  split
  · exact hs
  · next hcond =>
      rw [if_neg hcond] at hids
      exact Graph.settledBut_pruneDangling (Graph.shape_pruneDangling _ ▸ hids)

/-!
# Removing
-/

theorem settledBut_removeBlock (h : d.Laid run) (hs : d.graph.SettledBut stray) (id : String) :
    (d.removeBlock id).graph.SettledBut stray := by
  unfold removeBlock
  split
  · exact hs
  · dsimp only
    split
    · exact Graph.settledBut_removeSubtree h.shape.distinct id hs
    · exact settledBut_emptyState _

theorem settledBut_removeBlocks (ids : List String) : ∀ {d : Draft} {run},
    d.Laid run -> d.graph.SettledBut stray -> (ids.foldl removeBlock d).graph.SettledBut stray := by
  induction ids with
  | nil => exact fun _ hs => hs
  | cons id ids ih =>
      intro d run h hs
      obtain ⟨run', hlaid⟩ := h.removeBlock id
      exact ih hlaid (settledBut_removeBlock h hs id)

theorem settledBut_removeBranch (h : d.Laid run) (hs : d.graph.SettledBut stray)
    (id branch : String) : (d.removeBranch id branch).graph.SettledBut stray := by
  unfold removeBranch
  split
  · refine Graph.settledBut_undeclareBranch id branch ?_
    exact (settledBut_removeBlocks _ h hs).congr rfl
  · exact hs

/-!
# Retyping
-/

theorem nodes_furnished (d : Draft) (id : String) (kind : Kind) :
    ∃ added : List Node, Graph.contentsOf added = [] ∧
      (if kind.isContainer then d.addBody id (.fresh kind) else d).graph.nodes =
        d.graph.nodes ++ added := by
  split
  · exact ⟨_, rfl, nodes_addBody d id _⟩
  · exact ⟨[], rfl, (List.append_nil _).symm⟩

theorem settledBut_retypeBlock (h : d.Laid run) (hs : d.graph.SettledBut stray)
    (stem id : String) (kind : Kind) : (d.retypeBlock stem id kind).graph.SettledBut stray := by
  cases hheading : (d.graph.node? id).bind Node.heading? with
  | none =>
      simp only [retypeBlock, hheading]
      exact hs
  | some old =>
      obtain ⟨n, hnode, hold⟩ := Option.bind_eq_some_iff.1 hheading
      obtain ⟨hn, rfl⟩ := Graph.mem_of_node? hnode
      obtain ⟨b, hcarried⟩ := Node.exists_carried_of_heading hold
      have hblock : n.slot.role.isBlock := by
        rw [Node.isBlock_slot, Node.isBlock_of_carried hcarried]
      have hnest := Graph.isNest_descendants h.shape.toNested
        (List.mem_map_of_mem (Graph.slot_mem hn))
      obtain ⟨added, hadded, hnodes⟩ := nodes_furnished
        (d.modify fun g => g.removeNodes (d.graph.descendants n.id)) n.id kind
      have hids := (h.retypeBlock_of_slot (Graph.slot_mem hn) hblock stem kind).shape.distinct
      simp only [retypeBlock, hheading, Node.slot_id] at hids ⊢
      rw [modify, Graph.shape_pruneAll, Graph.ids_setContent] at hids
      exact Graph.settledBut_retype hs hn hcarried hnest.notSelf hnodes hadded hids

/-!
# A new branch
-/

theorem settledBut_addBranch (hs : d.graph.SettledBut stray) (id : String) (b : Branch)
    (hstray : ∀ c l, d.graph.conditional? id = some c -> c.hasBranch b.id = false ->
      b.mergeLabel = some l -> l ∈ d.graph.labels ∨ stray l) :
    (d.addBranch id b).graph.SettledBut stray := by
  unfold addBranch
  split
  · next hcond =>
      obtain ⟨c, hc, hnew⟩ := (Option.any_eq_true _ _).1 hcond
      split
      · dsimp only
        have hbranch : (d.graph.modifyConditional id fun c =>
            { c with branches := c.branches ++ [b] }).SettledBut stray := by
          refine Graph.settledBut_modifyConditional (fun c' hc' b' hb' => ?_) hs
          obtain rfl : c = c' := Option.some.inj (hc.symm.trans hc')
          rcases List.mem_append.1 hb' with hb' | hb'
          · exact Or.inl hb'
          · obtain rfl : b' = b := List.mem_singleton.1 hb'
            exact Or.inr fun l hl => hstray c l hc (by simpa using hnew) hl
        exact hbranch.congr rfl
      · exact hs
  · exact hs

end Draft
end Workflow
