import Workflow.Proofs.Conversion.RoundTrip
import Workflow.Proofs.Label
import Workflow.Proofs.Reference.Edit
import Workflow.Proofs.Run.Basic

/-!
# Labels along a run

Blocks get their labels from the document they come from, from the fresh labels that an edit
gives out, or by being renamed.  None of these brings in a label that another block carries,
so labels stay unique over every run, whatever document it begins with.
-/

namespace Workflow

theorem Node.label?_mapHeading {f : Heading -> Heading} (hf : ∀ h, (f h).label = h.label)
    (n : Node) : (n.mapHeading f).label? = n.label? := by
  obtain ⟨id, parent, content⟩ := n
  cases content with
  | start => rfl
  | insertionMarker => rfl
  | block h b => exact congrArg some (hf h)

namespace Graph

variable {g : Graph}

/-!
# Changing one block
-/

theorem nodup_labels_modifyNode {id : String} {f : Node -> Node}
    (hfree : ∀ n l, g.node? id = some n -> (f n).label? = some l ->
      n.label? = some l ∨ l ∉ g.labels)
    (h : g.labels.Nodup) : (g.modifyNode id f).labels.Nodup := by
  cases hn : g.node? id with
  | none => rwa [modifyNode_eq_of_none hn]
  | some n =>
      obtain ⟨u, v, hnodes, hmodify⟩ := modifyNode_eq_of_some hn
      have hlabels : ∀ m : Node, (u ++ m :: v).filterMap Node.label? =
          u.filterMap Node.label? ++ (m.label?.toList ++ v.filterMap Node.label?) := by
        intro m
        cases hm : m.label? <;> simp [hm]
      have hold : g.labels = _ := (congrArg _ hnodes).trans (hlabels n)
      have hrest : (u.filterMap Node.label? ++ v.filterMap Node.label?).Nodup := by
        apply List.Sublist.nodup _ (hold ▸ h)
        exact (List.sublist_append_right _ _).append_left _
      rw [hmodify, labels, hlabels]
      cases hl : (f n).label? with
      | none => exact hrest
      | some l =>
          rcases hfree n l hn hl with hkept | hnew
          · rw [hold, hkept] at h
            exact h
          · apply List.nodup_middle.2
            apply List.nodup_cons.2
            refine ⟨fun hmem => hnew ?_, hrest⟩
            rw [hold]
            exact ((List.sublist_append_right _ _).append_left _).subset hmem

theorem labels_showBranch (g : Graph) (id branch : String) :
    (g.showBranch id branch).labels = g.labels := by
  unfold showBranch
  split
  · exact labels_modifyNode (Node.label?_mapBlock _)
  · rfl

theorem labels_undeclareBranch (g : Graph) (id branch : String) :
    (g.undeclareBranch id branch).labels = g.labels := by
  unfold undeclareBranch
  split
  · rfl
  · dsimp only
    split
    · split
      · exact labels_modifyNode (Node.label?_mapBlock _)
      · exact (labels_showBranch _ id _).trans (labels_modifyNode (Node.label?_mapBlock _))
    · exact labels_modifyNode (Node.label?_mapBlock _)

theorem labels_updateBlock (g : Graph) (id : String) (b : Block) :
    (g.updateBlock id b).labels = g.labels := by
  unfold updateBlock
  split
  · rfl
  · rw [labels_pruneDangling]
    exact labels_modifyNode (Node.label?_mapBlock _)

theorem not_mem_labels_of_findByLabel? {label : String} (h : g.findByLabel? label = none) :
    label ∉ g.labels := by
  intro hmem
  obtain ⟨n, hn, hlabel⟩ := List.mem_filterMap.1 hmem
  have hnone := List.find?_eq_none.1 h n hn
  exact hnone (beq_iff_eq.2 hlabel)

theorem label_of_mapHeading {n : Node} {l label : String}
    (h : (n.mapHeading fun h => { h with label }).label? = some l) : l = label := by
  obtain ⟨id, parent, content⟩ := n
  cases content with
  | start => cases h
  | insertionMarker => cases h
  | block heading b => exact (Option.some.inj h).symm

theorem nodup_labels_relabel (id label : String) (h : g.labels.Nodup) :
    (g.relabel id label).labels.Nodup := by
  unfold relabel
  dsimp only
  split
  · exact h
  · split
    · exact h
    · next htaken =>
        rw [labels_repoint]
        apply nodup_labels_modifyNode _ h
        intro n l _ hl
        simp only [Bool.or_eq_true, not_or, Bool.not_eq_true, Option.isSome_eq_false_iff,
          Option.isNone_iff_eq_none] at htaken
        rw [label_of_mapHeading hl]
        exact Or.inr (not_mem_labels_of_findByLabel? htaken.2)

/-!
# Removing blocks
-/

theorem labels_removeNodes_sublist (g : Graph) (ids : List String) :
    (g.removeNodes ids).labels.Sublist g.labels :=
  List.filter_sublist.filterMap Node.label?

theorem labels_removeSubtree_sublist (g : Graph) (id : String) :
    (g.removeSubtree id).labels.Sublist g.labels := by
  unfold removeSubtree
  dsimp only
  rw [labels_pruneAll]
  have hsublist := labels_removeNodes_sublist (g.bypass (id :: g.descendants id) id)
    (id :: g.descendants id)
  rwa [show (g.bypass (id :: g.descendants id) id).labels = g.labels by
    rw [labels, nodes_bypass, labels]] at hsublist

end Graph

namespace Draft

variable {d : Draft}

/-!
# Edits
-/

theorem nodup_labels_emptyState (s : Supply) : (emptyState s).graph.labels.Nodup :=
  List.nodup_nil

theorem nodup_labels_splice {row : List (Heading × Block)} (h : d.graph.labels.Nodup)
    (hrow : (row.map fun c => c.1.label).Nodup)
    (hfree : ∀ l ∈ row.map fun c => c.1.label, l ∉ d.graph.labels) (a : Anchor)
    (kind : Option EdgeKind) : (d.splice a kind row).2.graph.labels.Nodup := by
  rw [labels_splice]
  apply List.Nodup.append h hrow
  intro l hl hmem
  exact hfree l hmem hl

theorem nodup_labels_insertBlock (h : d.graph.labels.Nodup) (stem : String) (kind : Kind)
    (a : Anchor) : (d.insertBlock stem kind a).2.graph.labels.Nodup := by
  unfold insertBlock
  split
  · refine nodup_labels_splice h ?_ ?_ a none
    · exact List.nodup_singleton _
    · intro l hl
      rw [List.mem_singleton.1 hl]
      exact Label.generate_not_mem stem d.graph.labels
  · exact h

theorem labels_zipWith_heading (labels : List String) (blocks : List RecordedBlock)
    (h : labels.length = blocks.length) :
    (labels.zipWith (fun label r => (r.heading label, r.block)) blocks).map
      (fun c => c.1.label) = labels := by
  induction labels generalizing blocks with
  | nil => rfl
  | cons label labels ih =>
      cases blocks with
      | nil => cases h
      | cons r blocks => exact congrArg (label :: ·) (ih blocks (Nat.succ.inj h))

theorem nodup_labels_insertRecorded (h : d.graph.labels.Nodup) (stem : String)
    (blocks : List RecordedBlock) (point : InsertionPoint) :
    (d.insertRecorded stem blocks point).2.graph.labels.Nodup := by
  unfold insertRecorded
  split
  · exact h
  · obtain ⟨hlength, hnodup, hfresh⟩ :=
      Label.Batch.allocateMany_fresh blocks.length ⟨stem, d.graph.labels⟩
    have hlabels := labels_zipWith_heading _ blocks hlength
    dsimp only [modify]
    rw [Graph.labels_pruneDangling]
    apply nodup_labels_splice h
    · rwa [hlabels]
    · rwa [hlabels]

theorem nodup_labels_removeBlock (h : d.graph.labels.Nodup) (id : String) :
    (d.removeBlock id).graph.labels.Nodup := by
  unfold removeBlock
  split
  · exact h
  · dsimp only
    split
    · exact (Graph.labels_removeSubtree_sublist d.graph id).nodup h
    · exact nodup_labels_emptyState _

theorem nodup_labels_removeBlocks (ids : List String) : ∀ {d : Draft},
    d.graph.labels.Nodup -> (ids.foldl removeBlock d).graph.labels.Nodup := by
  induction ids with
  | nil => exact fun h => h
  | cons id ids ih => exact fun h => ih (nodup_labels_removeBlock h id)

theorem nodup_labels_removeBranch (h : d.graph.labels.Nodup) (id branch : String) :
    (d.removeBranch id branch).graph.labels.Nodup := by
  unfold removeBranch
  split
  · dsimp only [modify]
    rw [Graph.labels_undeclareBranch]
    exact nodup_labels_removeBlocks _ h
  · exact h

theorem labels_addBranch (d : Draft) (id : String) (b : Branch) :
    (d.addBranch id b).graph.labels = d.graph.labels := by
  unfold addBranch
  split
  · split
    · exact Graph.labels_modifyNode (Node.label?_mapBlock _)
    · rfl
  · rfl

theorem labels_addBody (d : Draft) (id : String) (b : Block) :
    (d.addBody id b).graph.labels = d.graph.labels := by
  rw [Graph.labels_eq_contents, contents_addBody, ← Graph.labels_eq_contents]

/-- The new label of a block is chosen while its old one and those of the blocks nested in it
still count as taken. -/
theorem nodup_labels_retypeBlock (h : d.graph.labels.Nodup) (stem id : String) (kind : Kind) :
    (d.retypeBlock stem id kind).graph.labels.Nodup := by
  unfold retypeBlock
  split
  · exact h
  · have hremoved := Graph.labels_removeNodes_sublist d.graph (d.graph.descendants id)
    have hfurnished : (if kind.isContainer
        then (d.modify fun g => g.removeNodes (d.graph.descendants id)).addBody id (.fresh kind)
        else d.modify fun g => g.removeNodes (d.graph.descendants id)).graph.labels =
          (d.graph.removeNodes (d.graph.descendants id)).labels := by
      split
      · exact labels_addBody _ id _
      · rfl
    dsimp only
    rw [modify, Graph.labels_pruneAll]
    apply Graph.nodup_labels_modifyNode
    · intro n l _ hl
      obtain rfl : _ = l := Option.some.inj hl
      rw [hfurnished]
      exact Or.inr fun hmem => Label.generate_not_mem stem _ (hremoved.subset hmem)
    · rw [hfurnished]
      exact hremoved.nodup h

/-!
# Runs
-/

theorem nodup_labels_apply (h : d.graph.labels.Nodup) (stem : String) (c : Command) :
    (d.apply stem c).draft.graph.labels.Nodup := by
  cases c with
  | addNode kind a => exact nodup_labels_insertBlock h stem kind a
  | deleteNode id => exact nodup_labels_removeBlock h id
  | retypeNode id kind => exact nodup_labels_retypeBlock h stem id kind
  | importRecorded blocks point => exact nodup_labels_insertRecorded h stem blocks point
  | setActiveBranch id branch =>
      have hsame := Graph.labels_showBranch d.graph id branch
      exact hsame.symm ▸ h
  | addBranch id b =>
      have hsame := labels_addBranch d id b
      exact hsame.symm ▸ h
  | removeBranch id branch => exact nodup_labels_removeBranch h id branch
  | updateBlock id b =>
      have hsame := Graph.labels_updateBlock d.graph id b
      exact hsame.symm ▸ h
  | relabel id label => exact Graph.nodup_labels_relabel id label h
  | setContinueOnFailure id value =>
      have hsame : (d.graph.setContinueOnFailure id value).labels = d.graph.labels :=
        Graph.labels_modifyNode (Node.label?_mapHeading (fun _ => rfl))
      exact hsame.symm ▸ h
  | setModel id model =>
      have hsame : (d.graph.setModel id model).labels = d.graph.labels :=
        Graph.labels_modifyNode (Node.label?_mapHeading (fun _ => rfl))
      exact hsame.symm ▸ h

/-- The empty workflow, or any definition that can be imported. -/
def Opened (d : Draft) : Prop :=
  d.IsEmpty ∨ ∃ (definition : Definition) (s : Supply), definition.toDraft? s = .ok d

theorem nodup_labels_opened (h : d.Opened) : d.graph.labels.Nodup := by
  rcases h with ⟨s, rfl⟩ | ⟨definition, s, himport⟩
  · exact nodup_labels_emptyState s
  · obtain ⟨-, hlabels, rfl⟩ := Definition.eq_of_toDraft? himport
    rw [Graph.labels_eq_contents, contents_ofBlocks, List.map_map]
    exact hlabels

/-- No two blocks of a graph carry one label, whatever it was opened from and however it was
edited. -/
theorem pairwise_label_ne (h : Edited Opened d) :
    d.graph.nodes.Pairwise fun m n => m.isBlock -> n.isBlock -> m.label? ≠ n.label? := by
  have hlabels : d.graph.labels.Nodup :=
    h.invariant (fun d => d.graph.labels.Nodup) (fun _ => nodup_labels_opened)
      (fun _ stem c h => nodup_labels_apply h stem c)
  apply (List.pairwise_filterMap.1 hlabels).imp
  intro m n hne hm _ heq
  obtain ⟨l, hl⟩ := Node.exists_label hm
  exact hne l hl l (heq ▸ hl) rfl

/-- Two branches of a conditional have one id. -/
def doubled : Definition :=
  let wait (label : String) : Descriptor := .leaf { label } (.wait {})
  { version := Definition.currentVersion
    title := "doubled"
    parameters := []
    blocks :=
      [.conditional { label := "block_1" }
        [({ id := "x", label := "If" }, [wait "a"]), ({ id := "x", label := "Else" }, [wait "b"])]] }

/-- Blocks are recorded, retyped and renamed in it. -/
def doubledCommands : List (String × Command) :=
  [("block", .importRecorded [⟨.fresh .wait, false, none⟩, ⟨.fresh .loop, false, none⟩]
      ⟨⟨some "#1", some "#3", none, none⟩, none⟩),
    ("block", .relabel "#6" " block_2 "),
    ("block", .relabel "#6" " block_4 "),
    ("block", .retypeNode "#7" .loop)]

theorem pairwise_label_ne_doubled :
    ∃ d, doubled.toDraft? = .ok d ∧ Edited Opened (d.applyAll doubledCommands) ∧
      (d.applyAll doubledCommands).graph.labels =
        ["block_1", "block_4", "block_5", "block_2", "block_3"] ∧
      (d.applyAll doubledCommands).graph.nodes.Pairwise
        fun m n => m.isBlock -> n.isBlock -> m.label? ≠ n.label? := by
  have himport : doubled.toDraft? = .ok (ofBlocks {} doubled.blocks) := by rfl
  have hedited : Edited Opened ((ofBlocks {} doubled.blocks).applyAll doubledCommands) :=
    Edited.applyAll (.start (Or.inr ⟨doubled, {}, himport⟩)) _
  exact ⟨_, himport, hedited, by decide +kernel, pairwise_label_ne hedited⟩

end Draft
end Workflow
