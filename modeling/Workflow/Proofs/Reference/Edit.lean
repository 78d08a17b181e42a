import Workflow.Proofs.Edit.Branching
import Workflow.Proofs.Edit.Insertion
import Workflow.Proofs.Reference.Graph

/-!
# Edits and references

An edit of one block leaves the graph settled when it keeps the label of the block and
brings in no reference but to known labels.  Renaming moves the references along, and
removing blocks clears those to the labels that go with them.
-/

namespace Workflow
namespace Graph

variable {g g' : Graph} {stray : String -> Prop}

/-- Every reference depends on a label of the graph, or is a merge label that may stray. -/
def SettledBut (stray : String -> Prop) (g : Graph) : Prop :=
  g.Settled (· ∈ g.labels) stray

theorem SettledBut.congr (h : g.SettledBut stray) (hcontents : g'.contents = g.contents) :
    g'.SettledBut stray := by
  intro r hr l hl
  rw [Holds, hcontents] at hr
  rw [labels_eq_contents, hcontents, ← labels_eq_contents]
  exact h r hr l hl

/-!
# Changing one block
-/

section Replaced

variable {u v : List (Heading × Block)} {c c' : Heading × Block}
  (h : g.contents = u ++ c :: v) (h' : g'.contents = u ++ c' :: v)
include h h'

theorem holds_of_replaced {r : Reference} (hr : g'.Holds r) : r ∈ c'.2.held ∨ g.Holds r := by
  obtain ⟨x, hx, hr⟩ := hr
  rw [h', List.mem_append, List.mem_cons] at hx
  rcases hx with hx | rfl | hx
  · exact Or.inr ⟨x, by simp [h, hx], hr⟩
  · exact Or.inl hr
  · exact Or.inr ⟨x, by simp [h, hx], hr⟩

theorem mem_labels_of_replaced {l : String} (hl : l ∈ g.labels) :
    l = c.1.label ∨ l ∈ g'.labels := by
  rw [labels_eq_contents, h] at hl
  rw [labels_eq_contents, h']
  simp only [List.map_append, List.map_cons, List.mem_append, List.mem_cons] at hl ⊢
  tauto

end Replaced

section ModifyNode

variable {id : String} {f : Node -> Node} {f' : Heading × Block -> Heading × Block}
  (hf : ∀ n, g.node? id = some n -> (f n).content.carried? = n.content.carried?.map f')
include hf

theorem settledBut_modifyNode (hlabel : ∀ c, g.carriedAt? id = some c -> (f' c).1.label = c.1.label)
    (hheld : ∀ c, g.carriedAt? id = some c -> ∀ r ∈ (f' c).2.held,
      r ∈ c.2.held ∨ ∃ l, r = .label l ∧ (l ∈ g.labels ∨ stray l))
    (h : g.SettledBut stray) : (g.modifyNode id f).SettledBut stray := by
  rcases contents_modifyNode hf with ⟨-, hsame⟩ | ⟨u, c, v, hc, hcontents, hchanged⟩
  · exact h.congr hsame
  · have hlabels : (g.modifyNode id f).labels = g.labels := by
      rw [labels_eq_contents, labels_eq_contents, hchanged, hcontents]
      simp [hlabel c hc]
    intro r hr l hl
    rw [hlabels]
    rcases holds_of_replaced hcontents hchanged hr with hr | hr
    · rcases hheld c hc r hr with hr | ⟨m, rfl, hm⟩
      · exact h r ⟨c, by simp [hcontents], hr⟩ l hl
      · obtain rfl : m = l := Option.some.inj hl
        exact hm.imp_right fun hm => ⟨rfl, hm⟩
    · exact h r hr l hl

end ModifyNode

theorem settledBut_mapHeading (id : String) {f : Heading -> Heading}
    (hf : ∀ h, (f h).label = h.label) (h : g.SettledBut stray) :
    (g.modifyNode id (Node.mapHeading f)).SettledBut stray :=
  settledBut_modifyNode (fun n _ => n.carried?_mapHeading f) (fun c _ => hf c.1)
    (fun _ _ _ hr => Or.inl hr) h

theorem settledBut_modifyConditional {id : String} {f : Conditional -> Conditional}
    (hf : ∀ c, g.conditional? id = some c -> ∀ b ∈ (f c).branches,
      b ∈ c.branches ∨ ∀ l, b.mergeLabel = some l -> l ∈ g.labels ∨ stray l)
    (h : g.SettledBut stray) : (g.modifyConditional id f).SettledBut stray := by
  refine settledBut_modifyNode (fun n _ => n.carried?_mapBlock _) (fun _ _ => rfl)
    (fun c hc r hr => ?_) h
  obtain ⟨heading, b⟩ := c
  cases b with
  | leaf a => exact Or.inl hr
  | loop a => exact Or.inl hr
  | conditional c =>
      have hfound := conditional?_iff_carriedAt?.2 ⟨heading, hc⟩
      obtain ⟨l, hl, rfl⟩ := List.mem_map.1 hr
      obtain ⟨b, hb, hm⟩ := List.mem_filterMap.1 hl
      rcases hf c hfound b hb with hb | hb
      · exact Or.inl (List.mem_map_of_mem (List.mem_filterMap.2 ⟨b, hb, hm⟩))
      · exact Or.inr ⟨l, rfl, hb l hm⟩

theorem settledBut_showBranch (id branch : String) (h : g.SettledBut stray) :
    (g.showBranch id branch).SettledBut stray := by
  unfold showBranch
  split
  · exact settledBut_modifyConditional (fun _ _ _ hb => Or.inl hb) h
  · exact h

theorem settledBut_undeclareBranch (id branch : String) (h : g.SettledBut stray) :
    (g.undeclareBranch id branch).SettledBut stray := by
  unfold undeclareBranch
  split
  · exact h
  · next c hc =>
      have hrest : (g.modifyConditional id fun d =>
          { d with branches := c.branches.filter fun b => b.id != branch }).SettledBut stray := by
        refine settledBut_modifyConditional (fun d hd b hb => Or.inl ?_) h
        obtain rfl : c = d := Option.some.inj (hc.symm.trans hd)
        exact (List.mem_filter.1 hb).1
      dsimp only
      split
      · split
        · exact hrest
        · exact settledBut_showBranch _ _ hrest
      · exact hrest

/-!
# Renaming
-/

theorem label?_bind_node? (g : Graph) (id : String) :
    (g.node? id).bind Node.label? = (g.carriedAt? id).map fun c => c.1.label := by
  rw [carriedAt?, Option.map_bind]
  congr 1
  funext n
  obtain ⟨id, parent, content⟩ := n
  cases content <;> rfl

section Relabel

variable (hids : g.shape.ids.Nodup)
include hids

theorem mem_contents_repoint {old new : String} {c : Heading × Block}
    (hc : c ∈ (g.repoint old new).contents) : ∃ b, (c.1, b) ∈ g.contents ∧
      (c.2 = (b.renameLabel old new).1 ∨ (c.2 = b ∧ b.dependsOn old = false)) := by
  obtain ⟨m, hm, hcarried⟩ := mem_contents.1 hc
  rw [repoint, nodes_modifyBlocks (ids_shape g ▸ hids) (nodup_referrers g old)] at hm
  obtain ⟨n, hn, rfl⟩ := List.mem_map.1 hm
  split at hcarried
  · rw [Node.carried?_mapBlock] at hcarried
    obtain ⟨c', hc', rfl⟩ := Option.map_eq_some_iff.1 hcarried
    exact ⟨c'.2, mem_contents.2 ⟨n, hn, hc'⟩, Or.inl rfl⟩
  · next hnot =>
      refine ⟨c.2, mem_contents.2 ⟨n, hn, hcarried⟩, Or.inr ⟨rfl, ?_⟩⟩
      rw [← Bool.not_eq_true]
      intro hdepends
      exact hnot (mem_referrers.2 ⟨n, hn, rfl, c.2, Node.block?_of_carried hcarried, hdepends⟩)

/-- References to the new label apart, none is left to the old label and none is added. -/
theorem holds_repoint {old new l : String} {r : Reference} (hr : (g.repoint old new).Holds r)
    (hl : r.label? = some l) : l = new ∨ (l ≠ old ∧ g.Holds r) := by
  obtain ⟨c, hc, hr⟩ := hr
  obtain ⟨b, hb, hchange⟩ := mem_contents_repoint hids hc
  rcases hchange with heq | ⟨heq, hnot⟩
  · rw [heq] at hr
    exact (Block.mem_held_renameLabel hr hl).imp_right fun hold => ⟨hold.1, _, hb, hold.2⟩
  · rw [heq] at hr
    refine Or.inr ⟨?_, _, hb, hr⟩
    rintro rfl
    rw [← b.map_references] at hr
    obtain ⟨x, hx, rfl⟩ := List.mem_map.1 hr
    rw [Block.dependsOn, List.any_eq_false] at hnot
    exact hnot x hx (beq_iff_eq.2 hl)

theorem settledBut_rename {id : String} {f : Heading -> Heading} {c : Heading × Block}
    (hc : g.carriedAt? id = some c) (h : g.SettledBut stray) :
    ((g.modifyNode id (Node.mapHeading f)).repoint c.1.label (f c.1).label).SettledBut stray := by
  have hf : ∀ n, g.node? id = some n -> _ := fun n _ => n.carried?_mapHeading f
  rcases contents_modifyNode hf with ⟨hnone, -⟩ | ⟨u, c', v, hc', hcontents, hchanged⟩
  · cases hc.symm.trans hnone
  · obtain rfl : c = c' := Option.some.inj (hc.symm.trans hc')
    have hids' : (g.modifyNode id (Node.mapHeading f)).shape.ids.Nodup :=
      (shape_mapHeading g id f).symm ▸ hids
    intro r hr l hl
    rw [labels_repoint]
    rcases holds_repoint hids' hr hl with rfl | ⟨hne, hr⟩
    · refine Or.inl ?_
      rw [labels_eq_contents, hchanged]
      simp
    · have hold : g.Holds r := by
        rcases holds_of_replaced hcontents hchanged hr with hr | hr
        · exact ⟨c, by simp [hcontents], hr⟩
        · exact hr
      refine (h r hold l hl).imp_left fun hlabel => ?_
      exact (mem_labels_of_replaced hcontents hchanged hlabel).resolve_left hne

theorem settledBut_relabel (id label : String) (h : g.SettledBut stray) :
    (g.relabel id label).SettledBut stray := by
  unfold relabel
  dsimp only
  split
  · exact h
  · next old hold =>
      split
      · exact h
      · rw [label?_bind_node?] at hold
        obtain ⟨c, hc, rfl⟩ := Option.map_eq_some_iff.1 hold
        exact settledBut_rename hids hc h

end Relabel

/-!
# Clearing
-/

theorem settledBut_pruneDangling (hids : g.shape.ids.Nodup) :
    g.pruneDangling.SettledBut stray := by
  unfold SettledBut
  rw [labels_pruneDangling]
  exact settled_pruneDangling hids

theorem settledBut_updateBlock (hids : g.shape.ids.Nodup) (id : String) (b : Block)
    (h : g.SettledBut stray) : (g.updateBlock id b).SettledBut stray := by
  have hshape := g.shape_updateBlock id b
  unfold updateBlock at hshape ⊢
  split
  · exact h
  · next b' hb =>
      rw [hb, shape_pruneDangling] at hshape
      exact settledBut_pruneDangling (hshape ▸ hids)

/-- Clearing the references to some labels settles a graph that kept all other labels. -/
theorem settledBut_pruneAll {labels known : List String} (hids : g.shape.ids.Nodup)
    (h : g.Settled (· ∈ known) stray) (hkept : ∀ l ∈ known, l ∉ labels -> l ∈ g.labels) :
    (g.pruneAll labels).SettledBut stray := by
  unfold SettledBut
  rw [labels_pruneAll]
  exact (settled_pruneAll labels hids h).mono (fun _ hr => hr) (fun l hl => hkept l hl.1 hl.2)
    fun _ hl => hl

theorem mem_contents_removeNodes {ids : List String} {c : Heading × Block}
    (hc : c ∈ (g.removeNodes ids).contents) : c ∈ g.contents := by
  obtain ⟨n, hn, hcarried⟩ := mem_contents.1 hc
  exact mem_contents.2 ⟨n, List.mem_of_mem_filter hn, hcarried⟩

theorem mem_labels_removeNodes {ids : List String} {l : String} (hl : l ∈ g.labels)
    (hnot : l ∉ g.labelsOf ids) : l ∈ (g.removeNodes ids).labels := by
  obtain ⟨n, hn, hlabel⟩ := List.mem_filterMap.1 hl
  refine List.mem_filterMap.2 ⟨n, List.mem_filter.2 ⟨hn, ?_⟩, hlabel⟩
  by_contra hremoved
  rw [Bool.not_eq_true', Bool.not_eq_false] at hremoved
  exact hnot (List.mem_filterMap.2 ⟨n, List.mem_filter.2 ⟨hn, hremoved⟩, hlabel⟩)

theorem settledBut_removeSubtree (hids : g.shape.ids.Nodup) (id : String)
    (h : g.SettledBut stray) : (g.removeSubtree id).SettledBut stray := by
  let removed := id :: g.descendants id
  have hnodes : (g.bypass removed id).nodes = g.nodes := nodes_bypass
  have hnodup : ((g.bypass removed id).removeNodes removed).shape.ids.Nodup := by
    rw [Shape.ids, slots_bypass]
    exact (List.filter_sublist.map Slot.id).nodup hids
  refine settledBut_pruneAll hnodup (h.mono ?_ (fun _ hl => hl) fun _ hl => hl) fun l hl hnot => ?_
  · rintro r ⟨c, hc, hr⟩
    have hmem := mem_contents_removeNodes hc
    rw [contents, hnodes] at hmem
    exact ⟨c, hmem, hr⟩
  · refine mem_labels_removeNodes ?_ ?_
    · rwa [labels, hnodes]
    · rwa [labelsOf, hnodes]

/-- A block that is made a fresh one refers to nothing, and only its label goes. -/
theorem settledBut_refresh {id : String} {heading : Heading} {kind : Kind}
    {stale known : List String} {c : Heading × Block} (hids : g.shape.ids.Nodup)
    (hc : g.carriedAt? id = some c) (h : g.Settled (· ∈ known) stray)
    (hkept : ∀ l ∈ known, l ∉ stale -> l ≠ c.1.label ∧ l ∈ g.labels) :
    ((g.modifyNode id fun n => { n with content := .block heading (.fresh kind) }).pruneAll
      stale).SettledBut stray := by
  let f : Node -> Node := fun n => { n with content := .block heading (.fresh kind) }
  have hf : ∀ n, g.node? id = some n -> (f n).content.carried? =
      n.content.carried?.map fun _ => (heading, .fresh kind) := by
    intro n hn
    rw [carriedAt?, hn, Option.bind_some] at hc
    rw [hc]
    rfl
  rcases contents_modifyNode hf with ⟨hnone, -⟩ | ⟨u, c', v, hc', hcontents, hchanged⟩
  · cases hc.symm.trans hnone
  · obtain rfl : c = c' := Option.some.inj (hc.symm.trans hc')
    have hids' : (g.modifyNode id f).shape.ids.Nodup := (ids_setContent g id _).symm ▸ hids
    refine settledBut_pruneAll hids' (h.mono ?_ (fun _ hl => hl) fun _ hl => hl) ?_
    · intro r hr
      rcases holds_of_replaced hcontents hchanged hr with hr | hr
      · rw [Block.held_fresh] at hr
        cases hr
      · exact hr
    · intro l hl hnot
      obtain ⟨hne, hlabel⟩ := hkept l hl hnot
      exact (mem_labels_of_replaced hcontents hchanged hlabel).resolve_left hne

/-- A block is made a fresh one after those nested in it are gone and markers took their
place. -/
theorem settledBut_retype {n : Node} {nest : List String} {added : List Node}
    {old heading : Heading} {b : Block} {kind : Kind} (h : g.SettledBut stray)
    (hn : n ∈ g.nodes) (hc : n.content.carried? = some (old, b)) (hnest : n.id ∉ nest)
    (hnodes : g'.nodes = (g.removeNodes nest).nodes ++ added) (hadded : contentsOf added = [])
    (hids : g'.shape.ids.Nodup) :
    ((g'.modifyNode n.id fun n => { n with content := .block heading (.fresh kind) }).pruneAll
      (old.label :: g.labelsOf nest)).SettledBut stray := by
  have hcontents : g'.contents = (g.removeNodes nest).contents := by
    rw [contents, hnodes, contentsOf_append, hadded, List.append_nil]
    rfl
  have hfound : g'.carriedAt? n.id = some (old, b) := by
    have hmem : n ∈ g'.nodes := by
      rw [hnodes]
      exact List.mem_append_left _ (List.mem_filter.2 ⟨hn, by simpa using hnest⟩)
    rw [carriedAt?, node?_eq_some hids hmem, Option.bind_some, hc]
  refine settledBut_refresh hids hfound (h.mono ?_ (fun _ hl => hl) fun _ hl => hl) ?_
  · rintro r ⟨c', hc', hr⟩
    rw [hcontents] at hc'
    exact ⟨c', mem_contents_removeNodes hc', hr⟩
  · intro l hl hnot
    rw [List.mem_cons, not_or] at hnot
    refine ⟨hnot.1, ?_⟩
    rw [labels_eq_contents, hcontents, ← labels_eq_contents]
    exact mem_labels_removeNodes hl hnot.2

end Graph
end Workflow
