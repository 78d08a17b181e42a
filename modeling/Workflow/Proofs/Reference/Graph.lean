import Workflow.Proofs.Reference.Referrers

/-!
# References that are settled

A graph is settled when every reference that depends on a label depends on a known one.
Merge labels may be excepted, since a branch can be added with any merge label.  Nothing
dangles exactly when the graph is settled in its own labels without an exception.
-/

namespace Workflow
namespace Graph

variable {g g' : Graph} {known known' stray stray' : String -> Prop}

/-- A block of the graph holds a reference. -/
def Holds (g : Graph) (r : Reference) : Prop :=
  ∃ c ∈ g.contents, r ∈ c.2.held

/-- References depend on labels that are known, or are merge labels that may stray. -/
def Settled (g : Graph) (known stray : String -> Prop) : Prop :=
  ∀ r, g.Holds r -> ∀ l, r.label? = some l -> known l ∨ (r = .label l ∧ stray l)

theorem Settled.mono (h : g.Settled known stray) (hholds : ∀ r, g'.Holds r -> g.Holds r)
    (hknown : ∀ l, known l -> known' l) (hstray : ∀ l, stray l -> stray' l) :
    g'.Settled known' stray' := by
  intro r hr l hl
  rcases h r (hholds r hr) l hl with hlabel | ⟨hmerge, hlabel⟩
  · exact Or.inl (hknown l hlabel)
  · exact Or.inr ⟨hmerge, hstray l hlabel⟩

/-!
# Clearing references
-/

theorem holds_retainLabels {keep : String -> Bool} {r : Reference} :
    (g.retainLabels keep).Holds r <-> g.Holds r ∧ r.stays keep := by
  simp only [Holds, contents_retainLabels, List.mem_map, exists_exists_and_eq_and,
    Block.held_retainLabels, List.mem_filter]
  constructor
  · rintro ⟨c, hc, hr, hkeep⟩
    exact ⟨⟨c, hc, hr⟩, hkeep⟩
  · rintro ⟨⟨c, hc, hr⟩, hkeep⟩
    exact ⟨c, hc, hr, hkeep⟩

theorem settled_retainLabels {keep : String -> Bool} (h : g.Settled known stray) :
    (g.retainLabels keep).Settled (fun l => known l ∧ keep l) stray := by
  intro r hr l hl
  obtain ⟨hr, hstays⟩ := holds_retainLabels.1 hr
  rw [Reference.stays, hl] at hstays
  exact (h r hr l hl).imp_left fun hlabel => ⟨hlabel, hstays⟩

theorem settled_pruneDangling (hids : g.shape.ids.Nodup) :
    g.pruneDangling.Settled (· ∈ g.labels) stray := by
  rw [pruneDangling_eq_retainLabels hids]
  intro r hr l hl
  obtain ⟨-, hstays⟩ := holds_retainLabels.1 hr
  rw [Reference.stays, hl] at hstays
  exact Or.inl (List.contains_iff_mem.1 hstays)

theorem settled_pruneAll (labels : List String) : ∀ {g : Graph} {known : String -> Prop},
    g.shape.ids.Nodup -> g.Settled known stray ->
      (g.pruneAll labels).Settled (fun l => known l ∧ l ∉ labels) stray := by
  induction labels with
  | nil =>
      intro g known hids h
      exact h.mono (fun _ hr => hr) (fun l hl => ⟨hl, List.not_mem_nil⟩) fun _ hl => hl
  | cons label labels ih =>
      intro g known hids h
      have hpruned : (g.prune label).Settled (fun l => known l ∧ l != label) stray := by
        rw [prune_eq_retainLabels hids]
        exact settled_retainLabels h
      have hids' : (g.prune label).shape.ids.Nodup := by
        rw [shape_prune]
        exact hids
      refine (ih hids' hpruned).mono (fun _ hr => hr) (fun l hl => ⟨hl.1.1, ?_⟩) fun _ hl => hl
      simpa using And.intro hl.1.2 hl.2

/-!
# Dangling references
-/

theorem holds_of_mem_references {n : Node} {b : Block} {field : Field} {r : Reference}
    (hn : n ∈ g.nodes) (hb : n.block? = some b) (hr : (field, r) ∈ b.references) : g.Holds r := by
  obtain ⟨h, hcarried⟩ := Node.block?_eq_some.1 hb
  refine ⟨(h, b), mem_contents.2 ⟨n, hn, hcarried⟩, ?_⟩
  rw [← b.map_references]
  exact List.mem_map_of_mem hr

theorem exists_of_holds {r : Reference} (h : g.Holds r) :
    ∃ n ∈ g.nodes, ∃ b, n.block? = some b ∧ ∃ field, (field, r) ∈ b.references := by
  obtain ⟨c, hc, hr⟩ := h
  obtain ⟨n, hn, hcarried⟩ := mem_contents.1 hc
  rw [← c.2.map_references] at hr
  obtain ⟨⟨field, r'⟩, hmem, rfl⟩ := List.mem_map.1 hr
  exact ⟨n, hn, c.2, Node.block?_of_carried hcarried, field, hmem⟩

theorem exists_mem_dangling (hids : g.shape.ids.Nodup) {r : Reference} {l : String}
    (hr : g.Holds r) (hl : r.label? = some l) (hnot : l ∉ g.labels) :
    ∃ place, (l, place) ∈ g.dangling := by
  obtain ⟨n, hn, b, hb, field, hmem⟩ := exists_of_holds hr
  exact ⟨⟨n.id, field⟩, (mem_dangling hids).2 ⟨n, hn, b, hb, field, r, hmem, hl, hnot, rfl⟩⟩

theorem dangling_eq_nil (hids : g.shape.ids.Nodup) :
    g.dangling = [] <-> g.Settled (· ∈ g.labels) fun _ => False := by
  constructor
  · intro h r hr l hl
    by_contra hnot
    rw [and_false, or_false] at hnot
    obtain ⟨place, hmem⟩ := exists_mem_dangling hids hr hl hnot
    rw [h] at hmem
    cases hmem
  · intro h
    rw [List.eq_nil_iff_forall_not_mem]
    rintro ⟨l, place⟩ hmem
    obtain ⟨n, hn, b, hb, field, r, hr, hl, hnot, -⟩ := (mem_dangling hids).1 hmem
    rcases h r (holds_of_mem_references hn hb hr) l hl with hlabel | ⟨-, hfalse⟩
    · exact hnot hlabel
    · exact hfalse

end Graph
end Workflow
