import Workflow.Proofs.Draft
import Workflow.Proofs.Edit.Attribute

/-!
# Inserting keeps drafts laid out

On a laid out graph the valid anchors are those between two neighbours of a run.  Blocks
are put there one after another; until the last of them is joined to the next end, one
link is missing.
-/

namespace Workflow

/-!
# Valid anchors
-/

namespace Anchor

/-- The scope that the parent and the branch of an anchor spell. -/
def place (a : Anchor) : Scope :=
  ⟨a.parent, a.branch⟩

theorem tag_eq (a : Anchor) : a.tag = a.place.tag := by
  obtain ⟨previous, next, parent, branch⟩ := a
  cases parent <;> cases branch <;> rfl

theorem scope_eq {k : Shape} {a : Anchor} (h : k.HasScope a.place) : a.scope = a.place := by
  obtain ⟨previous, next, parent, branch⟩ := a
  cases parent with
  | some p => rfl
  | none =>
      rcases h with hroot | ⟨x, -, hs⟩
      · exact hroot.symm
      · cases Role.parent_of_mem_scopes hs

section Valid

variable {g : Graph} {run : Scope -> List String} {a : Anchor}

theorem scopeExists_iff (hids : g.shape.ids.Nodup) :
    a.scopeExists g <-> g.shape.HasScope a.place := by
  obtain ⟨previous, next, parent, branch⟩ := a
  cases parent with
  | none =>
      cases branch with
      | none => exact iff_of_true rfl (Shape.hasScope_root _)
      | some b =>
          refine iff_of_false (by simp [scopeExists]) ?_
          rintro (hroot | ⟨x, -, hs⟩)
          · cases hroot
          · cases Role.parent_of_mem_scopes hs
  | some p =>
      cases branch with
      | none =>
          refine Iff.trans ?_ (Graph.hasScope_body hids).symm
          simp only [scopeExists]
          split
          · next a ha => exact iff_of_true rfl ⟨a, ha⟩
          · next hnot => exact iff_of_false (by simp) fun ⟨a, ha⟩ => hnot a ha
      | some b =>
          refine Iff.trans ?_ (Graph.hasScope_ofBranch hids).symm
          simp [scopeExists, Option.any_eq_true]

variable (h : g.shape.Laid run)
include h

theorem exists_adjacent_of_not_marker (hs : g.shape.HasScope a.place) {p : String}
    (hp : p ∈ run a.place) (hmarker : (g.node? p).any Node.isInsertionMarker = false) :
    ∃ n, Adjacent (run a.place) p n := by
  obtain ⟨start, blocks, marker, hrun, -, hslot, -⟩ := (h.runs _ hs).ends
  rw [hrun, ← List.cons_append] at hp ⊢
  rcases List.mem_append.1 hp with hp | hp
  · exact exists_adjacent_of_mem_init hp
  · cases List.mem_singleton.1 hp
    obtain ⟨n, hn, hnslot⟩ := Graph.mem_slots.1 hslot
    have hid : n.id = p := congrArg Slot.id hnslot
    have hrole : n.slot.role = .insertionMarker := congrArg Slot.role hnslot
    rw [← hid, Graph.node?_eq_some h.distinct hn, Option.any_some,
      Node.slot_role_eq_insertionMarker.1 hrole] at hmarker
    cases hmarker

theorem exists_adjacent_of_not_start (hs : g.shape.HasScope a.place) {n : String}
    (hn : n ∈ run a.place) (hstart : (g.node? n).any Node.isStart = false) :
    ∃ p, Adjacent (run a.place) p n := by
  obtain ⟨start, blocks, marker, hrun, hslot, -, -⟩ := (h.runs _ hs).ends
  rw [hrun] at hn ⊢
  rcases List.mem_cons.1 hn with hn | hn
  · cases hn
    obtain ⟨m, hm, hmslot⟩ := Graph.mem_slots.1 hslot
    have hid : m.id = n := congrArg Slot.id hmslot
    have hrole : m.slot.role = .start := congrArg Slot.role hmslot
    rw [← hid, Graph.node?_eq_some h.distinct hm, Option.any_some,
      Node.slot_role_eq_start.1 hrole] at hstart
    cases hstart
  · exact exists_adjacent_of_mem_tail hn

theorem endsMeet_iff (hs : g.shape.HasScope a.place) : a.endsMeet g <->
    ∃ p n, a.previous = some p ∧ a.next = some n ∧ Adjacent (run a.place) p n := by
  have hchain : g.chain a.place = run a.place := Graph.chain_eq h hs
  have hlink : ∀ {p n}, Adjacent (run a.place) p n ->
      ∃ e ∈ g.edges, e.source = p ∧ e.target = n ∧ e.tag = a.place.tag := by
    intro p n hadj
    obtain ⟨e, he, heq⟩ := Graph.mem_links.1 ((h.adjacent_iff hs).1 hadj).1
    exact ⟨e, he, congrArg Link.source heq, congrArg Link.target heq, congrArg Link.tag heq⟩
  cases hp : a.previous with
  | none =>
      cases hn : a.next with
      | none => simp [endsMeet, hp, hn]
      | some n =>
          refine iff_of_false ?_ (by simp)
          simp only [endsMeet, hp, hn, scope_eq hs, hchain, Bool.and_eq_true,
            List.contains_iff_mem, Bool.not_eq_true', not_and, Bool.not_eq_false]
          intro hcond
          obtain ⟨p, hadj⟩ := exists_adjacent_of_not_start h hs hcond.1 hcond.2
          obtain ⟨e, he, -, htarget, htag⟩ := hlink hadj
          refine List.any_eq_true.2 ⟨e, List.mem_filter.2 ⟨he, by simpa using htarget⟩, ?_⟩
          exact Scope.admits_iff.2 htag
  | some p =>
      cases hn : a.next with
      | none =>
          refine iff_of_false ?_ (by simp)
          simp only [endsMeet, hp, hn, scope_eq hs, hchain, Bool.and_eq_true,
            List.contains_iff_mem, Bool.not_eq_true', not_and, Bool.not_eq_false]
          intro hcond
          obtain ⟨n, hadj⟩ := exists_adjacent_of_not_marker h hs hcond.1 hcond.2
          obtain ⟨e, he, hsource, -, htag⟩ := hlink hadj
          refine List.any_eq_true.2 ⟨e, List.mem_filter.2 ⟨he, by simpa using hsource⟩, ?_⟩
          exact Scope.admits_iff.2 htag
      | some n =>
          simp only [endsMeet, hp, hn, scope_eq hs, hchain, Bool.and_eq_true,
            List.contains_iff_mem, List.any_eq_true, beq_iff_eq, tag_eq, Graph.edgesFrom,
            List.mem_filter]
          constructor
          · rintro ⟨⟨hpmem, -⟩, e, ⟨he, hsource⟩, htarget, htag⟩
            refine ⟨p, n, rfl, rfl,
              (h.adjacent_iff hs).2 ⟨Graph.mem_links.2 ⟨e, he, ?_⟩, hpmem⟩⟩
            rw [Edge.link, hsource, htarget, htag]
          · rintro ⟨p', n', hpp, hnn, hadj⟩
            cases hpp
            cases hnn
            obtain ⟨e, he, hsource, htarget, htag⟩ := hlink hadj
            exact ⟨⟨hadj.left_mem, hadj.right_mem⟩, e, ⟨he, hsource⟩, htarget, htag⟩

theorem isValid_iff : a.isValid g <-> g.shape.HasScope a.place ∧
    ∃ p n, a.previous = some p ∧ a.next = some n ∧ Adjacent (run a.place) p n := by
  simp only [isValid, Bool.and_eq_true, scopeExists_iff h.distinct, and_assoc]
  refine and_congr_right fun hs => ?_
  rw [endsMeet_iff h hs]
  constructor
  · exact fun hvalid => hvalid.2.2
  · rintro ⟨p, n, hp, hn, hadj⟩
    have hstands : ∀ id ∈ run a.place, a.standsInScope g (some id) := by
      intro id hid
      obtain ⟨x, hx, rfl, hparent⟩ := h.slot_of_mem_run hs hid
      obtain ⟨m, hm, rfl⟩ := Graph.mem_slots.1 hx
      have hfound := Graph.node?_eq_some h.distinct hm
      simp only [standsInScope, Option.all_some, Node.slot_id, hfound, Option.any_some,
        beq_iff_eq]
      exact hparent
    exact ⟨hp ▸ hstands p hadj.left_mem, hn ▸ hstands n hadj.right_mem, p, n, hp, hn, hadj⟩

end Valid
end Anchor

namespace Draft

/-!
# A row of blocks
-/

section Row

variable {d : Draft} {run : Scope -> List String} {s : Scope} {u v : List String}
  {p n : String} {a : Anchor}

theorem openAt_eq (hp : a.previous = some p) (hn : a.next = some n) :
    d.openAt a = d.modify fun g => g.disconnect p n a.tag := by
  simp only [Draft.openAt, hp, hn]

theorem hasScope_openAt (hs : d.graph.shape.HasScope s) :
    (d.openAt a).graph.shape.HasScope s := by
  unfold Draft.openAt
  split
  · exact hs
  · exact hs

theorem hasScope_closeAt {hidden : Bool} (hs : d.graph.shape.HasScope s) :
    (d.closeAt a hidden).graph.shape.HasScope s := by
  unfold Draft.closeAt
  split
  · exact hs
  · exact hs

theorem Laid.openAt (h : d.Laid run) (hs : d.graph.shape.HasScope s)
    (hadj : Adjacent (run s) p n) (hp : a.previous = some p) (hn : a.next = some n)
    (htag : a.tag = s.tag) : (d.openAt a).LaidBut run [⟨p, n, s.tag⟩] := by
  have hshape : (d.openAt a).graph.shape =
      ⟨d.graph.shape.slots, d.graph.shape.links.filter (· ≠ ⟨p, n, s.tag⟩)⟩ := by
    simp only [openAt_eq hp hn, htag, Draft.modify, Graph.disconnect, Graph.shape, List.filter_map]
    congr 2
    refine List.filter_congr fun e _ => Bool.eq_iff_iff.2 ?_
    simp [Edge.link, or_assoc]
  have hsupply : (d.openAt a).supply = d.supply := by
    rw [openAt_eq hp hn]
    rfl
  have hlink := ((h.shape.adjacent_iff hs).1 hadj).1
  constructor
  case shape =>
    rw [hshape]
    refine h.shape.congr_links fun l => ?_
    by_cases hl : l = ⟨p, n, s.tag⟩
    · simp [hl, hlink]
    · simp [hl]
  case absent => simp [hshape]
  case nodup => exact List.nodup_singleton _
  case issued =>
    rw [hshape, hsupply]
    exact h.issued

theorem LaidBut.closeAt (h : d.LaidBut run [⟨p, n, s.tag⟩]) (hp : a.previous = some p)
    (hn : a.next = some n) (htag : a.tag = s.tag) (hidden : Bool) :
    (d.closeAt a hidden).Laid run := by
  simp only [Draft.closeAt, hp, hn, htag]
  exact (h.addEdge _ hidden).laid

variable (hp : a.previous = some p) (hparent : a.parent = s.parent) (htag : a.tag = s.tag)
  (kind : Option EdgeKind) (hidden : Bool) (heading : Heading) (b : Block)

theorem putAfter_fst (d : Draft) (a : Anchor) (kind : Option EdgeKind) (hidden : Bool)
    (heading : Heading) (b : Block) :
    (d.putAfter a kind hidden heading b).1 = d.supply.upcoming 1 := by
  obtain ⟨previous, next, parent, branch⟩ := a
  cases previous <;> rfl

include hp hparent htag

theorem shape_putAfter (d : Draft) :
    (d.putAfter a kind hidden heading b).2.graph.shape =
      ⟨d.graph.shape.slots ++ ⟨d.supply.upcoming 1, s.parent, b.role⟩ ::
        Shape.bodySlots (d.supply.upcoming 1) (d.supply.upcoming 2) (d.supply.upcoming 3) b.role,
        d.graph.shape.links ++ (((b.role.scopes (d.supply.upcoming 1)).map fun t =>
          ⟨d.supply.upcoming 2, d.supply.upcoming 3, t.tag⟩) ++
            [⟨p, d.supply.upcoming 1, s.tag⟩])⟩ := by
  obtain ⟨hblock, -⟩ := shape_addBlock d s.parent heading b
  simp only [Draft.putAfter, hp, hparent, htag, shape_addEdge, hblock, List.append_assoc]
  rfl

theorem hasScope_putAfter {t : Scope} (ht : d.graph.shape.HasScope t) :
    (d.putAfter a kind hidden heading b).2.graph.shape.HasScope t := by
  rw [shape_putAfter hp hparent htag]
  rcases ht with rfl | ⟨x, hx, ht⟩
  · exact Shape.hasScope_root _
  · exact Or.inr ⟨x, List.mem_append_left _ hx, ht⟩

/-- A block put behind the first end of a gap leaves a gap behind the block. -/
theorem LaidBut.putAfter (h : d.LaidBut run [⟨p, n, s.tag⟩])
    (hs : d.graph.shape.HasScope s) (hrun : run s = u ++ p :: n :: v) :
    (d.putAfter a kind hidden heading b).2.LaidBut
      (Shape.insertRun run s (u ++ p :: d.supply.upcoming 1 :: n :: v)
        (d.supply.upcoming 1) (d.supply.upcoming 2) (d.supply.upcoming 3))
      [⟨d.supply.upcoming 1, n, s.tag⟩] := by
  obtain ⟨-, hafter⟩ := shape_addBlock d s.parent heading b
  have hsupply : d.supply.After (d.putAfter a kind hidden heading b).2.supply
      (if b.role.isContainer then 3 else 1) := by
    simp only [Draft.putAfter, hp, hparent, Block.isContainer_role]
    exact hafter
  have hfresh : ∀ c ∈ run s, c ≠ d.supply.upcoming 1 := by
    rintro c hc rfl
    exact not_mem_upcoming h.issued Nat.one_pos (h.shape.mem_ids_of_mem_run hs hc)
  have hp1 : p ≠ d.supply.upcoming 1 := hfresh p (by simp [hrun])
  have h12 : d.supply.upcoming 1 ≠ d.supply.upcoming 2 := fun heq =>
    absurd (d.supply.upcoming_injective heq) (by simp)
  refine h.place hs hrun b.isBlock_role (shape_putAfter hp hparent htag kind hidden heading b d)
    hsupply (fun l => ?_) (List.nodup_singleton _) fun l hl hadded => ?_
  · simp only [List.mem_append, List.mem_map, List.mem_singleton, eq_comm, or_comm,
      or_left_comm, or_assoc]
  · cases List.mem_singleton.1 hl
    rcases List.mem_append.1 hadded with hbody | hbefore
    · obtain ⟨t, -, heq⟩ := List.mem_map.1 hbody
      exact h12 (congrArg Link.source heq).symm
    · exact hp1 (congrArg Link.source (List.mem_singleton.1 hbefore)).symm

omit hp hparent htag in
theorem LaidBut.run_putAfter {missing : List Link} (h : d.LaidBut run missing)
    (hs : d.graph.shape.HasScope s) (u v : List String) (p n : String) :
    Shape.insertRun run s (u ++ p :: d.supply.upcoming 1 :: n :: v) (d.supply.upcoming 1)
      (d.supply.upcoming 2) (d.supply.upcoming 3) s =
        (u ++ [p]) ++ d.supply.upcoming 1 :: n :: v := by
  rw [insertRun_of_hasScope h.issued hs, Function.update_self, List.append_assoc]
  rfl

omit hp hparent htag in
/-- Puts a row of blocks into a gap.  The runs of the other scopes stay. -/
theorem LaidBut.putRow (row : List (Heading × Block)) :
    ∀ {d : Draft} {run : Scope -> List String} {u : List String} {p : String} {a : Anchor},
      d.LaidBut run [⟨p, n, s.tag⟩] -> d.graph.shape.HasScope s ->
      run s = u ++ p :: n :: v -> a.previous = some p -> a.next = some n ->
      a.parent = s.parent -> a.tag = s.tag ->
      ∃ run', (Draft.putRow kind hidden d a row).2.Laid run' ∧
        run' s = u ++ p :: ((Draft.putRow kind hidden d a row).1 ++ n :: v) ∧
        ∀ t, d.graph.shape.HasScope t ->
          (Draft.putRow kind hidden d a row).2.graph.shape.HasScope t ∧
            (t ≠ s -> run' t = run t) := by
  induction row with
  | nil =>
      intro d run u p a h hs hrun hp hn hparent htag
      refine ⟨run, h.closeAt hp hn htag hidden, hrun, fun t ht => ⟨?_, fun _ => rfl⟩⟩
      simp only [Draft.putRow, Draft.closeAt, hp, hn, shape_addEdge]
      exact ht
  | cons entry row ih =>
      intro d run u p a h hs hrun hp hn hparent htag
      obtain ⟨heading, b⟩ := entry
      have hput := h.putAfter hp hparent htag kind hidden heading b hs hrun
      have hkept : ∀ t, d.graph.shape.HasScope t -> _ := fun t =>
        hasScope_putAfter hp hparent htag kind hidden heading b
      have hfst := putAfter_fst d a kind hidden heading b
      have hbehind : ({ a with previous := some (d.putAfter a kind hidden heading b).1 } :
          Anchor).previous = some (d.supply.upcoming 1) := congrArg some hfst
      obtain ⟨run', hlaid, hlast, hother⟩ :=
        ih hput (hkept s hs) (h.run_putAfter hs u v p n) hbehind hn hparent htag
      refine ⟨run', hlaid, ?_, fun t ht => ?_⟩
      · rw [hlast]
        simp [Draft.putRow, hfst]
      · refine ⟨(hother t (hkept t ht)).1, fun hts => ?_⟩
        rw [(hother t (hkept t ht)).2 hts, insertRun_of_hasScope h.issued ht,
          Function.update_of_ne hts]

omit hp hparent htag in
theorem Laid.splice (h : d.Laid run) (hvalid : a.isValid d.graph)
    (row : List (Heading × Block)) :
    ∃ run' u p n v, (d.splice a kind row).2.Laid run' ∧
      a.previous = some p ∧ a.next = some n ∧ run a.place = u ++ p :: n :: v ∧
      run' a.place = u ++ p :: ((d.splice a kind row).1 ++ n :: v) ∧
      ∀ t, d.graph.shape.HasScope t -> (d.splice a kind row).2.graph.shape.HasScope t ∧
        (t ≠ a.place -> run' t = run t) := by
  obtain ⟨hs, p, n, hp, hn, u, v, hrun⟩ := (Anchor.isValid_iff h.shape).1 hvalid
  have hgap := h.openAt hs ⟨u, v, hrun⟩ hp hn a.tag_eq
  obtain ⟨run', hlaid, hrun', hother⟩ := hgap.putRow kind (a.tag.any d.graph.isHiddenBranch)
    row (hasScope_openAt hs) hrun hp hn rfl a.tag_eq
  exact ⟨run', u, p, n, v, hlaid, hp, hn, hrun, hrun', fun t ht => hother t (hasScope_openAt ht)⟩

end Row

/-!
# The insertions
-/

variable {d : Draft} {run : Scope -> List String}

theorem Laid.insertBlock (h : d.Laid run) (stem : String) (kind : Kind) (a : Anchor) :
    ∃ run', (d.insertBlock stem kind a).2.Laid run' := by
  unfold Draft.insertBlock
  split
  · next hvalid =>
      obtain ⟨run', u, p, n, v, hlaid, -⟩ := h.splice none hvalid
        [({ label := Label.generate stem d.graph.labels }, .fresh kind)]
      exact ⟨run', hlaid⟩
  · exact ⟨run, h⟩

theorem Laid.insertRecorded (h : d.Laid run) (stem : String) (blocks : List RecordedBlock)
    (point : InsertionPoint) : ∃ run', (d.insertRecorded stem blocks point).2.Laid run' := by
  unfold Draft.insertRecorded
  split
  · exact ⟨run, h⟩
  · next hvalid =>
      simp only [Bool.or_eq_true, Bool.not_eq_true', not_or, Bool.not_eq_false] at hvalid
      obtain ⟨run', u, p, n, v, hlaid, -⟩ := h.splice point.edgeKind hvalid.2
        ((Label.Batch.allocateMany blocks.length ⟨stem, d.graph.labels⟩).1.zipWith
          (fun label r => (r.heading label, r.block)) blocks)
      exact ⟨run', hlaid.modify (Graph.shape_pruneDangling _)⟩

end Draft
end Workflow
