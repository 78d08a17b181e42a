import Mathlib.Logic.Function.Basic
import Workflow.Proofs.Shape.Role

/-!
# Growing shapes

A laid out shape stays laid out when a leaf is spliced into a run, and when a leaf
becomes a container with an empty body.  A container is inserted by the two steps
together.
-/

namespace Workflow

namespace Shape

/-!
# The smallest shape
-/

theorem isRun_pair {k : Shape} {s : Scope} {start marker : String} (hne : start ≠ marker)
    (hstart : ⟨start, s.parent, .start⟩ ∈ k.slots)
    (hmarker : ⟨marker, s.parent, .insertionMarker⟩ ∈ k.slots) :
    k.IsRun s [start, marker] :=
  ⟨by simp [hne], start, [], marker, rfl, hstart, hmarker, by simp⟩

@[simp] theorem adjacent_pair {x y a b : α} : Adjacent [x, y] a b <-> a = x ∧ b = y := by
  simp

/-- Two markers joined by a link. -/
def markers (start marker : String) : Shape :=
  ⟨[⟨start, none, .start⟩, ⟨marker, none, .insertionMarker⟩], [⟨start, marker, none⟩]⟩

section Markers

variable {start marker : String}

theorem mem_slots_markers {x : Slot} : x ∈ (markers start marker).slots <->
    x = ⟨start, none, .start⟩ ∨ x = ⟨marker, none, .insertionMarker⟩ := by
  simp [markers]

theorem hasScope_markers {s : Scope} : (markers start marker).HasScope s <-> s = .root := by
  simp [HasScope, markers, Role.scopes]

theorem hasBody_markers {p : Option String} :
    (markers start marker).HasBody p <-> p = none := by
  simp [HasBody, markers, Role.isContainer]

theorem laid_markers (hne : start ≠ marker) :
    (markers start marker).Laid fun _ => [start, marker] := by
  constructor
  case toNested =>
    constructor
    case distinct => simpa [markers, ids] using hne
    case parents =>
      intro x hx
      rcases mem_slots_markers.1 hx with rfl | rfl <;> exact Or.inl rfl
    case notSelf => simp [markers]
    case ordered => simp [markers]
    case start =>
      intro p hp
      cases hasBody_markers.1 hp
      simp [markers]
    case marker =>
      intro p hp
      cases hasBody_markers.1 hp
      simp [markers]
  case runs =>
    intro s hs
    cases hasScope_markers.1 hs
    exact isRun_pair hne (mem_slots_markers.2 (Or.inl rfl)) (mem_slots_markers.2 (Or.inr rfl))
  case exact =>
    intro l
    obtain ⟨source, target, tag⟩ := l
    simp only [hasScope_markers, exists_eq_left, adjacent_pair, Scope.tag_root]
    simp only [markers, List.mem_singleton, Link.mk.injEq]
    tauto
  case placed =>
    intro x hx hblock
    rcases mem_slots_markers.1 hx with rfl | rfl <;> cases hblock

end Markers

/-!
# A leaf in a run
-/

/-- The shape with one more leaf, and with other links. -/
def addLeaf (k : Shape) (id : String) (parent : Option String) (links : List Link) : Shape :=
  ⟨k.slots ++ [⟨id, parent, .leaf⟩], links⟩

section AddLeaf

variable {k : Shape} {id : String} {p : Option String} {links : List Link}

theorem mem_slots_addLeaf {x : Slot} :
    x ∈ (k.addLeaf id p links).slots <-> x ∈ k.slots ∨ x = ⟨id, p, .leaf⟩ := by
  simp [addLeaf]

@[simp] theorem hasScope_addLeaf {s : Scope} :
    (k.addLeaf id p links).HasScope s <-> k.HasScope s := by
  simp [HasScope, addLeaf, Role.scopes, or_and_right, exists_or]

@[simp] theorem hasBody_addLeaf {q : Option String} :
    (k.addLeaf id p links).HasBody q <-> k.HasBody q := by
  simp [HasBody, addLeaf, Role.isContainer, or_and_right, exists_or]

theorem Nested.addLeaf (h : k.Nested) (hid : id ∉ k.ids) (hp : k.HasBody p)
    (links : List Link) : (k.addLeaf id p links).Nested where
  distinct := by
    simp only [Shape.addLeaf, ids, List.map_append, List.map_cons, List.map_nil]
    refine List.nodup_append.2 ⟨h.distinct, List.nodup_singleton _, ?_⟩
    rintro x hx y hy rfl
    exact hid (List.mem_singleton.1 hy ▸ hx)
  parents x hx := by
    rw [hasBody_addLeaf]
    rcases mem_slots_addLeaf.1 hx with hx | rfl
    · exact h.parents x hx
    · exact hp
  notSelf x hx := by
    rcases mem_slots_addLeaf.1 hx with hx | rfl
    · exact h.notSelf x hx
    · exact parent_ne_of_not_mem hid hp
  ordered := by
    refine List.pairwise_append.2 ⟨h.ordered, List.pairwise_singleton _ _, ?_⟩
    intro x hx y hy
    rw [List.mem_singleton.1 hy]
    exact parent_ne_of_not_mem hid (h.parents x hx)
  start q hq := by
    simpa [mem_slots_addLeaf] using h.start q (hasBody_addLeaf.1 hq)
  marker q hq := by
    simpa [mem_slots_addLeaf] using h.marker q (hasBody_addLeaf.1 hq)

end AddLeaf

namespace Laid

variable {k : Shape} {run : Scope -> List String}

section InsertLeaf

variable {s : Scope} {u v : List String} {a b id : String} {links : List Link}

theorem mem_insert_run (hrun : run s = u ++ a :: b :: v) {t : Scope} {c : String} :
    c ∈ Function.update run s (u ++ a :: id :: b :: v) t <->
      c ∈ run t ∨ (t = s ∧ c = id) := by
  by_cases hts : t = s
  · subst hts
    simp only [Function.update_self, hrun, List.mem_append, List.mem_cons, true_and]
    tauto
  · simp [hts]

theorem isRun_insertLeaf (h : k.Laid run) (hs : k.HasScope s)
    (hrun : run s = u ++ a :: b :: v) (hid : id ∉ k.ids) :
    (k.addLeaf id s.parent links).IsRun s (u ++ a :: id :: b :: v) := by
  obtain ⟨start, blocks, marker, hends, hstart, hmarker, hblocks⟩ := (h.runs s hs).ends
  obtain ⟨blocks', hends', hblocks'⟩ := ends_splice_in (hrun.symm.trans hends) id
  refine ⟨?_, start, blocks', marker, hends', mem_slots_addLeaf.2 (Or.inl hstart),
    mem_slots_addLeaf.2 (Or.inl hmarker), fun c hc => ?_⟩
  · have hperm : (u ++ a :: id :: b :: v).Perm (id :: (u ++ a :: b :: v)) := by
      have hmiddle : ((u ++ [a]) ++ id :: b :: v).Perm (id :: ((u ++ [a]) ++ b :: v)) :=
        List.perm_middle
      simpa using hmiddle
    rw [hperm.nodup_iff, ← hrun]
    exact List.nodup_cons.2
      ⟨fun hmem => hid (h.mem_ids_of_mem_run hs hmem), (h.runs s hs).nodup⟩
  · rcases hblocks' c hc with hc | rfl
    · obtain ⟨x, hx, hxid, hxparent, hxblock⟩ := hblocks c hc
      exact ⟨x, mem_slots_addLeaf.2 (Or.inl hx), hxid, hxparent, hxblock⟩
    · exact ⟨⟨c, s.parent, .leaf⟩, mem_slots_addLeaf.2 (Or.inr rfl), rfl, rfl, rfl⟩

/-- Splices a leaf in between two neighbours. -/
theorem insertLeaf (h : k.Laid run) (hs : k.HasScope s) (hrun : run s = u ++ a :: b :: v)
    (hid : id ∉ k.ids)
    (hlinks : ∀ l, l ∈ links <->
      (l ∈ k.links ∧ l ≠ ⟨a, b, s.tag⟩) ∨ l = ⟨a, id, s.tag⟩ ∨ l = ⟨id, b, s.tag⟩) :
    (k.addLeaf id s.parent links).Laid
      (Function.update run s (u ++ a :: id :: b :: v)) := by
  have hnodup : (u ++ a :: b :: v).Nodup := hrun ▸ (h.runs s hs).nodup
  refine ⟨h.addLeaf hid hs.hasBody links, fun t ht => ?_, fun l => ?_, fun x hx hblock => ?_⟩
  · rw [hasScope_addLeaf] at ht
    by_cases hts : t = s
    · rw [hts, Function.update_self]
      exact h.isRun_insertLeaf hs hrun hid
    · rw [Function.update_of_ne hts]
      exact (h.runs t ht).mono (List.subset_append_left _ _)
  · simp only [hasScope_addLeaf]
    rw [show l ∈ (k.addLeaf id s.parent links).links <-> _ from hlinks l]
    constructor
    · rintro (⟨hl, hne⟩ | rfl | rfl)
      · obtain ⟨t, ht, htag, hadj⟩ := (h.exact l).1 hl
        refine ⟨t, ht, htag, ?_⟩
        by_cases hts : t = s
        · subst hts
          rw [Function.update_self, adjacent_splice_in hnodup, ← hrun]
          refine Or.inl ⟨hadj, fun hpair => hne ?_⟩
          rw [← hpair.1, ← hpair.2, ← htag]
        · rwa [Function.update_of_ne hts]
      · refine ⟨s, hs, rfl, ?_⟩
        rw [Function.update_self, adjacent_splice_in hnodup]
        exact Or.inr (Or.inl ⟨rfl, rfl⟩)
      · refine ⟨s, hs, rfl, ?_⟩
        rw [Function.update_self, adjacent_splice_in hnodup]
        exact Or.inr (Or.inr ⟨rfl, rfl⟩)
    · obtain ⟨source, target, tag⟩ := l
      rintro ⟨t, ht, rfl, hadj⟩
      by_cases hts : t = s
      · subst hts
        rw [Function.update_self, adjacent_splice_in hnodup, ← hrun] at hadj
        rcases hadj with ⟨hadj, hne⟩ | ⟨rfl, rfl⟩ | ⟨rfl, rfl⟩
        · refine Or.inl ⟨(h.exact _).2 ⟨t, ht, rfl, hadj⟩, fun hl => hne ?_⟩
          exact ⟨congrArg Link.source hl, congrArg Link.target hl⟩
        · exact Or.inr (Or.inl rfl)
        · exact Or.inr (Or.inr rfl)
      · rw [Function.update_of_ne hts] at hadj
        refine Or.inl ⟨(h.exact _).2 ⟨t, ht, rfl, hadj⟩, fun hl => hts ?_⟩
        have hsource : source = a := congrArg Link.source hl
        have has : a ∈ run s := by simp [hrun]
        exact h.scope_eq_of_mem_run ht hs (congrArg Link.tag hl)
          (hsource ▸ hadj.left_mem) has
  · rcases mem_slots_addLeaf.1 hx with hx | rfl
    · obtain ⟨t, ⟨ht, hxt⟩, hunique⟩ := h.placed x hx hblock
      refine ⟨t, ⟨hasScope_addLeaf.2 ht, (mem_insert_run hrun).2 (Or.inl hxt)⟩, ?_⟩
      rintro t' ⟨ht', hxt'⟩
      rcases (mem_insert_run hrun).1 hxt' with hxt' | ⟨-, hxid⟩
      · exact hunique t' ⟨hasScope_addLeaf.1 ht', hxt'⟩
      · exact absurd (List.mem_map.2 ⟨x, hx, hxid⟩) hid
    · refine ⟨s, ⟨hasScope_addLeaf.2 hs, (mem_insert_run hrun).2 (Or.inr ⟨rfl, rfl⟩)⟩, ?_⟩
      rintro t ⟨ht, hxt⟩
      rcases (mem_insert_run hrun).1 hxt with hxt | ⟨hts, -⟩
      · exact absurd (h.mem_ids_of_mem_run (hasScope_addLeaf.1 ht) hxt) hid
      · exact hts

end InsertLeaf
end Laid

/-!
# A body in a leaf
-/

/-- The shape in which a slot has another role and a start and an insertion marker
inside it, and with other links. -/
def furnish (k : Shape) (id : String) (r : Role) (start marker : String)
    (links : List Link) : Shape :=
  ⟨withRole id r k.slots ++ [⟨start, some id, .start⟩, ⟨marker, some id, .insertionMarker⟩],
    links⟩

section Furnish

variable {k : Shape} {id start marker : String} {p : Option String} {r : Role}
  {links : List Link}

theorem mem_slots_furnish (h : k.Nested) (hid : ⟨id, p, .leaf⟩ ∈ k.slots) {x : Slot} :
    x ∈ (k.furnish id r start marker links).slots <->
      (x ∈ k.slots ∧ x.id ≠ id) ∨ x = ⟨id, p, r⟩ ∨ x = ⟨start, some id, .start⟩ ∨
        x = ⟨marker, some id, .insertionMarker⟩ := by
  simp only [furnish, List.mem_append, mem_withRole h hid, List.mem_cons,
    List.not_mem_nil, or_false, or_assoc]

theorem not_hasBody_of_leaf (h : k.Nested) (hid : ⟨id, p, .leaf⟩ ∈ k.slots) :
    ¬ k.HasBody (some id) := by
  rintro (hnone | ⟨x, hx, hxid, hcontainer⟩)
  · cases hnone
  · cases h.slot_unique hx hid (Option.some.inj hxid).symm
    cases hcontainer

theorem hasScope_furnish (h : k.Nested) (hid : ⟨id, p, .leaf⟩ ∈ k.slots) {s : Scope} :
    (k.furnish id r start marker links).HasScope s <-> k.HasScope s ∨ s ∈ r.scopes id := by
  constructor
  · rintro (rfl | ⟨x, hx, hs⟩)
    · exact Or.inl k.hasScope_root
    · rcases (mem_slots_furnish h hid).1 hx with ⟨hx, -⟩ | rfl | rfl | rfl
      · exact Or.inl (Or.inr ⟨x, hx, hs⟩)
      · exact Or.inr hs
      · simp [Role.scopes] at hs
      · simp [Role.scopes] at hs
  · rintro ((rfl | ⟨x, hx, hs⟩) | hs)
    · exact hasScope_root _
    · refine Or.inr ⟨x, (mem_slots_furnish h hid).2 (Or.inl ⟨hx, fun hxid => ?_⟩), hs⟩
      cases h.slot_unique hx hid hxid
      simp [Role.scopes] at hs
    · exact Or.inr ⟨_, (mem_slots_furnish h hid).2 (Or.inr (Or.inl rfl)), hs⟩

theorem hasBody_furnish (h : k.Nested) (hid : ⟨id, p, .leaf⟩ ∈ k.slots)
    (hr : r.isContainer) {q : Option String} :
    (k.furnish id r start marker links).HasBody q <-> k.HasBody q ∨ q = some id := by
  constructor
  · rintro (rfl | ⟨x, hx, hq, hcontainer⟩)
    · exact Or.inl (Or.inl rfl)
    · rcases (mem_slots_furnish h hid).1 hx with ⟨hx, -⟩ | rfl | rfl | rfl
      · exact Or.inl (Or.inr ⟨x, hx, hq, hcontainer⟩)
      · exact Or.inr hq
      · cases hcontainer
      · cases hcontainer
  · rintro ((rfl | ⟨x, hx, hq, hcontainer⟩) | rfl)
    · exact Or.inl rfl
    · refine Or.inr ⟨x, (mem_slots_furnish h hid).2 (Or.inl ⟨hx, fun hxid => ?_⟩), hq,
        hcontainer⟩
      cases h.slot_unique hx hid hxid
      cases hcontainer
    · exact Or.inr ⟨_, (mem_slots_furnish h hid).2 (Or.inr (Or.inl rfl)), rfl, hr⟩

theorem not_parent_of_leaf (h : k.Nested) (hid : ⟨id, p, .leaf⟩ ∈ k.slots) {x : Slot}
    (hx : x ∈ k.slots) : x.parent ≠ some id :=
  fun hparent => not_hasBody_of_leaf h hid (hparent ▸ h.parents x hx)

theorem Nested.furnish (h : k.Nested) (hid : ⟨id, p, .leaf⟩ ∈ k.slots)
    (hr : r.isContainer) (hstart : start ∉ k.ids) (hmarker : marker ∉ k.ids)
    (hne : start ≠ marker) (links : List Link) :
    (k.furnish id r start marker links).Nested := by
  have hidmem : id ∈ k.ids := List.mem_map.2 ⟨_, hid, rfl⟩
  have hparent := h.parents _ hid
  have hnotSelf := h.notSelf _ hid
  constructor
  case distinct =>
    simp only [Shape.furnish, ids, List.map_append, map_id_withRole, List.map_cons,
      List.map_nil]
    refine List.nodup_append.2 ⟨h.distinct, by simp [hne], ?_⟩
    intro x hx y hy hxy
    simp only [List.mem_cons, List.not_mem_nil, or_false] at hy
    rcases hy with rfl | rfl
    · exact hstart (hxy ▸ hx)
    · exact hmarker (hxy ▸ hx)
  case parents =>
    intro x hx
    rw [hasBody_furnish h hid hr]
    rcases (mem_slots_furnish h hid).1 hx with ⟨hx, -⟩ | rfl | rfl | rfl
    · exact Or.inl (h.parents x hx)
    · exact Or.inl hparent
    · exact Or.inr rfl
    · exact Or.inr rfl
  case notSelf =>
    intro x hx
    rcases (mem_slots_furnish h hid).1 hx with ⟨hx, -⟩ | rfl | rfl | rfl
    · exact h.notSelf x hx
    · exact hnotSelf
    · simpa using fun heq : id = start => hstart (heq ▸ hidmem)
    · simpa using fun heq : id = marker => hmarker (heq ▸ hidmem)
  case ordered =>
    refine List.pairwise_append.2 ⟨ordered_withRole h.ordered, ?_, ?_⟩
    · simpa using fun heq : id = marker => hmarker (heq ▸ hidmem)
    · intro x hx y hy
      obtain ⟨z, hz, rfl⟩ := List.mem_map.1 hx
      rw [Slot.withRole_parent]
      simp only [List.mem_cons, List.not_mem_nil, or_false] at hy
      rcases hy with rfl | rfl
      · exact Nested.parent_ne_of_not_mem hstart (h.parents z hz)
      · exact Nested.parent_ne_of_not_mem hmarker (h.parents z hz)
  case start =>
    intro q hq
    have hslot : ∀ a, ⟨a, q, .start⟩ ∈ (k.furnish id r start marker links).slots <->
        ⟨a, q, .start⟩ ∈ k.slots ∨ (a = start ∧ q = some id) := by
      intro a
      simp [Shape.furnish, mem_withRole_of_not_isBlock h hid rfl
        (Role.isBlock_of_isContainer hr) (rfl : Role.start.isBlock = false)]
    rcases (hasBody_furnish h hid hr).1 hq with hq | rfl
    · have hqid : q ≠ some id := fun heq => not_hasBody_of_leaf h hid (heq ▸ hq)
      simpa [hslot, hqid] using h.start q hq
    · exact ⟨start, (hslot _).2 (Or.inr ⟨rfl, rfl⟩), fun a ha =>
        ((hslot a).1 ha).elim (fun ha => absurd rfl (not_parent_of_leaf h hid ha)) And.left⟩
  case marker =>
    intro q hq
    have hslot : ∀ a, ⟨a, q, .insertionMarker⟩ ∈
          (k.furnish id r start marker links).slots <->
        ⟨a, q, .insertionMarker⟩ ∈ k.slots ∨ (a = marker ∧ q = some id) := by
      intro a
      simp [Shape.furnish, mem_withRole_of_not_isBlock h hid rfl
        (Role.isBlock_of_isContainer hr) (rfl : Role.insertionMarker.isBlock = false)]
    rcases (hasBody_furnish h hid hr).1 hq with hq | rfl
    · have hqid : q ≠ some id := fun heq => not_hasBody_of_leaf h hid (heq ▸ hq)
      simpa [hslot, hqid] using h.marker q hq
    · exact ⟨marker, (hslot _).2 (Or.inr ⟨rfl, rfl⟩), fun a ha =>
        ((hslot a).1 ha).elim (fun ha => absurd rfl (not_parent_of_leaf h hid ha)) And.left⟩

/-- Makes a leaf a container with an empty body. -/
theorem Laid.furnish {run : Scope -> List String} (h : k.Laid run)
    (hid : ⟨id, p, .leaf⟩ ∈ k.slots) (hr : r.isContainer) (hstart : start ∉ k.ids)
    (hmarker : marker ∉ k.ids) (hne : start ≠ marker)
    (hlinks : ∀ l, l ∈ links <->
      l ∈ k.links ∨ ∃ s ∈ r.scopes id, l = ⟨start, marker, s.tag⟩) :
    (k.furnish id r start marker links).Laid
      fun s => if s.parent = some id then [start, marker] else run s := by
  have hn := h.toNested
  have hold : ∀ s, k.HasScope s -> s.parent ≠ some id := fun s hs hparent =>
    not_hasBody_of_leaf hn hid (hparent ▸ hs.hasBody)
  have hnew : ∀ s ∈ r.scopes id, s.parent = some id := fun s hs =>
    Role.parent_of_mem_scopes hs
  have hstartslot : ⟨start, some id, .start⟩ ∈ (k.furnish id r start marker links).slots :=
    (mem_slots_furnish hn hid).2 (by simp)
  have hmarkerslot : ⟨marker, some id, .insertionMarker⟩ ∈
      (k.furnish id r start marker links).slots :=
    (mem_slots_furnish hn hid).2 (by simp)
  refine ⟨hn.furnish hid hr hstart hmarker hne links, fun s hs => ?_, fun l => ?_,
    fun x hx hblock => ?_⟩
  · rcases (hasScope_furnish hn hid).1 hs with hs | hs
    · rw [if_neg (hold s hs)]
      refine (h.runs s hs).transfer fun x hx _ _ => ?_
      obtain ⟨y, hy, hyx⟩ :=
        alike_withRole hn hid rfl (Role.isBlock_of_isContainer hr) hx
      exact ⟨y, List.mem_append_left _ hy, hyx⟩
    · rw [if_pos (hnew s hs)]
      exact isRun_pair hne (hnew s hs ▸ hstartslot) (hnew s hs ▸ hmarkerslot)
  · rw [show l ∈ (k.furnish id r start marker links).links <-> _ from hlinks l]
    constructor
    · rintro (hl | ⟨s, hs, rfl⟩)
      · obtain ⟨s, hs, htag, hadj⟩ := (h.exact l).1 hl
        exact ⟨s, (hasScope_furnish hn hid).2 (Or.inl hs), htag, by rwa [if_neg (hold s hs)]⟩
      · refine ⟨s, (hasScope_furnish hn hid).2 (Or.inr hs), rfl, ?_⟩
        rw [if_pos (hnew s hs)]
        exact adjacent_pair.2 ⟨rfl, rfl⟩
    · obtain ⟨source, target, tag⟩ := l
      rintro ⟨s, hs, rfl, hadj⟩
      rcases (hasScope_furnish hn hid).1 hs with hsold | hsnew
      · rw [if_neg (hold s hsold)] at hadj
        exact Or.inl ((h.exact _).2 ⟨s, hsold, rfl, hadj⟩)
      · rw [if_pos (hnew s hsnew)] at hadj
        obtain ⟨rfl, rfl⟩ := adjacent_pair.1 hadj
        exact Or.inr ⟨s, hsnew, rfl⟩
  · have hmem : ∀ y ∈ k.slots, y.role.isBlock -> y.id = x.id ->
        ∃! s, (k.furnish id r start marker links).HasScope s ∧
          x.id ∈ if s.parent = some id then [start, marker] else run s := by
      intro y hy hyblock hyx
      rw [← hyx]
      have hyid : y.id ∈ k.ids := List.mem_map_of_mem hy
      obtain ⟨s, ⟨hs, hys⟩, hunique⟩ := h.placed y hy hyblock
      refine ⟨s, ⟨(hasScope_furnish hn hid).2 (Or.inl hs), by rwa [if_neg (hold s hs)]⟩, ?_⟩
      rintro t ⟨ht, hyt⟩
      rcases (hasScope_furnish hn hid).1 ht with ht | ht
      · rw [if_neg (hold t ht)] at hyt
        exact hunique t ⟨ht, hyt⟩
      · rw [if_pos (hnew t ht)] at hyt
        simp only [List.mem_cons, List.not_mem_nil, or_false] at hyt
        rcases hyt with hyt | hyt
        · exact absurd (hyt ▸ hyid) hstart
        · exact absurd (hyt ▸ hyid) hmarker
    rcases (mem_slots_furnish hn hid).1 hx with ⟨hx, -⟩ | rfl | rfl | rfl
    · exact hmem x hx hblock rfl
    · exact hmem _ hid rfl rfl
    · cases hblock
    · cases hblock

end Furnish

/-!
# A block in a run
-/

/-- The markers in the body of a new block. -/
def bodySlots (id start marker : String) (r : Role) : List Slot :=
  if r.isContainer then [⟨start, some id, .start⟩, ⟨marker, some id, .insertionMarker⟩] else []

section Insert

variable {k : Shape} {run : Scope -> List String} {s : Scope} {u v : List String}
  {a b id start marker : String} {r : Role} {links : List Link}

/-- The runs after a block with an empty body is spliced into one of them. -/
def insertRun (run : Scope -> List String) (s : Scope) (row : List String)
    (id start marker : String) : Scope -> List String :=
  fun t => if t.parent = some id then [start, marker] else Function.update run s row t

/-- Splices a block with an empty body in between two neighbours. -/
theorem Laid.insert (h : k.Laid run) (hs : k.HasScope s) (hrun : run s = u ++ a :: b :: v)
    (hr : r.isBlock) (hid : id ∉ k.ids) (hstart : start ∉ k.ids) (hmarker : marker ∉ k.ids)
    (hne : [id, start, marker].Nodup)
    (hlinks : ∀ l, l ∈ links <->
      ((l ∈ k.links ∧ l ≠ ⟨a, b, s.tag⟩) ∨ l = ⟨a, id, s.tag⟩ ∨ l = ⟨id, b, s.tag⟩) ∨
        ∃ t ∈ r.scopes id, l = ⟨start, marker, t.tag⟩) :
    Laid ⟨k.slots ++ ⟨id, s.parent, r⟩ :: bodySlots id start marker r, links⟩
      (insertRun run s (u ++ a :: id :: b :: v) id start marker) := by
  -- the block comes as a leaf, with those links that are not in its body
  let outer : List Link := k.links.filter (· ≠ ⟨a, b, s.tag⟩) ++
    [⟨a, id, s.tag⟩, ⟨id, b, s.tag⟩]
  have houter : ∀ l, l ∈ outer <->
      (l ∈ k.links ∧ l ≠ ⟨a, b, s.tag⟩) ∨ l = ⟨a, id, s.tag⟩ ∨ l = ⟨id, b, s.tag⟩ := by
    simp [outer]
  have hleaf := h.insertLeaf hs hrun hid houter
  have hparent : ∀ t, k.HasScope t -> t.parent ≠ some id := fun t ht =>
    Nested.parent_ne_of_not_mem hid ht.hasBody
  cases hcontainer : r.isContainer with
  | false =>
      have hrole : r = .leaf := by
        cases r <;> simp_all [Role.isBlock, Role.isContainer]
      subst hrole
      have hlinks' : ∀ l, l ∈ links <-> l ∈ outer := by
        simpa [Role.scopes, houter] using hlinks
      refine (hleaf.congr_links hlinks').congr_run fun t ht => ?_
      have ht : k.HasScope t := hasScope_addLeaf.1 ht
      rw [insertRun, if_neg (hparent t ht)]
  | true =>
      have hslot : (⟨id, s.parent, .leaf⟩ : Slot) ∈ (k.addLeaf id s.parent outer).slots :=
        mem_slots_addLeaf.2 (Or.inr rfl)
      simp only [List.nodup_cons, List.mem_cons, List.not_mem_nil, or_false, not_or] at hne
      have hids : ∀ c, c ∉ k.ids -> c ≠ id -> c ∉ (k.addLeaf id s.parent outer).ids := by
        intro c hc hcid
        simpa [ids, addLeaf, hcid] using hc
      have hall : ∀ l, l ∈ links <-> l ∈ (k.addLeaf id s.parent outer).links ∨
          ∃ t ∈ r.scopes id, l = ⟨start, marker, t.tag⟩ := fun l => by
        rw [hlinks, ← houter]
        rfl
      have hfurnish := hleaf.furnish hslot hcontainer (hids start hstart (Ne.symm hne.1.1))
        (hids marker hmarker (Ne.symm hne.1.2)) hne.2.1 hall
      have hslots : withRole id r (k.addLeaf id s.parent outer).slots =
          k.slots ++ [⟨id, s.parent, r⟩] := by
        rw [show (k.addLeaf id s.parent outer).slots = k.slots ++ [⟨id, s.parent, .leaf⟩]
          from rfl, withRole, List.map_append, ← withRole, withRole_of_not_mem r hid]
        simp [Slot.withRole]
      rw [Shape.furnish, hslots, List.append_assoc] at hfurnish
      rw [bodySlots, if_pos hcontainer]
      exact hfurnish

end Insert
end Shape
end Workflow
