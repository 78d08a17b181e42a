import Mathlib.Logic.Function.Basic
import Workflow.Proofs.Shape.Role

/-!
# Reducing shapes

A laid out shape stays laid out when a block loses all that is nested in it, and when a
leaf is spliced out of a run.  A block is removed by the two steps together.
-/

namespace Workflow
namespace Shape

/-!
# A block without its body
-/

/-- A list of the ids nested in a node at any depth. -/
structure IsNest (k : Shape) (id : String) (nest : List String) : Prop where
  notSelf : id ∉ nest
  closed : ∀ x ∈ k.slots,
    x.id ∈ nest <-> ∃ p, x.parent = some p ∧ (p = id ∨ p ∈ nest)

/-- A container that is neither a node nor nested in it. -/
def Outside (id : String) (nest : List String) (p : Option String) : Prop :=
  ∀ q, p = some q -> q ≠ id ∧ q ∉ nest

/-- The shape in which a block has become a leaf and those nested in it are gone. -/
def strip (k : Shape) (id : String) (nest : List String) (links : List Link) : Shape :=
  ⟨(withRole id .leaf k.slots).filter fun x => x.id ∉ nest, links⟩

section Strip

variable {k : Shape} {id : String} {p : Option String} {old : Role} {nest : List String}
  {links : List Link}

namespace IsNest

theorem outside_parent (hnest : k.IsNest id nest) {x : Slot} (hx : x ∈ k.slots)
    (hxid : x.id ∉ nest) : Outside id nest x.parent := by
  intro q hq
  constructor
  · exact fun heq => hxid ((hnest.closed x hx).2 ⟨q, hq, Or.inl heq⟩)
  · exact fun hmem => hxid ((hnest.closed x hx).2 ⟨q, hq, Or.inr hmem⟩)

theorem not_mem_of_outside (hnest : k.IsNest id nest) {x : Slot} (hx : x ∈ k.slots)
    (hparent : Outside id nest x.parent) : x.id ∉ nest := by
  intro hmem
  obtain ⟨q, hq, heq | hqmem⟩ := (hnest.closed x hx).1 hmem
  · exact (hparent q hq).1 heq
  · exact (hparent q hq).2 hqmem

end IsNest

theorem mem_slots_strip (h : k.Nested) (hid : ⟨id, p, old⟩ ∈ k.slots)
    (hnest : k.IsNest id nest) {x : Slot} :
    x ∈ (k.strip id nest links).slots <->
      (x ∈ k.slots ∧ x.id ≠ id ∧ x.id ∉ nest) ∨ x = ⟨id, p, .leaf⟩ := by
  simp only [strip, List.mem_filter, mem_withRole h hid, decide_eq_true_eq]
  constructor
  · rintro ⟨⟨hx, hxid⟩ | rfl, hxnest⟩
    · exact Or.inl ⟨hx, hxid, hxnest⟩
    · exact Or.inr rfl
  · rintro (⟨hx, hxid, hxnest⟩ | rfl)
    · exact ⟨Or.inl ⟨hx, hxid⟩, hxnest⟩
    · exact ⟨Or.inr rfl, hnest.notSelf⟩

theorem hasScope_strip (h : k.Nested) (hid : ⟨id, p, old⟩ ∈ k.slots)
    (hnest : k.IsNest id nest) {s : Scope} :
    (k.strip id nest links).HasScope s <-> k.HasScope s ∧ Outside id nest s.parent := by
  constructor
  · rintro (rfl | ⟨x, hx, hs⟩)
    · exact ⟨k.hasScope_root, fun q hq => by cases hq⟩
    · rcases (mem_slots_strip h hid hnest).1 hx with ⟨hx, hxid, hxnest⟩ | rfl
      · refine ⟨Or.inr ⟨x, hx, hs⟩, fun q hq => ?_⟩
        cases (Role.parent_of_mem_scopes hs).symm.trans hq
        exact ⟨hxid, hxnest⟩
      · simp [Role.scopes] at hs
  · rintro ⟨rfl | ⟨x, hx, hs⟩, hout⟩
    · exact hasScope_root _
    · obtain ⟨hxid, hxnest⟩ := hout x.id (Role.parent_of_mem_scopes hs)
      exact Or.inr ⟨x, (mem_slots_strip h hid hnest).2 (Or.inl ⟨hx, hxid, hxnest⟩), hs⟩

theorem hasBody_strip (h : k.Nested) (hid : ⟨id, p, old⟩ ∈ k.slots)
    (hnest : k.IsNest id nest) {q : Option String} :
    (k.strip id nest links).HasBody q <-> k.HasBody q ∧ Outside id nest q := by
  constructor
  · rintro (rfl | ⟨x, hx, rfl, hcontainer⟩)
    · exact ⟨Or.inl rfl, fun q hq => by cases hq⟩
    · rcases (mem_slots_strip h hid hnest).1 hx with ⟨hx, hxid, hxnest⟩ | rfl
      · refine ⟨Or.inr ⟨x, hx, rfl, hcontainer⟩, fun q hq => ?_⟩
        cases hq
        exact ⟨hxid, hxnest⟩
      · cases hcontainer
  · rintro ⟨rfl | ⟨x, hx, rfl, hcontainer⟩, hout⟩
    · exact Or.inl rfl
    · obtain ⟨hxid, hxnest⟩ := hout x.id rfl
      exact Or.inr
        ⟨x, (mem_slots_strip h hid hnest).2 (Or.inl ⟨hx, hxid, hxnest⟩), rfl, hcontainer⟩

theorem Nested.strip (h : k.Nested) (hid : ⟨id, p, old⟩ ∈ k.slots) (hold : old.isBlock)
    (hnest : k.IsNest id nest) (links : List Link) : (k.strip id nest links).Nested := by
  have hparent := hnest.outside_parent hid hnest.notSelf
  have hbody := h.parents _ hid
  have hnotSelf := h.notSelf _ hid
  have hmarker : ∀ (a : String) (q : Option String) (r : Role), r.isBlock = false ->
      Outside id nest q ->
        (⟨a, q, r⟩ ∈ (k.strip id nest links).slots <-> ⟨a, q, r⟩ ∈ k.slots) := by
    intro a q r hr hq
    simp only [Shape.strip, List.mem_filter, decide_eq_true_eq,
      mem_withRole_of_not_isBlock h hid hold (rfl : Role.leaf.isBlock) hr,
      and_iff_left_iff_imp]
    exact fun ha => hnest.not_mem_of_outside ha hq
  constructor
  case distinct =>
    have hsub : ((k.strip id nest links).slots.map Slot.id).Sublist
        ((withRole id .leaf k.slots).map Slot.id) := List.filter_sublist.map _
    rw [map_id_withRole] at hsub
    exact h.distinct.sublist hsub
  case parents =>
    intro x hx
    rw [hasBody_strip h hid hnest]
    rcases (mem_slots_strip h hid hnest).1 hx with ⟨hx, -, hxnest⟩ | rfl
    · exact ⟨h.parents x hx, hnest.outside_parent hx hxnest⟩
    · exact ⟨hbody, hparent⟩
  case notSelf =>
    intro x hx
    rcases (mem_slots_strip h hid hnest).1 hx with ⟨hx, -⟩ | rfl
    · exact h.notSelf x hx
    · exact hnotSelf
  case ordered =>
    exact (ordered_withRole h.ordered).sublist List.filter_sublist
  case start =>
    intro q hq
    obtain ⟨hbody, hout⟩ := (hasBody_strip h hid hnest).1 hq
    simpa only [hmarker _ q .start rfl hout] using h.start q hbody
  case marker =>
    intro q hq
    obtain ⟨hbody, hout⟩ := (hasBody_strip h hid hnest).1 hq
    simpa only [hmarker _ q .insertionMarker rfl hout] using h.marker q hbody

/-- Takes everything nested in a block away, which leaves a leaf. -/
theorem Laid.strip {run : Scope -> List String} (h : k.Laid run)
    (hid : ⟨id, p, old⟩ ∈ k.slots) (hold : old.isBlock) (hnest : k.IsNest id nest)
    (hlinks : ∀ l, l ∈ links <-> l ∈ k.links ∧ l.source ∉ nest ∧ l.target ∉ nest) :
    (k.strip id nest links).Laid run := by
  have hn := h.toNested
  have hkept : ∀ s, Outside id nest s.parent -> k.HasScope s -> ∀ c ∈ run s, c ∉ nest := by
    intro s hout hs c hc
    obtain ⟨x, hx, rfl, hparent⟩ := h.slot_of_mem_run hs hc
    exact hnest.not_mem_of_outside hx (hparent ▸ hout)
  have hscope : ∀ s, k.HasScope s -> ∀ c ∈ run s, c ∉ nest ->
      (k.strip id nest links).HasScope s := by
    intro s hs c hc hcnest
    obtain ⟨x, hx, rfl, hparent⟩ := h.slot_of_mem_run hs hc
    exact (hasScope_strip hn hid hnest).2 ⟨hs, hparent ▸ hnest.outside_parent hx hcnest⟩
  refine ⟨hn.strip hid hold hnest links, fun s hs => ?_, fun l => ?_, fun x hx hblock => ?_⟩
  · obtain ⟨hs, hout⟩ := (hasScope_strip hn hid hnest).1 hs
    refine (h.runs s hs).transfer fun x hx hparent _ => ?_
    obtain ⟨y, hy, hyid, hyx⟩ := alike_withRole hn hid hold (rfl : Role.leaf.isBlock) hx
    have hxnest := hnest.not_mem_of_outside hx (hparent ▸ hout)
    exact ⟨y, List.mem_filter.2 ⟨hy, by simpa [hyid] using hxnest⟩, hyid, hyx⟩
  · rw [show l ∈ (k.strip id nest links).links <-> _ from hlinks l]
    constructor
    · rintro ⟨hl, hsource, -⟩
      obtain ⟨s, hs, htag, hadj⟩ := (h.exact l).1 hl
      exact ⟨s, hscope s hs _ hadj.left_mem hsource, htag, hadj⟩
    · rintro ⟨s, hs, htag, hadj⟩
      obtain ⟨hs, hout⟩ := (hasScope_strip hn hid hnest).1 hs
      exact ⟨(h.exact l).2 ⟨s, hs, htag, hadj⟩, hkept s hout hs _ hadj.left_mem,
        hkept s hout hs _ hadj.right_mem⟩
  · have hplaced : ∀ y ∈ k.slots, y.role.isBlock -> y.id ∉ nest ->
        ∃! s, (k.strip id nest links).HasScope s ∧ y.id ∈ run s := by
      intro y hy hyblock hynest
      obtain ⟨s, ⟨hs, hys⟩, hunique⟩ := h.placed y hy hyblock
      refine ⟨s, ⟨hscope s hs _ hys hynest, hys⟩, fun t ht => hunique t ?_⟩
      exact ⟨((hasScope_strip hn hid hnest).1 ht.1).1, ht.2⟩
    have hself := hplaced _ hid hold hnest.notSelf
    rcases (mem_slots_strip hn hid hnest).1 hx with ⟨hx, -, hxnest⟩ | rfl
    · exact hplaced x hx hblock hxnest
    · exact hself

end Strip

/-!
# A run without a leaf
-/

/-- The shape without one of its slots, and with other links. -/
def dropLeaf (k : Shape) (id : String) (links : List Link) : Shape :=
  ⟨k.slots.filter fun x => x.id ≠ id, links⟩

section DropLeaf

variable {k : Shape} {id : String} {p : Option String} {links : List Link}

theorem mem_slots_dropLeaf {x : Slot} :
    x ∈ (k.dropLeaf id links).slots <-> x ∈ k.slots ∧ x.id ≠ id := by
  simp [dropLeaf]

theorem ne_of_mem_of_role (h : k.Nested) (hid : ⟨id, p, .leaf⟩ ∈ k.slots) {x : Slot}
    (hx : x ∈ k.slots) (hrole : x.role ≠ .leaf) : x.id ≠ id := by
  intro hxid
  cases h.slot_unique hx hid hxid
  exact hrole rfl

theorem hasScope_dropLeaf (h : k.Nested) (hid : ⟨id, p, .leaf⟩ ∈ k.slots) {s : Scope} :
    (k.dropLeaf id links).HasScope s <-> k.HasScope s := by
  constructor
  · rintro (rfl | ⟨x, hx, hs⟩)
    · exact k.hasScope_root
    · exact Or.inr ⟨x, (mem_slots_dropLeaf.1 hx).1, hs⟩
  · rintro (rfl | ⟨x, hx, hs⟩)
    · exact hasScope_root _
    · refine Or.inr ⟨x, mem_slots_dropLeaf.2 ⟨hx, ne_of_mem_of_role h hid hx ?_⟩, hs⟩
      intro hrole
      simp [hrole, Role.scopes] at hs

theorem hasBody_dropLeaf (h : k.Nested) (hid : ⟨id, p, .leaf⟩ ∈ k.slots)
    {q : Option String} : (k.dropLeaf id links).HasBody q <-> k.HasBody q := by
  constructor
  · rintro (rfl | ⟨x, hx, hq⟩)
    · exact Or.inl rfl
    · exact Or.inr ⟨x, (mem_slots_dropLeaf.1 hx).1, hq⟩
  · rintro (rfl | ⟨x, hx, hq, hcontainer⟩)
    · exact Or.inl rfl
    · refine Or.inr
        ⟨x, mem_slots_dropLeaf.2 ⟨hx, ne_of_mem_of_role h hid hx ?_⟩, hq, hcontainer⟩
      intro hrole
      simp [hrole, Role.isContainer] at hcontainer

theorem Nested.dropLeaf (h : k.Nested) (hid : ⟨id, p, .leaf⟩ ∈ k.slots)
    (links : List Link) : (k.dropLeaf id links).Nested where
  distinct := h.distinct.sublist (List.filter_sublist.map _)
  parents x hx := (hasBody_dropLeaf h hid).2 (h.parents x (mem_slots_dropLeaf.1 hx).1)
  notSelf x hx := h.notSelf x (mem_slots_dropLeaf.1 hx).1
  ordered := h.ordered.sublist List.filter_sublist
  start q hq := by
    have hslot : ∀ a, ⟨a, q, .start⟩ ∈ (k.dropLeaf id links).slots <->
        ⟨a, q, .start⟩ ∈ k.slots := fun a => by
      rw [mem_slots_dropLeaf, and_iff_left_iff_imp]
      exact fun ha => ne_of_mem_of_role h hid ha (by simp)
    simpa only [hslot] using h.start q ((hasBody_dropLeaf h hid).1 hq)
  marker q hq := by
    have hslot : ∀ a, ⟨a, q, .insertionMarker⟩ ∈ (k.dropLeaf id links).slots <->
        ⟨a, q, .insertionMarker⟩ ∈ k.slots := fun a => by
      rw [mem_slots_dropLeaf, and_iff_left_iff_imp]
      exact fun ha => ne_of_mem_of_role h hid ha (by simp)
    simpa only [hslot] using h.marker q ((hasBody_dropLeaf h hid).1 hq)

variable {run : Scope -> List String} {s : Scope} {u v : List String} {a b : String}

theorem Laid.scope_of_leaf (h : k.Laid run) (hid : ⟨id, p, .leaf⟩ ∈ k.slots)
    (hs : k.HasScope s) (hids : id ∈ run s) {t : Scope} (ht : k.HasScope t)
    (hidt : id ∈ run t) : t = s :=
  (h.placed _ hid rfl).unique ⟨ht, hidt⟩ ⟨hs, hids⟩

theorem mem_drop_run (hnodup : (run s).Nodup) (hrun : run s = u ++ a :: id :: b :: v)
    {c : String} : c ∈ u ++ a :: b :: v <-> c ∈ run s ∧ c ≠ id := by
  have hperm : (run s).Perm (id :: (u ++ a :: b :: v)) := by
    rw [hrun]
    have hmiddle : ((u ++ [a]) ++ id :: b :: v).Perm (id :: ((u ++ [a]) ++ b :: v)) :=
      List.perm_middle
    simpa using hmiddle
  have hid := (List.nodup_cons.1 (hperm.nodup_iff.1 hnodup)).1
  rw [hperm.mem_iff, List.mem_cons]
  constructor
  · exact fun hc => ⟨Or.inr hc, fun heq => hid (heq ▸ hc)⟩
  · rintro ⟨rfl | hc, hne⟩
    · exact absurd rfl hne
    · exact hc

theorem Laid.isRun_dropLeaf (h : k.Laid run) (hs : k.HasScope s)
    (hid : ⟨id, s.parent, .leaf⟩ ∈ k.slots) (hrun : run s = u ++ a :: id :: b :: v) :
    (k.dropLeaf id links).IsRun s (u ++ a :: b :: v) := by
  obtain ⟨start, blocks, marker, hends, hstart, hmarker, hblocks⟩ := (h.runs s hs).ends
  obtain ⟨blocks', hends', hblocks'⟩ := ends_splice_out (hrun.symm.trans hends)
  have hnodup := (h.runs s hs).nodup
  refine ⟨?_, start, blocks', marker, hends', ?_, ?_, fun c hc => ?_⟩
  · rw [hrun] at hnodup
    refine hnodup.sublist (List.Sublist.append_left ?_ u)
    exact (List.sublist_cons_self id (b :: v)).cons_cons a
  · exact mem_slots_dropLeaf.2
      ⟨hstart, ne_of_mem_of_role h.toNested hid hstart (by simp)⟩
  · exact mem_slots_dropLeaf.2
      ⟨hmarker, ne_of_mem_of_role h.toNested hid hmarker (by simp)⟩
  · obtain ⟨x, hx, rfl, hparent, hblock⟩ := hblocks c (hblocks' c hc)
    have hmem : x.id ∈ u ++ a :: b :: v := by simp [hends', hc]
    have hxid := ((mem_drop_run hnodup hrun).1 hmem).2
    exact ⟨x, mem_slots_dropLeaf.2 ⟨hx, hxid⟩, rfl, hparent, hblock⟩

/-- Splices a leaf out of its run. -/
theorem Laid.dropLeaf (h : k.Laid run) (hs : k.HasScope s)
    (hid : ⟨id, s.parent, .leaf⟩ ∈ k.slots) (hrun : run s = u ++ a :: id :: b :: v)
    (hlinks : ∀ l, l ∈ links <->
      (l ∈ k.links ∧ l.source ≠ id ∧ l.target ≠ id) ∨ l = ⟨a, b, s.tag⟩) :
    (k.dropLeaf id links).Laid (Function.update run s (u ++ a :: b :: v)) := by
  have hn := h.toNested
  have hnodup := (h.runs s hs).nodup
  have hids : id ∈ run s := by simp [hrun]
  have hother : ∀ t, k.HasScope t -> t ≠ s -> id ∉ run t := fun t ht hts hmem =>
    hts (h.scope_of_leaf hid hs hids ht hmem)
  have hmem : ∀ t, k.HasScope t -> ∀ c,
      c ∈ Function.update run s (u ++ a :: b :: v) t <-> c ∈ run t ∧ c ≠ id := by
    intro t ht c
    by_cases hts : t = s
    · rw [hts, Function.update_self, mem_drop_run hnodup hrun]
    · rw [Function.update_of_ne hts, iff_self_and]
      exact fun hc heq => hother t ht hts (heq ▸ hc)
  refine ⟨hn.dropLeaf hid links, fun t ht => ?_, fun l => ?_, fun x hx hblock => ?_⟩
  · rw [hasScope_dropLeaf hn hid] at ht
    by_cases hts : t = s
    · rw [hts, Function.update_self]
      exact h.isRun_dropLeaf hs hid hrun
    · rw [Function.update_of_ne hts]
      refine (h.runs t ht).transfer fun x hx _ hxt => ⟨x, mem_slots_dropLeaf.2 ⟨hx, ?_⟩,
        rfl, rfl, .refl _⟩
      exact fun hxid => hother t ht hts (hxid ▸ hxt)
  · simp only [hasScope_dropLeaf hn hid]
    rw [show l ∈ (k.dropLeaf id links).links <-> _ from hlinks l]
    constructor
    · rintro (⟨hl, hsource, htarget⟩ | rfl)
      · obtain ⟨t, ht, htag, hadj⟩ := (h.exact l).1 hl
        refine ⟨t, ht, htag, ?_⟩
        by_cases hts : t = s
        · subst hts
          rw [Function.update_self, adjacent_splice_out (hrun ▸ hnodup), ← hrun]
          exact Or.inl ⟨hadj, hsource, htarget⟩
        · rwa [Function.update_of_ne hts]
      · refine ⟨s, hs, rfl, ?_⟩
        rw [Function.update_self, adjacent_splice_out (hrun ▸ hnodup)]
        exact Or.inr ⟨rfl, rfl⟩
    · obtain ⟨source, target, tag⟩ := l
      rintro ⟨t, ht, rfl, hadj⟩
      by_cases hts : t = s
      · subst hts
        rw [Function.update_self, adjacent_splice_out (hrun ▸ hnodup), ← hrun] at hadj
        rcases hadj with ⟨hadj, hsource, htarget⟩ | ⟨rfl, rfl⟩
        · exact Or.inl ⟨(h.exact _).2 ⟨t, ht, rfl, hadj⟩, hsource, htarget⟩
        · exact Or.inr rfl
      · rw [Function.update_of_ne hts] at hadj
        refine Or.inl ⟨(h.exact _).2 ⟨t, ht, rfl, hadj⟩, fun heq => ?_, fun heq => ?_⟩
        · exact hother t ht hts (heq ▸ hadj.left_mem)
        · exact hother t ht hts (heq ▸ hadj.right_mem)
  · obtain ⟨hx, hxid⟩ := mem_slots_dropLeaf.1 hx
    obtain ⟨t, ⟨ht, hxt⟩, hunique⟩ := h.placed x hx hblock
    refine ⟨t, ⟨(hasScope_dropLeaf hn hid).2 ht, (hmem t ht _).2 ⟨hxt, hxid⟩⟩, ?_⟩
    rintro t' ⟨ht', hxt'⟩
    rw [hasScope_dropLeaf hn hid] at ht'
    exact hunique t' ⟨ht', ((hmem t' ht' _).1 hxt').1⟩

end DropLeaf
end Shape
end Workflow
