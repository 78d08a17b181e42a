import Workflow.Proofs.Shape.Growth

/-!
# Branches of a shape

A laid out shape stays laid out when a conditional declares other branches, as long as
those it gives up hold no block and those that are new begin empty.
-/

namespace Workflow

theorem Scope.eq_ofBranch_of_tag {s : Scope} {c b : String} (h : s.tag = some ⟨c, b⟩) :
    s = .ofBranch c b := by
  obtain ⟨parent, branch⟩ := s
  cases parent with
  | none => simp [tag] at h
  | some p =>
      cases branch with
      | none => simp [tag] at h
      | some b' =>
          simp only [tag, Option.some.injEq, BranchTag.mk.injEq] at h
          rw [h.1, h.2]
          rfl

namespace Shape

theorem Laid.exists_source_of_tag {k : Shape} {run : Scope -> List String} (h : k.Laid run)
    {l : Link} (hl : l ∈ k.links) {t : BranchTag} (ht : l.tag = some t) :
    ∃ x ∈ k.slots, x.id = l.source ∧ x.parent = some t.conditional := by
  obtain ⟨s, hs, htag, hsource, -⟩ := h.slots_of_link hl
  obtain rfl : s = .ofBranch t.conditional t.branch := Scope.eq_ofBranch_of_tag (htag.symm.trans ht)
  exact h.slot_of_mem_run hs hsource

/-- The shape in which a conditional has other branches, and with other links. -/
def declare (k : Shape) (id : String) (branches : List String) (links : List Link) : Shape :=
  ⟨withRole id (.conditional branches) k.slots, links⟩

section Declare

variable {k : Shape} {id : String} {p : Option String} {old new : List String}
  {links : List Link}

theorem hasScope_declare (h : k.Nested) (hid : ⟨id, p, .conditional old⟩ ∈ k.slots)
    {s : Scope} : (k.declare id new links).HasScope s <->
      (k.HasScope s ∧ s.parent ≠ some id) ∨ ∃ b ∈ new, s = .ofBranch id b := by
  constructor
  · rintro (rfl | ⟨x, hx, hs⟩)
    · exact Or.inl ⟨k.hasScope_root, by simp⟩
    · rcases (mem_withRole h hid).1 hx with ⟨hx, hxid⟩ | rfl
      · refine Or.inl ⟨Or.inr ⟨x, hx, hs⟩, ?_⟩
        rw [Role.parent_of_mem_scopes hs]
        exact fun heq => hxid (Option.some.inj heq)
      · obtain ⟨b, hb, rfl⟩ := List.mem_map.1 hs
        exact Or.inr ⟨b, hb, rfl⟩
  · rintro (⟨rfl | ⟨x, hx, hs⟩, hparent⟩ | ⟨b, hb, rfl⟩)
    · exact hasScope_root _
    · rw [Role.parent_of_mem_scopes hs] at hparent
      exact Or.inr ⟨x, (mem_withRole h hid).2 (Or.inl ⟨hx, fun heq => hparent (heq ▸ rfl)⟩), hs⟩
    · exact Or.inr ⟨_, (mem_withRole h hid).2 (Or.inr rfl), List.mem_map_of_mem hb⟩

theorem hasScope_ofBranch (h : k.Nested) (hid : ⟨id, p, .conditional old⟩ ∈ k.slots)
    {s : Scope} (hparent : s.parent = some id) :
    k.HasScope s <-> ∃ b ∈ old, s = .ofBranch id b := by
  constructor
  · rintro (rfl | ⟨x, hx, hs⟩)
    · cases hparent
    · have hxid := Option.some.inj ((Role.parent_of_mem_scopes hs).symm.trans hparent)
      cases h.slot_unique hx hid hxid
      obtain ⟨b, hb, rfl⟩ := List.mem_map.1 hs
      exact ⟨b, hb, rfl⟩
  · rintro ⟨b, hb, rfl⟩
    exact Or.inr ⟨_, hid, List.mem_map_of_mem hb⟩

/-- A scope after the change is an old one that is not given up, or a new branch. -/
theorem hasScope_declare_iff (h : k.Nested) (hid : ⟨id, p, .conditional old⟩ ∈ k.slots)
    {s : Scope} : (k.declare id new links).HasScope s <->
      (k.HasScope s ∧ ∀ b ∈ old, b ∉ new -> s ≠ .ofBranch id b) ∨
        ∃ b ∈ new, b ∉ old ∧ s = .ofBranch id b := by
  rw [hasScope_declare h hid]
  by_cases hparent : s.parent = some id
  · rw [hasScope_ofBranch h hid hparent]
    constructor
    · rintro (⟨-, hne⟩ | ⟨b, hb, rfl⟩)
      · exact absurd hparent hne
      · by_cases hbold : b ∈ old
        · refine Or.inl ⟨⟨b, hbold, rfl⟩, fun c _ hcnew heq => hcnew ?_⟩
          cases heq
          exact hb
        · exact Or.inr ⟨b, hb, hbold, rfl⟩
    · rintro (⟨⟨b, hb, rfl⟩, hkept⟩ | ⟨b, hb, -, rfl⟩)
      · exact Or.inr ⟨b, by_contra fun hbnew => hkept b hb hbnew rfl, rfl⟩
      · exact Or.inr ⟨b, hb, rfl⟩
  · have hne : ∀ b, s ≠ .ofBranch id b := fun b heq => hparent (heq ▸ rfl)
    simp [hparent, hne]

theorem hasBody_declare (h : k.Nested) (hid : ⟨id, p, .conditional old⟩ ∈ k.slots)
    {q : Option String} : (k.declare id new links).HasBody q <-> k.HasBody q := by
  constructor
  · rintro (rfl | ⟨x, hx, hq, hcontainer⟩)
    · exact Or.inl rfl
    · rcases (mem_withRole h hid).1 hx with ⟨hx, -⟩ | rfl
      · exact Or.inr ⟨x, hx, hq, hcontainer⟩
      · exact Or.inr ⟨_, hid, hq, rfl⟩
  · rintro (rfl | ⟨x, hx, hq, hcontainer⟩)
    · exact Or.inl rfl
    · by_cases hxid : x.id = id
      · exact Or.inr ⟨_, (mem_withRole h hid).2 (Or.inr rfl), hxid ▸ hq, rfl⟩
      · exact Or.inr ⟨x, (mem_withRole h hid).2 (Or.inl ⟨hx, hxid⟩), hq, hcontainer⟩

theorem Nested.declare (h : k.Nested) (hid : ⟨id, p, .conditional old⟩ ∈ k.slots)
    (new : List String) (links : List Link) : (k.declare id new links).Nested := by
  have hbody := h.parents _ hid
  have hnotSelf := h.notSelf _ hid
  have hmarker : ∀ (a : String) (q : Option String) (r : Role), r.isBlock = false ->
      (⟨a, q, r⟩ ∈ (k.declare id new links).slots <-> ⟨a, q, r⟩ ∈ k.slots) :=
    fun a q r hr => mem_withRole_of_not_isBlock h hid rfl rfl hr
  constructor
  case distinct =>
    unfold ids
    rw [show (k.declare id new links).slots = withRole id (.conditional new) k.slots from rfl,
      map_id_withRole]
    exact h.distinct
  case parents =>
    intro x hx
    rw [hasBody_declare h hid]
    rcases (mem_withRole h hid).1 hx with ⟨hx, -⟩ | rfl
    · exact h.parents x hx
    · exact hbody
  case notSelf =>
    intro x hx
    rcases (mem_withRole h hid).1 hx with ⟨hx, -⟩ | rfl
    · exact h.notSelf x hx
    · exact hnotSelf
  case ordered => exact ordered_withRole h.ordered
  case start =>
    intro q hq
    simpa only [hmarker _ q .start rfl] using h.start q ((hasBody_declare h hid).1 hq)
  case marker =>
    intro q hq
    simpa only [hmarker _ q .insertionMarker rfl] using
      h.marker q ((hasBody_declare h hid).1 hq)

variable {run run' : Scope -> List String} {start marker : String}

/-- Declares other branches.  Those given up have nothing between their markers, nor do
those that are new. -/
theorem Laid.declare (h : k.Laid run) (hid : ⟨id, p, .conditional old⟩ ∈ k.slots)
    (hstart : ⟨start, some id, .start⟩ ∈ k.slots)
    (hmarker : ⟨marker, some id, .insertionMarker⟩ ∈ k.slots)
    (hsame : ∀ s, k.HasScope s -> run' s = run s)
    (hgone : ∀ b ∈ old, b ∉ new -> run (.ofBranch id b) = [start, marker])
    (hnew : ∀ b ∈ new, b ∉ old -> run' (.ofBranch id b) = [start, marker])
    (hlinks : ∀ l, l ∈ links <->
      (l ∈ k.links ∧ ∀ b ∈ old, b ∉ new -> l.tag ≠ some ⟨id, b⟩) ∨
        ∃ b ∈ new, b ∉ old ∧ l = ⟨start, marker, some ⟨id, b⟩⟩) :
    (k.declare id new links).Laid run' := by
  have hn := h.toNested
  have hne : start ≠ marker := by
    rintro rfl
    cases h.slot_unique hstart hmarker rfl
  have hscope : ∀ s, (k.declare id new links).HasScope s <-> _ := fun s =>
    hasScope_declare_iff hn hid
  have hpair : ∀ x ∈ k.slots, x.role.isBlock -> x.id ∉ [start, marker] := by
    intro x hx hblock hmem
    simp only [List.mem_cons, List.not_mem_nil, or_false] at hmem
    rcases hmem with hmem | hmem
    · exact hn.ne_marker hx hblock hstart rfl hmem
    · exact hn.ne_marker hx hblock hmarker rfl hmem
  refine ⟨hn.declare hid new links, fun s hs => ?_, fun l => ?_, fun x hx hblock => ?_⟩
  · rcases (hscope s).1 hs with ⟨hs, -⟩ | ⟨b, hb, hbold, rfl⟩
    · rw [hsame s hs]
      exact (h.runs s hs).transfer fun x hx _ _ => alike_withRole hn hid rfl rfl hx
    · rw [hnew b hb hbold]
      exact isRun_pair hne
        ((mem_withRole_of_not_isBlock hn hid rfl rfl rfl).2 hstart)
        ((mem_withRole_of_not_isBlock hn hid rfl rfl rfl).2 hmarker)
  · rw [show l ∈ (k.declare id new links).links <-> _ from hlinks l]
    constructor
    · rintro (⟨hl, hkept⟩ | ⟨b, hb, hbold, rfl⟩)
      · obtain ⟨s, hs, htag, hadj⟩ := (h.exact l).1 hl
        refine ⟨s, (hscope s).2 (Or.inl ⟨hs, fun b hb hbnew heq => ?_⟩), htag, ?_⟩
        · exact hkept b hb hbnew (htag.trans (heq ▸ rfl))
        · rwa [hsame s hs]
      · refine ⟨.ofBranch id b, (hscope _).2 (Or.inr ⟨b, hb, hbold, rfl⟩), rfl, ?_⟩
        rw [hnew b hb hbold]
        exact adjacent_pair.2 ⟨rfl, rfl⟩
    · rintro ⟨s, hs, htag, hadj⟩
      rcases (hscope s).1 hs with ⟨hs, hkept⟩ | ⟨b, hb, hbold, rfl⟩
      · rw [hsame s hs] at hadj
        refine Or.inl ⟨(h.exact l).2 ⟨s, hs, htag, hadj⟩, fun b hb hbnew htag' => ?_⟩
        exact hkept b hb hbnew (Scope.eq_ofBranch_of_tag (htag ▸ htag'))
      · rw [hnew b hb hbold] at hadj
        obtain ⟨source, target, tag⟩ := l
        obtain ⟨rfl, rfl⟩ := adjacent_pair.1 hadj
        cases htag
        exact Or.inr ⟨b, hb, hbold, rfl⟩
  · have hplaced : ∀ y ∈ k.slots, y.role.isBlock ->
        ∃! s, (k.declare id new links).HasScope s ∧ y.id ∈ run' s := by
      intro y hy hyblock
      obtain ⟨s, ⟨hs, hys⟩, hunique⟩ := h.placed y hy hyblock
      refine ⟨s, ⟨(hscope s).2 (Or.inl ⟨hs, fun b hb hbnew heq => ?_⟩), ?_⟩, ?_⟩
      · rw [heq, hgone b hb hbnew] at hys
        exact hpair y hy hyblock hys
      · rwa [hsame s hs]
      · rintro t ⟨ht, hyt⟩
        rcases (hscope t).1 ht with ⟨ht, -⟩ | ⟨b, hb, hbold, rfl⟩
        · rw [hsame t ht] at hyt
          exact hunique t ⟨ht, hyt⟩
        · rw [hnew b hb hbold] at hyt
          exact absurd hyt (hpair y hy hyblock)
    have hself := hplaced _ hid rfl
    rcases (mem_withRole hn hid).1 hx with ⟨hx, -⟩ | rfl
    · exact hplaced x hx hblock
    · exact hself

end Declare
end Shape
end Workflow
