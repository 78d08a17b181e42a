import Workflow.Proofs.Shape.Basic

/-!
# Changing the role of a node

Edits that replace a block in place, or that change the branches of a conditional, give
one slot another role and leave all others alone.
-/

namespace Workflow

namespace Role

/-- Roles that can stand at the same places of a run. -/
def Alike (r r' : Role) : Prop :=
  r = r' ∨ (r.isBlock ∧ r'.isBlock)

theorem Alike.refl (r : Role) : r.Alike r :=
  Or.inl rfl

theorem Alike.eq_of_not_isBlock {r r' : Role} (h : r.Alike r') (hr : r.isBlock = false) :
    r' = r := by
  rcases h with h | h
  · exact h.symm
  · rw [hr] at h
    exact absurd h.1 Bool.false_ne_true

end Role

namespace Slot

def withRole (id : String) (r : Role) (x : Slot) : Slot :=
  if x.id = id then { x with role := r } else x

@[simp] theorem withRole_id (id : String) (r : Role) (x : Slot) :
    (x.withRole id r).id = x.id := by
  unfold withRole
  split <;> rfl

@[simp] theorem withRole_parent (id : String) (r : Role) (x : Slot) :
    (x.withRole id r).parent = x.parent := by
  unfold withRole
  split <;> rfl

end Slot

namespace Shape

/-- A run needs no more of the slots than that those on it keep their places. -/
theorem IsRun.transfer {k k' : Shape} {s : Scope} {run : List String} (h : k.IsRun s run)
    (hslots : ∀ x ∈ k.slots, x.parent = s.parent -> x.id ∈ run ->
      ∃ y ∈ k'.slots, y.id = x.id ∧ y.parent = x.parent ∧ x.role.Alike y.role) :
    k'.IsRun s run := by
  obtain ⟨start, blocks, marker, hrun, hstart, hmarker, hblocks⟩ := h.ends
  refine ⟨h.nodup, start, blocks, marker, hrun, ?_, ?_, fun id hid => ?_⟩
  · obtain ⟨⟨id, parent, role⟩, hy, rfl, hparent, halike⟩ :=
      hslots _ hstart rfl (by simp [hrun])
    cases halike.eq_of_not_isBlock rfl
    cases hparent
    exact hy
  · obtain ⟨⟨id, parent, role⟩, hy, rfl, hparent, halike⟩ :=
      hslots _ hmarker rfl (by simp [hrun])
    cases halike.eq_of_not_isBlock rfl
    cases hparent
    exact hy
  · obtain ⟨x, hx, rfl, hparent, hblock⟩ := hblocks id hid
    obtain ⟨y, hy, hyid, hyparent, halike⟩ := hslots x hx hparent (by simp [hrun, hid])
    refine ⟨y, hy, hyid, hyparent.trans hparent, ?_⟩
    rcases halike with halike | halike
    · exact halike ▸ hblock
    · exact halike.2

theorem IsRun.mono {k k' : Shape} {s : Scope} {run : List String} (h : k.IsRun s run)
    (hslots : k.slots ⊆ k'.slots) : k'.IsRun s run :=
  h.transfer fun x hx _ _ => ⟨x, hslots hx, rfl, rfl, .refl _⟩

/-!
# The slots after a change of role
-/

def withRole (id : String) (r : Role) (slots : List Slot) : List Slot :=
  slots.map (Slot.withRole id r)

theorem map_id_withRole (id : String) (r : Role) (slots : List Slot) :
    (withRole id r slots).map Slot.id = slots.map Slot.id := by
  simp [withRole, Function.comp_def]

theorem withRole_of_not_mem {id : String} {slots : List Slot} (r : Role)
    (h : id ∉ slots.map Slot.id) : withRole id r slots = slots := by
  refine (List.map_congr_left fun x hx => ?_).trans (List.map_id slots)
  have hxid : x.id ≠ id := fun heq => h (heq ▸ List.mem_map_of_mem hx)
  simp [Slot.withRole, hxid]

theorem withRole_withRole (id : String) (r r' : Role) (slots : List Slot) :
    withRole id r (withRole id r' slots) = withRole id r slots := by
  simp only [withRole, List.map_map]
  refine List.map_congr_left fun x _ => ?_
  by_cases hxid : x.id = id <;> simp [Slot.withRole, hxid]

theorem filter_withRole (id : String) (r : Role) (slots : List Slot) (p : String -> Bool) :
    (withRole id r slots).filter (fun x => p x.id) =
      withRole id r (slots.filter fun x => p x.id) := by
  simp only [withRole, List.filter_map, Function.comp_def, Slot.withRole_id]

theorem ordered_withRole {id : String} {r : Role} {slots : List Slot}
    (h : slots.Pairwise fun x y => x.parent ≠ some y.id) :
    (withRole id r slots).Pairwise fun x y => x.parent ≠ some y.id := by
  simpa [withRole, List.pairwise_map] using h

section WithRole

variable {k : Shape} {id : String} {p : Option String} {old : Role}

theorem mem_withRole (h : k.Nested) (hid : ⟨id, p, old⟩ ∈ k.slots) {r : Role} {x : Slot} :
    x ∈ withRole id r k.slots <-> (x ∈ k.slots ∧ x.id ≠ id) ∨ x = ⟨id, p, r⟩ := by
  constructor
  · intro hx
    obtain ⟨y, hy, rfl⟩ := List.mem_map.1 hx
    by_cases hyid : y.id = id
    · cases h.slot_unique hy hid hyid
      exact Or.inr (by simp [Slot.withRole])
    · exact Or.inl (by simp [Slot.withRole, hyid, hy])
  · rintro (⟨hx, hxid⟩ | rfl)
    · exact List.mem_map.2 ⟨x, hx, by simp [Slot.withRole, hxid]⟩
    · exact List.mem_map.2 ⟨_, hid, by simp [Slot.withRole]⟩

/-- Changing one block into another moves no marker. -/
theorem mem_withRole_of_not_isBlock (h : k.Nested) (hid : ⟨id, p, old⟩ ∈ k.slots)
    (hold : old.isBlock) {r : Role} (hr : r.isBlock) {a : String} {q : Option String}
    {role : Role} (hrole : role.isBlock = false) :
    ⟨a, q, role⟩ ∈ withRole id r k.slots <-> ⟨a, q, role⟩ ∈ k.slots := by
  rw [mem_withRole h hid]
  constructor
  · rintro (⟨ha, -⟩ | heq)
    · exact ha
    · cases heq
      exact absurd (hr.symm.trans hrole) (by simp)
  · refine fun ha => Or.inl ⟨ha, fun haid => ?_⟩
    cases h.slot_unique ha hid haid
    exact absurd (hold.symm.trans hrole) (by simp)

theorem alike_withRole (h : k.Nested) (hid : ⟨id, p, old⟩ ∈ k.slots) (hold : old.isBlock)
    {r : Role} (hr : r.isBlock) {x : Slot} (hx : x ∈ k.slots) :
    ∃ y ∈ withRole id r k.slots, y.id = x.id ∧ y.parent = x.parent ∧ x.role.Alike y.role := by
  by_cases hxid : x.id = id
  · cases h.slot_unique hx hid hxid
    exact ⟨_, (mem_withRole h hid).2 (Or.inr rfl), rfl, rfl, Or.inr ⟨hold, hr⟩⟩
  · exact ⟨x, (mem_withRole h hid).2 (Or.inl ⟨hx, hxid⟩), rfl, rfl, .refl _⟩

end WithRole
end Shape
end Workflow
