import Workflow.Graph.Reference

/-!
# What the reference table lists

The table is filled one reference after another.  Its entry for a label depends only on the
references to that label, and holds exactly the places of these.
-/

namespace Workflow

/-!
# Places in order
-/

namespace Place

theorem mem_insert {p q : Place} {places : List Place} :
    q ∈ p.insert places <-> q = p ∨ q ∈ places := by
  induction places with
  | nil => simp [insert]
  | cons x rest ih =>
      rw [insert]
      split
      · exact List.mem_cons
      · split
        · next hsame =>
            have hx : p = x := eq_of_beq hsame
            simp [hx]
        · simp only [List.mem_cons, ih]
          exact or_left_comm

/-- An entry of the table with one more place. -/
def collect (found : Option (List Place)) (p : Place) : Option (List Place) :=
  some (p.insert (found.getD []))

theorem mem_foldl_collect {q : Place} (places : List Place) : ∀ found : Option (List Place),
    q ∈ (places.foldl collect found).getD [] <-> q ∈ places ∨ q ∈ found.getD [] := by
  induction places with
  | nil => exact fun found => by simp
  | cons p rest ih =>
      intro found
      have hp : q ∈ (collect found p).getD [] <-> q = p ∨ q ∈ found.getD [] := mem_insert
      rw [List.foldl_cons, ih, hp, List.mem_cons]
      exact or_left_comm.trans or_assoc.symm

theorem foldl_collect_ne_none (places : List Place) : ∀ found : List Place,
    places.foldl collect (some found) ≠ none := by
  induction places with
  | nil => exact fun found => Option.some_ne_none found
  | cons p rest ih => exact fun found => ih _

end Place

/-!
# One entry of the table
-/

namespace Graph

/-- The references of all blocks, each with its place. -/
def listed (g : Graph) : List (Place × Reference) :=
  g.nodes.flatMap Node.references

/-- The places that depend on a label, in the order of the nodes. -/
def dependents (g : Graph) (label : String) : List Place :=
  (g.listed.filter fun x => x.2.label? = some label).map Prod.fst

theorem get?_foldl_insert (label : String) (listed : List (Place × Reference)) :
    ∀ table : Table (List Place),
      (listed.foldl (fun table (place, r) =>
        match r.label? with
        | none => table
        | some label => table.insert label (place.insert ((table.get? label).getD [])))
        table).get? label =
      ((listed.filter fun x => x.2.label? = some label).map Prod.fst).foldl Place.collect
        (table.get? label) := by
  induction listed with
  | nil => exact fun table => rfl
  | cons x rest ih =>
      intro table
      rcases x with ⟨place, r⟩
      rw [List.foldl_cons, ih]
      cases hl : r.label? with
      | none => simp [hl]
      | some l =>
          by_cases hlabel : l = label
          · subst hlabel
            simp [hl, Place.collect]
          · have hother : label ≠ l := fun h => hlabel h.symm
            simp [hl, hlabel, hother]

theorem get?_referenceTable (g : Graph) (label : String) :
    g.referenceTable.get? label = (g.dependents label).foldl Place.collect none :=
  get?_foldl_insert label g.listed .empty

theorem mem_get?_referenceTable {g : Graph} {label : String} {place : Place} :
    place ∈ (g.referenceTable.get? label).getD [] <-> place ∈ g.dependents label := by
  rw [get?_referenceTable, Place.mem_foldl_collect]
  simp

theorem get?_referenceTable_eq_none {g : Graph} {label : String} :
    g.referenceTable.get? label = none <-> ∀ x ∈ g.listed, x.2.label? ≠ some label := by
  rw [get?_referenceTable]
  have hempty : g.dependents label = [] <-> ∀ x ∈ g.listed, x.2.label? ≠ some label := by
    simp [dependents]
  rw [← hempty]
  constructor
  · intro h
    cases hplaces : g.dependents label with
    | nil => rfl
    | cons p rest =>
        rw [hplaces] at h
        exact absurd h (Place.foldl_collect_ne_none rest _)
  · intro h
    rw [h]
    rfl

end Graph
end Workflow
