import Workflow.Proofs.Layout.Bare
import Workflow.Session

/-!
# Sessions are up to date

Whatever a session is told to do, its layout is the one of its graph with the sizes measured so
far, and no size is kept for a node that is gone.  Each command that changes the graph is one
revision and one pass, each size that is measured anew is one pass, and everything else is none.
-/

namespace Workflow
namespace Session

variable {α : Type} [Length α]

/-!
# Calls
-/

/-- What a session can be told: to apply a command, or the size of a node. -/
inductive Call (α : Type) where
  | apply (c : Command)
  | updateSize (id : String) (size : Size α)

section Runs

variable [BEq α]

def step (s : Session α) : Call α -> Session α
  | .apply c => (s.apply c).2
  | .updateSize id size => s.updateSize id size

def run (s : Session α) (calls : List (Call α)) : Session α :=
  calls.foldl step s

/-- Whether a call is a command that changes the graph. -/
def edits (s : Session α) : Call α -> Bool
  | .apply c => (s.apply c).2.graph != s.graph
  | .updateSize _ _ => false

/-- Whether a call tells a size, for a node of the graph, that is new or not the known one. -/
def measures (s : Session α) : Call α -> Bool
  | .apply _ => false
  | .updateSize id size =>
      s.graph.contains id &&
        match s.sizes.get? id with
        | none => true
        | some known => known != size

/-- The number of calls of a run that have a property at the time they are made. -/
def count (p : Session α -> Call α -> Bool) : Session α -> List (Call α) -> Nat
  | _, [] => 0
  | s, c :: rest => (p s c).toNat + count p (s.step c) rest

end Runs

/-!
# What a call does
-/

variable {s : Session α} {c : Command}

/-- The session with the draft after a command and all else as before. -/
def edited (s : Session α) (c : Command) : Session α :=
  { s with draft := (s.draft.apply Label.defaultStem c).draft }

theorem apply_eq (s : Session α) (c : Command) : (s.apply c).2 =
    if (s.edited c).graph != s.graph then
      { s.edited c with
        sizes := s.sizes.filter (s.edited c).graph.contains
        revision := s.revision + 1 }.relayout
    else s.edited c := by
  unfold apply
  dsimp only
  split
  · next hstale => exact (if_pos hstale).symm
  · next hstale => exact (if_neg hstale).symm

theorem graph_apply (s : Session α) (c : Command) : (s.apply c).2.graph = (s.edited c).graph := by
  rw [apply_eq]
  split <;> rfl

theorem apply_of_beq (h : (s.apply c).2.graph == s.graph) : (s.apply c).2 = s.edited c := by
  rw [graph_apply] at h
  rw [apply_eq, bne, h]
  rfl

/-- A session whose layout is that of its graph and whose sizes are those of nodes it has. -/
structure UpToDate (s : Session α) : Prop where
  layout : s.layout = .ofGraph s.settings s.graph s.sizes
  measured : ∀ id, s.sizes.get? id ≠ none -> s.graph.contains id

theorem upToDate_ofDraft (settings : LayoutSettings α) (front : FrontMatter) (draft : Draft) :
    (ofDraft settings front draft).UpToDate where
  layout := rfl
  measured := fun _ h => absurd rfl h

theorem exists_draft_of_ofDefinition? {settings : LayoutSettings α} {d : Definition}
    {supply : Supply} (h : ofDefinition? settings d supply = .ok s) :
    ∃ draft, s = ofDraft settings d.frontMatter draft := by
  rw [ofDefinition?] at h
  cases hdraft : d.toDraft? supply with
  | error e =>
      rw [hdraft] at h
      cases h
  | ok draft =>
      rw [hdraft] at h
      cases h
      exact ⟨draft, rfl⟩

theorem UpToDate.apply (h : s.UpToDate) (c : Command) : (s.apply c).2.UpToDate := by
  rw [apply_eq]
  split
  · refine ⟨rfl, fun id hid => ?_⟩
    change (s.sizes.filter (s.edited c).graph.contains).get? id ≠ none at hid
    rw [Table.get?_filter] at hid
    by_contra hgone
    exact hid (if_neg hgone)
  · next hsame =>
      -- The graphs may differ in what layouts do not look at.
      have hbeq : (s.edited c).graph == s.graph := by simpa [bne] using hsame
      have hbare := Graph.bare_eq_of_beq hbeq
      refine ⟨?_, fun id hid => ?_⟩
      · change s.layout = .ofGraph s.settings (s.edited c).graph s.sizes
        rw [h.layout, ← Layout.ofGraph_bare, ← hbare, Layout.ofGraph_bare]
      · rw [← Graph.contains_bare, hbare, Graph.contains_bare]
        exact h.measured id hid

section Runs

variable [BEq α] {calls : List (Call α)}

theorem updateSize_eq (s : Session α) (id : String) (size : Size α) : s.updateSize id size =
    if s.measures (.updateSize id size) then
      { s with sizes := s.sizes.insert id size }.relayout
    else s := by
  have hmeasures : s.measures (.updateSize id size) =
      !(!s.graph.contains id || (s.sizes.get? id).any fun known => known == size) := by
    rw [measures, Bool.not_or, Bool.not_not]
    cases s.sizes.get? id <;> rfl
  rw [updateSize, hmeasures]
  cases !s.graph.contains id || (s.sizes.get? id).any fun known => known == size <;> rfl

theorem UpToDate.updateSize (h : s.UpToDate) (id : String) (size : Size α) :
    (s.updateSize id size).UpToDate := by
  rw [updateSize_eq]
  split
  · next hmeasures =>
      refine ⟨rfl, fun id' hid' => ?_⟩
      change (s.sizes.insert id size).get? id' ≠ none at hid'
      rw [Table.get?_insert] at hid'
      split at hid'
      · next heq =>
          rw [measures, Bool.and_eq_true] at hmeasures
          rw [heq]
          exact hmeasures.1
      · exact h.measured id' hid'
  · exact h

theorem UpToDate.step (h : s.UpToDate) (c : Call α) : (s.step c).UpToDate := by
  cases c with
  | apply c => exact h.apply c
  | updateSize id size => exact h.updateSize id size

/-- A call that edits is one revision and one pass, one that measures is one pass. -/
theorem counters_step (s : Session α) (c : Call α) :
    (s.step c).settings = s.settings ∧
      (s.step c).revision = s.revision + (s.edits c).toNat ∧
      (s.step c).passes = s.passes + (s.edits c).toNat + (s.measures c).toNat := by
  cases c with
  | apply c =>
      rw [step, edits, graph_apply, apply_eq]
      split
      · next hstale =>
          rw [hstale]
          exact ⟨rfl, rfl, rfl⟩
      · next hsame =>
          rw [Bool.not_eq_true] at hsame
          rw [hsame]
          exact ⟨rfl, rfl, rfl⟩
  | updateSize id size =>
      rw [step, updateSize_eq]
      split
      · next hmeasures => simp [hmeasures, edits, relayout]
      · next hmeasures => simp [hmeasures, edits]

theorem UpToDate.run (calls : List (Call α)) : ∀ {s : Session α}, s.UpToDate ->
    (s.run calls).UpToDate := by
  induction calls with
  | nil => exact fun h => h
  | cons c rest ih => exact fun h => ih (h.step c)

theorem counters_run (calls : List (Call α)) : ∀ s : Session α,
    (s.run calls).settings = s.settings ∧
      (s.run calls).revision = s.revision + s.count edits calls ∧
      (s.run calls).passes = s.passes + s.count edits calls + s.count measures calls := by
  induction calls with
  | nil => exact fun _ => ⟨rfl, rfl, rfl⟩
  | cons c rest ih =>
      intro s
      obtain ⟨hsettings, hrevision, hpasses⟩ := ih (s.step c)
      obtain ⟨hsettings', hrevision', hpasses'⟩ := s.counters_step c
      change ((s.step c).run rest).settings = _ ∧ ((s.step c).run rest).revision = _ ∧
        ((s.step c).run rest).passes = _
      rw [count, count]
      refine ⟨hsettings.trans hsettings', ?_, ?_⟩ <;> omega

/-- Whatever an opened session is told, its layout is up to date, and its counters tell how often
its graph was changed and a size was measured anew. -/
theorem upToDate_and_counters_run {settings : LayoutSettings α} {start : Session α}
    (hstart : (∃ title supply, start = .new settings title supply) ∨
      ∃ d supply, ofDefinition? settings d supply = .ok start) (calls : List (Call α)) :
    let s := start.run calls
    s.layout = .ofGraph settings s.graph s.sizes ∧
      (∀ id, s.sizes.get? id ≠ none -> s.graph.contains id) ∧
      s.revision = start.count edits calls ∧
      s.passes = 1 + s.revision + start.count measures calls ∧
      ∀ c, (s.apply c).2.graph == s.graph ->
        (s.apply c).2 = { s with draft := (s.apply c).2.draft } := by
  intro s
  obtain ⟨front, draft, rfl⟩ : ∃ front draft, start = ofDraft settings front draft := by
    rcases hstart with ⟨title, supply, rfl⟩ | ⟨d, supply, hd⟩
    · exact ⟨_, _, rfl⟩
    · obtain ⟨draft, rfl⟩ := exists_draft_of_ofDefinition? hd
      exact ⟨_, _, rfl⟩
  have h : s.UpToDate := (upToDate_ofDraft settings front draft).run calls
  obtain ⟨hsettings, hrevision, hpasses⟩ := counters_run calls (ofDraft settings front draft)
  refine ⟨?_, h.measured, ?_, ?_, fun c hc => ?_⟩
  · exact h.layout.trans (congrArg (fun settings => Layout.ofGraph settings _ _) hsettings)
  · exact hrevision.trans (Nat.zero_add _)
  · rw [hrevision]
    refine hpasses.trans ?_
    change 1 + _ + _ = 1 + (0 + _) + _
    rw [Nat.zero_add]
  · rw [apply_of_beq hc]
    rfl

end Runs

/-- A pause is added, measured and deleted; between, a block and a size are named that are not
there. -/
def pauseCalls : List (Call Float) :=
  [.apply (.addNode .wait { previous := some "#1", next := some "#2" }),
    .updateSize "#3" ⟨400, 100⟩, .apply (.deleteNode "missing"), .updateSize "missing" ⟨1, 1⟩,
    .apply (.deleteNode "#3")]

theorem upToDate_and_counters_run_pause :
    let start : Session Float := new .standard "pause"
    let s := start.run pauseCalls
    (∃ title supply, start = new .standard title supply) ∧
      s.layout = .ofGraph .standard s.graph s.sizes ∧ s.sizes.get? "#3" = none ∧
      s.revision = 2 ∧ s.passes = 4 := by
  intro start s
  have hstart : ∃ title supply, start = new .standard title supply := ⟨_, _, rfl⟩
  obtain ⟨hlayout, hmeasured, hrevision, hpasses, -⟩ :=
    upToDate_and_counters_run (Or.inl hstart) pauseCalls
  have hedits : start.count edits pauseCalls = 2 := by decide +kernel
  have hmeasures : start.count measures pauseCalls = 1 := by decide +kernel
  have hgone : s.graph.contains "#3" = false := by decide +kernel
  refine ⟨hstart, hlayout, ?_, ?_, ?_⟩
  · by_contra hsize
    rw [hmeasured "#3" hsize] at hgone
    cases hgone
  · exact hrevision.trans hedits
  · rw [hpasses, hrevision, hedits, hmeasures]

end Session
end Workflow
