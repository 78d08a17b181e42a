import Workflow.Graph.Order
import Workflow.Layout.Outline
import Workflow.Proofs.Chain

/-!
# Entering chains

An outline is drawn by entering the ids of a chain one after another, and with a container the
chain that it shows.  However the chains of a graph lead into one another this comes to an end:
each level of containers enters one more node, so the levels that an outline is given do not run
out.  No id is entered twice.
-/

namespace Workflow

/-!
# Parts of outlines
-/

namespace Outline

mutual

/-- An outline with all that is inside it. -/
def parts : Outline -> List Outline
  | node id => [node id]
  | container id body => container id body :: listParts body

def listParts : List Outline -> List Outline
  | [] => []
  | o :: rest => o.parts ++ listParts rest

end

mutual

theorem map_id_parts : ∀ o : Outline, o.parts.map id = o.ids
  | node _ => rfl
  | container i body => congrArg (i :: ·) (map_id_listParts body)

theorem map_id_listParts : ∀ os : List Outline, (listParts os).map id = listIds os
  | [] => rfl
  | o :: rest => by
      rw [listParts, listIds, List.map_append, map_id_parts o, map_id_listParts rest]

end

mutual

theorem mem_parts_cases {o : Outline} : ∀ p : Outline, o ∈ p.parts ->
    o = p ∨ ∃ i body, container i body ∈ p.parts ∧ o ∈ body
  | node i, h => Or.inl (List.mem_singleton.1 h)
  | container i body, h => by
      rcases List.mem_cons.1 h with h | h
      · exact Or.inl h
      · apply Or.inr
        rcases mem_listParts_cases body h with h | ⟨i', body', hpart, ho⟩
        · exact ⟨i, body, List.mem_cons_self, h⟩
        · exact ⟨i', body', List.mem_cons_of_mem _ hpart, ho⟩

theorem mem_listParts_cases {o : Outline} : ∀ os : List Outline, o ∈ listParts os ->
    o ∈ os ∨ ∃ i body, container i body ∈ listParts os ∧ o ∈ body
  | [], h => by cases h
  | p :: rest, h => by
      rcases List.mem_append.1 h with h | h
      · rcases mem_parts_cases p h with rfl | ⟨i, body, hpart, ho⟩
        · exact Or.inl List.mem_cons_self
        · exact Or.inr ⟨i, body, List.mem_append_left _ hpart, ho⟩
      · rcases mem_listParts_cases rest h with h | ⟨i, body, hpart, ho⟩
        · exact Or.inl (List.mem_cons_of_mem _ h)
        · exact Or.inr ⟨i, body, List.mem_append_right _ hpart, ho⟩

end

end Outline

namespace Graph

variable {g : Graph}

/-!
# What entering a chain comes to
-/

/-- After some ids are entered, a chain is drawn as a list of outlines, and more ids are entered
then.  The rules say nothing of levels. -/
inductive Enters (g : Graph) :
    List String -> List String -> List Outline -> List String -> Prop where
  | done (entered : List String) : Enters g [] entered [] entered
  | again {id : String} {rest entered after : List String} {os : List Outline} :
      id ∈ entered -> Enters g rest entered os after -> Enters g (id :: rest) entered os after
  | node {id : String} {rest entered after : List String} {os : List Outline} :
      id ∉ entered -> g.shownScope? id = none -> Enters g rest (id :: entered) os after ->
        Enters g (id :: rest) entered (.node id :: os) after
  | container {id : String} {s : Scope} {rest entered between after : List String}
      {body os : List Outline} :
      id ∉ entered -> g.shownScope? id = some s ->
        Enters g (g.chain s) (id :: entered) body between -> Enters g rest between os after ->
        Enters g (id :: rest) entered (.container id body :: os) after

section Enters

variable {chain entered after : List String} {os : List Outline}

theorem Enters.unique (h : g.Enters chain entered os after) : ∀ {os' after'},
    g.Enters chain entered os' after' -> os' = os ∧ after' = after := by
  induction h with
  | done entered =>
      intro os' after' h'
      cases h'
      exact ⟨rfl, rfl⟩
  | again hid _ ih =>
      intro os' after' h'
      cases h' with
      | again _ hrest => exact ih hrest
      | node hnew => exact absurd hid hnew
      | container hnew => exact absurd hid hnew
  | node hnew hs _ ih =>
      intro os' after' h'
      cases h' with
      | again hid => exact absurd hid hnew
      | node _ _ hrest =>
          rcases ih hrest with ⟨rfl, rfl⟩
          exact ⟨rfl, rfl⟩
      | container _ hs' => cases hs.symm.trans hs'
  | container hnew hs _ _ ihbody ihrest =>
      intro os' after' h'
      cases h' with
      | again hid => exact absurd hid hnew
      | node _ hs' => cases hs.symm.trans hs'
      | container _ hs' hbody hrest =>
          cases hs.symm.trans hs'
          rcases ihbody hbody with ⟨rfl, rfl⟩
          rcases ihrest hrest with ⟨rfl, rfl⟩
          exact ⟨rfl, rfl⟩

theorem Enters.perm (h : g.Enters chain entered os after) :
    after.Perm (Outline.listIds os ++ entered) := by
  induction h with
  | done entered => exact .refl _
  | again _ _ ih => exact ih
  | node _ _ _ ih => exact ih.trans List.perm_middle
  | @container id s rest entered between after body os _ _ _ _ ihbody ihrest =>
      have hbetween : (Outline.listIds os ++ between).Perm
          (Outline.listIds os ++ (id :: Outline.listIds body ++ entered)) :=
        (ihbody.trans List.perm_middle).append_left _
      apply (ihrest.trans hbetween).trans
      rw [← List.append_assoc]
      exact List.perm_append_comm.append_right _

theorem Enters.mem_iff (h : g.Enters chain entered os after) {id : String} :
    id ∈ after <-> id ∈ entered ∨ id ∈ Outline.listIds os := by
  rw [h.perm.mem_iff, List.mem_append, or_comm]

theorem Enters.subset (h : g.Enters chain entered os after) : entered ⊆ after :=
  fun _ hid => h.mem_iff.2 (Or.inl hid)

theorem Enters.nodup (h : g.Enters chain entered os after) (hentered : entered.Nodup) :
    after.Nodup := by
  induction h with
  | done entered => exact hentered
  | again _ _ ih => exact ih hentered
  | node hnew _ _ ih => exact ih (List.nodup_cons.2 ⟨hnew, hentered⟩)
  | container hnew _ _ _ ihbody ihrest =>
      exact ihrest (ihbody (List.nodup_cons.2 ⟨hnew, hentered⟩))

/-- A container is drawn with ids of the chain that it shows, and a node that is none without. -/
def Follows (g : Graph) : Outline -> Prop
  | .node id => g.shownScope? id = none
  | .container id body =>
      ∃ s, g.shownScope? id = some s ∧ (body.map Outline.id).Sublist (g.chain s)

theorem Enters.sublist (h : g.Enters chain entered os after) :
    (os.map Outline.id).Sublist chain := by
  induction h with
  | done entered => exact .slnil
  | again _ _ ih => exact ih.cons _
  | node _ _ _ ih => exact ih.cons_cons _
  | container _ _ _ _ _ ih => exact ih.cons_cons _

theorem Enters.follows (h : g.Enters chain entered os after) :
    ∀ o ∈ Outline.listParts os, g.Follows o := by
  induction h with
  | done entered =>
      intro o ho
      cases ho
  | again _ _ ih => exact ih
  | node _ hs _ ih =>
      intro o ho
      rcases List.mem_cons.1 ho with rfl | ho
      · exact hs
      · exact ih o ho
  | container _ hs hbody _ ihbody ihrest =>
      intro o ho
      rcases List.mem_append.1 ho with ho | ho
      · rcases List.mem_cons.1 ho with rfl | ho
        · exact ⟨_, hs, hbody.sublist⟩
        · exact ihbody o ho
      · exact ihrest o ho

theorem Enters.chain_subset (h : g.Enters chain entered os after) : chain ⊆ after := by
  induction h with
  | done entered => exact List.nil_subset _
  | again hid hrest ih => exact List.cons_subset.2 ⟨hrest.subset hid, ih⟩
  | node _ _ hrest ih => exact List.cons_subset.2 ⟨hrest.subset List.mem_cons_self, ih⟩
  | container _ _ hbody hrest _ ih =>
      exact List.cons_subset.2 ⟨hrest.subset (hbody.subset List.mem_cons_self), ih⟩

theorem Enters.shown_subset (h : g.Enters chain entered os after) {id : String}
    (hid : id ∈ Outline.listIds os) {s : Scope} (hs : g.shownScope? id = some s) :
    g.chain s ⊆ after := by
  induction h with
  | done entered => cases hid
  | again _ _ ih => exact ih hid
  | node _ hnone _ ih =>
      rcases List.mem_cons.1 hid with rfl | hid
      · cases hnone.symm.trans hs
      · exact ih hid
  | container _ hs' hbody hrest ihbody ihrest =>
      rcases List.mem_append.1 hid with hid | hid
      · rcases List.mem_cons.1 hid with rfl | hid
        · cases hs'.symm.trans hs
          exact List.Subset.trans hbody.chain_subset hrest.subset
        · exact List.Subset.trans (ihbody hid) hrest.subset
      · exact ihrest hid

end Enters

/-!
# The levels do not run out
-/

theorem mem_nodes_of_shownScope? {id : String} {s : Scope} (h : g.shownScope? id = some s) :
    id ∈ g.nodes.map Node.id := by
  by_contra hid
  have hnone : g.node? id = none := by
    apply List.find?_eq_none.2
    intro n hn heq
    exact hid (List.mem_map.2 ⟨n, List.mem_reverse.1 hn, beq_iff_eq.1 heq⟩)
  rw [shownScope?, block?, hnone] at h
  cases h

theorem unlisted_length_le {earlier later : List String} (h : earlier ⊆ later) :
    (g.unlisted later).length ≤ (g.unlisted earlier).length := by
  rw [unlisted, unlisted, ← List.countP_eq_length_filter, ← List.countP_eq_length_filter]
  apply List.countP_mono_left
  intro n _ hn
  rw [Bool.not_eq_true', ← Bool.not_eq_true, List.contains_iff_mem] at hn ⊢
  exact fun hmem => hn (h hmem)

theorem unlisted_cons_length_lt {entered : List String} {id : String}
    (hid : id ∈ g.nodes.map Node.id) (hnew : id ∉ entered) :
    (g.unlisted (id :: entered)).length < (g.unlisted entered).length := by
  have hsubset : entered ++ [id] ⊆ id :: entered := by
    intro i hi
    rcases List.mem_append.1 hi with hi | hi
    · exact List.mem_cons_of_mem _ hi
    · exact List.mem_cons.2 (Or.inl (List.mem_singleton.1 hi))
  have hcontains : entered.contains id = false := by
    rwa [← Bool.not_eq_true, List.contains_iff_mem]
  exact Nat.lt_of_le_of_lt (unlisted_length_le hsubset) (unlisted_append_length_lt hid hcontains)

/-- Each level enters one container more, so one level less is enough inside it. -/
theorem enters_enterEach {levels : Nat}
    {inside : List String -> List String -> List Outline × List String}
    (hinside : ∀ entered chain, (g.unlisted entered).length < levels ->
      g.Enters chain entered (inside entered chain).1 (inside entered chain).2)
    (chain : List String) : ∀ entered, (g.unlisted entered).length ≤ levels ->
      g.Enters chain entered (g.enterEach inside entered chain).1
        (g.enterEach inside entered chain).2 := by
  induction chain with
  | nil => exact fun entered _ => .done entered
  | cons id rest ih =>
      intro entered hroom
      by_cases hid : id ∈ entered
      · rw [enterEach, if_pos (List.contains_iff_mem.2 hid)]
        exact .again hid (ih entered hroom)
      · rw [enterEach, if_neg fun hmem => hid (List.contains_iff_mem.1 hmem)]
        cases hs : g.shownScope? id with
        | none =>
            have hless : (g.unlisted (id :: entered)).length ≤ (g.unlisted entered).length :=
              unlisted_length_le (List.subset_cons_self _ _)
            exact .node hid hs (ih (id :: entered) (Nat.le_trans hless hroom))
        | some s =>
            have hless := unlisted_cons_length_lt (mem_nodes_of_shownScope? hs) hid
            have hbody := hinside (id :: entered) (g.chain s) (Nat.lt_of_lt_of_le hless hroom)
            -- The levels are enough for the rest of the chain too: nothing is taken back inside.
            have hbefore : entered ⊆ (inside (id :: entered) (g.chain s)).2 :=
              List.Subset.trans (List.subset_cons_self _ _) hbody.subset
            exact .container hid hs hbody (ih _ (Nat.le_trans (unlisted_length_le hbefore) hroom))

theorem enters_enterTo (levels : Nat) : ∀ entered chain, (g.unlisted entered).length < levels ->
    g.Enters chain entered (g.enterTo levels entered chain).1
      (g.enterTo levels entered chain).2 := by
  induction levels with
  | zero => exact fun entered chain hroom => absurd hroom (Nat.not_lt_zero _)
  | succ levels ih =>
      exact fun entered chain hroom =>
        enters_enterEach ih chain entered (Nat.le_of_lt_succ hroom)

/-- The outline of a graph is what entering the top level comes to. -/
theorem enters_outline (g : Graph) : ∃ after, g.Enters (g.chain .root) [] g.outline after :=
  ⟨_, enters_enterTo (g.nodes.length + 1) [] (g.chain .root)
    (Nat.lt_succ_of_le (List.length_filter_le _ _))⟩

theorem Enters.eq_outline {os : List Outline} {after : List String}
    (h : g.Enters (g.chain .root) [] os after) : os = g.outline := by
  rcases g.enters_outline with ⟨after', houtline⟩
  exact (houtline.unique h).1

theorem nodup_outline (g : Graph) : (Outline.listIds g.outline).Nodup := by
  rcases g.enters_outline with ⟨after, houtline⟩
  have hnodup := houtline.perm.nodup_iff.1 (houtline.nodup List.nodup_nil)
  exact (List.nodup_append.1 hnodup).1

end Graph
end Workflow
