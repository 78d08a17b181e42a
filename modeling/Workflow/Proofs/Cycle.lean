import Mathlib.Logic.Relation
import Workflow.Proofs.Problems

/-!
# The search for a cycle

The search finds a cycle exactly when the edges have one.  Every id of its path leads to every id
of its agenda, so an id that is met again on the path leads to itself.  And the ids it is done with
are listed so that edges lead further down the list only, so none of them leads to itself.
-/

namespace Workflow

namespace Graph

variable {g : Graph}

/-- Some edge goes from one id to the other, whatever its kind and its tag, shown or hidden. -/
def LeadsTo (g : Graph) (a b : String) : Prop :=
  ∃ e ∈ g.edges, e.source = a ∧ e.target = b

theorem mem_targets {a b : String} : b ∈ g.targets a <-> g.LeadsTo a b := by
  simp [targets, edgesFrom, LeadsTo, and_assoc]

/-!
# What an edge back to the path shows
-/

theorem exists_cycle_of_search (path agenda done : List String) :
    (∀ p ∈ path, ∀ id ∈ agenda, Relation.TransGen g.LeadsTo p id) ->
      g.search path agenda done = none -> ∃ id, Relation.TransGen g.LeadsTo id id := by
  induction path, agenda, done using search.induct g with
  | case1 path done =>
      intro _ h
      rw [search] at h
      cases h
  | case2 path done id rest hback =>
      intro hleads _
      exists id
      exact hleads id (List.contains_iff_mem.1 hback) id List.mem_cons_self
  | case3 path done id rest hoff hdone ih =>
      intro hleads h
      rw [search, if_neg hoff, if_pos hdone] at h
      exact ih (fun p hp i hi => hleads p hp i (List.mem_cons_of_mem _ hi)) h
  | case4 path done id rest hoff hnew hbelow ih =>
      intro hleads _
      apply ih _ hbelow
      intro p hp next hnext
      have hlast := mem_targets.1 hnext
      rcases List.mem_cons.1 hp with rfl | hp
      · exact .single hlast
      · exact (hleads p hp id List.mem_cons_self).tail hlast
  | case5 path done id rest hoff hnew below hbelow _ ih =>
      intro hleads h
      rw [search, if_neg hoff, if_neg hnew, hbelow] at h
      exact ih (fun p hp i hi => hleads p hp i (List.mem_cons_of_mem _ hi)) h

theorem exists_cycle_of_hasCycle (h : g.hasCycle) : ∃ id, Relation.TransGen g.LeadsTo id id := by
  have hnone := Option.isNone_iff_eq_none.1 h
  exact exists_cycle_of_search [] _ [] (fun _ hp => absurd hp List.not_mem_nil) hnone

/-!
# What is done leads to no cycle
-/

/-- Every edge from an id of the list leads to an id further down. -/
def Finished (g : Graph) : List String -> Prop
  | [] => True
  | id :: rest => (∀ next, g.LeadsTo id next -> next ∈ rest) ∧ g.Finished rest

namespace Finished

theorem mem_of_leadsTo {a b : String} {done : List String} (h : g.Finished done)
    (ha : a ∈ done) (hab : g.LeadsTo a b) : b ∈ done := by
  induction done with
  | nil => cases ha
  | cons id rest ih =>
      rcases List.mem_cons.1 ha with rfl | ha
      · exact List.mem_cons_of_mem _ (h.1 b hab)
      · exact List.mem_cons_of_mem _ (ih h.2 ha)

theorem mem_of_reaches {a b : String} {done : List String} (h : g.Finished done)
    (ha : a ∈ done) (hab : Relation.ReflTransGen g.LeadsTo a b) : b ∈ done := by
  induction hab with
  | refl => exact ha
  | tail _ hstep ih => exact h.mem_of_leadsTo ih hstep

theorem not_cycle {id : String} {done : List String} (h : g.Finished done) (hid : id ∈ done) :
    ¬ Relation.TransGen g.LeadsTo id id := by
  intro hcycle
  induction done with
  | nil => cases hid
  | cons first rest ih =>
      -- the first id leads down the list, and from there no way comes back up
      apply ih h.2
      rcases List.mem_cons.1 hid with rfl | hid
      · rcases Relation.TransGen.head'_iff.1 hcycle with ⟨next, hnext, hback⟩
        exact h.2.mem_of_reaches (h.1 next hnext) hback
      · exact hid

end Finished

/-- The search adds what it was given to the ids that are done. -/
theorem finished_of_search (path agenda done : List String) : ∀ {found : List String},
    g.Finished done -> g.search path agenda done = some found ->
      g.Finished found ∧ ∀ id, id ∈ done ∨ id ∈ agenda -> id ∈ found := by
  induction path, agenda, done using search.induct g with
  | case1 path done =>
      intro found hdone h
      rw [search] at h
      cases h
      simp [hdone]
  | case2 path done id rest hback =>
      intro found _ h
      rw [search, if_pos hback] at h
      cases h
  | case3 path done id rest hoff hmem ih =>
      intro found hdone h
      rw [search, if_neg hoff, if_pos hmem] at h
      rcases ih hdone h with ⟨hfound, hall⟩
      constructor
      · exact hfound
      · intro i hi
        rcases hi with hi | hi
        · exact hall i (Or.inl hi)
        · rcases List.mem_cons.1 hi with rfl | hi
          · exact hall i (Or.inl (List.contains_iff_mem.1 hmem))
          · exact hall i (Or.inr hi)
  | case4 path done id rest hoff hnew hbelow _ =>
      intro found _ h
      rw [search, if_neg hoff, if_neg hnew, hbelow] at h
      cases h
  | case5 path done id rest hoff hnew below hbelow ihbelow ih =>
      intro found hdone h
      rw [search, if_neg hoff, if_neg hnew, hbelow] at h
      rcases ihbelow hdone hbelow with ⟨hfinished, hbefore⟩
      have hnext : ∀ next, g.LeadsTo id next -> next ∈ below :=
        fun next hnext => hbefore next (Or.inr (mem_targets.2 hnext))
      rcases ih ⟨hnext, hfinished⟩ h with ⟨hfound, hall⟩
      constructor
      · exact hfound
      · intro i hi
        rcases hi with hi | hi
        · exact hall i (Or.inl (List.mem_cons_of_mem _ (hbefore i (Or.inl hi))))
        · rcases List.mem_cons.1 hi with rfl | hi
          · exact hall i (Or.inl List.mem_cons_self)
          · exact hall i (Or.inr hi)

theorem not_cycle_of_hasCycle_eq_false (h : g.hasCycle = false) {n : Node} (hn : n ∈ g.nodes) :
    ¬ Relation.TransGen g.LeadsTo n.id n.id := by
  rcases Option.isSome_iff_exists.1 (Option.isNone_eq_false_iff.1 h) with ⟨found, hfound⟩
  rcases finished_of_search [] _ [] trivial hfound with ⟨hfinished, hall⟩
  exact hfinished.not_cycle (hall n.id (Or.inr (List.mem_map_of_mem hn)))

theorem hasCycle_iff (hsources : ∀ e ∈ g.edges, g.contains e.source) :
    g.hasCycle <-> ∃ id, Relation.TransGen g.LeadsTo id id := by
  constructor
  · exact exists_cycle_of_hasCycle
  · intro h
    rcases h with ⟨id, hid⟩
    rcases Relation.TransGen.head'_iff.1 hid with ⟨_, ⟨e, he, rfl, -⟩, -⟩
    rcases List.any_eq_true.1 (hsources e he) with ⟨n, hn, hsame⟩
    rw [← beq_iff_eq.1 hsame] at hid
    cases hfound : g.hasCycle with
    | false => exact absurd hid (not_cycle_of_hasCycle_eq_false hfound hn)
    | true => rfl

end Graph

/-!
# The message
-/

namespace Problem

theorem head?_append {s : String} {c : Char} (h : s.toList.head? = some c) (t : String) :
    (s ++ t).toList.head? = some c := by
  rw [String.toList_append, List.head?_append, h, Option.some_or]

theorem getLast?_append {t : String} {c : Char} (h : t.toList.getLast? = some c) (s : String) :
    (s ++ t).toList.getLast? = some c := by
  rw [String.toList_append, List.getLast?_append, h, Option.some_or]

/-- No other message begins and ends with the letters of this one. -/
theorem message_eq_cycle {p : Problem} (h : p.message = "sequential edges form a cycle") :
    p = .cycle := by
  have hfirst : ∀ {c : Char}, p.message.toList.head? = some c -> c = 's' := by
    intro c hc
    rw [h] at hc
    exact (Option.some.inj hc).symm
  have hlast : ∀ {c : Char}, p.message.toList.getLast? = some c -> c = 'e' := by
    intro c hc
    rw [h] at hc
    exact (Option.some.inj hc).symm
  cases p with
  | cycle => rfl
  | unknownEnd edge =>
      exact absurd (hfirst (head?_append (head?_append rfl _) _)) (by decide)
  | undeclaredTag edge branch conditional =>
      have hstart : ("edge " ++ edge ++ " is tagged with undeclared branch '").toList.head? =
          some 'e' := head?_append (head?_append rfl _) _
      exact absurd (hfirst (head?_append (head?_append (head?_append hstart _) _) _)) (by decide)
  | _ => exact absurd (hlast (getLast?_append rfl _)) (by decide)

end Problem

namespace Graph

variable {g : Graph}

/-- A cycle is reported exactly when the edges, hidden and tagged ones included, have one. -/
theorem cycle_reported_iff
    (hjoined : ∀ e ∈ g.edges, g.contains e.source ∧ g.contains e.target)
    (parameters : List Parameter) :
    "sequential edges form a cycle" ∈ (g.problems parameters).map Problem.message <->
      ∃ id, Relation.TransGen g.LeadsTo id id := by
  rw [← hasCycle_iff fun e he => (hjoined e he).1, ← cycle_mem_problems parameters,
    List.mem_map]
  constructor
  · intro h
    rcases h with ⟨p, hp, hmessage⟩
    rw [Problem.message_eq_cycle hmessage] at hp
    exact hp
  · intro h
    exact ⟨.cycle, h, rfl⟩

/-- Two blocks with two edges from the first to the second and a hidden one back. -/
def retried : Graph where
  nodes :=
    [⟨"fetch", none, .block { label := "fetch" } (.leaf (.wait {}))⟩,
      ⟨"judge", none, .block { label := "judge" } (.leaf (.wait {}))⟩]
  edges :=
    [⟨"e1", "fetch", "judge", .insertable, none, false⟩,
      ⟨"e2", "fetch", "judge", .plain, none, false⟩,
      ⟨"e3", "judge", "fetch", .branch, some ⟨"pick", "again"⟩, true⟩]

theorem cycle_reported_iff_retried :
    (∀ e ∈ retried.edges, retried.contains e.source ∧ retried.contains e.target) ∧
      "sequential edges form a cycle" ∈ (retried.problems []).map Problem.message := by
  have hjoined : ∀ e ∈ retried.edges, retried.contains e.source ∧ retried.contains e.target := by
    decide
  have hthere : retried.LeadsTo "fetch" "judge" :=
    ⟨⟨"e1", "fetch", "judge", .insertable, none, false⟩, by decide, rfl, rfl⟩
  have hback : retried.LeadsTo "judge" "fetch" :=
    ⟨⟨"e3", "judge", "fetch", .branch, some ⟨"pick", "again"⟩, true⟩, by decide, rfl, rfl⟩
  have hcycle : Relation.TransGen retried.LeadsTo "fetch" "fetch" := .tail (.single hthere) hback
  exact ⟨hjoined, (cycle_reported_iff hjoined []).2 ⟨"fetch", hcycle⟩⟩

end Graph
end Workflow
