import Workflow.Proofs.Conversion.Levels
import Workflow.Proofs.Conversion.RoundTrip
import Workflow.Proofs.Problems
import Workflow.Proofs.Reference.Graph

/-!
# Reconciled parameters

The list that a definition is written down with keeps the first parameter of each key and adds what
gives access to the vault, where a block refers to a login that is kept there.  Reconciling it
again changes nothing.  Of the problems of a graph only those go away that the parameters cause
themselves, so a graph that is checked without problems is not refused.  It is written down if
writing it comes to an end.
-/

namespace Workflow

/-!
# The first of each key
-/

theorem nodup_keys_firstOfKeys (ps : List Parameter) : ∀ seen : List String,
    ((firstOfKeys ps seen).map Parameter.key).Nodup ∧
      ∀ p ∈ firstOfKeys ps seen, p.key ∉ seen := by
  induction ps with
  | nil => simp [firstOfKeys]
  | cons p ps ih =>
      intro seen
      rw [firstOfKeys]
      split
      · exact ih seen
      · next hnew =>
          obtain ⟨hnodup, hfresh⟩ := ih (p.key :: seen)
          rw [List.map_cons, List.nodup_cons, List.forall_mem_cons]
          refine ⟨⟨fun hmem => ?_, hnodup⟩, ?_, fun q hq hmem => ?_⟩
          · obtain ⟨q, hq, hkey⟩ := List.mem_map.1 hmem
            exact hfresh q hq (hkey ▸ List.mem_cons_self)
          · exact fun hmem => hnew (List.contains_iff_mem.2 hmem)
          · exact hfresh q hq (List.mem_cons_of_mem _ hmem)

theorem firstOfKeys_eq_self (ps : List Parameter) : ∀ {seen : List String},
    (ps.map Parameter.key).Nodup -> (∀ p ∈ ps, p.key ∉ seen) -> firstOfKeys ps seen = ps := by
  induction ps with
  | nil => exact fun _ _ => rfl
  | cons p ps ih =>
      intro seen hnodup hfresh
      rw [List.map_cons, List.nodup_cons] at hnodup
      rw [List.forall_mem_cons] at hfresh
      have hnew : seen.contains p.key = false := by
        rw [← Bool.not_eq_true, List.contains_iff_mem]
        exact hfresh.1
      rw [firstOfKeys, hnew, if_neg Bool.false_ne_true, ih hnodup.2]
      intro q hq hmem
      rcases List.mem_cons.1 hmem with hkey | hmem
      · exact hnodup.1 (List.mem_map.2 ⟨q, hq, hkey⟩)
      · exact hfresh.2 q hq hmem

theorem nodup_keys_vaultAccess : (vaultAccess.map Parameter.key).Nodup := by
  decide

theorem filter_isVaultLogin_vaultAccess (p : Parameter -> Bool) :
    (vaultAccess.filter p).filter Parameter.isVaultLogin = [] := by
  rw [List.filter_filter, List.filter_eq_nil_iff]
  intro q hq
  have hlogin : vaultAccess.all fun q => !q.isVaultLogin := rfl
  have hq := List.all_eq_true.1 hlogin q hq
  simp_all

/-- The parameters of a list whose key none before them has. -/
def firstOccurrences (ps : List Parameter) : List Parameter :=
  (ps.zipIdx.filter fun x => !((ps.take x.2).map Parameter.key).contains x.1.key).map Prod.fst

theorem firstOfKeys_eq (rest : List Parameter) : ∀ {before : List Parameter} {seen : List String},
    (∀ key, key ∈ seen <-> key ∈ before.map Parameter.key) ->
      firstOfKeys rest seen = ((rest.zipIdx before.length).filter fun x =>
        !(((before ++ rest).take x.2).map Parameter.key).contains x.1.key).map Prod.fst := by
  induction rest with
  | nil =>
      intro before seen _
      rfl
  | cons p rest ih =>
      intro before seen hseen
      have hmoved : ∀ {seen' : List String},
          (∀ key, key ∈ seen' <-> key ∈ (before ++ [p]).map Parameter.key) ->
            firstOfKeys rest seen' = ((rest.zipIdx (before.length + 1)).filter fun x =>
              !(((before ++ p :: rest).take x.2).map Parameter.key).contains x.1.key).map
                Prod.fst := by
        intro seen' hseen'
        have hrest := ih hseen'
        rw [List.length_append, List.length_singleton, List.append_assoc, List.singleton_append]
          at hrest
        exact hrest
      -- the parameter goes over to those before, whether its key is remembered or was already
      have hcontains : seen.contains p.key = (before.map Parameter.key).contains p.key :=
        Bool.eq_iff_iff.2 (by simpa using hseen p.key)
      rw [firstOfKeys, List.zipIdx_cons, List.filter_cons, List.take_left, ← hcontains]
      cases hknown : seen.contains p.key with
      | true =>
          have hmem : p.key ∈ before.map Parameter.key :=
            (hseen p.key).1 (List.contains_iff_mem.1 hknown)
          rw [if_pos rfl, Bool.not_true, if_neg Bool.false_ne_true]
          apply hmoved
          intro key
          rw [hseen, List.map_append, List.mem_append]
          constructor
          · exact Or.inl
          · intro h
            rcases h with h | h
            · exact h
            · rw [List.mem_singleton.1 h]
              exact hmem
      | false =>
          rw [if_neg Bool.false_ne_true, Bool.not_false, if_pos rfl, List.map_cons]
          apply congrArg
          apply hmoved
          intro key
          rw [List.mem_cons, hseen, List.map_append, List.mem_append, or_comm]
          exact or_congr_right List.mem_singleton.symm

theorem firstOfKeys_eq_firstOccurrences (ps : List Parameter) :
    firstOfKeys ps = firstOccurrences ps :=
  @firstOfKeys_eq ps [] [] fun _ => Iff.rfl

theorem mem_keys_firstOfKeys {key : String} (ps : List Parameter) : ∀ {seen : List String},
    key ∈ (firstOfKeys ps seen).map Parameter.key <->
      key ∈ ps.map Parameter.key ∧ key ∉ seen := by
  induction ps with
  | nil => simp [firstOfKeys]
  | cons p ps ih =>
      intro seen
      rw [firstOfKeys]
      cases hknown : seen.contains p.key with
      | true =>
          have hmem : p.key ∈ seen := List.contains_iff_mem.1 hknown
          rw [if_pos rfl, ih, List.map_cons, List.mem_cons]
          constructor
          · intro h
            exact ⟨Or.inr h.1, h.2⟩
          · intro h
            rcases h with ⟨rfl | hkey, hnew⟩
            · exact absurd hmem hnew
            · exact ⟨hkey, hnew⟩
      | false =>
          have hfresh : p.key ∉ seen := fun hmem => by
            rw [List.contains_iff_mem.2 hmem] at hknown
            cases hknown
          rw [if_neg Bool.false_ne_true, List.map_cons, List.map_cons, List.mem_cons, List.mem_cons,
            ih, List.mem_cons, not_or]
          by_cases hkey : key = p.key
          · simp [hkey, hfresh]
          · simp [hkey]

namespace Graph

/-!
# Reconciling twice
-/

variable (g : Graph) (ps : List Parameter)

theorem reconcile_of_uses (h : g.usesVault (firstOfKeys ps) = true) :
    g.reconcile ps = firstOfKeys ps ++
      vaultAccess.filter fun p => !((firstOfKeys ps).map Parameter.key).contains p.key := by
  rw [reconcile, if_pos h]

theorem reconcile_of_not (h : g.usesVault (firstOfKeys ps) = false) :
    g.reconcile ps = firstOfKeys ps := by
  rw [reconcile, h, if_neg Bool.false_ne_true]

theorem nodup_keys_reconcile : ((g.reconcile ps).map Parameter.key).Nodup := by
  obtain ⟨hnodup, -⟩ := nodup_keys_firstOfKeys ps []
  cases huses : g.usesVault (firstOfKeys ps) with
  | false =>
      rw [reconcile_of_not g ps huses]
      exact hnodup
  | true =>
      rw [reconcile_of_uses g ps huses, List.map_append]
      refine List.nodup_append.2 ⟨hnodup, ?_, ?_⟩
      · exact nodup_keys_vaultAccess.sublist (List.filter_sublist.map _)
      · rintro key hkey _ hmem rfl
        obtain ⟨p, hp, rfl⟩ := List.mem_map.1 hmem
        have hnew := (List.mem_filter.1 hp).2
        rw [List.contains_iff_mem.2 hkey] at hnew
        cases hnew

theorem usesVault_append (extra : List Parameter)
    (h : extra.filter Parameter.isVaultLogin = []) :
    g.usesVault (ps ++ extra) = g.usesVault ps := by
  rw [usesVault, List.filter_append, h, List.append_nil, usesVault]

theorem reconcile_reconcile : g.reconcile (g.reconcile ps) = g.reconcile ps := by
  have hself : firstOfKeys (g.reconcile ps) = g.reconcile ps :=
    firstOfKeys_eq_self _ (nodup_keys_reconcile g ps) fun _ _ => List.not_mem_nil
  cases huses : g.usesVault (firstOfKeys ps) with
  | false =>
      rw [reconcile_of_not g (g.reconcile ps), hself]
      rw [hself, reconcile_of_not g ps huses, huses]
  | true =>
      have hagain : g.usesVault (firstOfKeys (g.reconcile ps)) = true := by
        rw [hself, reconcile_of_uses g ps huses,
          usesVault_append g _ _ (filter_isVaultLogin_vaultAccess _), huses]
      rw [reconcile_of_uses g (g.reconcile ps) hagain, hself, List.append_right_eq_self,
        List.filter_eq_nil_iff]
      -- every key of the access is there already or is added
      intro p hp
      rw [Bool.not_eq_true, Bool.not_eq_false', List.contains_iff_mem, reconcile_of_uses g ps huses,
        List.map_append, List.mem_append]
      by_cases hkey : p.key ∈ (firstOfKeys ps).map Parameter.key
      · exact Or.inl hkey
      · refine Or.inr (List.mem_map_of_mem (List.mem_filter.2 ⟨hp, ?_⟩))
        rw [Bool.not_eq_true', ← Bool.not_eq_true, List.contains_iff_mem]
        exact hkey

/-!
# What is added
-/

theorem usesVault_iff :
    g.usesVault ps <-> ∃ p ∈ ps, p.isVaultLogin ∧ g.Holds (.parameter p.key) := by
  simp only [usesVault, List.any_eq_true, Option.any_eq_true]
  constructor
  · intro h
    rcases h with ⟨n, hn, b, hb, ⟨field, r⟩, hr, hlogin⟩
    cases r with
    | parameter key =>
        rcases List.mem_map.1 (List.contains_iff_mem.1 hlogin) with ⟨p, hp, rfl⟩
        rcases List.mem_filter.1 hp with ⟨hp, hvault⟩
        exact ⟨p, hp, hvault, holds_of_mem_references hn hb hr⟩
    | output l => cases hlogin
    | label l => cases hlogin
  · intro h
    rcases h with ⟨p, hp, hvault, hholds⟩
    rcases exists_of_holds hholds with ⟨n, hn, b, hb, field, hr⟩
    exact ⟨n, hn, b, hb, (field, .parameter p.key), hr,
      List.contains_iff_mem.2 (List.mem_map_of_mem (List.mem_filter.2 ⟨hp, hvault⟩))⟩

/-- A list of parameters is the first occurrences of another one and then the parameters that are
added, which give access to the vault if a block refers to a login kept there. -/
structure Reconciles (ps added reconciled : List Parameter) : Prop where
  split : reconciled = firstOccurrences ps ++ added
  nodup : (reconciled.map Parameter.key).Nodup
  needed : (∃ p ∈ firstOccurrences ps, p.isVaultLogin ∧ g.Holds (.parameter p.key)) ->
    added = vaultAccess.filter fun p => p.key ∉ ps.map Parameter.key
  unneeded : (¬∃ p ∈ firstOccurrences ps, p.isVaultLogin ∧ g.Holds (.parameter p.key)) -> added = []

theorem reconciles_reconcile : ∃ added, g.Reconciles ps added (g.reconcile ps) := by
  cases huses : g.usesVault (firstOfKeys ps) with
  | false =>
      exists []
      constructor
      · rw [reconcile_of_not g ps huses, List.append_nil, firstOfKeys_eq_firstOccurrences]
      · exact nodup_keys_reconcile g ps
      · intro h
        rw [← firstOfKeys_eq_firstOccurrences, ← usesVault_iff, huses] at h
        cases h
      · exact fun _ => rfl
  | true =>
      exists vaultAccess.filter fun p => p.key ∉ ps.map Parameter.key
      have hlacks : ∀ p : Parameter, (!((firstOfKeys ps).map Parameter.key).contains p.key) =
          decide (p.key ∉ ps.map Parameter.key) := by
        intro p
        have hkey := @mem_keys_firstOfKeys p.key ps []
        rw [Bool.eq_iff_iff, Bool.not_eq_true', ← Bool.not_eq_true, List.contains_iff_mem, hkey,
          decide_eq_true_iff]
        simp
      constructor
      · rw [reconcile_of_uses g ps huses, ← firstOfKeys_eq_firstOccurrences]
        simp only [hlacks]
      · exact nodup_keys_reconcile g ps
      · exact fun _ => rfl
      · intro h
        rw [← firstOfKeys_eq_firstOccurrences, ← usesVault_iff] at h
        exact absurd huses h

end Graph

/-!
# Problems that remain
-/

/-- Whether a problem remains when no key is repeated and the keys that are added are known. -/
def Problem.remains (added : List String) : Problem -> Bool
  | duplicateParameter _ => false
  | unknownParameter _ _ key => !added.contains key
  | _ => true

theorem Problem.remains_of_check {added : List String} {p : Problem}
    (hparameters : p.check ≠ .parameters) (hreference : p.check ≠ .reference) :
    p.remains added = true := by
  cases p with
  | duplicateParameter key => exact absurd rfl hparameters
  | unknownParameter block field key => exact absurd rfl hreference
  | _ => rfl

section Remaining

variable {keys keys' added : List String} (hkeys : ∀ key, key ∈ keys' <-> key ∈ keys ∨ key ∈ added)
include hkeys

theorem Block.referenceProblems_eq_filter (b : Block) (name : String) (labels : List String) :
    b.referenceProblems name labels keys' =
      (b.referenceProblems name labels keys).filter (Problem.remains added) := by
  rw [referenceProblems, referenceProblems, List.filter_filterMap]
  apply List.filterMap_congr
  intro x _
  rcases x with ⟨field, r⟩
  cases r with
  | output l => cases h : labels.contains l <;> simp only [h] <;> rfl
  | label l => cases h : labels.contains l <;> simp only [h] <;> rfl
  | parameter key =>
      have hknown : keys'.contains key = (keys.contains key || added.contains key) := by
        rw [Bool.eq_iff_iff, Bool.or_eq_true]
        simpa only [List.contains_iff_mem] using hkeys key
      have hremains : Problem.remains added (.unknownParameter name field key) =
          !added.contains key := rfl
      simp only [hknown]
      cases keys.contains key with
      | true => rfl
      | false =>
          simp only [Bool.false_or, Bool.false_eq_true, if_false, Option.filter_some, hremains]
          cases added.contains key <;> rfl

theorem Node.referenceProblems_eq_filter (n : Node) (labels : List String) :
    n.referenceProblems labels keys' =
      (n.referenceProblems labels keys).filter (Problem.remains added) := by
  rcases n with ⟨id, parent, content⟩
  cases content with
  | block h b => exact Block.referenceProblems_eq_filter hkeys b _ labels
  | _ => rfl

namespace Graph

variable (g : Graph)

theorem nodeProblems_eq_filter (seen : List String) (n : Node) :
    g.nodeProblems keys' seen n = (g.nodeProblems keys seen n).filter (Problem.remains added) := by
  -- only the references of a node are checked against the keys
  rcases g.exists_nodeProblems seen n with ⟨before, after, hnode, heq⟩
  have hremains : ∀ p ∈ before ++ after, Problem.remains added p = true := by
    intro p hp
    apply Problem.remains_of_check
    · rw [hnode p hp]
      exact Check.noConfusion
    · rw [hnode p hp]
      exact Check.noConfusion
  have hbefore := List.filter_eq_self.2 fun p hp => hremains p (List.mem_append_left _ hp)
  have hafter := List.filter_eq_self.2 fun p hp => hremains p (List.mem_append_right _ hp)
  rw [heq, heq, List.filter_append, List.filter_append, hbefore, hafter,
    Node.referenceProblems_eq_filter hkeys]

theorem nodesProblems_eq_filter (nodes : List Node) : ∀ seen : List String,
    g.nodesProblems keys' seen nodes =
      (g.nodesProblems keys seen nodes).filter (Problem.remains added) := by
  induction nodes with
  | nil =>
      intro seen
      rfl
  | cons n rest ih =>
      intro seen
      rw [nodesProblems, nodesProblems, List.filter_append, nodeProblems_eq_filter hkeys, ih]

end Graph
end Remaining

namespace Graph

variable {g : Graph} {ps added reconciled : List Parameter}

/-- The problems that remain, in their order. -/
theorem Reconciles.problems_eq (h : g.Reconciles ps added reconciled) :
    g.problems reconciled =
      (g.problems ps).filter (Problem.remains (added.map Parameter.key)) := by
  have hkeys : ∀ key, key ∈ reconciled.map Parameter.key <->
      key ∈ ps.map Parameter.key ∨ key ∈ added.map Parameter.key := by
    intro key
    have hfirst := @mem_keys_firstOfKeys key ps []
    rw [h.split, List.map_append, List.mem_append, ← firstOfKeys_eq_firstOccurrences, hfirst]
    simp
  have hdistinct : repeats (reconciled.map Parameter.key) = [] :=
    repeats_eq_nil.2 ⟨h.nodup, fun _ _ => List.not_mem_nil⟩
  have hrepeated : ((repeats (ps.map Parameter.key)).map Problem.duplicateParameter).filter
      (Problem.remains (added.map Parameter.key)) = [] := by
    rw [List.filter_eq_nil_iff]
    intro p hp
    rcases List.mem_map.1 hp with ⟨key, -, rfl⟩
    exact Bool.false_ne_true
  have hedges : (g.edges.flatMap g.edgeProblems).filter
      (Problem.remains (added.map Parameter.key)) = g.edges.flatMap g.edgeProblems := by
    rw [List.filter_eq_self]
    intro p hp
    rcases List.mem_flatMap.1 hp with ⟨e, -, hedge⟩
    apply Problem.remains_of_check
    · rw [check_of_mem_edgeProblems hedge]
      exact Check.noConfusion
    · rw [check_of_mem_edgeProblems hedge]
      exact Check.noConfusion
  have hcycle : (if g.hasCycle then [Problem.cycle] else []).filter
      (Problem.remains (added.map Parameter.key)) = if g.hasCycle then [.cycle] else [] := by
    cases g.hasCycle <;> rfl
  simp only [problems, List.filter_append, hdistinct, hrepeated, hedges, hcycle, List.map_nil,
    nodesProblems_eq_filter hkeys]

/-- Reconciling again changes nothing, and a graph without problems stays so.  Its document is what
its blocks are written down as, where that comes to an end. -/
theorem reconcile_and_problems_eq_filter (g : Graph) (ps : List Parameter) :
    (∃ added, g.Reconciles ps added (g.reconcile ps) ∧
      g.reconcile (g.reconcile ps) = g.reconcile ps ∧
      g.problems (g.reconcile ps) =
        (g.problems ps).filter (Problem.remains (added.map Parameter.key))) ∧
    (g.problems ps = [] ->
      g.problems (g.reconcile ps) = [] ∧
      ∀ blocks, g.Writes .root blocks -> ∀ title, g.toDefinition? ⟨title, ps⟩ =
        .ok ⟨Definition.currentVersion, title, g.reconcile ps, blocks⟩) ∧
    ((∃ blocks, g.Writes .root blocks) <-> g.WellNested .root) := by
  rcases reconciles_reconcile g ps with ⟨added, hadded⟩
  have hremains := hadded.problems_eq
  refine ⟨⟨added, hadded, reconcile_reconcile g ps, hremains⟩, fun hproblems => ?_,
    exists_writes_iff⟩
  rw [hproblems, List.filter_nil] at hremains
  constructor
  · exact hremains
  · intro blocks hwrites title
    rw [← hwrites.eq_descriptors]
    exact toDefinition?_eq_ok.2 ⟨hremains, rfl⟩

/-- A login with a password from the vault. -/
def signedIn : Graph where
  nodes :=
    [⟨"start", none, .start⟩, ⟨"end", none, .insertionMarker⟩,
      ⟨"login", none, .block { label := "sign in" }
        (.leaf (.login { url := "https://example.com", parameterKeys := ["creds"] }))⟩]
  edges :=
    [⟨"e1", "start", "login", .insertable, none, false⟩,
      ⟨"e2", "login", "end", .plain, none, false⟩]

/-- The login and one of the parameters that it needs. -/
def signedInParameters : List Parameter :=
  [{ key := "creds", source := .vaultLogin (some "c") (some "i") none },
    { key := "vault_client_id", source := .workflow .string none }]

theorem reconcile_and_problems_eq_filter_signedIn :
    signedIn.problems signedInParameters = [] ∧
      (signedIn.reconcile signedInParameters).map Parameter.key =
        ["creds", "vault_client_id", "vault_client_secret", "vault_master_password"] ∧
      ∃ blocks, signedIn.Writes .root blocks ∧ blocks.length = 1 ∧
        ∀ title, signedIn.toDefinition? ⟨title, signedInParameters⟩ = .ok
          ⟨Definition.currentVersion, title, signedIn.reconcile signedInParameters, blocks⟩ := by
  have hproblems : signedIn.problems signedInParameters = [] := by
    decide +kernel
  have hleaves : ∀ n ∈ signedIn.nodesOn .root, ∀ b ∈ n.block?, bodyScopes n.id b = [] := by
    decide +kernel
  have hwrites : signedIn.Writes .root
      ((signedIn.nodesOn .root).filterMap (describe? fun _ => [])) := by
    constructor
    intro t ht
    rcases ht with ⟨n, hn, b, hb, ht⟩
    rw [hleaves n hn b hb] at ht
    cases ht
  rcases reconcile_and_problems_eq_filter signedIn signedInParameters with ⟨-, hwritten, -⟩
  exact ⟨hproblems, by decide +kernel, _, hwrites, by decide +kernel,
    (hwritten hproblems).2 _ hwrites⟩

/-- A loop that stands on the chain of its own body.  Nothing is reported of it. -/
def selfHeld : Graph where
  nodes :=
    [⟨"start", none, .start⟩, ⟨"end", none, .insertionMarker⟩,
      ⟨"loop", none, .block { label := "A" } (.loop { loopOver := "A_output" })⟩,
      ⟨"first", some "loop", .start⟩, ⟨"last", some "loop", .insertionMarker⟩]
  edges :=
    [⟨"e1", "start", "loop", .insertable, none, false⟩,
      ⟨"e2", "loop", "end", .insertable, none, false⟩,
      ⟨"e3", "first", "loop", .plain, none, false⟩]

/-- A graph without problems need not be one that can be written down. -/
theorem not_writes_selfHeld :
    selfHeld.problems [] = [] ∧ ¬ ∃ blocks, selfHeld.Writes .root blocks := by
  have hproblems : selfHeld.problems [] = [] := by
    decide +kernel
  have houter : ∃ n ∈ selfHeld.nodesOn .root, ∃ b ∈ n.block?,
      Scope.body "loop" ∈ bodyScopes n.id b := by
    decide +kernel
  have hinner : ∃ n ∈ selfHeld.nodesOn (.body "loop"), ∃ b ∈ n.block?,
      Scope.body "loop" ∈ bodyScopes n.id b := by
    decide +kernel
  constructor
  · exact hproblems
  · intro h
    exact exists_writes_iff.1 h (.body "loop") (.single houter) (.single hinner)

end Graph
end Workflow
