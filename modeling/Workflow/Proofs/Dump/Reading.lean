import Workflow.Graph.Indexed
import Workflow.Proofs.Definition.Reading
import Workflow.Proofs.Dump.Records

/-!
# Dumped graphs

A dump holds the nodes and the edges of a graph.  Read again it gives the same nodes and edges,
unless a free value is null, and the index built from them finds what a search of the nodes finds.
-/

namespace Workflow

open Json

/-!
# What a graph is read from
-/

namespace Json

theorem exists_of_required {α : Type} {ms : Members} {key : String} {read : Json -> Option α}
    {a : α} (h : required ms key read = some a) : ∃ v, (key, v) ∈ ms ∧ read v = some a := by
  rcases Option.bind_eq_some_iff.1 h with ⟨v, hlookup, hread⟩
  exact ⟨v, mem_of_lookup hlookup, hread⟩

end Json

namespace Leaf

theorem exists_of_read {α : Type} {fields : List String} {ofMembers? : Members -> Option α}
    {leaf : α -> Leaf} {content : Json} {l : Leaf}
    (h : read fields ofMembers? leaf content = some l) :
    ∃ ms, record? fields content = some ms ∧ read fields ofMembers? leaf (obj ms) = some l := by
  rcases Option.map_eq_some_iff.1 h with ⟨a, ha, hl⟩
  rcases Option.bind_eq_some_iff.1 ha with ⟨ms, hms, hread⟩
  have hobj : (record? fields (obj ms)).bind ofMembers? = some a := hread
  refine ⟨ms, hms, ?_⟩
  rw [read, hobj, Option.map_some, hl]

/-- A leaf given as an array is the leaf given as an object with these members. -/
theorem exists_members {root content : Json} {kind : Kind} {l : Leaf}
    (hcontent : Inside root content) (h : ofContent? kind content = some l) :
    ∃ ms, (∀ m ∈ ms, Within root m.2) ∧ ofContent? kind (obj ms) = some l := by
  cases kind with
  | loop => cases h
  | conditional => cases h
  | _ =>
      rcases exists_of_read h with ⟨ms, hms, hread⟩
      exact ⟨ms, within_of_record? hcontent hms, hread⟩

end Leaf

theorem Block.given_of_ofNested? {root v : Json} {b : Block} (hv : Within root v)
    (h : ofNested? v = some b) : ∀ w ∈ b.freeValues, Given root w := by
  rcases Option.bind_eq_some_iff.1 h with ⟨⟨kind, content⟩, htagged, hread⟩
  have hcontent := inside_of_tagged? hv.inside htagged
  change ofContent? kind content = some b at hread
  unfold ofContent? at hread
  split at hread
  · rcases Option.map_eq_some_iff.1 hread with ⟨a, -, rfl⟩
    exact List.forall_mem_nil _
  · rcases Option.map_eq_some_iff.1 hread with ⟨c, -, rfl⟩
    exact List.forall_mem_nil _
  · rcases Option.map_eq_some_iff.1 hread with ⟨l, hl, rfl⟩
    rcases Leaf.exists_members hcontent hl with ⟨ms, hms, hleaf⟩
    exact Leaf.given_of_ofContent? hms hleaf

theorem Content.given_of_ofJson? {root v : Json} {c : Content} (hv : Within root v)
    (h : ofJson? v = some c) : ∀ w ∈ c.freeValues, Given root w := by
  rcases Option.bind_eq_some_iff.1 h with ⟨⟨name, content⟩, htagged, hread⟩
  have hcontent := inside_of_tagged? hv.inside htagged
  change ofContent? name content = some c at hread
  unfold ofContent? at hread
  split_ifs at hread
  · rcases Option.map_eq_some_iff.1 hread with ⟨-, -, rfl⟩
    exact List.forall_mem_nil _
  · rcases Option.map_eq_some_iff.1 hread with ⟨-, -, rfl⟩
    exact List.forall_mem_nil _
  · simp only [blockOf?, Option.bind_eq_bind, Option.bind_eq_some_iff] at hread
    rcases hread with ⟨ms, hms, _, -, _, -, _, -, b, hb, heq⟩
    rcases exists_of_required hb with ⟨w, hw, hblock⟩
    cases heq
    exact Block.given_of_ofNested? (within_of_record? hcontent hms _ hw) hblock

theorem Node.given_of_ofJson? {root v : Json} {n : Node} (hv : Within root v)
    (h : ofJson? v = some n) : ∀ w ∈ n.freeValues, Given root w := by
  simp only [ofJson?, Option.bind_eq_bind, Option.bind_eq_some_iff] at h
  rcases h with ⟨ms, hms, _, -, _, -, content, hcontent, heq⟩
  rcases exists_of_required hcontent with ⟨w, hw, hread⟩
  cases heq
  exact Content.given_of_ofJson? (within_of_record? hv.inside hms _ hw) hread

namespace Graph

theorem given_of_ofJson? {v : Json} {g : Graph} (h : ofJson? v = some g) :
    ∀ w ∈ g.freeValues, Given v w := by
  simp only [ofJson?, Option.bind_eq_bind, Option.bind_eq_some_iff] at h
  rcases h with ⟨ms, hms, nodes, hnodes, edges, -, heq⟩
  rcases exists_of_required hnodes with ⟨list, hlist, hread⟩
  have hwithin : Within v list := by
    cases v with
    | obj members =>
        cases hms
        exact .member .root hlist
    | _ => cases hms
  cases heq
  refine List.forall_mem_flatMap.2 fun n hn => ?_
  rcases exists_of_mem_list? hwithin.inside hread n hn with ⟨w, hw, hnode⟩
  exact Node.given_of_ofJson? hw hnode

theorem ofJson?_toJson {g : Graph} : ofJson? g.toJson = some g <-> null ∉ g.freeValues := by
  constructor
  · intro h hnull
    exact (given_of_ofJson? h null hnull).notNull rfl
  · intro h
    exact ofJson?_form .written fun v hv => ⟨ne_of_mem_of_not_mem hv h, rfl⟩

theorem ofJson?_canonical {g : Graph} : ofJson? g.toJson.canonical = some g <->
    null ∉ g.freeValues ∧ ∀ v ∈ g.freeValues, v.canonical = v := by
  constructor
  · intro h
    have hgiven := given_of_ofJson? h
    exact ⟨fun hnull => (hgiven null hnull).notNull rfl,
      fun v hv => (hgiven v hv).within.canonical_eq (canonical_canonical g.toJson)⟩
  · intro h
    exact ofJson?_form .sorted fun v hv => ⟨ne_of_mem_of_not_mem hv h.1, h.2 v hv⟩

end Graph

/-!
# Rebuilt graphs
-/

namespace Indexed

/-- Whatever is looked up in the index is what a search of the nodes and edges of a graph finds. -/
structure Answers (x : Indexed) (g : Graph) : Prop where
  contains : ∀ id, x.contains id = g.contains id
  node? : ∀ id, x.node? id = g.node? id
  children? : ∀ id, x.children? id = if g.contains id then some (g.children id) else none
  chain : ∀ s, x.chain s = g.chain s
  scopeOf? : ∀ id, x.scopeOf? id = g.scopeOf? id
  order : x.order = g.order

theorem answers (x : Indexed) : x.Answers x.toGraph where
  contains := x.contains_eq
  node? := x.node?_eq
  children? := x.children?_eq
  chain := x.chain_eq
  scopeOf? := x.scopeOf?_eq
  order := x.order_eq

theorem ofDump?_eq_some {v : Json} {x : Indexed} :
    ofDump? v = some x <-> Graph.ofJson? v = some x.toGraph := by
  unfold ofDump?
  constructor
  · intro h
    rcases Option.map_eq_some_iff.1 h with ⟨g, hg, rfl⟩
    exact hg
  · intro h
    rw [h, Option.map_some, ofGraph_toGraph]

/-- A graph is rebuilt from its dump unless one of its free values is null, and then every query of
the rebuilt index has the answer that the original has, which is what its nodes and edges say. -/
theorem ofDump?_dump (x : Indexed) :
    (ofDump? x.dump = some x <-> null ∉ x.freeValues) ∧
    (ofDump? x.dump.canonical = some x <->
      null ∉ x.freeValues ∧ ∀ v ∈ x.freeValues, v.canonical = v) ∧
    ((∀ v ∈ x.freeValues, v.Storable) -> (parse? x.dump.pretty).bind ofDump? =
      if x.dump.depth <= maxDepth then some x else none) ∧
    (null ∉ x.freeValues -> ∃ y, ofDump? x.dump = some y ∧ y.nodes = x.nodes ∧
      y.edges = x.edges ∧ y.Answers x.toGraph ∧ x.Answers x.toGraph) ∧
    ∀ v, ofDump? v = some x -> null ∉ x.freeValues := by
  have hwritten : ofDump? x.dump = some x <-> null ∉ x.freeValues :=
    ofDump?_eq_some.trans Graph.ofJson?_toJson
  refine ⟨hwritten, ofDump?_eq_some.trans Graph.ofJson?_canonical, fun h => ?_, fun h => ?_,
    fun v hv => ?_⟩
  · have hexact : x.dump.Exact := Graph.exact_toJson fun v hv => (h v hv).exact
    have hread : ofDump? x.dump.canonical = some x :=
      ofDump?_eq_some.2 (Graph.ofJson?_canonical.2
        ⟨fun hnull => (h null hnull).notNull rfl, fun v hv => (h v hv).canonical⟩)
    rw [parse?_pretty hexact]
    split
    · exact hread
    · rfl
  · exact ⟨x, hwritten.2 h, rfl, rfl, x.answers, x.answers⟩
  · intro hnull
    exact (Graph.given_of_ofJson? (ofDump?_eq_some.1 hv) null hnull).notNull rfl

/-- A conditional with a request in its first branch. -/
def retried : Indexed :=
  ofParts
    [⟨"choice", none, .block { label := "choice" } (.conditional .fresh)⟩,
     ⟨"begin", some "choice", .start⟩,
     ⟨"post", some "choice", .block { label := "post", model := some "fast" }
       (.leaf (.httpRequest { body := some (.obj [("amount", .int (-7))]) }))⟩,
     ⟨"end", some "choice", .insertionMarker⟩]
    [⟨"e1", "begin", "post", .branch, some ⟨"choice", "branch_1"⟩, false⟩,
     ⟨"e2", "post", "end", .branch, some ⟨"choice", "branch_1"⟩, false⟩,
     ⟨"e3", "begin", "end", .branch, some ⟨"choice", "branch_2"⟩, true⟩]

theorem ofDump?_dump_retried : null ∉ retried.freeValues ∧
    (∀ v ∈ retried.freeValues, v.Storable) ∧
    (parse? retried.dump.pretty).bind ofDump? = some retried ∧
    ∃ y, ofDump? retried.dump = some y ∧ y.childIds "choice" = ["begin", "post", "end"] ∧
      y.chain (.ofBranch "choice" "branch_1") = ["begin", "post", "end"] ∧
      y.scopeOf? "post" = some (.ofBranch "choice" "branch_1") := by
  have hstorable : ∀ v ∈ retried.freeValues, v.Storable := by
    intro v hv
    have hmem : v ∈ [.obj [("amount", .int (-7))]] := hv
    cases List.mem_singleton.1 hmem
    exact ⟨⟨by rfl, (by decide : fitsInteger (-7)), trivial⟩, Json.noConfusion⟩
  have hnull : null ∉ retried.freeValues := fun h => (hstorable null h).notNull rfl
  have hdepth : retried.dump.depth <= maxDepth := by decide +kernel
  rcases ofDump?_dump retried with ⟨-, -, htext, hrebuilt, -⟩
  rcases hrebuilt hnull with ⟨y, hy, hnodes, -, hanswers, -⟩
  refine ⟨hnull, hstorable, ?_, y, hy, ?_, ?_, ?_⟩
  · rw [htext hstorable, if_pos hdepth]
  · rw [childIds_eq, Graph.childIds, hnodes]
    decide
  · rw [hanswers.chain]
    decide
  · rw [hanswers.scopeOf?]
    decide

end Indexed
end Workflow
