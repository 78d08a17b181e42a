import Mathlib.Data.List.Duplicate
import Workflow.Proofs.Edit.Insertion

/-!
# Tidy graphs

In a tidy graph the kind of an edge follows from its tag and its target, edges without a tag
can be seen, and no edge repeats another.  Only the edges of a branch that its conditional lists
twice may be doubled, since an empty body has one edge for each entry of the list.
-/

namespace Workflow

/-!
# The rules
-/

/-- The kind of an edge into a node, unless it has a tag. -/
def Role.entry : Role -> EdgeKind
  | .insertionMarker => .plain
  | _ => .insertable

theorem Role.entry_of_isBlock {r : Role} (h : r.isBlock) : r.entry = .insertable := by
  cases r <;> first | rfl | cases h

/-- A tagged edge is one of a branch.  Any other can be seen and is of the kind that its target
calls for. -/
def Edge.Ruled (slots : List Slot) (e : Edge) : Prop :=
  match e.tag with
  | some _ => e.kind = .branch
  | none => e.hidden = false ∧ ∃ x ∈ slots, x.id = e.target ∧ e.kind = x.role.entry

/-- The tag of a branch that its conditional lists more than once. -/
def Doubled (slots : List Slot) (tag : Option BranchTag) : Prop :=
  ∃ x ∈ slots, ∃ branches b, x.role = .conditional branches ∧ tag = some ⟨x.id, b⟩ ∧
    List.Duplicate b branches

/-- An edge counts the same for the rules as another one. -/
structure Edge.Alike (e' e : Edge) : Prop where
  link : e'.link = e.link
  kind : e'.kind = e.kind
  hidden : e.tag = none -> e'.hidden = e.hidden

theorem Edge.Alike.refl (e : Edge) : e.Alike e :=
  ⟨rfl, rfl, fun _ => rfl⟩

structure Graph.Tidy (g : Graph) : Prop where
  ruled : ∀ e ∈ g.edges, e.Ruled g.shape.slots
  single : g.shape.links.Pairwise fun l m => l = m -> Doubled g.shape.slots l.tag

namespace Edge

variable {slots slots' : List Slot} {e e' : Edge}

theorem ruled_of_tag {t : BranchTag} (ht : e.tag = some t) :
    e.Ruled slots <-> e.kind = .branch := by
  rw [Ruled, ht]

theorem ruled_of_untagged (ht : e.tag = none) : e.Ruled slots <->
    e.hidden = false ∧ ∃ x ∈ slots, x.id = e.target ∧ e.kind = x.role.entry := by
  rw [Ruled, ht]

theorem Ruled.transfer (h : e.Ruled slots) (htag : e'.tag = e.tag) (htarget : e'.target = e.target)
    (hkind : e'.kind = e.kind) (hhidden : e.tag = none -> e'.hidden = e.hidden)
    (hslots : ∀ x ∈ slots, x.id = e.target ->
      ∃ y ∈ slots', y.id = x.id ∧ y.role.entry = x.role.entry) : e'.Ruled slots' := by
  cases ht : e.tag with
  | some t =>
      rw [ruled_of_tag (htag.trans ht), hkind]
      exact (ruled_of_tag ht).1 h
  | none =>
      obtain ⟨hseen, x, hx, hxid, hxkind⟩ := (ruled_of_untagged ht).1 h
      obtain ⟨y, hy, hyid, hyrole⟩ := hslots x hx hxid
      rw [ruled_of_untagged (htag.trans ht), hkind, htarget]
      exact ⟨(hhidden ht).trans hseen, y, hy, hyid.trans hxid, hxkind.trans hyrole.symm⟩

theorem Ruled.mono (h : e.Ruled slots) (hslots : slots ⊆ slots') : e.Ruled slots' :=
  h.transfer rfl rfl rfl (fun _ => rfl) fun x hx _ => ⟨x, hslots hx, rfl, rfl⟩

theorem Ruled.kind_eq (h : e.Ruled slots) (h' : e'.Ruled slots) (hids : (slots.map Slot.id).Nodup)
    (htag : e'.tag = e.tag) (htarget : e'.target = e.target) : e'.kind = e.kind := by
  cases ht : e.tag with
  | some t => rw [(ruled_of_tag ht).1 h, (ruled_of_tag (htag.trans ht)).1 h']
  | none =>
      obtain ⟨-, x, hx, hxid, hxkind⟩ := (ruled_of_untagged ht).1 h
      obtain ⟨-, y, hy, hyid, hykind⟩ := (ruled_of_untagged (htag.trans ht)).1 h'
      have hyx : y = x :=
        List.inj_on_of_nodup_map hids hy hx (hyid.trans (htarget.trans hxid.symm))
      rw [hxkind, hykind, hyx]

end Edge

theorem Doubled.mono {slots slots' : List Slot} {tag : Option BranchTag} (h : Doubled slots tag)
    (hslots : slots ⊆ slots') : Doubled slots' tag := by
  obtain ⟨x, hx, rest⟩ := h
  exact ⟨x, hslots hx, rest⟩

theorem Graph.ruled_kindInto {g : Graph} (hids : g.shape.ids.Nodup) {target : String}
    (htarget : target ∈ g.shape.ids) {tag : Option BranchTag} {hidden : Bool}
    (hhidden : tag = none -> hidden = false) (id source : String) :
    Edge.Ruled g.shape.slots ⟨id, source, target, g.kindInto target tag, tag, hidden⟩ := by
  obtain ⟨x, hx, rfl⟩ := List.mem_map.1 htarget
  obtain ⟨n, hn, rfl⟩ := mem_slots.1 hx
  unfold Edge.Ruled kindInto
  cases tag with
  | some t => rfl
  | none =>
      refine ⟨hhidden rfl, n.slot, hx, rfl, ?_⟩
      rw [Node.slot_id, node?_eq_some hids hn]
      simp only [Option.isSome_none, Bool.false_eq_true, if_false, Option.any_some,
        ← Node.slot_role_eq_insertionMarker]
      cases n.slot.role <;> simp [Role.entry]

/-!
# Graphs that lose and gain edges
-/

namespace Graph

variable {g g' : Graph}

/-- Edges may go, and nodes may change as long as they count the same for the rules. -/
theorem Tidy.transfer (h : g.Tidy) (hlinks : g'.shape.links.Sublist g.shape.links)
    (hedges : ∀ e' ∈ g'.edges, ∃ e ∈ g.edges, e'.Alike e)
    (hslots : ∀ e ∈ g'.edges, ∀ x ∈ g.shape.slots, x.id = e.target ->
      ∃ y ∈ g'.shape.slots, y.id = x.id ∧ y.role.entry = x.role.entry)
    (hdoubled : ∀ l ∈ g'.shape.links, Doubled g.shape.slots l.tag ->
      Doubled g'.shape.slots l.tag) : g'.Tidy where
  ruled := by
    intro e' he'
    obtain ⟨e, he, hlink, hkind, hhidden⟩ := hedges e' he'
    have htarget : e'.target = e.target := congrArg Link.target hlink
    refine (h.ruled e he).transfer (congrArg Link.tag hlink) htarget hkind hhidden ?_
    exact fun x hx hxid => hslots e' he' x hx (hxid.trans htarget.symm)
  single := (h.single.sublist hlinks).imp_of_mem fun hl _ hlm heq => hdoubled _ hl (hlm heq)

theorem Tidy.of_shape (h : g.Tidy) (hshape : g'.shape = g.shape)
    (hedges : ∀ e' ∈ g'.edges, ∃ e ∈ g.edges, e'.Alike e) : g'.Tidy := by
  refine h.transfer ?_ hedges (fun e _ x hx _ => ⟨x, ?_, rfl, rfl⟩) fun l _ hd => ?_
  · rw [hshape]
  · rwa [hshape]
  · rwa [hshape]

theorem Tidy.of_edges (h : g.Tidy) (hshape : g'.shape = g.shape) (hedges : g'.edges = g.edges) :
    g'.Tidy :=
  h.of_shape hshape fun e he => ⟨e, hedges ▸ he, .refl _⟩

/-- A block may have another role, if a conditional still lists the branches twice that have
edges and that it listed twice before. -/
theorem Tidy.withRole (h : g.Tidy) (hids : g.shape.ids.Nodup) {x : Slot} (hx : x ∈ g.shape.slots)
    (hblock : x.role.isBlock) {r : Role} (hr : r.isBlock)
    (hslots : g'.shape.slots = Shape.withRole x.id r g.shape.slots)
    (hlinks : g'.shape.links.Sublist g.shape.links)
    (hedges : ∀ e' ∈ g'.edges, ∃ e ∈ g.edges, e'.Alike e)
    (hlisted : ∀ l ∈ g'.shape.links, ∀ branches b, x.role = .conditional branches ->
      l.tag = some ⟨x.id, b⟩ -> List.Duplicate b branches ->
        ∃ others, r = .conditional others ∧ List.Duplicate b others) : g'.Tidy := by
  have hmem : ∀ y ∈ g.shape.slots, y.withRole x.id r ∈ g'.shape.slots := fun y hy =>
    hslots ▸ List.mem_map_of_mem hy
  have hsame : ∀ y ∈ g.shape.slots, y.id = x.id -> y = x := fun y hy hyid =>
    List.inj_on_of_nodup_map hids hy hx hyid
  refine h.transfer hlinks hedges (fun e _ y hy _ => ?_) fun l hl hd => ?_
  · refine ⟨_, hmem y hy, y.withRole_id _ _, ?_⟩
    unfold Slot.withRole
    split
    · next hyid =>
        rw [hsame y hy hyid, Role.entry_of_isBlock hblock]
        exact Role.entry_of_isBlock hr
    · rfl
  · obtain ⟨y, hy, branches, b, hrole, htag, hduplicate⟩ := hd
    refine ⟨_, hmem y hy, ?_⟩
    rw [Slot.withRole_id]
    unfold Slot.withRole
    split
    · next hyid =>
        obtain rfl := hsame y hy hyid
        obtain ⟨others, rfl, hothers⟩ := hlisted l hl branches b hrole htag hduplicate
        exact ⟨others, b, rfl, htag, hothers⟩
    · exact ⟨branches, b, hrole, htag, hduplicate⟩

/-- Edges may come that are ruled and repeat none. -/
theorem Tidy.extend (h : g.Tidy) (hslots : g.shape.slots ⊆ g'.shape.slots) {new : List Edge}
    (hedges : g'.edges = g.edges ++ new) (hruled : ∀ e ∈ new, e.Ruled g'.shape.slots)
    (hsingle : (new.map Edge.link).Pairwise fun l m => l = m -> Doubled g'.shape.slots l.tag)
    (hnew : ∀ e ∈ new, e.link ∉ g.shape.links) : g'.Tidy where
  ruled := by
    intro e he
    rw [hedges] at he
    rcases List.mem_append.1 he with he | he
    · exact (h.ruled e he).mono hslots
    · exact hruled e he
  single := by
    have hlinks : g'.shape.links = g.shape.links ++ new.map Edge.link := by
      rw [shape, shape, hedges, List.map_append]
    rw [hlinks]
    refine List.pairwise_append.2 ⟨h.single.imp fun hlm heq => (hlm heq).mono hslots, hsingle, ?_⟩
    rintro l hl m hm rfl
    obtain ⟨e, he, rfl⟩ := List.mem_map.1 hm
    exact absurd hl (hnew e he)

end Graph

namespace Draft

variable {d : Draft}

theorem tidy_addNode (h : d.graph.Tidy) (p : Option String) (c : Content) :
    (d.addNode p c).2.graph.Tidy := by
  have hslots : d.graph.shape.slots ⊆ (d.addNode p c).2.graph.shape.slots := by
    rw [shape_addNode]
    exact List.subset_append_left _ _
  exact h.extend hslots (List.append_nil _).symm (fun e he => absurd he List.not_mem_nil)
    List.Pairwise.nil fun e he => absurd he List.not_mem_nil

theorem tidy_addEdge (h : d.graph.Tidy) {source target : String} {kind : EdgeKind}
    {tag : Option BranchTag} {hidden : Bool}
    (hruled : ∀ id, Edge.Ruled d.graph.shape.slots ⟨id, source, target, kind, tag, hidden⟩)
    (hnew : ⟨source, target, tag⟩ ∉ d.graph.shape.links) :
    (d.addEdge source target kind tag hidden).graph.Tidy := by
  refine h.extend (fun x hx => hx) rfl (fun e he => ?_) (List.pairwise_singleton _ _) fun e he => ?_
  · rw [List.mem_singleton.1 he]
    exact hruled _
  · rw [List.mem_singleton.1 he]
    exact hnew

theorem tidy_emptyState (s : Supply) : (emptyState s).graph.Tidy where
  ruled := by
    intro e he
    rw [shape_emptyState]
    obtain rfl := List.mem_singleton.1 he
    exact ⟨rfl, ⟨s.upcoming 2, none, .insertionMarker⟩, by simp [Shape.markers], rfl, rfl⟩
  single := by
    rw [shape_emptyState]
    exact List.pairwise_singleton _ _

end Draft
end Workflow
