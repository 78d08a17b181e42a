import Workflow.Definition.Basic
import Workflow.Draft

/-!
# From definitions to drafts

Every body of a definition becomes a chain between markers of its own, and the first
branch of a conditional is the one shown.  A definition at another version has no graph, and
neither has one with two blocks of one label, at whatever levels they are nested: the labels
are gone over in document order until one comes again.
-/

namespace Workflow

inductive ImportError where
  | unsupportedVersion (found : UInt32)
  | duplicateLabel (label : String)
  deriving DecidableEq, Repr

namespace ImportError

def message : ImportError -> String
  | unsupportedVersion found =>
      s!"unsupported definition version {found.toNat}, expected {Definition.currentVersion.toNat}"
  | duplicateLabel label => s!"duplicate block label: {label}"

end ImportError

/-!
# Labels
-/

/-- One more label that is taken, unless a block before has it. -/
def takeLabel (taken : List String) (label : String) : Except ImportError (List String) :=
  if taken.contains label then .error (.duplicateLabel label) else .ok (label :: taken)

namespace Descriptor

mutual

/-- Takes the label of a block and those of everything nested in it. -/
def takeLabels (taken : List String) : Descriptor -> Except ImportError (List String)
  | leaf h _ => takeLabel taken h.label
  | loop h _ children => do
      let taken <- takeLabel taken h.label
      takeListLabels taken children
  | conditional h branches => do
      let taken <- takeLabel taken h.label
      takeBranchLabels taken branches

def takeListLabels (taken : List String) : List Descriptor -> Except ImportError (List String)
  | [] => .ok taken
  | d :: rest => do
      let taken <- takeLabels taken d
      takeListLabels taken rest

def takeBranchLabels (taken : List String) :
    List (Branch × List Descriptor) -> Except ImportError (List String)
  | [] => .ok taken
  | (_, children) :: rest => do
      let taken <- takeListLabels taken children
      takeBranchLabels taken rest

end

end Descriptor

/-!
# Nodes and edges
-/

namespace Draft

/-- The edge of a chain into a node; inside a branch it has the branch's tag. -/
def link (d : Draft) (source target : String) (kind : EdgeKind) (tag : Option BranchTag)
    (hidden : Bool) : Draft :=
  d.addEdge source target (if tag.isSome then .branch else kind) tag hidden

mutual

/-- Adds a block with everything nested in it; answers its id. -/
def addDescriptor (d : Draft) (parent : Option String) : Descriptor -> String × Draft
  | .leaf h l => d.addNode parent (.block h (.leaf l))
  | .loop h a children =>
      let (id, d) := d.addNode parent (.block h (.loop a))
      let (start, d) := d.addNode (some id) .start
      let (marker, d) := d.addNode (some id) .insertionMarker
      (id, addChain d (some id) none false marker start children)
  | .conditional h branches =>
      let block := (Descriptor.conditional h branches).block
      let (id, d) := d.addNode parent (.block h block)
      let (start, d) := d.addNode (some id) .start
      let (marker, d) := d.addNode (some id) .insertionMarker
      (id, addBranches d id start marker false branches)

/-- Adds blocks one after another, from the node before them to the marker. -/
def addChain (d : Draft) (parent : Option String) (tag : Option BranchTag)
    (hidden : Bool) (marker previous : String) : List Descriptor -> Draft
  | [] => d.link previous marker .plain tag hidden
  | b :: rest =>
      let (id, d) := addDescriptor d parent b
      addChain (d.link previous id .insertable tag hidden) parent tag hidden marker id rest

/-- Adds the chains of branches; all but the first one are hidden. -/
def addBranches (d : Draft) (container start marker : String) (hidden : Bool) :
    List (Branch × List Descriptor) -> Draft
  | [] => d
  | (b, children) :: rest =>
      let tag := some ⟨container, b.id⟩
      let d := addChain d (some container) tag hidden marker start children
      addBranches d container start marker true rest

end

def ofBlocks (s : Supply) (blocks : List Descriptor) : Draft :=
  let (start, d) := Draft.addNode { supply := s } none .start
  let (marker, d) := d.addNode none .insertionMarker
  d.addChain none none false marker start blocks

end Draft

namespace Definition

def frontMatter (d : Definition) : FrontMatter :=
  ⟨d.title, d.parameters⟩

def toDraft? (d : Definition) (s : Supply := {}) : Except ImportError Draft :=
  if d.version ≠ currentVersion then .error (.unsupportedVersion d.version)
  else do
    let _ <- Descriptor.takeListLabels [] d.blocks
    return .ofBlocks s d.blocks

end Definition
end Workflow
