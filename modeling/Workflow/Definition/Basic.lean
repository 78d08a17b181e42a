import Workflow.Block.Basic
import Workflow.Definition.Parameter

/-!
# Definitions

A definition is the document form of a workflow: its title, its parameters, and its
blocks in order.  The body of a container is nested inside it, a list of blocks for
a loop and one list for each branch of a conditional.
-/

namespace Workflow

inductive Descriptor where
  | leaf (heading : Heading) (l : Leaf)
  | loop (heading : Heading) (a : Attributes.Loop) (children : List Descriptor)
  | conditional (heading : Heading) (branches : List (Branch × List Descriptor))

namespace Descriptor

def heading : Descriptor -> Heading
  | leaf h _ => h
  | loop h _ _ => h
  | conditional h _ => h

def label (d : Descriptor) : String :=
  d.heading.label

/-- The attributes of a descriptor as a block of its own; the first branch is shown. -/
def block : Descriptor -> Block
  | leaf _ l => .leaf l
  | loop _ a _ => .loop a
  | conditional _ branches =>
      .conditional
        { branches := branches.map Prod.fst
          active := (branches.head?.map fun b => b.1.id).getD "" }

/-!
# Document order

A block comes before its body, the branches of a conditional in the order they are
declared in, and a body before the block that follows its container.
-/

mutual

def inOrder : Descriptor -> List Descriptor
  | leaf h l => [leaf h l]
  | loop h a children => loop h a children :: listInOrder children
  | conditional h branches => conditional h branches :: branchesInOrder branches

def listInOrder : List Descriptor -> List Descriptor
  | [] => []
  | d :: rest => inOrder d ++ listInOrder rest

def branchesInOrder : List (Branch × List Descriptor) -> List Descriptor
  | [] => []
  | (_, children) :: rest => listInOrder children ++ branchesInOrder rest

end

end Descriptor

/-!
# The document
-/

structure Definition where
  version : UInt32
  title : String
  parameters : List Parameter
  blocks : List Descriptor

/-- What a definition holds beside its version and its blocks. -/
structure FrontMatter where
  title : String
  parameters : List Parameter := []

namespace Definition

def currentVersion : UInt32 := 3

def empty (title : String) : Definition :=
  ⟨currentVersion, title, [], []⟩

def allBlocks (d : Definition) : List Descriptor :=
  Descriptor.listInOrder d.blocks

def labels (d : Definition) : List String :=
  d.allBlocks.map Descriptor.label

end Definition
end Workflow
