import Workflow.Block.Json
import Workflow.Definition.Basic

/-!
# Definitions in JSON

The label, the failure policy and the model of a block stand beside its attributes,
and so does its body: the member `children` of a loop and of each branch, which is
empty when it is missing.  In this form a kind may also be given by its number.
-/

namespace Workflow

open Json

/-!
# Blocks with their bodies
-/

namespace Heading

def ofMembers? (ms : Members) : Option Heading := do
  let label <- required ms "label" text?
  let continueOnFailure <- defaulted ms "continue_on_failure" false flag?
  let model <- optional ms "model" text?
  return { label, continueOnFailure, model }

def members (h : Heading) : Members :=
  [("label", str h.label),
   ("continue_on_failure", bool h.continueOnFailure)] ++
  present "model" str h.model

end Heading

namespace Descriptor

mutual

def ofJson? : Json -> Option Descriptor
  | obj ms => do
      let heading <- Heading.ofMembers? ms
      let kind <- required ms "block_type" Kind.ofNameOrNumber?
      match kind with
      | .loop => do
          let a <- Attributes.Loop.ofMembers? ms
          let children <- childrenOf? ms
          return loop heading a children
      | .conditional => (branchesOf? ms).map (conditional heading)
      | k => (Leaf.ofContent? k (obj ms)).map (leaf heading)
  | _ => none

def childrenOf? : List (String × Json) -> Option (List Descriptor)
  | [] => some []
  | (key, v) :: rest => if key = "children" then listOf? v else childrenOf? rest

def listOf? : Json -> Option (List Descriptor)
  | arr items => itemsOf? items
  | _ => none

def itemsOf? : List Json -> Option (List Descriptor)
  | [] => some []
  | v :: rest => do
      let d <- ofJson? v
      let ds <- itemsOf? rest
      return d :: ds

def branchesOf? : List (String × Json) -> Option (List (Branch × List Descriptor))
  | [] => none
  | (key, v) :: rest => if key = "branches" then branchListOf? v else branchesOf? rest

def branchListOf? : Json -> Option (List (Branch × List Descriptor))
  | arr items => branchItemsOf? items
  | _ => none

def branchItemsOf? : List Json -> Option (List (Branch × List Descriptor))
  | [] => some []
  | v :: rest => do
      let b <- branchOf? v
      let bs <- branchItemsOf? rest
      return b :: bs

def branchOf? : Json -> Option (Branch × List Descriptor)
  | obj ms => do
      let branch <- Branch.ofMembers? ms
      let children <- childrenOf? ms
      return (branch, children)
  | _ => none

end

mutual

def toJson : Descriptor -> Json
  | leaf h l => obj (h.members ++ ("block_type", ofName l.kind) :: l.members)
  | loop h a children =>
      obj (h.members ++ ("block_type", ofName Kind.loop) :: a.members ++
        [("children", arr (listToJson children))])
  | conditional h branches =>
      obj (h.members ++
        [("block_type", ofName Kind.conditional),
         ("branches", arr (branchesToJson branches))])

def listToJson : List Descriptor -> List Json
  | [] => []
  | d :: rest => toJson d :: listToJson rest

def branchesToJson : List (Branch × List Descriptor) -> List Json
  | [] => []
  | (b, children) :: rest =>
      obj (b.members ++ [("children", arr (listToJson children))]) ::
      branchesToJson rest

end

end Descriptor

/-!
# Documents
-/

namespace Definition

def fields : List String :=
  ["version", "title", "parameters", "blocks"]

def ofJson? (v : Json) : Option Definition := do
  let ms <- record? fields v
  let version <- required ms "version" word32?
  let title <- required ms "title" text?
  let parameters <- defaulted ms "parameters" [] (list? Parameter.ofJson?)
  let blocks <- defaulted ms "blocks" [] Descriptor.listOf?
  return { version, title, parameters, blocks }

def toJson (d : Definition) : Json :=
  obj
    [("version", ofWord32 d.version),
     ("title", str d.title),
     ("parameters", arr (d.parameters.map Parameter.toJson)),
     ("blocks", arr (Descriptor.listToJson d.blocks))]

end Definition

namespace FrontMatter

def fields : List String :=
  ["title", "parameters"]

def ofJson? (v : Json) : Option FrontMatter := do
  let ms <- record? fields v
  let title <- required ms "title" text?
  let parameters <- defaulted ms "parameters" [] (list? Parameter.ofJson?)
  return { title, parameters }

end FrontMatter
end Workflow
