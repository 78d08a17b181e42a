import Workflow.Block.Attributes.Json
import Workflow.Block.Basic

/-!
# Blocks in JSON

The member `block_type` names the kind of a block and the other members are its
attributes.
-/

namespace Workflow

open Json

/-!
# Leaves
-/

namespace Leaf

open Attributes

def read (fields : List String) (ofMembers? : Members -> Option α) (leaf : α -> Leaf)
    (content : Json) : Option Leaf :=
  ((record? fields content).bind ofMembers?).map leaf

def ofContent? : Kind -> Json -> Option Leaf
  | .task => read Task.fields Task.ofMembers? task
  | .code => read Code.fields Code.ofMembers? code
  | .textPrompt => read TextPrompt.fields TextPrompt.ofMembers? textPrompt
  | .httpRequest => read HttpRequest.fields HttpRequest.ofMembers? httpRequest
  | .extraction => read Extraction.fields Extraction.ofMembers? extraction
  | .fileDownload => read FileDownload.fields FileDownload.ofMembers? fileDownload
  | .login => read Login.fields Login.ofMembers? login
  | .sendEmail => read SendEmail.fields SendEmail.ofMembers? sendEmail
  | .wait => read Wait.fields Wait.ofMembers? wait
  | .gotoUrl => read GotoUrl.fields GotoUrl.ofMembers? gotoUrl
  | .pdfParser => read PdfParser.fields PdfParser.ofMembers? pdfParser
  | .fileParser => read FileParser.fields FileParser.ofMembers? fileParser
  | .validation => read Validation.fields Validation.ofMembers? validation
  | .loop => fun _ => none
  | .conditional => fun _ => none

def members : Leaf -> Members
  | task a => a.members
  | code a => a.members
  | textPrompt a => a.members
  | httpRequest a => a.members
  | extraction a => a.members
  | fileDownload a => a.members
  | login a => a.members
  | sendEmail a => a.members
  | wait a => a.members
  | gotoUrl a => a.members
  | pdfParser a => a.members
  | fileParser a => a.members
  | validation a => a.members

end Leaf

/-!
# Branches and conditionals
-/

namespace Branch

def fields : List String :=
  ["branch_id", "label", "expression", "merge_label", "is_default"]

def ofMembers? (ms : Members) : Option Branch := do
  let id <- required ms "branch_id" text?
  let label <- required ms "label" text?
  let expression <- optional ms "expression" text?
  let mergeLabel <- optional ms "merge_label" text?
  let isDefault <- defaulted ms "is_default" false flag?
  return { id, label, expression, mergeLabel, isDefault }

def ofJson? (v : Json) : Option Branch :=
  (record? fields v).bind ofMembers?

def members (b : Branch) : Members :=
  [("branch_id", str b.id),
   ("label", str b.label)] ++
  present "expression" str b.expression ++
  present "merge_label" str b.mergeLabel ++
  [("is_default", bool b.isDefault)]

def toJson (b : Branch) : Json :=
  obj b.members

end Branch

namespace Conditional

def fields : List String :=
  ["branches", "active_branch_id"]

def ofMembers? (ms : Members) : Option Conditional := do
  let branches <- required ms "branches" (list? Branch.ofJson?)
  let active <- required ms "active_branch_id" text?
  return { branches, active }

def members (c : Conditional) : Members :=
  [("branches", arr (c.branches.map Branch.toJson)),
   ("active_branch_id", str c.active)]

end Conditional

/-!
# Blocks of any kind
-/

namespace Block

def ofContent? (kind : Kind) (content : Json) : Option Block :=
  match kind with
  | .loop => ((record? Attributes.Loop.fields content).bind
      Attributes.Loop.ofMembers?).map loop
  | .conditional => ((record? Conditional.fields content).bind
      Conditional.ofMembers?).map conditional
  | k => (Leaf.ofContent? k content).map leaf

def ofTagged? (kind? : Json -> Option Kind) (v : Json) : Option Block := do
  let (kind, content) <- tagged? "block_type" kind? v
  ofContent? kind content

/-- A block on its own; its kind is given by name. -/
def ofJson? : Json -> Option Block :=
  ofTagged? fun v => (text? v).bind Named.ofName?

/-- A block inside another tagged record; its kind may also be given by number. -/
def ofNested? : Json -> Option Block :=
  ofTagged? Kind.ofNameOrNumber?

def attributes : Block -> Members
  | leaf l => l.members
  | loop a => a.members
  | conditional c => c.members

def toJson (b : Block) : Json :=
  obj (("block_type", ofName b.kind) :: b.attributes)

end Block
end Workflow
