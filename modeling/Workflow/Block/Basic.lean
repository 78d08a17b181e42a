import Workflow.Block.Attributes.Basic
import Workflow.Block.Kind

/-!
# Blocks

A block is one unit of work with the attributes of its kind.  Thirteen kinds are
leaves; a loop has attributes of its own, and a conditional lists its branches and
which of them is shown.
-/

namespace Workflow

/-!
# Leaves
-/

inductive Leaf where
  | task (a : Attributes.Task)
  | code (a : Attributes.Code)
  | textPrompt (a : Attributes.TextPrompt)
  | httpRequest (a : Attributes.HttpRequest)
  | extraction (a : Attributes.Extraction)
  | fileDownload (a : Attributes.FileDownload)
  | login (a : Attributes.Login)
  | sendEmail (a : Attributes.SendEmail)
  | wait (a : Attributes.Wait)
  | gotoUrl (a : Attributes.GotoUrl)
  | pdfParser (a : Attributes.PdfParser)
  | fileParser (a : Attributes.FileParser)
  | validation (a : Attributes.Validation)
  deriving BEq, Repr

namespace Leaf

def kind : Leaf -> Kind
  | task _ => .task
  | code _ => .code
  | textPrompt _ => .textPrompt
  | httpRequest _ => .httpRequest
  | extraction _ => .extraction
  | fileDownload _ => .fileDownload
  | login _ => .login
  | sendEmail _ => .sendEmail
  | wait _ => .wait
  | gotoUrl _ => .gotoUrl
  | pdfParser _ => .pdfParser
  | fileParser _ => .fileParser
  | validation _ => .validation

end Leaf

/-!
# Branches
-/

/-- One alternative path of a conditional.  `mergeLabel` names the block at which the
path joins the main chain again. -/
structure Branch where
  id : String
  label : String
  expression : Option String := none
  mergeLabel : Option String := none
  isDefault : Bool := false
  deriving DecidableEq, Repr

structure Conditional where
  branches : List Branch
  active : String
  deriving DecidableEq, Repr

namespace Conditional

def branchIds (c : Conditional) : List String :=
  c.branches.map Branch.id

def hasBranch (c : Conditional) (id : String) : Bool :=
  c.branches.any fun b => b.id == id

/-- Two paths, the first of which is shown and still needs its expression. -/
def fresh : Conditional where
  branches :=
    [{ id := "branch_1", label := "If", expression := some "" },
     { id := "branch_2", label := "Else", isDefault := true }]
  active := "branch_1"

end Conditional

/-!
# Blocks
-/

inductive Block where
  | leaf (l : Leaf)
  | loop (a : Attributes.Loop)
  | conditional (c : Conditional)
  deriving BEq, Repr

namespace Block

def kind : Block -> Kind
  | leaf l => l.kind
  | loop _ => .loop
  | conditional _ => .conditional

def isContainer (b : Block) : Bool :=
  b.kind.isContainer

def conditional? : Block -> Option Conditional
  | conditional c => some c
  | _ => none

def fresh : Kind -> Block
  | .task => leaf (.task {})
  | .loop => loop {}
  | .conditional => conditional .fresh
  | .code => leaf (.code {})
  | .textPrompt => leaf (.textPrompt {})
  | .httpRequest => leaf (.httpRequest {})
  | .extraction => leaf (.extraction {})
  | .fileDownload => leaf (.fileDownload {})
  | .login => leaf (.login {})
  | .sendEmail => leaf (.sendEmail {})
  | .wait => leaf (.wait {})
  | .gotoUrl => leaf (.gotoUrl {})
  | .pdfParser => leaf (.pdfParser {})
  | .fileParser => leaf (.fileParser {})
  | .validation => leaf (.validation {})

end Block

/-- What a block of any kind carries beside its attributes. -/
structure Heading where
  label : String
  continueOnFailure : Bool := false
  model : Option String := none
  deriving DecidableEq, Repr

end Workflow
