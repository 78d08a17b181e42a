import Workflow.Block.Basic
import Workflow.Text.Blank

/-!
# Required attributes

Each kind names the attributes without which a block cannot run.  A text counts as
empty when it is blank.
-/

namespace Workflow

open Text

def emptyField (isEmpty : Bool) (name : String) : List String :=
  if isEmpty then [name] else []

namespace Leaf

def missing : Leaf -> List String
  | task a =>
      emptyField (isBlank a.navigationGoal && isBlank a.dataExtractionGoal)
        "navigation_goal"
  | code a => emptyField (isBlank a.code) "code"
  | textPrompt a => emptyField (isBlank a.prompt) "prompt"
  | httpRequest a => emptyField (isBlank a.url) "url"
  | extraction a => emptyField (isBlank a.dataExtractionGoal) "data_extraction_goal"
  | fileDownload a => emptyField (isBlank a.navigationGoal) "navigation_goal"
  | login a => emptyField (isBlank a.url) "url"
  | sendEmail a =>
      emptyField a.recipients.isEmpty "recipients" ++
      emptyField (isBlank a.subject) "subject"
  | wait a => emptyField (a.waitSec == 0) "wait_sec"
  | gotoUrl a => emptyField (isBlank a.url) "url"
  | pdfParser a => emptyField (isBlank a.fileUrl) "file_url"
  | fileParser a => emptyField (isBlank a.fileUrl) "file_url"
  | validation a =>
      emptyField (isBlank a.completeCriterion && isBlank a.terminateCriterion)
        "complete_criterion"

end Leaf

namespace Branch

/-- Every branch but a default one needs an expression. -/
def lacksExpression (b : Branch) : Bool :=
  !b.isDefault &&
    match b.expression with
    | some e => isBlank e
    | none => true

end Branch

namespace Block

def missing : Block -> List String
  | leaf l => l.missing
  | loop a => emptyField a.loopOver.isNone "loop_over"
  | conditional c =>
      c.branches.zipIdx.flatMap fun (b, i) =>
        emptyField b.lacksExpression s!"branches[{i}].expression"

end Block
end Workflow
