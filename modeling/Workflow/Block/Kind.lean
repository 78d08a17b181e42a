import Workflow.Json.Record

/-!
# Block kinds

There are fifteen kinds of block.  Loops and conditionals are containers: they own
a nested body.
-/

namespace Workflow

inductive Kind where
  | task
  | loop
  | conditional
  | code
  | textPrompt
  | httpRequest
  | extraction
  | fileDownload
  | login
  | sendEmail
  | wait
  | gotoUrl
  | pdfParser
  | fileParser
  | validation
  deriving DecidableEq, Repr, Inhabited

namespace Kind

def name : Kind -> String
  | task => "task"
  | loop => "loop"
  | conditional => "conditional"
  | code => "code"
  | textPrompt => "text_prompt"
  | httpRequest => "http_request"
  | extraction => "extraction"
  | fileDownload => "file_download"
  | login => "login"
  | sendEmail => "send_email"
  | wait => "wait"
  | gotoUrl => "goto_url"
  | pdfParser => "pdf_parser"
  | fileParser => "file_parser"
  | validation => "validation"

/-- Every kind, in the order documents number them in. -/
def all : List Kind :=
  [task, loop, conditional, code, textPrompt, httpRequest, extraction,
   fileDownload, login, sendEmail, wait, gotoUrl, pdfParser, fileParser,
   validation]

instance : Json.Named Kind := ⟨all, name⟩

/-- A kind by its name or by its place among all kinds. -/
def ofNameOrNumber? : Json -> Option Kind
  | .str name => Json.Named.ofName? name
  | .int n => if 0 <= n then all[n.toNat]? else none
  | _ => none

def isContainer : Kind -> Bool
  | loop => true
  | conditional => true
  | _ => false

end Kind
end Workflow
