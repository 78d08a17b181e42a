import Workflow.Json.Record

/-!
# Attributes of blocks

Every kind of block has a record of attributes.  A conditional has its branches in
their place.
-/

namespace Workflow

/-!
# Names used in attributes
-/

inductive TaskKind where
  | general
  | navigation
  | action
  deriving DecidableEq, Repr

instance : Json.Named TaskKind :=
  ⟨[.general, .navigation, .action], fun
    | .general => "general"
    | .navigation => "navigation"
    | .action => "action"⟩

inductive Method where
  | get
  | post
  | put
  | patch
  | delete
  deriving DecidableEq, Repr

instance : Json.Named Method :=
  ⟨[.get, .post, .put, .patch, .delete], fun
    | .get => "GET"
    | .post => "POST"
    | .put => "PUT"
    | .patch => "PATCH"
    | .delete => "DELETE"⟩

inductive FileType where
  | csv
  | excel
  | pdf
  deriving DecidableEq, Repr

instance : Json.Named FileType :=
  ⟨[.csv, .excel, .pdf], fun
    | .csv => "csv"
    | .excel => "excel"
    | .pdf => "pdf"⟩

/-!
# Attributes

The value given with a field is its default in a document and in a fresh block.
-/

namespace Attributes

structure Task where
  taskKind : TaskKind := .general
  url : String := ""
  navigationGoal : String := ""
  dataExtractionGoal : String := ""
  dataSchema : Option Json := none
  maxRetries : Option UInt32 := none
  completeCriterion : Option String := none
  terminateCriterion : Option String := none
  parameterKeys : List String := []
  deriving BEq, Repr

structure Loop where
  loopOver : Option String := none
  completeIfEmpty : Bool := false
  deriving BEq, Repr

structure Code where
  code : String := ""
  parameterKeys : List String := []
  deriving BEq, Repr

structure TextPrompt where
  prompt : String := ""
  jsonSchema : Option Json := none
  parameterKeys : List String := []
  deriving BEq, Repr

structure HttpRequest where
  method : Method := .get
  url : String := ""
  headers : Table String := .empty
  body : Option Json := none
  timeoutSecs : UInt32 := 30
  parameterKeys : List String := []
  deriving BEq, Repr

structure Extraction where
  url : String := ""
  dataExtractionGoal : String := ""
  dataSchema : Option Json := none
  parameterKeys : List String := []
  deriving BEq, Repr

structure FileDownload where
  url : String := ""
  navigationGoal : String := ""
  downloadSuffix : Option String := none
  parameterKeys : List String := []
  deriving BEq, Repr

structure Login where
  url : String := ""
  navigationGoal : String := ""
  totpIdentifier : Option String := none
  parameterKeys : List String := []
  deriving BEq, Repr

structure SendEmail where
  recipients : List String := []
  subject : String := ""
  body : String := ""
  fileAttachments : List String := []
  deriving BEq, Repr

structure Wait where
  waitSec : UInt32 := 5
  deriving BEq, Repr

structure GotoUrl where
  url : String := ""
  deriving BEq, Repr

structure PdfParser where
  fileUrl : String := ""
  jsonSchema : Option Json := none
  deriving BEq, Repr

structure FileParser where
  fileUrl : String := ""
  fileType : FileType := .csv
  deriving BEq, Repr

structure Validation where
  completeCriterion : String := ""
  terminateCriterion : String := ""
  parameterKeys : List String := []
  deriving BEq, Repr

end Attributes

end Workflow
