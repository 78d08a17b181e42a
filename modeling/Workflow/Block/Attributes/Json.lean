import Workflow.Block.Attributes.Basic

/-!
# Attributes in JSON

The attributes of a kind are members of one object.  An optional attribute without a
value is left out, and one that is missing has its default.
-/

namespace Workflow

open Json

namespace Attributes

/-- A table of texts is an object; its members are written in the order of their keys. -/
def headers? (v : Json) : Option (Table String) := do
  let ms <- members? v
  let entries <- ms.mapM fun m => (text? m.2).map fun s => (m.1, s)
  return Table.ofList entries

def ofHeaders (t : Table String) : Json :=
  obj (t.entries.map fun e => (e.1, str e.2))

namespace Task

def fields : List String :=
  ["task_kind", "url", "navigation_goal", "data_extraction_goal", "data_schema",
   "max_retries", "complete_criterion", "terminate_criterion", "parameter_keys"]

def ofMembers? (ms : Members) : Option Task := do
  let d : Task := {}
  let taskKind <- defaulted ms "task_kind" d.taskKind namedInside?
  let url <- defaulted ms "url" d.url text?
  let navigationGoal <- defaulted ms "navigation_goal" d.navigationGoal text?
  let dataExtractionGoal <- defaulted ms "data_extraction_goal" d.dataExtractionGoal text?
  let dataSchema <- optional ms "data_schema" any?
  let maxRetries <- optional ms "max_retries" word32?
  let completeCriterion <- optional ms "complete_criterion" text?
  let terminateCriterion <- optional ms "terminate_criterion" text?
  let parameterKeys <- defaulted ms "parameter_keys" d.parameterKeys texts?
  return { taskKind, url, navigationGoal, dataExtractionGoal,
           dataSchema, maxRetries, completeCriterion, terminateCriterion, parameterKeys }

def members (a : Task) : Members :=
  [("task_kind", ofName a.taskKind),
   ("url", str a.url),
   ("navigation_goal", str a.navigationGoal),
   ("data_extraction_goal", str a.dataExtractionGoal)] ++
  present "data_schema" id a.dataSchema ++
  present "max_retries" ofWord32 a.maxRetries ++
  present "complete_criterion" str a.completeCriterion ++
  present "terminate_criterion" str a.terminateCriterion ++
  [("parameter_keys", ofTexts a.parameterKeys)]

end Task

namespace Loop

def fields : List String :=
  ["loop_over", "complete_if_empty"]

def ofMembers? (ms : Members) : Option Loop := do
  let d : Loop := {}
  let loopOver <- optional ms "loop_over" text?
  let completeIfEmpty <- defaulted ms "complete_if_empty" d.completeIfEmpty flag?
  return { loopOver, completeIfEmpty }

def members (a : Loop) : Members :=
  present "loop_over" str a.loopOver ++
  [("complete_if_empty", bool a.completeIfEmpty)]

end Loop

namespace Code

def fields : List String :=
  ["code", "parameter_keys"]

def ofMembers? (ms : Members) : Option Code := do
  let d : Code := {}
  let code <- defaulted ms "code" d.code text?
  let parameterKeys <- defaulted ms "parameter_keys" d.parameterKeys texts?
  return { code, parameterKeys }

def members (a : Code) : Members :=
  [("code", str a.code),
   ("parameter_keys", ofTexts a.parameterKeys)]

end Code

namespace TextPrompt

def fields : List String :=
  ["prompt", "json_schema", "parameter_keys"]

def ofMembers? (ms : Members) : Option TextPrompt := do
  let d : TextPrompt := {}
  let prompt <- defaulted ms "prompt" d.prompt text?
  let jsonSchema <- optional ms "json_schema" any?
  let parameterKeys <- defaulted ms "parameter_keys" d.parameterKeys texts?
  return { prompt, jsonSchema, parameterKeys }

def members (a : TextPrompt) : Members :=
  [("prompt", str a.prompt)] ++
  present "json_schema" id a.jsonSchema ++
  [("parameter_keys", ofTexts a.parameterKeys)]

end TextPrompt

namespace HttpRequest

def fields : List String :=
  ["method", "url", "headers", "body", "timeout_secs", "parameter_keys"]

def ofMembers? (ms : Members) : Option HttpRequest := do
  let d : HttpRequest := {}
  let method <- defaulted ms "method" d.method namedInside?
  let url <- defaulted ms "url" d.url text?
  let headers <- defaulted ms "headers" d.headers headers?
  let body <- optional ms "body" any?
  let timeoutSecs <- defaulted ms "timeout_secs" d.timeoutSecs word32?
  let parameterKeys <- defaulted ms "parameter_keys" d.parameterKeys texts?
  return { method, url, headers, body, timeoutSecs, parameterKeys }

def members (a : HttpRequest) : Members :=
  [("method", ofName a.method),
   ("url", str a.url),
   ("headers", ofHeaders a.headers)] ++
  present "body" id a.body ++
  [("timeout_secs", ofWord32 a.timeoutSecs),
   ("parameter_keys", ofTexts a.parameterKeys)]

end HttpRequest

namespace Extraction

def fields : List String :=
  ["url", "data_extraction_goal", "data_schema", "parameter_keys"]

def ofMembers? (ms : Members) : Option Extraction := do
  let d : Extraction := {}
  let url <- defaulted ms "url" d.url text?
  let dataExtractionGoal <- defaulted ms "data_extraction_goal" d.dataExtractionGoal text?
  let dataSchema <- optional ms "data_schema" any?
  let parameterKeys <- defaulted ms "parameter_keys" d.parameterKeys texts?
  return { url, dataExtractionGoal, dataSchema, parameterKeys }

def members (a : Extraction) : Members :=
  [("url", str a.url),
   ("data_extraction_goal", str a.dataExtractionGoal)] ++
  present "data_schema" id a.dataSchema ++
  [("parameter_keys", ofTexts a.parameterKeys)]

end Extraction

namespace FileDownload

def fields : List String :=
  ["url", "navigation_goal", "download_suffix", "parameter_keys"]

def ofMembers? (ms : Members) : Option FileDownload := do
  let d : FileDownload := {}
  let url <- defaulted ms "url" d.url text?
  let navigationGoal <- defaulted ms "navigation_goal" d.navigationGoal text?
  let downloadSuffix <- optional ms "download_suffix" text?
  let parameterKeys <- defaulted ms "parameter_keys" d.parameterKeys texts?
  return { url, navigationGoal, downloadSuffix, parameterKeys }

def members (a : FileDownload) : Members :=
  [("url", str a.url),
   ("navigation_goal", str a.navigationGoal)] ++
  present "download_suffix" str a.downloadSuffix ++
  [("parameter_keys", ofTexts a.parameterKeys)]

end FileDownload

namespace Login

def fields : List String :=
  ["url", "navigation_goal", "totp_identifier", "parameter_keys"]

def ofMembers? (ms : Members) : Option Login := do
  let d : Login := {}
  let url <- defaulted ms "url" d.url text?
  let navigationGoal <- defaulted ms "navigation_goal" d.navigationGoal text?
  let totpIdentifier <- optional ms "totp_identifier" text?
  let parameterKeys <- defaulted ms "parameter_keys" d.parameterKeys texts?
  return { url, navigationGoal, totpIdentifier, parameterKeys }

def members (a : Login) : Members :=
  [("url", str a.url),
   ("navigation_goal", str a.navigationGoal)] ++
  present "totp_identifier" str a.totpIdentifier ++
  [("parameter_keys", ofTexts a.parameterKeys)]

end Login

namespace SendEmail

def fields : List String :=
  ["recipients", "subject", "body", "file_attachments"]

def ofMembers? (ms : Members) : Option SendEmail := do
  let d : SendEmail := {}
  let recipients <- defaulted ms "recipients" d.recipients texts?
  let subject <- defaulted ms "subject" d.subject text?
  let body <- defaulted ms "body" d.body text?
  let fileAttachments <- defaulted ms "file_attachments" d.fileAttachments texts?
  return { recipients, subject, body, fileAttachments }

def members (a : SendEmail) : Members :=
  [("recipients", ofTexts a.recipients),
   ("subject", str a.subject),
   ("body", str a.body),
   ("file_attachments", ofTexts a.fileAttachments)]

end SendEmail

namespace Wait

def fields : List String :=
  ["wait_sec"]

def ofMembers? (ms : Members) : Option Wait := do
  let d : Wait := {}
  let waitSec <- defaulted ms "wait_sec" d.waitSec word32?
  return { waitSec }

def members (a : Wait) : Members :=
  [("wait_sec", ofWord32 a.waitSec)]

end Wait

namespace GotoUrl

def fields : List String :=
  ["url"]

def ofMembers? (ms : Members) : Option GotoUrl := do
  let d : GotoUrl := {}
  let url <- defaulted ms "url" d.url text?
  return { url }

def members (a : GotoUrl) : Members :=
  [("url", str a.url)]

end GotoUrl

namespace PdfParser

def fields : List String :=
  ["file_url", "json_schema"]

def ofMembers? (ms : Members) : Option PdfParser := do
  let d : PdfParser := {}
  let fileUrl <- defaulted ms "file_url" d.fileUrl text?
  let jsonSchema <- optional ms "json_schema" any?
  return { fileUrl, jsonSchema }

def members (a : PdfParser) : Members :=
  [("file_url", str a.fileUrl)] ++
  present "json_schema" id a.jsonSchema

end PdfParser

namespace FileParser

def fields : List String :=
  ["file_url", "file_type"]

def ofMembers? (ms : Members) : Option FileParser := do
  let d : FileParser := {}
  let fileUrl <- defaulted ms "file_url" d.fileUrl text?
  let fileType <- defaulted ms "file_type" d.fileType namedInside?
  return { fileUrl, fileType }

def members (a : FileParser) : Members :=
  [("file_url", str a.fileUrl),
   ("file_type", ofName a.fileType)]

end FileParser

namespace Validation

def fields : List String :=
  ["complete_criterion", "terminate_criterion", "parameter_keys"]

def ofMembers? (ms : Members) : Option Validation := do
  let d : Validation := {}
  let completeCriterion <- defaulted ms "complete_criterion" d.completeCriterion text?
  let terminateCriterion <- defaulted ms "terminate_criterion" d.terminateCriterion text?
  let parameterKeys <- defaulted ms "parameter_keys" d.parameterKeys texts?
  return { completeCriterion, terminateCriterion, parameterKeys }

def members (a : Validation) : Members :=
  [("complete_criterion", str a.completeCriterion),
   ("terminate_criterion", str a.terminateCriterion),
   ("parameter_keys", ofTexts a.parameterKeys)]

end Validation

end Attributes

end Workflow
