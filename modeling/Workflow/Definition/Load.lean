import Workflow.Json.Reader
import Workflow.Definition.Json
import Workflow.Definition.Upgrade

/-!
# Loading definitions

A text is read as JSON, lifted from the version it names to the current one, and
then read as a definition.
-/

namespace Workflow

inductive LoadError where
  | notJson
  | notADefinition
  | missingVersion
  | upgrade (e : UpgradeError)
  deriving DecidableEq, Repr

namespace LoadError

def message : LoadError -> String
  | notJson => "invalid definition JSON: the text is not JSON"
  | notADefinition => "invalid definition JSON: the value is not a definition"
  | missingVersion => "definition has no version"
  | upgrade e => e.message

end LoadError

namespace Definition

open Json

/-- The version a document names, if it is a natural number. -/
def version? (v : Json) : Option Nat :=
  match v.get? "version" with
  | some (int n) => if 0 <= n then some n.toNat else none
  | _ => none

def ofDocument? (v : Json) : Except LoadError Definition :=
  match version? v with
  | none => .error .missingVersion
  | some n =>
      if UInt32.size <= n then .error (.upgrade (.malformed (.versionOutOfRange n)))
      else
        match Workflow.upgrade v (UInt32.ofNat n) with
        | .error e => .error (.upgrade e)
        | .ok (w, _) =>
            match ofJson? w with
            | none => .error .notADefinition
            | some d => .ok d

def load? (text : String) : Except LoadError Definition :=
  match parse? text with
  | none => .error .notJson
  | some v => ofDocument? v

end Definition
end Workflow
