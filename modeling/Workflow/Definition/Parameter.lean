import Workflow.Json.Record

/-!
# Parameters

A parameter of a workflow has a key and a source for its value: the caller of the
workflow, a stored credential, another parameter, a password vault, or a secret of
the cloud provider.
-/

namespace Workflow

open Json

inductive ValueType where
  | string
  | integer
  | float
  | boolean
  | json
  | fileUrl
  deriving DecidableEq, Repr

instance : Json.Named ValueType :=
  ⟨[.string, .integer, .float, .boolean, .json, .fileUrl], fun
    | .string => "string"
    | .integer => "integer"
    | .float => "float"
    | .boolean => "boolean"
    | .json => "json"
    | .fileUrl => "file_url"⟩

inductive Source where
  | workflow (valueType : ValueType) (defaultValue : Option Json)
  | credential (credentialId : String)
  | context (sourceKey : String)
  | vaultLogin (collectionId itemId urlKey : Option String)
  | awsSecret (awsKey : String)
  deriving BEq, Repr

structure Parameter where
  key : String
  description : Option String := none
  source : Source
  deriving BEq, Repr

namespace Parameter

def isVaultLogin (p : Parameter) : Bool :=
  match p.source with
  | .vaultLogin _ _ _ => true
  | _ => false

/-!
# In JSON
-/

def typeName : Source -> String
  | .workflow _ _ => "workflow"
  | .credential _ => "credential"
  | .context _ => "context"
  | .vaultLogin _ _ _ => "vault_login_credential"
  | .awsSecret _ => "aws_secret"

/-- The fields of a parameter type after its name. -/
def fields? (name : String) : Option (List String) :=
  if name = "workflow" then
    some ["key", "description", "workflow_parameter_type", "default_value"]
  else if name = "credential" then some ["key", "description", "credential_id"]
  else if name = "context" then some ["key", "description", "source_parameter_key"]
  else if name = "vault_login_credential" then
    some ["key", "description", "collection_id", "item_id", "url_parameter_key"]
  else if name = "aws_secret" then some ["key", "description", "aws_key"]
  else none

def source? (name : String) (ms : Members) : Option Source :=
  if name = "workflow" then do
    let valueType <- required ms "workflow_parameter_type" namedInside?
    let defaultValue <- optional ms "default_value" any?
    return .workflow valueType defaultValue
  else if name = "credential" then
    (required ms "credential_id" text?).map .credential
  else if name = "context" then
    (required ms "source_parameter_key" text?).map .context
  else if name = "vault_login_credential" then do
    let collectionId <- optional ms "collection_id" text?
    let itemId <- optional ms "item_id" text?
    let urlKey <- optional ms "url_parameter_key" text?
    return .vaultLogin collectionId itemId urlKey
  else if name = "aws_secret" then
    (required ms "aws_key" text?).map .awsSecret
  else none

def ofJson? (v : Json) : Option Parameter := do
  let (name, content) <- tagged? "parameter_type" text? v
  let fields <- fields? name
  let ms <- record? fields content
  let key <- required ms "key" text?
  let description <- optional ms "description" text?
  let source <- source? name ms
  return { key, description, source }

def sourceMembers : Source -> Members
  | .workflow valueType defaultValue =>
      ("workflow_parameter_type", ofName valueType) ::
      present "default_value" id defaultValue
  | .credential credentialId => [("credential_id", str credentialId)]
  | .context sourceKey => [("source_parameter_key", str sourceKey)]
  | .vaultLogin collectionId itemId urlKey =>
      present "collection_id" str collectionId ++
      present "item_id" str itemId ++
      present "url_parameter_key" str urlKey
  | .awsSecret awsKey => [("aws_key", str awsKey)]

def toJson (p : Parameter) : Json :=
  obj ([("parameter_type", str (typeName p.source)), ("key", str p.key)] ++
    present "description" str p.description ++ sourceMembers p.source)

end Parameter
end Workflow
