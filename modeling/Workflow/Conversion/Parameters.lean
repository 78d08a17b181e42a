import Workflow.Block.Reference
import Workflow.Definition.Parameter
import Workflow.Graph.Basic

/-!
# Reconciling parameters

A definition lists every key once.  When a block refers to a login kept in a password
vault, the parameters that give access to the vault are listed too.
-/

namespace Workflow

/-- The parameters that come first with their keys. -/
def firstOfKeys (parameters : List Parameter) (seen : List String := []) :
    List Parameter :=
  match parameters with
  | [] => []
  | p :: rest =>
      if seen.contains p.key then firstOfKeys rest seen
      else p :: firstOfKeys rest (p.key :: seen)

/-- The access parameters of the vault, each a secret of the cloud provider. -/
def vaultAccess : List Parameter :=
  [{ key := "vault_client_id", source := .awsSecret "VAULT_CLIENT_ID" },
   { key := "vault_client_secret", source := .awsSecret "VAULT_CLIENT_SECRET" },
   { key := "vault_master_password", source := .awsSecret "VAULT_MASTER_PASSWORD" }]

namespace Graph

/-- Whether a block refers to one of the parameters that are a vault login. -/
def usesVault (g : Graph) (parameters : List Parameter) : Bool :=
  let logins := (parameters.filter Parameter.isVaultLogin).map Parameter.key
  g.nodes.any fun n =>
    n.block?.any fun b =>
      b.references.any fun (_, r) =>
        match r with
        | .parameter key => logins.contains key
        | _ => false

def reconcile (g : Graph) (parameters : List Parameter) : List Parameter :=
  let explicit := firstOfKeys parameters
  if g.usesVault explicit then
    explicit ++ vaultAccess.filter fun p => !(explicit.map Parameter.key).contains p.key
  else explicit

end Graph
end Workflow
