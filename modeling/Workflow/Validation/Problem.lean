import Workflow.Block.Reference

/-!
# Validation problems

A problem is one reason why a graph is no complete workflow.  Problems of a block
call it by its label or, when that is blank, by its id.
-/

namespace Workflow

inductive Problem where
  | duplicateParameter (key : String)
  | parentNotContainer (node parent : String)
  | blankLabel (node : String)
  | duplicateLabel (label : String)
  | emptyField (block field : String)
  | unknownBlock (block : String) (field : Field) (label : String)
  | unknownMergeBlock (block : String) (field : Field) (label : String)
  | unknownParameter (block : String) (field : Field) (key : String)
  | noBranches (block : String)
  | duplicateBranch (block branch : String)
  | undeclaredActive (block branch : String)
  | disconnected (block : String)
  | unknownEnd (edge : String)
  | wrongVisibility (edge : String)
  | undeclaredTag (edge branch conditional : String)
  | cycle
  deriving DecidableEq, Repr

namespace Problem

def message : Problem -> String
  | duplicateParameter key => s!"duplicate parameter key '{key}'"
  | parentNotContainer node parent =>
      s!"node {node} has parent {parent} which is not a loop or conditional"
  | blankLabel node => s!"block {node} has an empty label"
  | duplicateLabel label => s!"duplicate label '{label}'"
  | emptyField block field => s!"{block}: required field '{field}' is empty"
  | unknownBlock block field label =>
      s!"{block}: {field.path} references unknown block '{label}'"
  | unknownMergeBlock block field label =>
      s!"{block}: {field.path} names unknown block '{label}'"
  | unknownParameter block field key =>
      s!"{block}: {field.path} references unknown parameter '{key}'"
  | noBranches block => s!"{block}: conditional has no branches"
  | duplicateBranch block branch => s!"{block}: duplicate branch '{branch}'"
  | undeclaredActive block branch =>
      s!"{block}: active branch '{branch}' is not declared"
  | disconnected block => s!"{block}: block is not connected to its chain"
  | unknownEnd edge => s!"edge {edge} connects an unknown node"
  | wrongVisibility edge => s!"edge {edge} visibility does not match the active branch"
  | undeclaredTag edge branch conditional =>
      s!"edge {edge} is tagged with undeclared branch '{branch}' of {conditional}"
  | cycle => "sequential edges form a cycle"

end Problem
end Workflow
