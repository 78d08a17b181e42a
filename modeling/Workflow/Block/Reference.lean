import Workflow.Block.Basic

/-!
# References of a block

A block publishes its output under its label followed by `_output`.  It refers to
other blocks and to parameters by the keys in its parameter list, by the list a loop
goes over, and by the merge labels of its branches, which name a label directly.
-/

namespace Workflow

/-!
# Output keys
-/

namespace OutputKey

def ending : String := "_output"

/-- The key under which the block with this label publishes its output. -/
def ofLabel (label : String) : String :=
  label ++ ending

/-- The characters before the ending, if the list has that ending. -/
def dropEnding? (cs ending : List Char) : Option (List Char) :=
  if ending.isSuffixOf cs then some (cs.take (cs.length - ending.length)) else none

/-- The label whose output a key refers to. -/
def label? (key : String) : Option String :=
  match dropEnding? key.toList ending.toList with
  | some (c :: cs) => some (String.ofList (c :: cs))
  | _ => none

end OutputKey

/-!
# Fields and what they refer to
-/

inductive Field where
  | parameterKey (i : Nat)
  | loopOver
  | mergeLabel (i : Nat)
  deriving DecidableEq, Repr

namespace Field

def path : Field -> String
  | parameterKey i => s!"parameter_keys[{i}]"
  | loopOver => "loop_over"
  | mergeLabel i => s!"branches[{i}].merge_label"

/-- Parameter keys come first, merge labels last. -/
def rank : Field -> Nat × Nat
  | parameterKey i => (0, i)
  | loopOver => (1, 0)
  | mergeLabel i => (2, i)

def before (a b : Field) : Bool :=
  a.rank.1 < b.rank.1 || (a.rank.1 == b.rank.1 && a.rank.2 < b.rank.2)

end Field

inductive Reference where
  | output (label : String)
  | parameter (key : String)
  | label (label : String)
  deriving DecidableEq, Repr

namespace Reference

/-- A key either refers to the output of a block or names a parameter. -/
def ofKey (key : String) : Reference :=
  match OutputKey.label? key with
  | some l => output l
  | none => parameter key

def label? : Reference -> Option String
  | output l => some l
  | label l => some l
  | parameter _ => none

end Reference

/-!
# The parameter list of a leaf
-/

namespace Leaf

/-- The parameter keys, for the kinds that have them. -/
def parameterKeys? : Leaf -> Option (List String)
  | task a => some a.parameterKeys
  | code a => some a.parameterKeys
  | textPrompt a => some a.parameterKeys
  | httpRequest a => some a.parameterKeys
  | extraction a => some a.parameterKeys
  | fileDownload a => some a.parameterKeys
  | login a => some a.parameterKeys
  | validation a => some a.parameterKeys
  | sendEmail _ => none
  | wait _ => none
  | gotoUrl _ => none
  | pdfParser _ => none
  | fileParser _ => none

def mapKeys (f : List String -> List String) : Leaf -> Leaf
  | task a => task { a with parameterKeys := f a.parameterKeys }
  | code a => code { a with parameterKeys := f a.parameterKeys }
  | textPrompt a => textPrompt { a with parameterKeys := f a.parameterKeys }
  | httpRequest a => httpRequest { a with parameterKeys := f a.parameterKeys }
  | extraction a => extraction { a with parameterKeys := f a.parameterKeys }
  | fileDownload a => fileDownload { a with parameterKeys := f a.parameterKeys }
  | login a => login { a with parameterKeys := f a.parameterKeys }
  | validation a => validation { a with parameterKeys := f a.parameterKeys }
  | sendEmail a => sendEmail a
  | wait a => wait a
  | gotoUrl a => gotoUrl a
  | pdfParser a => pdfParser a
  | fileParser a => fileParser a

def parameterKeys (l : Leaf) : List String :=
  l.parameterKeys?.getD []

end Leaf

namespace Block

def parameterKeys : Block -> List String
  | leaf l => l.parameterKeys
  | _ => []

/-!
# Listing references
-/

/-- The fields that hold a reference, with what they refer to. -/
def references : Block -> List (Field × Reference)
  | leaf l =>
      l.parameterKeys.zipIdx.map fun (key, i) => (.parameterKey i, .ofKey key)
  | loop a =>
      match a.loopOver with
      | some key => [(.loopOver, .ofKey key)]
      | none => []
  | conditional c =>
      c.branches.zipIdx.filterMap fun (b, i) =>
        b.mergeLabel.map fun l => (.mergeLabel i, .label l)

/-!
# Clearing references

Each function answers the changed block and whether anything was changed.
-/

/-- Whether a key may stay: it depends on no label, or on one that is kept. -/
def keepsKey (keep : String -> Bool) (key : String) : Bool :=
  match OutputKey.label? key with
  | some l => keep l
  | none => true

def keepsMerge (keep : String -> Bool) (b : Branch) : Bool :=
  match b.mergeLabel with
  | some l => keep l
  | none => true

/-- Clears every field that depends on a label that is not kept. -/
def retainLabels (keep : String -> Bool) : Block -> Block × Bool
  | leaf l =>
      (leaf (l.mapKeys fun keys => keys.filter (keepsKey keep)),
        (l.parameterKeys.filter (keepsKey keep)).length != l.parameterKeys.length)
  | loop a =>
      match a.loopOver with
      | some key =>
          if keepsKey keep key then (loop a, false)
          else (loop { a with loopOver := none }, true)
      | none => (loop a, false)
  | conditional c =>
      let branches := c.branches.map fun b =>
        if keepsMerge keep b then b else { b with mergeLabel := none }
      (conditional { c with branches }, !c.branches.all (keepsMerge keep))

/-- Points every field that depends on the label `old` at `new` instead. -/
def renameLabel (old new : String) : Block -> Block × Bool
  | leaf l =>
      (leaf (l.mapKeys fun keys => keys.map fun key =>
          if key = OutputKey.ofLabel old then OutputKey.ofLabel new else key),
        l.parameterKeys.any fun key => key == OutputKey.ofLabel old)
  | loop a =>
      if a.loopOver = some (OutputKey.ofLabel old) then
        (loop { a with loopOver := some (OutputKey.ofLabel new) }, true)
      else (loop a, false)
  | conditional c =>
      let branches := c.branches.map fun b =>
        if b.mergeLabel = some old then { b with mergeLabel := some new } else b
      (conditional { c with branches }, c.branches.any fun b => b.mergeLabel == some old)

end Block
end Workflow
