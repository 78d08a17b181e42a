import Workflow.Graph.Chain

/-!
# Outlines

The outline of a graph is the forest of the nodes that are drawn: those of the top
level and, inside a drawn container, those of the chain it shows, which for a
conditional is the chain of its active branch.  A node that several chains meet is
drawn where it is met first.
-/

namespace Workflow

inductive Outline where
  | node (id : String)
  | container (id : String) (body : List Outline)
  deriving Repr

namespace Outline

def id : Outline -> String
  | node id => id
  | container id _ => id

mutual

/-- The ids of an outline, a container before its body. -/
def ids : Outline -> List String
  | node id => [id]
  | container id body => id :: listIds body

def listIds : List Outline -> List String
  | [] => []
  | o :: rest => o.ids ++ listIds rest

end

end Outline

namespace Graph

/-- The scope that a container shows. -/
def shownScope? (g : Graph) (id : String) : Option Scope :=
  match g.block? id with
  | some (.loop _) => some (.body id)
  | some (.conditional c) => some (.ofBranch id c.active)
  | _ => none

/-- Enters the ids of a chain that are not entered yet, given how to enter the chain
inside a container. -/
def enterEach (g : Graph)
    (inside : List String -> List String -> List Outline × List String)
    (entered : List String) : List String -> List Outline × List String
  | [] => ([], entered)
  | id :: rest =>
      if entered.contains id then enterEach g inside entered rest
      else
        match g.shownScope? id with
        | none =>
            let (others, entered) := enterEach g inside (id :: entered) rest
            (.node id :: others, entered)
        | some s =>
            let (body, entered) := inside (id :: entered) (g.chain s)
            let (others, entered) := enterEach g inside entered rest
            (.container id body :: others, entered)

/-- Enters chains down to a number of levels. -/
def enterTo (g : Graph) : Nat -> List String -> List String -> List Outline × List String
  | 0, entered, _ => ([], entered)
  | levels + 1, entered, chain => g.enterEach (enterTo g levels) entered chain

/-- The nodes that are drawn.  Containers nested in one another are entered once each,
so there are at most as many levels below the first as nodes. -/
def outline (g : Graph) : List Outline :=
  (g.enterTo (g.nodes.length + 1) [] (g.chain .root)).1

end Graph
end Workflow
