-- SUMMARY: The tree of a template.
import Stencil.Condition
import Stencil.Location

/-!
# Template Trees

A template is a tree with a root, text, placeholders, loops and conditionals.
The else branch of a conditional is the last of its children. Every node but
the root remembers where its token starts.
-/

namespace Stencil

/-- A node of a template tree. -/
inductive Node where
  | root (children : List Node)
  | text (text : String) (location : Location)
  | placeholder (path : Path) (location : Location)
  | forLoop (binding : String) (iterable : Expr) (children : List Node) (location : Location)
  | conditional (test : Condition) (children : List Node) (location : Location)
  | elseBranch (children : List Node) (location : Location)

namespace Node

/-- The nodes right below a node, in document order. -/
def children : Node → List Node
  | .root children => children
  | .text .. => []
  | .placeholder .. => []
  | .forLoop _ _ children _ => children
  | .conditional _ children _ => children
  | .elseBranch children _ => children

/-- Where the token of a node starts. -/
def location : Node → Location
  | .root _ => .origin
  | .text _ location => location
  | .placeholder _ location => location
  | .forLoop _ _ _ location => location
  | .conditional _ _ location => location
  | .elseBranch _ location => location

/-- Whether a node is a block that a closing tag ends. -/
def isBlock : Node → Bool
  | .forLoop .. => true
  | .conditional .. => true
  | .elseBranch .. => true
  | _ => false

mutual

/-- How many nodes a tree has. -/
def count : Node → Nat
  | .root children => 1 + countAll children
  | .text .. => 1
  | .placeholder .. => 1
  | .forLoop _ _ children _ => 1 + countAll children
  | .conditional _ children _ => 1 + countAll children
  | .elseBranch children _ => 1 + countAll children

/-- How many nodes some trees have together. -/
def countAll : List Node → Nat
  | [] => 0
  | node :: nodes => count node + countAll nodes

end

mutual

/-- The nodes of a tree in document order, each with its depth. -/
def preorder (depth : Nat) : Node → List (Nat × Node)
  | .root children => (depth, .root children) :: preorderAll (depth + 1) children
  | .text content location => [(depth, .text content location)]
  | .placeholder path location => [(depth, .placeholder path location)]
  | .forLoop binding iterable children location =>
    (depth, .forLoop binding iterable children location) :: preorderAll (depth + 1) children
  | .conditional test children location =>
    (depth, .conditional test children location) :: preorderAll (depth + 1) children
  | .elseBranch children location =>
    (depth, .elseBranch children location) :: preorderAll (depth + 1) children

/-- The nodes of some trees in document order, each with its depth. -/
def preorderAll (depth : Nat) : List Node → List (Nat × Node)
  | [] => []
  | node :: nodes => preorder depth node ++ preorderAll depth nodes

end

/-- The children and the location of the first else branch among some nodes. -/
def findElse? : List Node → Option (List Node × Location)
  | [] => none
  | .elseBranch children location :: _ => some (children, location)
  | _ :: nodes => findElse? nodes

end Node

end Stencil
