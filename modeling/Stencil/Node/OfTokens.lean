-- SUMMARY: Building the tree of a template from its tokens.
import Stencil.Node
import Stencil.Tag

/-!
# Trees of Tokens

Tokens are taken one after another. Each one adds a finished node to the
innermost open block, opens a block, or closes one. The first token that fits
nowhere is the error; blocks that are still open at the end are an error at the
tag that opened the innermost one.
-/

namespace Stencil

/-- An error at a token. -/
def Token.error (t : Token) (fault : SyntaxFault) : TemplateError :=
  .malformed fault t.location t.raw.utf8ByteSize

/-! ## Open blocks -/

/-- What opens a block. -/
inductive BlockHead where
  | forLoop (binding : String) (iterable : Expr)
  | conditional (test : Condition)
  | elseBranch

namespace BlockHead

/-- The tag that closes a block. An else branch ends with its conditional. -/
def closer : BlockHead → Closer
  | .forLoop .. => .endfor
  | .conditional _ => .endif
  | .elseBranch => .endif

/-- The finished block. -/
def toNode (head : BlockHead) (children : List Node) (location : Location) : Node :=
  match head with
  | .forLoop binding iterable => .forLoop binding iterable children location
  | .conditional test => .conditional test children location
  | .elseBranch => .elseBranch children location

end BlockHead

/-- A block that is not closed yet. -/
structure OpenBlock where
  head : BlockHead
  /-- The token that opened the block. -/
  opener : Token
  /-- The children finished so far. -/
  children : List Node

/-- The node of a block, closed with the children it has. -/
def OpenBlock.toNode (b : OpenBlock) : Node := b.head.toNode b.children b.opener.location

/-- The part of a tree that some tokens have built. -/
structure Outline where
  /-- The open blocks, innermost first. -/
  blocks : List OpenBlock
  /-- The finished children of the root. -/
  finished : List Node

namespace Outline

/-- The outline before the first token. -/
def start : Outline := ⟨[], []⟩

/-- Adds a finished node to the innermost open block. -/
def add (o : Outline) (node : Node) : Outline :=
  match o.blocks with
  | [] => ⟨[], o.finished ++ [node]⟩
  | b :: rest => ⟨⟨b.head, b.opener, b.children ++ [node]⟩ :: rest, o.finished⟩

/-- Opens a block. -/
def push (o : Outline) (head : BlockHead) (opener : Token) : Outline :=
  ⟨⟨head, opener, []⟩ :: o.blocks, o.finished⟩

/-- Closes the innermost open block. -/
def pop (o : Outline) : Outline :=
  match o.blocks with
  | [] => o
  | b :: rest => add ⟨rest, o.finished⟩ b.toNode

/-- Starts the else branch of the innermost block. -/
def startElse (o : Outline) (t : Token) : Except SyntaxFault Outline :=
  match o.blocks with
  | [] => .error .elseOutsideIf
  | b :: _ =>
    match b.head with
    | .conditional _ => .ok (o.push .elseBranch t)
    | .elseBranch => .error .duplicateElse
    | .forLoop .. => .error .elseOutsideIf

/-- Closes the innermost block with a closing tag. -/
def close (o : Outline) (closer : Closer) : Except SyntaxFault Outline :=
  match o.blocks with
  | [] => .error (.unopened closer)
  | b :: _ =>
    if b.head.closer = closer then
      match b.head with
      | .elseBranch => .ok o.pop.pop
      | _ => .ok o.pop
    else .error (.mismatched b.head.closer closer)

/-- Takes a token with a given meaning. -/
def take (o : Outline) (t : Token) : Tag → Except SyntaxFault Outline
  | .text => .ok (o.add (.text t.raw t.location))
  | .placeholder path => .ok (o.add (.placeholder path t.location))
  | .forLoop binding iterable => .ok (o.push (.forLoop binding iterable) t)
  | .conditional test => .ok (o.push (.conditional test) t)
  | .otherwise => o.startElse t
  | .close closer => o.close closer
  | .inert => .ok o

/-- Takes a token. -/
def step (o : Outline) (t : Token) : Except TemplateError Outline :=
  ((Tag.ofToken t).bind (o.take t)).mapError t.error

/-- The tree, once no block is open. -/
def finish (o : Outline) : Except TemplateError Node :=
  match o.blocks with
  | [] => .ok (.root o.finished)
  | b :: _ => .error (b.opener.error (.unclosed b.opener.raw b.head.closer))

end Outline

/-- The tree that some tokens write. -/
def Node.ofTokens (tokens : List Token) : Except TemplateError Node :=
  (tokens.foldlM Outline.step Outline.start).bind Outline.finish

end Stencil
