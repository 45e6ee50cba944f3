-- SUMMARY: What each token says by itself.
import Stencil.Error
import Stencil.Text.Identifier
import Stencil.Token

/-!
# Tags

The meaning of a token apart from the tokens around it: text, a path to print,
the opening of a block with its header, an else tag, the closing of a block, or
nothing. A token whose content has the wrong form has no meaning but a fault.
-/

namespace Stencil

/-- The meaning of a token. -/
inductive Tag where
  | text
  | placeholder (path : Path)
  | forLoop (binding : String) (iterable : Expr)
  | conditional (test : Condition)
  | otherwise
  | close (closer : Closer)
  /-- A comment, or a block tag that is recognised but has no effect. -/
  | inert

namespace Tag

/-- The path of a placeholder: no blanks and no empty segment. -/
def ofPlaceholder (content : String) : Except SyntaxFault Tag :=
  if content = "" then .error .emptyPlaceholder
  else if Text.hasBlank content ∨ "" ∈ (Path.ofString content).segments then
    .error (.invalidPath content)
  else .ok (.placeholder (Path.ofString content))

/-- Whether a text is a single operand: one word, or a literal. -/
def isOperand (s : String) : Bool :=
  s ≠ "" && (!Text.hasBlank s || (Literal.read? s).isSome)

/-- The header of a loop: `for`, an identifier, `in`, and one operand. -/
def ofFor (t : Token) : Except SyntaxFault Tag :=
  let split := Text.splitWords 3 t.content.toList
  let iterable := String.ofList split.2
  match split.1.map String.ofList with
  | ["for", binding, "in"] =>
    if Text.isIdentifier binding ∧ isOperand iterable then
      .ok (.forLoop binding (.ofString iterable))
    else .error (.malformedFor t.raw)
  | _ => .error (.malformedFor t.raw)

/-- The header of a conditional: one operand, two with an operator between
them, or two with `is` or `is not` between them. -/
def ofIf (t : Token) : Except SyntaxFault Tag :=
  match t.words with
  | [_, operand] => .ok (.conditional (.truthy (.ofString operand)))
  | [_, left, op, right] =>
    if op = "is" then .ok (.conditional (.identity (.ofString left) false (.ofString right)))
    else match CompareOp.ofSymbol? op with
      | some op => .ok (.conditional (.compare (.ofString left) op (.ofString right)))
      | none => .error (.invalidOperator op)
  | [_, left, "is", "not", right] =>
    .ok (.conditional (.identity (.ofString left) true (.ofString right)))
  | _ => .error (.malformedIf t.raw)

/-- A block tag that opens a block, starts an else branch, or has no effect. -/
def ofBlock (t : Token) : Except SyntaxFault Tag :=
  match t.keyword with
  | "for" => ofFor t
  | "if" => ofIf t
  | "else" => if t.words.length = 1 then .ok .otherwise else .error (.elseContent t.raw)
  | "" => .error .emptyBlock
  | "block" => .ok .inert
  | "extends" => .ok .inert
  | "in" => .error (.misplacedKeyword "in")
  | keyword => .error (.invalidKeyword keyword)

/-- A block tag that closes a block, or has no effect. -/
def ofBlockEnd (t : Token) : Except SyntaxFault Tag :=
  if t.keyword = "endblock" then .ok .inert
  else if t.words.length ≠ 1 then .error (.closerContent t.raw)
  else match t.keyword with
    | "endfor" => .ok (.close .endfor)
    | "endif" => .ok (.close .endif)
    | keyword => .error (.unknownCloser keyword)

/-- The meaning of a token. -/
def ofToken (t : Token) : Except SyntaxFault Tag :=
  match t.kind with
  | .text => .ok .text
  | .placeholder => ofPlaceholder t.content
  | .comment => .ok .inert
  | .block => ofBlock t
  | .blockEnd => ofBlockEnd t

end Tag

end Stencil
