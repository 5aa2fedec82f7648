import RegularLanguages.Regex.Basic

/-!
# Expressions in preorder

An expression can be written as the list of its nodes, each operator before its operands. No
brackets are needed: the number of operands is fixed for every operator.

* `Regex.Token` -- the nodes as such a list holds them;
* `Regex.preorder` -- the list of an expression, and `Regex.render` its text;
* `Regex.ofPreorder` -- the expression of a list, or the reason why it has none.
-/

namespace RegularLanguages.Regex

/-! ## 1. Writing -/

/-- The operators of expressions. -/
inductive Operator where
  | concat
  | alt
  | star
  deriving DecidableEq

/-- The character that stands for an operator. -/
def Operator.spelling : Operator → Char
  | .concat => '+'
  | .alt => '|'
  | .star => '*'

/-- The operator that a character stands for. -/
def Operator.ofChar? : Char → Option Operator
  | '+' => some .concat
  | '|' => some .alt
  | '*' => some .star
  | _ => none

/-- A node of an expression without its operands. -/
inductive Token where
  | operator (o : Operator)
  | symbol (c : Symbol)
  | nil
  | empty
  deriving DecidableEq

/-- The text of one node. -/
def Token.spelling : Token → String
  | .operator o => String.singleton o.spelling
  | .symbol c => Symbol.spelling c
  | .nil => "nil"
  | .empty => "empty"

/-- The nodes of an expression, each operator before its operands. -/
def preorder : Regex → List Token
  | .symbol c => [.symbol c]
  | .concat l r => .operator .concat :: (l.preorder ++ r.preorder)
  | .alt l r => .operator .alt :: (l.preorder ++ r.preorder)
  | .star e => .operator .star :: e.preorder
  | .nil => [.nil]
  | .empty => [.empty]

/-- The text of an expression: its nodes in preorder, separated by single spaces. -/
def render (e : Regex) : String := " ".intercalate (e.preorder.map Token.spelling)

/-! ## 2. Reading -/

/-- Why a list of nodes is not the preorder of an expression. -/
inductive Malformed where
  /-- The operator at this position has too few operands behind it. -/
  | missingOperand (position : Nat)
  /-- The list has no nodes. -/
  | noTokens
  /-- The list holds this many expressions, one behind the other. -/
  | uncombined (count : Nat)
  deriving DecidableEq

/-- The wording of a defect. -/
def Malformed.message : Malformed → String
  | .missingOperand position => s!"operator at position {position} is missing an operand"
  | .noTokens => "empty regex"
  | .uncombined count => s!"{count} expressions are not combined by an operator"

/-- Puts one node in front of the expressions that follow it. An operator takes its operands from
them; there may be too few. -/
def Token.apply? : Token → List Regex → Option (List Regex)
  | .symbol c, es => some (.symbol c :: es)
  | .nil, es => some (.nil :: es)
  | .empty, es => some (.empty :: es)
  | .operator .star, e :: es => some (.star e :: es)
  | .operator .concat, l :: r :: es => some (.concat l r :: es)
  | .operator .alt, l :: r :: es => some (.alt l r :: es)
  | .operator _, _ => none

/-- The expressions that a list of nodes consists of, where the first node stands at the given
position. The nodes are taken from right to left, so that of several defects the last one counts.
-/
def expressions (position : Nat) : List Token → Except Malformed (List Regex)
  | [] => .ok []
  | t :: ts =>
    match expressions (position + 1) ts with
    | .error e => .error e
    | .ok es =>
      match t.apply? es with
      | some es' => .ok es'
      | none => .error (.missingOperand position)

/-- The expression whose preorder the list is. -/
def ofPreorder (ts : List Token) : Except Malformed Regex :=
  match expressions 0 ts with
  | .error e => .error e
  | .ok [] => .error .noTokens
  | .ok [e] => .ok e
  | .ok es => .error (.uncombined es.length)

end RegularLanguages.Regex
