import Ferrite.Tree.Basic

/-!
Trees as text, one line for each item of a program. Every operator stands in parentheses of its
own, so the text shows how operands are grouped; parentheses of the source are not repeated.
-/

namespace Ferrite

/-- The parts with commas between them. -/
def commas (parts : List String) : String := ", ".intercalate parts

def Literal.print : Literal → String
  | .text s => "\"" ++ s ++ "\""
  | l => l.display

def Header.print (h : Header) : String :=
  let params := (h.params.zip h.signature.params).map fun (name, t) =>
    name.text ++ ": " ++ t.display
  let result := if h.signature.result.isUnit then "" else " -> " ++ h.signature.result.display
  "fn " ++ h.name.text ++ "(" ++ commas params ++ ")" ++ result

mutual
def Expr.print : Expr → String
  | .literal _ _ value => value.print
  | .path _ _ name => name.text
  | .grouped _ _ inner => inner.print
  | .unary _ _ op operand => "(" ++ op.symbol ++ operand.print ++ ")"
  | .binary _ _ op lhs rhs => "(" ++ lhs.print ++ " " ++ op.symbol ++ " " ++ rhs.print ++ ")"
  | .call _ _ callee args => callee.text ++ "(" ++ commas (printArgs args) ++ ")"
  | .ret _ _ none => "return"
  | .ret _ _ (some value) => "return " ++ value.print
  | .block _ _ body => body.print
  | .loop _ _ body => "loop " ++ body.print
  | .while _ _ cond body => "while " ++ cond.print ++ " " ++ body.print
  | .cond _ _ branches => branches.print

def printArgs : List Expr → List String
  | [] => []
  | e :: es => e.print :: printArgs es

def Cond.print : Cond → String
  | .only cond yes => "if " ++ cond.print ++ " " ++ yes.print
  | .orElse cond yes no => "if " ++ cond.print ++ " " ++ yes.print ++ " else " ++ no.print
  | .orIf cond yes no => "if " ++ cond.print ++ " " ++ yes.print ++ " else " ++ no.print

/-- Each part of the block with a space in front. -/
def Block.print : Block → String
  | .mk _ _ items stmts tail =>
      "\x7b" ++ printItems items ++ printStmts stmts ++
        (match tail with
          | none => ""
          | some e => " " ++ e.print) ++ " \x7d"

def printItems : List Item → String
  | [] => ""
  | i :: is => " " ++ i.print ++ printItems is

def printStmts : List Stmt → String
  | [] => ""
  | s :: ss => " " ++ s.print ++ printStmts ss

def Stmt.print : Stmt → String
  | .bind _ _ name type init =>
      "let " ++ name.text ++ (type.elim "" fun t => ": " ++ t.display) ++ " = " ++ init.print ++ ";"
  | .expr _ value semi => value.print ++ (if semi then ";" else "")

def Item.print : Item → String
  | .function header body => header.print ++ " " ++ body.print
  | .foreign _ abi functions =>
      "extern \"" ++ abi ++ "\" \x7b" ++
        String.join (functions.map fun h => " " ++ h.print ++ ";") ++ " \x7d"
end

def Program.print (p : Program) : String := "\n".intercalate (p.items.map Item.print)

end Ferrite
