import Pep9.Script.Stmt
import Pep9.Yaml.Value

/-
  The tree of a script as a YAML value: one record for each
  node, with its type first and its parts in source order.

  Key definitions: `Expr.tree`, `Stmt.tree`, `moduleTree`.
-/

namespace Pep9

namespace Script

/- A record with its type and its other fields. -/
def node (type : String) (fields : List (String × Yaml.Value)) : Yaml.Value :=
  .record (.field "type" (.string type) (.ofList fields))

/- An integer in decimal digits. -/
def number (value : Int) : Yaml.Value :=
  .int (toString value)

def texts (items : List String) : Yaml.Value :=
  .list (items.map .string)

mutual

def Expr.tree : Expr → Yaml.Value
  | .literal value => node "Literal" [("value", number value.toInt)]
  | .string value => node "String" [("value", .string value)]
  | .list elements => node "List" [("elements", .list (trees elements))]
  | .name id => node "Name" [("id", .string id)]
  | .arith op left right =>
      node "BinOp"
        [("op", .string op.symbol), ("left", left.tree), ("right", right.tree)]
  | .compare left chain =>
      node "Compare"
        [("left", left.tree),
          ("ops", texts (chain.operators.map Comparison.symbol)),
          ("comparators", .list chain.trees)]
  | .logic op left right =>
      node "BoolOp"
        [("op", .string op.symbol), ("left", left.tree), ("right", right.tree)]
  | .unary op operand =>
      node "UnaryOp" [("op", .string op.symbol), ("operand", operand.tree)]
  | .call function args =>
      node "Call" [("func", .string function), ("args", .list (trees args))]
  | .index base position =>
      node "Subscript" [("value", base.tree), ("index", position.tree)]

def Chain.trees : Chain → List Yaml.Value
  | .last _ right => [right.tree]
  | .link _ right rest => right.tree :: rest.trees

def trees : List Expr → List Yaml.Value
  | [] => []
  | e :: rest => e.tree :: trees rest

end

def Place.tree (place : Place) : Yaml.Value :=
  place.toExpr.tree

/- The tree of an assignment with any operator. -/
def assignTree (line : Int) (op : String) (targets : List Place)
    (value : Expr) : Yaml.Value :=
  node "Assign"
    [("line", number line), ("op", .string op),
      ("targets", .list (targets.map Place.tree)), ("value", value.tree)]

mutual

/- The tree of a statement. Parts that are absent are left out. -/
def Stmt.tree : Stmt → Yaml.Value
  | .assign line first others value => assignTree line "=" (first :: others) value
  | .augment line target op value => assignTree line op.symbol [target] value
  | .expr line value => node "Expr" [("line", number line), ("value", value.tree)]
  | .ret line (some value) =>
      node "Return" [("line", number line), ("value", value.tree)]
  | .ret line none => node "Return" [("line", number line)]
  | .cond line test body [] =>
      node "If"
        [("line", number line), ("test", test.tree), ("body", .list (stmtTrees body))]
  | .cond line test body orElse =>
      node "If"
        [("line", number line), ("test", test.tree), ("body", .list (stmtTrees body)),
          ("orelse", .list (stmtTrees orElse))]
  | .loop line test body =>
      node "While"
        [("line", number line), ("test", test.tree), ("body", .list (stmtTrees body))]
  | .each line target source body =>
      node "For"
        [("line", number line), ("target", .string target), ("iter", source.tree),
          ("body", .list (stmtTrees body))]
  | .define line name params body =>
      node "FunctionDef"
        [("line", number line), ("name", .string name), ("params", texts params),
          ("body", .list (stmtTrees body))]
  | .pass line => node "Pass" [("line", number line)]
  | .breakLoop line => node "Break" [("line", number line)]
  | .continueLoop line => node "Continue" [("line", number line)]

def stmtTrees : List Stmt → List Yaml.Value
  | [] => []
  | stmt :: rest => stmt.tree :: stmtTrees rest

end

def moduleTree (stmts : List Stmt) : Yaml.Value :=
  node "Module" [("body", .list (stmtTrees stmts))]

/- The document that shows a whole script. -/
def dump (stmts : List Stmt) : String :=
  (moduleTree stmts).render

end Script

end Pep9
