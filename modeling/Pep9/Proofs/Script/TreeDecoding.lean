import Mathlib
import Pep9.Script.Tree

/-
  Reading a script back from its tree. Nothing of a script is
  lost in its tree, the lines of its statements included.

  Key theorems: `exprOf?_tree`, `stmtOf?_tree`,
  `moduleTree_decodes`.
-/

namespace Pep9

open List

variable {α β : Type}

namespace Script

/- The operator with a symbol, out of some operators. -/
def withSymbol? {α : Type} (symbol : α → String) (operators : List α) (text : String) : Option α :=
  operators.find? fun op => symbol op = text

def arith? : String → Option Arith :=
  withSymbol? Arith.symbol [.add, .sub, .mul, .div, .mod]

def comparison? : String → Option Comparison :=
  withSymbol? Comparison.symbol
    [.less, .lessEquals, .greater, .greaterEquals, .equals, .notEquals]

def logic? : String → Option Logic := withSymbol? Logic.symbol [.and, .or]

def unary? : String → Option Unary := withSymbol? Unary.symbol [.not, .negate]

def augment? : String → Option Augment := withSymbol? Augment.symbol [.add, .sub]

def text? : Yaml.Value → Option String
  | .string text => some text
  | _ => none

def comparisonOf? (tree : Yaml.Value) : Option Comparison := (text? tree).bind comparison?

/- A chain of as many comparisons as operands. -/
def chainOf? : List Comparison → List Expr → Option Chain
  | [op], [right] => some (.last op right)
  | op :: ops, right :: rest => (chainOf? ops rest).map (.link op right ·)
  | _, _ => none

mutual

def exprOf? : Yaml.Value → Option Expr
  | .record (.field _ (.string type) fields) =>
    match type, fields with
    | "Literal", .field _ (.int text) .nil => do some (.literal (Int64.ofInt (← text.toInt?)))
    | "String", .field _ (.string value) .nil => some (.string value)
    | "List", .field _ (.list elements) .nil => do some (.list (← exprsOf? elements))
    | "Name", .field _ (.string id) .nil => some (.name id)
    | "BinOp", .field _ (.string op) (.field _ left (.field _ right .nil)) => do
      some (.arith (← arith? op) (← exprOf? left) (← exprOf? right))
    | "Compare", .field _ left (.field _ (.list ops) (.field _ (.list operands) .nil)) => do
      let chain ← chainOf? (← ops.mapM comparisonOf?) (← exprsOf? operands)
      some (.compare (← exprOf? left) chain)
    | "BoolOp", .field _ (.string op) (.field _ left (.field _ right .nil)) => do
      some (.logic (← logic? op) (← exprOf? left) (← exprOf? right))
    | "UnaryOp", .field _ (.string op) (.field _ operand .nil) => do
      some (.unary (← unary? op) (← exprOf? operand))
    | "Call", .field _ (.string function) (.field _ (.list args) .nil) => do
      some (.call function (← exprsOf? args))
    | "Subscript", .field _ base (.field _ position .nil) => do
      some (.index (← exprOf? base) (← exprOf? position))
    | _, _ => none
  | _ => none

def exprsOf? : List Yaml.Value → Option (List Expr)
  | [] => some []
  | tree :: rest => do some ((← exprOf? tree) :: (← exprsOf? rest))

end

theorem arith?_symbol (op : Arith) : arith? op.symbol = some op := by
  cases op <;> decide

theorem logic?_symbol (op : Logic) : logic? op.symbol = some op := by
  cases op <;> decide

theorem unary?_symbol (op : Unary) : unary? op.symbol = some op := by
  cases op <;> decide

/- What is read back one by one is read back in a list. -/
theorem mapM_decodes {encode : α → β} {decode : β → Option α}
    (h : ∀ a, decode (encode a) = some a)
    (items : List α) :
    (items.map encode).mapM decode = some items := by
  rw [mapM_map, show decode ∘ encode = pure from funext h, mapM_pure, map_id']
  rfl

theorem texts_decode (items : List String) :
    (items.map Yaml.Value.string).mapM text? = some items :=
  mapM_decodes (fun item => (rfl : text? (.string item) = some item)) items

theorem comparisons_decode (ops : List Comparison) :
    ((ops.map Comparison.symbol).map .string).mapM comparisonOf? = some ops := by
  rw [map_map]
  exact mapM_decodes (fun op => by cases op <;> decide) ops

theorem chainOf?_parts :
    ∀ chain : Chain, chainOf? chain.operators chain.operands = some chain
  | .last _ _ => rfl
  | .link op right rest => by
    have ih := chainOf?_parts rest
    cases rest <;> exact congrArg (Option.map (Chain.link op right ·)) ih

/- One part of what is read, with the parts that follow it. -/
theorem bind_part {part : Option α} {a : α} {rest : α → Option β}
    {result : Option β}
    (hPart : part = some a)
    (hRest : rest a = result) :
    part.bind rest = result := by
  rw [hPart]
  exact hRest

mutual

theorem exprOf?_tree :
    ∀ e : Expr, exprOf? e.tree = some e
  | .literal value =>
    bind_part (Int.toInt?_repr _)
      (congrArg (fun v => some (Expr.literal v)) (Int64.ofInt_toInt value))
  | .string _ | .name _ => rfl
  | .list elements | .call _ elements => bind_part (exprsOf?_trees elements) rfl
  | .arith op left right =>
    bind_part (arith?_symbol op)
      (bind_part (exprOf?_tree left) (bind_part (exprOf?_tree right) rfl))
  | .compare left chain =>
    bind_part (comparisons_decode chain.operators) (bind_part (chain_trees chain)
      (bind_part (chainOf?_parts chain) (bind_part (exprOf?_tree left) rfl)))
  | .logic op left right =>
    bind_part (logic?_symbol op)
      (bind_part (exprOf?_tree left) (bind_part (exprOf?_tree right) rfl))
  | .unary op operand => bind_part (unary?_symbol op) (bind_part (exprOf?_tree operand) rfl)
  | .index base position =>
    bind_part (exprOf?_tree base) (bind_part (exprOf?_tree position) rfl)

theorem chain_trees : ∀ chain : Chain, exprsOf? chain.trees = some chain.operands
  | .last _ right => bind_part (exprOf?_tree right) rfl
  | .link _ right rest => bind_part (exprOf?_tree right) (bind_part (chain_trees rest) rfl)

theorem exprsOf?_trees : ∀ elements : List Expr, exprsOf? (trees elements) = some elements
  | [] => rfl
  | e :: rest => bind_part (exprOf?_tree e) (bind_part (exprsOf?_trees rest) rfl)

end

def placesOf? (targets : List Yaml.Value) : Option (List Place) := do
  (← exprsOf? targets).mapM Expr.place?

theorem placesOf?_trees (targets : List Place) :
    placesOf? (targets.map Place.tree) = some targets := by
  have hTrees : targets.map Place.tree = trees (targets.map Place.toExpr) := by
    induction targets with
    | nil => rfl
    | cons _ _ ih =>
      rw [map_cons, map_cons, trees, ih]
      rfl
  rw [placesOf?, hTrees, exprsOf?_trees]
  exact mapM_decodes (fun place => by cases place <;> rfl) targets

/- An assignment with any operator. -/
def assignmentOf? (line : Int) (op : String) (value : Expr) : List Place → Option Stmt
  | [] => none
  | first :: others =>
    if op = "=" then some (.assign line first others value)
    else (augment? op).map fun op => .augment line first op value

mutual

def stmtOf? : Yaml.Value → Option Stmt
  | .record (.field _ (.string type) (.field _ (.int text) fields)) => do
    let line ← text.toInt?
    match type, fields with
    | "Assign", .field _ (.string op) (.field _ (.list targets) (.field _ value .nil)) => do
      assignmentOf? line op (← exprOf? value) (← placesOf? targets)
    | "Expr", .field _ value .nil => do some (.expr line (← exprOf? value))
    | "Return", .field _ value .nil => do some (.ret line (← exprOf? value))
    | "Return", .nil => some (.ret line none)
    | "If", .field _ test (.field _ (.list body) .nil) => do
      some (.cond line (← exprOf? test) (← stmtsOf? body) [])
    | "If", .field _ test (.field _ (.list body) (.field _ (.list orElse) .nil)) => do
      some (.cond line (← exprOf? test) (← stmtsOf? body) (← stmtsOf? orElse))
    | "While", .field _ test (.field _ (.list body) .nil) => do
      some (.loop line (← exprOf? test) (← stmtsOf? body))
    | "For", .field _ (.string target) (.field _ source (.field _ (.list body) .nil)) => do
      some (.each line target (← exprOf? source) (← stmtsOf? body))
    | "FunctionDef",
        .field _ (.string name) (.field _ (.list params) (.field _ (.list body) .nil)) => do
      some (.define line name (← params.mapM text?) (← stmtsOf? body))
    | "Pass", .nil => some (.pass line)
    | "Break", .nil => some (.breakLoop line)
    | "Continue", .nil => some (.continueLoop line)
    | _, _ => none
  | _ => none

def stmtsOf? : List Yaml.Value → Option (List Stmt)
  | [] => some []
  | tree :: rest => do some ((← stmtOf? tree) :: (← stmtsOf? rest))

end

def moduleOf? : Yaml.Value → Option (List Stmt)
  | .record (.field _ (.string "Module") (.field _ (.list body) .nil)) => stmtsOf? body
  | _ => none

theorem assignTree_decodes
    (line : Int)
    (op : String)
    (targets : List Place)
    (value : Expr) :
    stmtOf? (assignTree line op targets value) = assignmentOf? line op value targets :=
  bind_part (Int.toInt?_repr line)
    (bind_part (exprOf?_tree value) (bind_part (placesOf?_trees targets) rfl))

mutual

theorem stmtOf?_tree :
    ∀ stmt : Stmt, stmtOf? stmt.tree = some stmt
  | .assign line first others value => assignTree_decodes line "=" (first :: others) value
  | .augment line target op value => by
    rw [Stmt.tree, assignTree_decodes]
    cases op <;> rfl
  | .expr line value | .ret line (some value) =>
    bind_part (Int.toInt?_repr line) (bind_part (exprOf?_tree value) rfl)
  | .ret line none | .pass line | .breakLoop line | .continueLoop line =>
    bind_part (Int.toInt?_repr line) rfl
  | .cond line test body [] | .loop line test body | .each line _ test body =>
    bind_part (Int.toInt?_repr line)
      (bind_part (exprOf?_tree test) (bind_part (stmtsOf?_trees body) rfl))
  | .cond line test body (stmt :: rest) =>
    bind_part (Int.toInt?_repr line) (bind_part (exprOf?_tree test)
      (bind_part (stmtsOf?_trees body) (bind_part (stmtsOf?_trees (stmt :: rest)) rfl)))
  | .define line _ params body =>
    bind_part (Int.toInt?_repr line)
      (bind_part (texts_decode params) (bind_part (stmtsOf?_trees body) rfl))

theorem stmtsOf?_trees : ∀ stmts : List Stmt, stmtsOf? (stmtTrees stmts) = some stmts
  | [] => rfl
  | stmt :: rest => bind_part (stmtOf?_tree stmt) (bind_part (stmtsOf?_trees rest) rfl)

end

/-
  A script can be read back from its tree; so scripts with the
  same tree are the same.
-/
theorem moduleTree_decodes (stmts : List Stmt) :
    moduleOf? (moduleTree stmts) = some stmts ∧
      ∀ other, moduleTree other = moduleTree stmts → other = stmts := by
  have hDecodes : ∀ stmts, moduleOf? (moduleTree stmts) = some stmts := stmtsOf?_trees
  refine ⟨hDecodes stmts, fun other hSame => ?_⟩
  have hOther := hDecodes other
  rw [hSame, hDecodes stmts] at hOther
  exact (Option.some.inj hOther).symm

end Script

end Pep9
