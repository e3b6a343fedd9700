import Practicum.Choco.Token
import Practicum.Choco.Typing.Early

/-! # Typing rules by name -/

/-!
## Rules of the second edition on whole nodes

The second edition states each typing rule for a node of the sort that the rule is about, and
refuses other nodes.
-/

namespace Practicum.Choco.EarlyTyping

open Typing

inductive NodeRule where
  | passing
  | expression
  | literal
  | negation
  | arithmetic
  | intComparison
  | boolComparison
  | strComparison
  | conjunction
  | disjunction
  | complement
  | strConcat
  | strSelect
  | identity
  | listDisplay
  | listConcat
  | listSelect
  | assignment
  | chainedAssignment
  | singleAssignment
  | invocation
  | returning
  | conditional
  | whileLoop
  | forLoop
  | forStr
  | forList
  | function
  | statement
  deriving DecidableEq, Repr

def onBinary (o : Env) (missing : TypeError)
    (rule : String → Judgement → Judgement → Judgement₂) : Node → Check SourceType
  | .binary op lhs rhs _ => do return (← rule op (checkPlace o lhs) (checkPlace o rhs)).1
  | _ => .error missing

def onIndex (o : Env) (rule : Judgement → Judgement → Judgement₂) : Node → Check SourceType
  | .index value position _ => do return (← rule (checkPlace o value) (checkPlace o position)).1
  | _ => .error (.noRule "unexpected operation on types given")

def onFor (o : Env) (r : SourceType)
    (rule : Env → String → Judgement → Check (List Node) → Check (List Node × List Node)) :
    Node → Check Unit
  | .forStmt x iterable body => do
    let _ ← rule o x (checkPlace o iterable) (checkBody o r body)
  | _ => .error (.noRule "expected a for statement")

def chainedRule (o : Env) : Node → Check SourceType
  | .assign target (.assign t v :: rest) => do
    return (← assignRule o (.assign target (.assign t v :: rest))).1
  | _ => .error (.noRule "expected an assignment statement")

def singleRule (o : Env) : Node → Check SourceType
  | .assign target (.assign ..  :: _) => do
    if !isTarget target then
      throw (.noRule "expected an index expression or expression name on lhs of assignment")
    let _ ← checkPlace o target
    throw .malformed
  | n => do return (← assignRule o n).1

def displayRule (o : Env) : Node → Check SourceType
  | .listExpr elems _ =>
    if elems.isEmpty then .ok .empty
    else do listDisplayRule ((← (checkAll o elems).mapM id).map Prod.fst)
  | _ => .error .malformed

def statementRule (o : Env) (r : SourceType) (missing : String) (fits : Node → Bool) (n : Node) :
    Check Unit := do
  if !fits n then throw (.noRule missing)
  let _ ← checkStmt o r n

def NodeRule.apply (o : Env) (r : SourceType) (rule : NodeRule) (n : Node) :
    Check (Option SourceType) :=
  let typed (t : Check SourceType) : Check (Option SourceType) := some <$> t
  let untyped (u : Check Unit) : Check (Option SourceType) := (fun _ => none) <$> u
  let same (operators : List String) (operand result : SourceType) :=
    typed (onBinary o invalidOperation (sameRule operators operand result) n)
  match rule with
  | .passing => untyped (match n with
    | .passStmt => .ok ()
    | _ => .error .malformed)
  | .expression => untyped do let _ ← checkExpr o n
  | .literal => typed (literalRule n)
  | .negation => typed do return (← negateRule (checkPlace o [n])).1
  | .arithmetic => typed (onBinary o .malformed (fun op e₁ e₂ => arithRule e₁ op e₂) n)
  | .intComparison => same orderings .int .bool
  | .boolComparison => same equalities .bool .bool
  | .strComparison => same equalities .str .bool
  | .conjunction => same ["and"] .bool .bool
  | .disjunction => same ["or"] .bool .bool
  | .complement => typed (match n with
    | .unary "not" operand _ => do return (← notRule (checkPlace o operand)).1
    | _ => .error invalidOperation)
  | .strConcat => same ["+"] .str .str
  | .strSelect => typed (onIndex o strSelectRule n)
  | .identity => typed (onBinary o invalidOperation isRule n)
  | .listDisplay => typed (displayRule o n)
  | .listConcat => typed (onBinary o invalidOperation listConcatRule n)
  | .listSelect => typed (onIndex o listSelectRule n)
  | .assignment => typed do return (← assignRule o n).1
  | .chainedAssignment => typed (chainedRule o n)
  | .singleAssignment => typed (singleRule o n)
  | .invocation => typed (match n with
    | .call f args _ => do
      let info ← callee o f
      let _ ← argsRule (checkAll o args) info.inputs
      return info.output
    | _ => .error (.noRule "expected a call expression"))
  | .returning => untyped (statementRule o r "expected a return statement"
      (fun n => n matches .returnStmt _) n)
  | .conditional => untyped (statementRule o r "expected an if statement"
      (fun n => n matches .ifStmt ..) n)
  | .whileLoop => untyped (statementRule o r "expected a while statement"
      (fun n => n matches .whileStmt ..) n)
  | .forLoop => untyped (onFor o r forRule n)
  | .forStr => untyped (onFor o r forStrRule n)
  | .forList => untyped (onFor o r forListRule n)
  | .function => untyped (statementRule o r "expected a function definition"
      (fun n => n matches .funcDef ..) n)
  | .statement => do return (← checkStmt o r n).1

def variableRule (o : Env) (x : String) (e : Judgement) : Check SourceType := do
  let t ← o.variable x
  let (t₁, _) ← e
  requireAssignable t₁ t
  return t

end Practicum.Choco.EarlyTyping

namespace Practicum.Choco

inductive RuleArg where
  | name (x : String)
  | node (n : Node)
  | nodes (ns : List Node)

abbrev RuleResult := Option (Check (Option SourceType))

def RuleResult.type {α : Type} (c : Check (SourceType × α)) : RuleResult :=
  some ((fun p => some p.1) <$> c)

def RuleResult.holds {α : Type} (c : Check α) : RuleResult :=
  some ((fun _ => none) <$> c)

def RuleResult.plain (c : Check SourceType) : RuleResult :=
  some (some <$> c)

namespace EarlyTyping

def nodeRules : List (String × NodeRule) :=
  [("pass", .passing), ("expr-stmt", .expression), ("literals", .literal), ("negate", .negation),
   ("arith", .arithmetic), ("int-compare", .intComparison), ("bool-compare", .boolComparison),
   ("str-compare", .strComparison), ("and", .conjunction), ("or", .disjunction),
   ("not", .complement), ("str-concat", .strConcat), ("str-select", .strSelect),
   ("is", .identity), ("list-display", .listDisplay), ("list-concat", .listConcat),
   ("list-select", .listSelect), ("assign", .assignment), ("assign-multi", .chainedAssignment),
   ("assign-single", .singleAssignment), ("invoke", .invocation), ("return", .returning),
   ("if-else", .conditional), ("while", .whileLoop), ("for", .forLoop), ("for-str", .forStr),
   ("for-list", .forList), ("func-def", .function), ("check-stmt-or-def", .statement)]

def applyRule (o : Env) (r : SourceType) (name : String) (args : List RuleArg) : RuleResult :=
  let e (n : Node) := checkPlace o [n]
  match nodeRules.lookup name, args with
  | some rule, [.node n] => some (rule.apply o r n)
  | some _, _ => none
  | none, args =>
    match name, args with
    | "check-expr", [.node n] => .type (e n)
    | "var-read", [.name x] => .plain (Typing.readRule o x)
    | "var-init", [.name x, _, .node n] => .type (initRule o x (e n))
    | "var-assign-stmt", [.name x, .node n] => .plain (variableRule o x (e n))
    | "cond", [.node a, .node b, .node c] => .type (Typing.condRule (e a) (e b) (e c))
    | "stmt-def-list", [.nodes ns] => .holds (checkBody o r ns)
    | "check-stmt-or-def-list", [.nodes ns] => .holds (checkBody o r ns)
    | _, _ => none

end EarlyTyping

namespace Typing

def applyRule (o : Env) (r : SourceType) (name : String) (args : List RuleArg) : RuleResult :=
  let e (n : Node) := checkPlace o [n]
  let body := checkBody o r
  let all (ns : List Node) : Check (List SourceType) := Prod.fst <$> checkAll o ns
  match name, args with
  | "check-expr", [.node n] => .type (e n)
  | "expr-stmt", [.node n] => .holds (e n)
  | "check-stmt-or-def", [.node n] => .holds (checkStmt o r n)
  | "check-stmt-or-def-list", [.nodes ns] => .holds (body ns)
  | "stmt-def-list", [.nodes ns] => .holds (body ns)
  | "pass", [] => .holds (.ok () : Check Unit)
  | "nil", [] => .plain (.ok .empty)
  | "var-read", [.name x] => .plain (readRule o x)
  | "var-init", [.name x, .node n] => .holds (initRule o x (e n))
  | "literals", [.node n] => .plain (literalRule n)
  | "negate", [.node n] => .type (negateRule (e n))
  | "not", [.node n] => .type (notRule (e n))
  | "arith", [.node a, .name op, .node b] => .type (arithRule (e a) op (e b))
  | "int-compare", [.node a, .name op, .node b] => .type (intCompareRule (e a) op (e b))
  | "bool-compare", [.node a, .name op, .node b] => .type (boolCompareRule (e a) op (e b))
  | "str-compare", [.node a, .name op, .node b] => .type (strCompareRule (e a) op (e b))
  | "and", [.node a, .node b] => .type (logicRule (e a) (e b))
  | "or", [.node a, .node b] => .type (logicRule (e a) (e b))
  | "str-concat", [.node a, .node b] => .type (strConcatRule (e a) (e b))
  | "str-select", [.node a, .node b] => .type (strSelectRule (e a) (e b))
  | "is", [.node a, .node b] => .type (isRule (e a) (e b))
  | "list-concat", [.node a, .node b] => .type (listConcatRule (e a) (e b))
  | "list-select", [.node a, .node b] => .type (listSelectRule (e a) (e b))
  | "list-display", [.nodes ns] => .plain (all ns >>= listDisplayRule)
  | "cond", [.node a, .node b, .node c] => .type (condRule (e a) (e b) (e c))
  | "assign-stmt", [.node a, .node b] => .holds (assignRule (e a) (e b))
  | "multi-assign-stmt", [.nodes ts, .node v] => .holds (multiAssignRule (ts.map e) (e v))
  | "invoke", [.name f, .nodes ns] => .plain (all ns >>= invokeRule o f)
  | "return-e", [.node n] => .holds (returnValueRule r (e n))
  | "return", [] => .holds (returnRule r)
  | "if-else", [.node c, .nodes a, .nodes b] =>
    .holds (ifRule (e c) (body a) (if b.isEmpty then none else some (body b)))
  | "while", [.node c, .nodes b] => .holds (whileRule (e c) (body b))
  | "for-str", [.name x, .node n, .nodes b] => .holds (forStrRule o x (e n) (body b))
  | "for-list", [.name x, .node n, .nodes b] => .holds (forListRule o x (e n) (body b))
  | "func-def", [.name f, .nodes b] => .holds do
    let info ← functionInfo o f
    checkBody (o.enter info) info.output b
  | _, _ => none

end Typing

def applyRule (edition : Edition) (o : Env) (r : SourceType) (name : String)
    (args : List RuleArg) : RuleResult :=
  if edition = .second then EarlyTyping.applyRule o r name args
  else Typing.applyRule o r name args

end Practicum.Choco
