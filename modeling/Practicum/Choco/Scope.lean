import Practicum.Choco.Node

/-!
# Scopes

A scope holds the names declared in it; a function's name leads to the scope of its body. Scopes
are built first, over the whole program, and then every use of a name is looked up in them.

A name may be read if it is declared in its own scope or in an enclosing one. It may be assigned
to, or run through by a loop, only if it is declared in its own scope.
-/

namespace Practicum.Choco

inductive Scope where
  | mk (names : List (String × Option Scope))
  deriving Repr

inductive ScopeError where
  | duplicate (name : String)
  | undefined (name : String)
  | notAFunction (name : String)
  | notLocal (name : String)
  | notGlobal (name : String)
  | notEnclosing (name : String)
  | malformed
  | emptyLoop (loop : Node)
  deriving Repr

def ScopeError.fault : ScopeError → Fault
  | .duplicate x => .meaningless
      ("[Name Analysis Error]: Identifier " ++ x ++ " already defined in the current context")
  | .undefined x => .meaningless
      ("[Name Analysis Error]: Identifier `" ++ x ++ "' found that was not previously defined.")
  | .notAFunction x => .meaningless
      ("[Name Analysis Error]: Function " ++ x ++ " found that was not previously defined.")
  | .notLocal x => .meaningless
      ("[Name Analysis Error]: Cannot assign to variable `" ++ x
        ++ "' that is not explicitly declared in this scope")
  | .notGlobal x => .meaningless
      ("[Name Analysis Error]: Identifier `" ++ x ++ "' not declared in global scope.")
  | .notEnclosing x => .meaningless
      ("[Name Analysis Error]: Identifier `" ++ x ++ "' not declared in valid parent scope.")
  | .malformed => .broken ""
  | .emptyLoop loop => .refused ("Error: " ++ loop.display ++ " has empty block!")

namespace Scope

def empty : Scope := .mk []

def names : Scope → List (String × Option Scope)
  | .mk ns => ns

def contains (s : Scope) (x : String) : Bool :=
  s.names.any fun entry => entry.1 == x

def declare (s : Scope) (x : String) (inner : Option Scope) : Except ScopeError Scope :=
  if s.contains x then .error (.duplicate x) else .ok (.mk (s.names ++ [(x, inner)]))

def initial : Scope :=
  .mk [("print", some empty), ("len", some empty), ("input", some empty)]

def declareParam (s : Scope) : Node → Except ScopeError Scope
  | .typedVar x _ => s.declare x none
  | _ => .error .malformed

def declareOuter (s : Scope) : Node → Except ScopeError Scope
  | .globalDecl x => s.declare x none
  | .nonlocalDecl x => s.declare x none
  | _ => .ok s

def build (s : Scope) (n : Node) : Except ScopeError Scope :=
  match n with
  | .funcDef f params _ body => do
    let inner ← params.foldlM declareParam empty
    let inner ← body.foldlM declareOuter inner
    let inner ← body.attach.foldlM (fun t ⟨c, _⟩ => t.build c) inner
    s.declare f (some inner)
  | n => do
    let s ← n.children.attach.foldlM (fun t ⟨c, _⟩ => t.build c) s
    match n with
    | .varDef (.typedVar x _ :: _) _ => s.declare x none
    | .varDef _ _ => .error .malformed
    | _ => .ok s
termination_by sizeOf n
decreasing_by
  · have := List.sizeOf_lt_of_mem ‹c ∈ body›
    simp
    omega
  · exact Node.sizeOf_lt_of_mem_children ‹_›

def function (s : Scope) (f : String) : Except ScopeError Scope :=
  match s.names.lookup f with
  | some (some inner) => .ok inner
  | _ => .error (.notAFunction f)

end Scope

structure Scopes where
  here : Scope
  around : List Scope := []

namespace Scopes

def sees (c : Scopes) (x : String) : Bool :=
  c.here.contains x || c.around.any fun s => s.contains x

def outermost (c : Scopes) : Scope :=
  c.around.getLast?.getD c.here

def checkUse (c : Scopes) : Node → Except ScopeError Unit
  | .name x _ => if c.sees x then .ok () else .error (.undefined x)
  | .call f _ _ => if c.sees f then .ok () else .error (.undefined f)
  | .assign (.name x _ :: _) _ => if c.here.contains x then .ok () else .error (.notLocal x)
  | .globalDecl x => if c.outermost.contains x then .ok () else .error (.notGlobal x)
  | .nonlocalDecl x =>
    match c.around with
    | parent :: _ :: _ => if parent.contains x then .ok () else .error (.notEnclosing x)
    | _ => .error (.notEnclosing x)
  | _ => .ok ()

def check (c : Scopes) (n : Node) : Except ScopeError Unit :=
  match n with
  | .funcDef f _ _ body => do
    let inner ← c.here.function f
    body.attach.forM fun ⟨m, _⟩ => check { here := inner, around := c.here :: c.around } m
  | .forStmt x iterable body => do
    if !c.here.contains x then throw (.undefined x)
    match iterable with
    | [] => throw (.emptyLoop n)
    | e :: _ => check c e
    body.attach.forM fun ⟨m, _⟩ => check c m
  | n => do
    n.children.attach.forM fun ⟨m, _⟩ => check c m
    c.checkUse n
termination_by sizeOf n
decreasing_by
  · have := List.sizeOf_lt_of_mem ‹m ∈ body›
    simp
    omega
  · have := List.sizeOf_lt_of_mem ‹m ∈ body›
    simp
    omega
  · simp
    omega
  · exact Node.sizeOf_lt_of_mem_children ‹_›

end Scopes

def checkNames (ns : List Node) : Except ScopeError Unit := do
  let scope ← ns.foldlM Scope.build Scope.initial
  ns.forM ({ here := scope : Scopes }).check

end Practicum.Choco
