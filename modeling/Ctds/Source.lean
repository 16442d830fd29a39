import Ctds.CheckerSpec
import Ctds.Lib.Word

/-! What the programs mean: the value of an expression and the run of a statement over a
store of words keyed by variable name. Calls are answered by an oracle that sees the
events so far. Fuel bounds the rounds of a loop, nothing else. -/

namespace Ctds

open Word

abbrev Store := CString → Word

inductive Event where
  | assign (name : CString) (value : Word)
  | call (name : CString) (args : List Word)
deriving DecidableEq

/-- The result of a call, from the events before it, the name and the arguments. -/
abbrev Oracle := List Event → CString → List Word → Word

/-- When `typed` is set, a bool variable has a value only while its word is 0 or 1. -/
def readVariable (tab : SymbolTable) (typed : Bool) (store : Store) (p : IdPtr) : Option Word :=
  match tab.entry p with
  | none => none
  | some info =>
    let v := store info.name.text
    if typed = true ∧ info.idType = Ty.bool.code ∧ ¬ IsBit v then none else some v

def leafValue (tab : SymbolTable) (typed : Bool) (store : Store) : LeafValue → Option Word
  | .int v => some (v.signExtend 64)
  | .bool v => some (v.signExtend 64)
  | .id p => readVariable tab typed store p

def binaryValue (op : Operator) (l r : Word) : Option Word :=
  match op with
  | .addition => some (l + r)
  | .subtraction => some (l - r)
  | .multiplication => some (l * r)
  | .division => quotient l r
  | .mod => remainder l r
  | .les => some (ofBool (l.slt r))
  | .grt => some (ofBool (r.slt l))
  | .eq => some (ofBool (l == r))
  | .neq => some (ofBool (l != r))
  | .leq => some (ofBool (l.sle r))
  | .geq => some (ofBool (r.sle l))
  | .and => some (ofBool (l != 0 && r != 0))
  | .or => some (ofBool (l != 0 || r != 0))
  | _ => none

def unaryValue (op : Operator) (v : Word) : Option Word :=
  match op with
  | .minus => some (-v)
  | .neg => some (ofBool (v == 0))
  | _ => none

mutual
/-- Operands from left to right; `&&` and `||` evaluate both. -/
def exprValue (tab : SymbolTable) (typed : Bool) (oracle : Oracle) (store : Store) :
    AstNode → List Event → Option (Word × List Event)
  | .leaf _ value, events => (leafValue tab typed store value).map fun v => (v, events)
  | .common _ .binary op left right, events => do
    let (l, events) ← exprValue tab typed oracle store left events
    let (r, events) ← exprValue tab typed oracle store right events
    let v ← binaryValue op l r
    return (v, events)
  | .common _ .unary op left _, events => do
    let (l, events) ← exprValue tab typed oracle store left events
    let v ← unaryValue op l
    return (v, events)
  | .methodCall _ name _ args, events => do
    let (vs, events) ← argValues tab typed oracle store args events
    return (oracle events name.text vs, events ++ [.call name.text vs])
  | _, _ => none
def argValues (tab : SymbolTable) (typed : Bool) (oracle : Oracle) (store : Store) :
    AstNodeList → List Event → Option (List Word × List Event)
  | .nil, events => some ([], events)
  | .cons first next, events => do
    let (v, events) ← exprValue tab typed oracle store first events
    let (vs, events) ← argValues tab typed oracle store next events
    return (v :: vs, events)
end

structure SourceState where
  store : Store
  events : List Event

/-- How a statement ends: at its end, or in a return. -/
inductive Completion where
  | normal
  | returned (value : Option Word)
deriving DecidableEq

abbrev Runner := SourceState → Option (SourceState × Completion)

def assignTo (tab : SymbolTable) (left : AstNode) (v : Word) (s : SourceState) :
    Option (SourceState × Completion) :=
  match leafSymbol tab left with
  | none => none
  | some info =>
    some (⟨Function.update s.store info.name.text v, s.events ++ [.assign info.name.text v]⟩,
      .normal)

def evaluate (tab : SymbolTable) (typed : Bool) (oracle : Oracle) (node : AstNode)
    (s : SourceState) :
    Option (Word × SourceState) :=
  (exprValue tab typed oracle s.store node s.events).map fun (v, events) => (v, ⟨s.store, events⟩)

/-- The rounds of a loop; the condition is looked at before fuel is. -/
def runLoop (condition : SourceState → Option (Word × SourceState)) (body : Runner) :
    Nat → Runner
  | 0, s => do
    let (v, s) ← condition s
    if v = 0 then return (s, .normal) else none
  | fuel + 1, s => do
    let (v, s) ← condition s
    if v = 0 then return (s, .normal)
    else
      let (s, completion) ← body s
      match completion with
      | .normal => runLoop condition body fuel s
      | .returned value => return (s, .returned value)

mutual
def runStmt (tab : SymbolTable) (typed : Bool) (oracle : Oracle) (fuel : Nat) : AstNode → Runner
  | .null, s => some (s, .normal)
  | .common _ _ op left right, s =>
    match op with
    | .decl =>
      if right.isNull then some (s, .normal)
      else do
        let (v, s) ← evaluate tab typed oracle right s
        assignTo tab left v s
    | .assign => do
      let (v, s) ← evaluate tab typed oracle right s
      assignTo tab left v s
    | .ret =>
      if left.isNull then some (s, .returned none)
      else do
        let (v, s) ← evaluate tab typed oracle left s
        return (s, .returned (some v))
    | _ => none
  | .ifStmt _ condition thenBlock elseBlock, s => do
    let (v, s) ← evaluate tab typed oracle condition s
    if v = 0 then runStmt tab typed oracle fuel elseBlock s
    else runStmt tab typed oracle fuel thenBlock s
  | .whileStmt _ condition block, s =>
    runLoop (evaluate tab typed oracle condition) (runStmt tab typed oracle fuel block) fuel s
  | .methodCall line name numArgs args, s => do
    let (_, s) ← evaluate tab typed oracle (.methodCall line name numArgs args) s
    return (s, .normal)
  | .block _ stmts, s => runStmts tab typed oracle fuel stmts s
  | _, _ => none
def runStmts (tab : SymbolTable) (typed : Bool) (oracle : Oracle) (fuel : Nat) :
    AstNodeList → Runner
  | .nil, s => some (s, .normal)
  | .cons first next, s => do
    let (s, completion) ← runStmt tab typed oracle fuel first s
    match completion with
    | .normal => runStmts tab typed oracle fuel next s
    | .returned value => return (s, .returned value)
end

/-- The same assignments, calls and returns from every state, under every oracle. -/
def SameBehaviour (tab : SymbolTable) (node node' : AstNode) : Prop :=
  ∀ oracle fuel s, runStmt tab false oracle fuel node s = runStmt tab false oracle fuel node' s

end Ctds
