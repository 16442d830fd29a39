import Ctds.Lib.Reasons
import Ctds.Meaning

/-! Why a run has no meaning. The functions of `Meaning` once more, with a fault in place of
every missing value: one of them is a defect of the program's types, the others happen to
programs that are well typed. -/

namespace Ctds

open Reasons Word

inductive Fault where
  /-- A value of the wrong type, or a tree that is no program. -/
  | type
  /-- A call of a void method where a value is needed. -/
  | void
  /-- A variable without a value, or one that the method does not declare: a global one. -/
  | unset
  /-- A division that the processor refuses. -/
  | division
  /-- The end of a method that has a value to return. -/
  | noReturn
  /-- More rounds of a loop, or deeper calls, than are allowed for. -/
  | endless
  /-- A function of another object file that does not come back. -/
  | library
deriving DecidableEq

/-- A call, with the fault it ends in. -/
abbrev Trial (W : Type) := CString → List Value → W → Except Fault (Option Value × W)

/-- Integers have a quotient and a remainder, or the processor refuses. -/
def binaryFault : Operator → Value → Value → Fault
  | .division, .int _, .int _ | .mod, .int _, .int _ => .division
  | _, _, _ => .type

def tryBinary (op : Operator) (l r : Value) : Except Fault Value :=
  because (binaryFault op l r) (binaryMeaning op l r)

def tryUnary (op : Operator) (v : Value) : Except Fault Value := because .type (unaryMeaning op v)

section Programs

variable {W : Type} (tab : SymbolTable)

def tryMethod (call : Trial W) (line : Int) (name : Ident) (numArgs : Nat) (vs : List Value)
    (w : W) : Except Fault (Option Value × W) :=
  match calledMethod tab line name numArgs with
  | .error _ => .error .type
  | .ok method => do
    let (answer, w) ← call name.text vs w
    if method.returnType.allows answer then .ok (answer, w)
    else .error (if answer.isNone then .noReturn else .type)

mutual
def tryExpr (call : Trial W) (vars : Variables) : AstNode → W → Except Fault (Value × W)
  | .leaf _ value, w => (because .unset (leafMeaning vars value)).map fun v => (v, w)
  | .common _ .binary op left right, w => do
    let (l, w) ← tryExpr call vars left w
    let (r, w) ← tryExpr call vars right w
    let v ← tryBinary op l r
    return (v, w)
  | .common _ .unary op left _, w => do
    let (l, w) ← tryExpr call vars left w
    let v ← tryUnary op l
    return (v, w)
  | .methodCall line name numArgs args, w => do
    let (vs, w) ← tryArgs call vars args w
    let (answer, w) ← tryMethod tab call line name numArgs vs w
    let v ← because .void answer
    return (v, w)
  | _, _ => .error .type
def tryArgs (call : Trial W) (vars : Variables) :
    AstNodeList → W → Except Fault (List Value × W)
  | .nil, w => .ok ([], w)
  | .cons first next, w => do
    let (v, w) ← tryExpr call vars first w
    let (vs, w) ← tryArgs call vars next w
    return (v :: vs, w)
end

abbrev Attempt (W : Type) := ProgState W → Except Fault (ProgState W × Ending)

def tryValue (call : Trial W) (node : AstNode) (s : ProgState W) :
    Except Fault (Value × ProgState W) :=
  (tryExpr tab call s.vars node s.world).map fun (v, w) => (v, ⟨s.vars, w⟩)

def trySet (left : AstNode) (v : Value) (s : ProgState W) :
    Except Fault (ProgState W × Ending) :=
  match left with
  | .leaf _ (.id p) =>
    match tab.entry p, s.vars p with
    | some info, some _ =>
      if info.idType = v.type.code then
        .ok (⟨Function.update s.vars p (some (some v)), s.world⟩, .normal)
      else .error .type
    | some _, none => .error .unset
    | none, _ => .error .type
  | _ => .error .type

def tryLoop (condition : ProgState W → Except Fault (Value × ProgState W)) (body : Attempt W) :
    Nat → Attempt W
  | 0, s => do
    let (v, s) ← condition s
    match v with
    | .int _ => .error .type
    | .bool false => return (s, .normal)
    | .bool true => .error .endless
  | fuel + 1, s => do
    let (v, s) ← condition s
    match v with
    | .int _ => .error .type
    | .bool false => return (s, .normal)
    | .bool true =>
      let (s, ending) ← body s
      match ending with
      | .normal => tryLoop condition body fuel s
      | .returned value => return (s, .returned value)

mutual
def tryStmt (call : Trial W) (fuel : Nat) : AstNode → Attempt W
  | .null, s => .ok (s, .normal)
  | .common _ _ op left right, s =>
    match op with
    | .decl =>
      let s := declareVariable left s
      if right.isNull then .ok (s, .normal)
      else do
        let (v, s) ← tryValue tab call right s
        trySet tab left v s
    | .assign => do
      let (v, s) ← tryValue tab call right s
      trySet tab left v s
    | .ret =>
      if left.isNull then .ok (s, .returned none)
      else do
        let (v, s) ← tryValue tab call left s
        return (s, .returned (some v))
    | _ => .error .type
  | .ifStmt _ condition thenBlock elseBlock, s => do
    let (v, s) ← tryValue tab call condition s
    match v with
    | .int _ => .error .type
    | .bool false => tryStmt call fuel elseBlock s
    | .bool true => tryStmt call fuel thenBlock s
  | .whileStmt _ condition block, s =>
    tryLoop (tryValue tab call condition) (tryStmt call fuel block) fuel s
  | .methodCall line name numArgs args, s => do
    let (vs, w) ← tryArgs tab call s.vars args s.world
    let (_, w) ← tryMethod tab call line name numArgs vs w
    return (⟨s.vars, w⟩, .normal)
  | .block _ stmts, s => tryStmts call fuel stmts s
  | _, _ => .error .type
def tryStmts (call : Trial W) (fuel : Nat) : AstNodeList → Attempt W
  | .nil, s => .ok (s, .normal)
  | .cons first next, s => do
    let (s, ending) ← tryStmt call fuel first s
    match ending with
    | .normal => tryStmts call fuel next s
    | .returned value => return (s, .returned value)
end

def tryCall (headAst : List AstNode) (library : Callee W) (fuel : Nat) : Nat → Trial W
  | 0, _, _, _ => .error .endless
  | depth + 1, name, args, w =>
    match bodyNamed tab name headAst with
    | none => because .library (library name args w)
    | some (info, block) => do
      let vars ← because .type (bindArgs tab info.methodView.args args)
      let (s, ending) ← tryStmt tab (tryCall headAst library fuel depth) fuel block ⟨vars, w⟩
      return (ending.answer, s.world)

variable {tab} {trial : Trial W} {call : Callee W}

theorem tryMethod_explains (calls : ∀ name vs w, Explains (trial name vs w) (call name vs w))
    (line : Int) (name : Ident) (numArgs : Nat) (vs : List Value) (w : W) :
    Explains (tryMethod tab trial line name numArgs vs w)
      (callMethod tab call line name numArgs vs w) := by
  unfold tryMethod callMethod
  cases calledMethod tab line name numArgs with
  | error err => exact .error _
  | ok method =>
    refine (calls name.text vs w).bind fun (answer, w) => ?_
    dsimp only
    split
    · exact .ok _
    · exact .error _

mutual
theorem tryExpr_explains (calls : ∀ name vs w, Explains (trial name vs w) (call name vs w))
    (vars : Variables) : ∀ (node : AstNode) (w : W),
      Explains (tryExpr tab trial vars node w) (exprMeaning tab call vars node w)
  | .leaf line value, w => (Explains.because _ _).map _
  | .common line .binary op left right, w => by
    rw [tryExpr, exprMeaning]
    refine (tryExpr_explains calls vars left w).bind fun (l, w) => ?_
    refine (tryExpr_explains calls vars right w).bind fun (r, w) => ?_
    exact (Explains.because _ _).bind fun v => .ok _
  | .common line .unary op left right, w => by
    rw [tryExpr, exprMeaning]
    refine (tryExpr_explains calls vars left w).bind fun (l, w) => ?_
    exact (Explains.because _ _).bind fun v => .ok _
  | .methodCall line name numArgs args, w => by
    rw [tryExpr, exprMeaning]
    refine (tryArgs_explains calls vars args w).bind fun (vs, w) => ?_
    refine (tryMethod_explains calls line name numArgs vs w).bind fun (answer, w) => ?_
    exact (Explains.because _ _).bind fun v => .ok _
  | .null, _ | .ifStmt .., _ | .whileStmt .., _ | .methodDecl .., _ | .block .., _ => .error _
theorem tryArgs_explains (calls : ∀ name vs w, Explains (trial name vs w) (call name vs w))
    (vars : Variables) : ∀ (args : AstNodeList) (w : W),
      Explains (tryArgs tab trial vars args w) (argsMeaning tab call vars args w)
  | .nil, w => .ok _
  | .cons first next, w => by
    rw [tryArgs, argsMeaning]
    refine (tryExpr_explains calls vars first w).bind fun (v, w) => ?_
    exact (tryArgs_explains calls vars next w).bind fun (vs, w) => .ok _
end

theorem tryValue_explains (calls : ∀ name vs w, Explains (trial name vs w) (call name vs w))
    (node : AstNode) (s : ProgState W) :
    Explains (tryValue tab trial node s) (valueOf tab call node s) :=
  (tryExpr_explains calls s.vars node s.world).map _

theorem trySet_explains (left : AstNode) (v : Value) (s : ProgState W) :
    Explains (trySet tab left v s) (setVariable tab left v s) := by
  match left with
  | .leaf _ (.id p) =>
    simp only [trySet, setVariable]
    cases tab.entry p with
    | none => exact .error _
    | some info =>
      cases s.vars p with
      | none => exact .error _
      | some _ =>
        dsimp only
        split
        · exact .ok _
        · exact .error _
  | .leaf _ (.int _) | .leaf _ (.bool _) | .null | .common .. | .ifStmt .. | .whileStmt ..
  | .methodDecl .. | .methodCall .. | .block .. => exact .error _

theorem tryLoop_explains {test : ProgState W → Except Fault (Value × ProgState W)}
    {condition : ProgState W → Option (Value × ProgState W)} {attempt : Attempt W}
    {body : Meaning W} (tests : ∀ s, Explains (test s) (condition s))
    (bodies : ∀ s, Explains (attempt s) (body s)) (fuel : Nat) :
    ∀ s, Explains (tryLoop test attempt fuel s) (loopMeaning condition body fuel s) := by
  induction fuel with
  | zero =>
    intro s
    refine (tests s).bind fun (v, s) => ?_
    match v with
    | .int _ => exact .error _
    | .bool false => exact .ok _
    | .bool true => exact .error _
  | succ fuel ih =>
    intro s
    refine (tests s).bind fun (v, s) => ?_
    match v with
    | .int _ => exact .error _
    | .bool false => exact .ok _
    | .bool true =>
      refine (bodies s).bind fun (s, ending) => ?_
      cases ending with
      | normal => exact ih s
      | returned value => exact .ok _

mutual
theorem tryStmt_explains (calls : ∀ name vs w, Explains (trial name vs w) (call name vs w))
    (fuel : Nat) : ∀ (node : AstNode) (s : ProgState W),
      Explains (tryStmt tab trial fuel node s) (stmtMeaning tab call fuel node s)
  | .null, s => .ok _
  | .common line arity op left right, s => by
    cases op with
    | decl =>
      simp only [tryStmt, stmtMeaning]
      split
      · exact .ok _
      · exact (tryValue_explains calls right _).bind fun (v, s) => trySet_explains left v s
    | assign =>
      simp only [tryStmt, stmtMeaning]
      exact (tryValue_explains calls right s).bind fun (v, s) => trySet_explains left v s
    | ret =>
      simp only [tryStmt, stmtMeaning]
      split
      · exact .ok _
      · exact (tryValue_explains calls left s).bind fun (v, s) => .ok _
    | _ => exact .error _
  | .ifStmt line condition thenBlock elseBlock, s => by
    rw [tryStmt, stmtMeaning]
    refine (tryValue_explains calls condition s).bind fun (v, s) => ?_
    match v with
    | .int _ => exact .error _
    | .bool false => exact tryStmt_explains calls fuel elseBlock s
    | .bool true => exact tryStmt_explains calls fuel thenBlock s
  | .whileStmt line condition block, s => by
    rw [tryStmt, stmtMeaning]
    exact tryLoop_explains (tryValue_explains calls condition)
      (tryStmt_explains calls fuel block) fuel s
  | .methodCall line name numArgs args, s => by
    rw [tryStmt, stmtMeaning]
    refine (tryArgs_explains calls s.vars args s.world).bind fun (vs, w) => ?_
    exact (tryMethod_explains calls line name numArgs vs w).bind fun (answer, w) => .ok _
  | .block line stmts, s => tryStmts_explains calls fuel stmts s
  | .methodDecl .., _ | .leaf .., _ => .error _
theorem tryStmts_explains (calls : ∀ name vs w, Explains (trial name vs w) (call name vs w))
    (fuel : Nat) : ∀ (stmts : AstNodeList) (s : ProgState W),
      Explains (tryStmts tab trial fuel stmts s) (stmtsMeaning tab call fuel stmts s)
  | .nil, s => .ok _
  | .cons first next, s => by
    rw [tryStmts, stmtsMeaning]
    refine (tryStmt_explains calls fuel first s).bind fun (s, ending) => ?_
    cases ending with
    | normal => exact tryStmts_explains calls fuel next s
    | returned value => exact .ok _
end

/-- A call has a meaning exactly if it ends in no fault, and then the meaning is its value. -/
theorem tryCall_explains (tab : SymbolTable) (headAst : List AstNode) (library : Callee W)
    (fuel depth : Nat) :
    ∀ name args w, Explains (tryCall tab headAst library fuel depth name args w)
      (callMeaning tab headAst library fuel depth name args w) := by
  induction depth with
  | zero => exact fun name args w => .error _
  | succ depth ih =>
    intro name args w
    rw [tryCall, callMeaning]
    cases bodyNamed tab name headAst with
    | none => exact .because _ _
    | some method =>
      refine (Explains.because _ _).bind fun vars => ?_
      exact (tryStmt_explains ih fuel method.2 _).bind fun (s, ending) => .ok _

end Programs

end Ctds
