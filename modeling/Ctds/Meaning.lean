import Ctds.Parser
import Ctds.Source

/-! What a program means, with no regard to names, slots or registers: values are integers
and truth values, a variable belongs to the declaration that made it and has no value
before the first assignment, and a call runs the body of the method it names. The functions
of other object files act on a world of their own. A run that reads a variable without a
value, or leaves the types, has no meaning; so has one that goes deeper than `depth` calls
or takes more than `fuel` rounds of a loop. A run of a method knows no variables but those
declared in its body, so one that reads or assigns a global variable has no meaning either. -/

namespace Ctds

open Word

inductive Value where
  | int (v : Word)
  | bool (b : Bool)
deriving DecidableEq

namespace Value

def type : Value → Ty
  | int _ => .int
  | bool _ => .bool

/-- The word that stands for a value. -/
def word : Value → Word
  | int v => v
  | bool b => ofBool b

end Value

/-- What calling a function of this name does: its answer, none if it is void, and the
world after it. -/
abbrev Callee (W : Type) := CString → List Value → W → Option (Option Value × W)

/-- The variables of one run of a method: not declared, declared, or with a value. -/
abbrev Variables := IdPtr → Option (Option Value)

def binaryMeaning : Operator → Value → Value → Option Value
  | .addition, .int l, .int r => some (.int (l + r))
  | .subtraction, .int l, .int r => some (.int (l - r))
  | .multiplication, .int l, .int r => some (.int (l * r))
  | .division, .int l, .int r => (quotient l r).map .int
  | .mod, .int l, .int r => (remainder l r).map .int
  | .les, .int l, .int r => some (.bool (l.slt r))
  | .grt, .int l, .int r => some (.bool (r.slt l))
  | .leq, .int l, .int r => some (.bool (l.sle r))
  | .geq, .int l, .int r => some (.bool (r.sle l))
  | .eq, .int l, .int r => some (.bool (l == r))
  | .neq, .int l, .int r => some (.bool (l != r))
  | .eq, .bool l, .bool r => some (.bool (l == r))
  | .and, .bool l, .bool r => some (.bool (l && r))
  | .or, .bool l, .bool r => some (.bool (l || r))
  | _, _, _ => none

def unaryMeaning : Operator → Value → Option Value
  | .minus, .int v => some (.int (-v))
  | .neg, .bool b => some (.bool !b)
  | _, _ => none

def leafMeaning (vars : Variables) : LeafValue → Option Value
  | .int v => some (.int (v.signExtend 64))
  | .bool v => some (.bool (v == 1))
  | .id p => (vars p).join

/-- Whether an answer is one that the declared type promises. -/
def ReturnType.allows : ReturnType → Option Value → Bool
  | .int, some (.int _) | .bool, some (.bool _) | .void, none => true
  | _, _ => false

section Programs

variable {W : Type} (tab : SymbolTable)

def callMethod (call : Callee W) (line : Int) (name : Ident) (numArgs : Nat) (vs : List Value)
    (w : W) : Option (Option Value × W) :=
  match calledMethod tab line name numArgs with
  | .error _ => none
  | .ok method => do
    let (answer, w) ← call name.text vs w
    if method.returnType.allows answer then some (answer, w) else none

mutual
/-- Operands from left to right; `&&` and `||` evaluate both. -/
def exprMeaning (call : Callee W) (vars : Variables) : AstNode → W → Option (Value × W)
  | .leaf _ value, w => (leafMeaning vars value).map fun v => (v, w)
  | .common _ .binary op left right, w => do
    let (l, w) ← exprMeaning call vars left w
    let (r, w) ← exprMeaning call vars right w
    let v ← binaryMeaning op l r
    return (v, w)
  | .common _ .unary op left _, w => do
    let (l, w) ← exprMeaning call vars left w
    let v ← unaryMeaning op l
    return (v, w)
  | .methodCall line name numArgs args, w => do
    let (vs, w) ← argsMeaning call vars args w
    let (answer, w) ← callMethod tab call line name numArgs vs w
    let v ← answer
    return (v, w)
  | _, _ => none
def argsMeaning (call : Callee W) (vars : Variables) : AstNodeList → W → Option (List Value × W)
  | .nil, w => some ([], w)
  | .cons first next, w => do
    let (v, w) ← exprMeaning call vars first w
    let (vs, w) ← argsMeaning call vars next w
    return (v :: vs, w)
end

structure ProgState (W : Type) where
  vars : Variables
  world : W

/-- How a statement ends: at its end, or in a return. -/
inductive Ending where
  | normal
  | returned (value : Option Value)
deriving DecidableEq

abbrev Meaning (W : Type) := ProgState W → Option (ProgState W × Ending)

def valueOf (call : Callee W) (node : AstNode) (s : ProgState W) : Option (Value × ProgState W) :=
  (exprMeaning tab call s.vars node s.world).map fun (v, w) => (v, ⟨s.vars, w⟩)

/-- A declared variable takes a value of its type. -/
def setVariable (left : AstNode) (v : Value) (s : ProgState W) :
    Option (ProgState W × Ending) :=
  match left with
  | .leaf _ (.id p) =>
    match tab.entry p, s.vars p with
    | some info, some _ =>
      if info.idType = v.type.code then
        some (⟨Function.update s.vars p (some (some v)), s.world⟩, .normal)
      else none
    | _, _ => none
  | _ => none

/-- A declaration starts its variable anew, without a value. -/
def declareVariable (left : AstNode) (s : ProgState W) : ProgState W :=
  match left with
  | .leaf _ (.id p) => ⟨Function.update s.vars p (some none), s.world⟩
  | _ => s

/-- The rounds of a loop; the condition is looked at before fuel is. -/
def loopMeaning (condition : ProgState W → Option (Value × ProgState W)) (body : Meaning W) :
    Nat → Meaning W
  | 0, s => do
    let (v, s) ← condition s
    if v = .bool false then return (s, .normal) else none
  | fuel + 1, s => do
    let (v, s) ← condition s
    match v with
    | .int _ => none
    | .bool false => return (s, .normal)
    | .bool true =>
      let (s, ending) ← body s
      match ending with
      | .normal => loopMeaning condition body fuel s
      | .returned value => return (s, .returned value)

mutual
def stmtMeaning (call : Callee W) (fuel : Nat) : AstNode → Meaning W
  | .null, s => some (s, .normal)
  | .common _ _ op left right, s =>
    match op with
    | .decl =>
      let s := declareVariable left s
      if right.isNull then some (s, .normal)
      else do
        let (v, s) ← valueOf tab call right s
        setVariable tab left v s
    | .assign => do
      let (v, s) ← valueOf tab call right s
      setVariable tab left v s
    | .ret =>
      if left.isNull then some (s, .returned none)
      else do
        let (v, s) ← valueOf tab call left s
        return (s, .returned (some v))
    | _ => none
  | .ifStmt _ condition thenBlock elseBlock, s => do
    let (v, s) ← valueOf tab call condition s
    match v with
    | .int _ => none
    | .bool false => stmtMeaning call fuel elseBlock s
    | .bool true => stmtMeaning call fuel thenBlock s
  | .whileStmt _ condition block, s =>
    loopMeaning (valueOf tab call condition) (stmtMeaning call fuel block) fuel s
  | .methodCall line name numArgs args, s => do
    let (vs, w) ← argsMeaning tab call s.vars args s.world
    let (_, w) ← callMethod tab call line name numArgs vs w
    return (⟨s.vars, w⟩, .normal)
  | .block _ stmts, s => stmtsMeaning call fuel stmts s
  | _, _ => none
def stmtsMeaning (call : Callee W) (fuel : Nat) : AstNodeList → Meaning W
  | .nil, s => some (s, .normal)
  | .cons first next, s => do
    let (s, ending) ← stmtMeaning call fuel first s
    match ending with
    | .normal => stmtsMeaning call fuel next s
    | .returned value => return (s, .returned value)
end

/-- The first method of this name that has a body. -/
def bodyNamed (name : CString) : List AstNode → Option (SymbolInfo × AstNode)
  | [] => none
  | .methodDecl _ sym block :: rest =>
    match tab.entry sym with
    | none => bodyNamed name rest
    | some info =>
      if info.methodView.isExtern = false ∧ info.name.text = name then some (info, block)
      else bodyNamed name rest
  | _ :: rest => bodyNamed name rest

/-- Every parameter has the value of its argument, of its own type. -/
def bindArgs (params : List Args) (args : List Value) : Option Variables :=
  if params.map Args.type = args.map Value.type then
    some fun p =>
      match tab.entry p with
      | some (.id name type) =>
        (((params.map Args.name).zip args).lookup name).bind fun v =>
          if type = v.type then some (some v) else none
      | _ => none
  else none

def Ending.answer : Ending → Option Value
  | normal => none
  | returned value => value

/-- A call at most `depth` deep; what has no body in the program is in the library. -/
def callMeaning (headAst : List AstNode) (library : Callee W) (fuel : Nat) : Nat → Callee W
  | 0, _, _, _ => none
  | depth + 1, name, args, w =>
    match bodyNamed tab name headAst with
    | none => library name args w
    | some (info, block) => do
      let vars ← bindArgs tab info.methodView.args args
      let (s, ending) ← stmtMeaning tab
        (callMeaning headAst library fuel depth) fuel block ⟨vars, w⟩
      return (ending.answer, s.world)

end Programs

/-- The ending, with the word for the value. -/
def Ending.completion : Ending → Completion
  | normal => .normal
  | returned value => .returned (value.map Value.word)

theorem isBit_of_type {v : Value} (isBool : v.type = .bool) : IsBit v.word := by
  cases v with
  | int w => cases isBool
  | bool b => exact isBit_ofBool b

theorem binaryMeaning_word {op : Operator} {l r v : Value} (h : binaryMeaning op l r = some v) :
    binaryValue op l.word r.word = some v.word := by
  unfold binaryMeaning at h
  split at h
  case h_4 | h_5 =>
    obtain ⟨q, value, rfl⟩ := Option.map_eq_some_iff.mp h
    exact value
  case h_12 l r | h_13 l r | h_14 l r =>
    obtain rfl := Option.some.inj h
    cases l <;> cases r <;> rfl
  case h_15 => cases h
  all_goals
    obtain rfl := Option.some.inj h
    rfl

theorem unaryMeaning_word {op : Operator} {l v : Value} (h : unaryMeaning op l = some v) :
    unaryValue op l.word = some v.word := by
  cases op <;> cases l <;> simp only [unaryMeaning, Option.some.injEq, reduceCtorEq] at h
  · exact h ▸ rfl
  · subst h
    rename_i b
    cases b <;> rfl

def nName : Ident := .of "n"

def factName : Ident := .of "fact"

def printName : Ident := .of "print_int"

/-- `void print_int(integer i) extern;`,
`integer fact(integer n) { integer r = 1; if (n > 1) then { r = n * fact(n - 1); } return r; }`
and `void main() { print_int(fact(2 + 1) / 2); }`. -/
def factorial : ProgramSyn :=
  [.methodDecl ⟨1, none, printName, [⟨1, .integer, .of "i"⟩], none⟩,
    .methodDecl ⟨2, some .integer, factName, [⟨2, .integer, nName⟩],
      some (.mk 2 [⟨3, .integer, .of "r", some (.integerLiteral 3 1)⟩]
        (.cons (.ifThen 4 (.binary 4 .grt (.id 4 nName) (.integerLiteral 4 1)) (.mk 4 []
          (.cons (.assign 5 (.of "r") (.binary 5 .times (.id 5 nName)
            (.methodCall 5 factName (.cons (.binary 5 .minus (.id 5 nName) (.integerLiteral 5 1))
              .nil)))) .nil)))
        (.cons (.returnExpr 6 (.id 6 (.of "r"))) .nil)))⟩,
    .methodDecl ⟨7, none, .of "main", [],
      some (.mk 7 [] (.cons (.methodCall 8 printName (.cons (.binary 8 .slash
        (.methodCall 8 factName (.cons (.binary 8 .plus (.integerLiteral 8 2)
          (.integerLiteral 8 1)) .nil)) (.integerLiteral 8 2)) .nil)) .nil))⟩]

/-- The world is what has been printed. -/
def printer : Callee (List Word)
  | name, [.int v], printed => if name = printName.text then some (none, printed ++ [v]) else none
  | _, _, _ => none

example : (parse factorial).toOption.map (fun ps =>
    callMeaning ps.tab ps.headAst printer 0 5 "main".toList [] []) = some (some (none, [3])) := by
  decide +kernel

end Ctds
