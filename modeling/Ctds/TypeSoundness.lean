import Ctds.ConstantFolding
import Ctds.Faults
import Ctds.ProgramRuns
import Ctds.RewriteMeaning
import Ctds.VoidValues

/-! Well typed programs do not go wrong. In a program that the analyzer accepts, with `-opt`
or without, a call with arguments of the declared types never ends in a fault of types: every
value has the type its expression was given, every variable keeps the type it was declared
with, and what comes back is what the method promises. -/

namespace Ctds

open Fallible Reasons Word

def Value.HasType (v : Value) (type : RetType) : Prop := v.type.toRetType? = some type

theorem Value.not_void {v : Value} (h : v.HasType .void) : False := by
  cases v <;> cases h

theorem Value.hasType_int {v : Value} (h : v.HasType .int) : ∃ w, v = .int w := by
  cases v with
  | int w => exact ⟨w, rfl⟩
  | bool b => cases h

theorem Value.hasType_bool {v : Value} (h : v.HasType .bool) : ∃ b, v = .bool b := by
  cases v with
  | int w => cases h
  | bool b => exact ⟨b, rfl⟩

/-- What a variable holds has the type that the symbol table gives it. -/
def VarsTyped (tab : SymbolTable) (vars : Variables) : Prop :=
  ∀ p v, vars p = some (some v) → ∃ type, leafType tab (.id p) = some type ∧ v.HasType type

/-- The faults that a check of types does not exclude; void calls as values only where the
program has them. -/
def Fault.Conceded (voids : Prop) : Fault → Prop
  | type => False
  | void => voids
  | _ => True

theorem Fault.Conceded.mono {voids voids' : Prop} (weaker : voids → voids') {fault : Fault}
    (h : fault.Conceded voids) : fault.Conceded voids' := by
  cases fault with
  | type => exact h
  | void => exact weaker h
  | _ => trivial

theorem toRetType?_inj {type type' : Ty} {declared : RetType}
    (h : type.toRetType? = some declared) (h' : type'.toRetType? = some declared) :
    type = type' := by
  cases type <;> cases type' <;> cases h <;> first | rfl | cases h'

theorem symbolType_code {info : SymbolInfo} {type : RetType} {v : Value}
    (typed : symbolType info = some type) (has : v.HasType type) :
    info.idType = v.type.code := by
  unfold symbolType at typed
  split at typed
  · next isInt =>
    obtain rfl := Option.some.inj typed
    obtain ⟨w, rfl⟩ := v.hasType_int has
    exact isInt
  · split at typed
    · next isBool =>
      obtain rfl := Option.some.inj typed
      obtain ⟨b, rfl⟩ := v.hasType_bool has
      exact isBool
    · cases typed

theorem code_symbolType {info : SymbolInfo} {v : Value} (code : info.idType = v.type.code) :
    ∃ type, symbolType info = some type ∧ v.HasType type := by
  cases v with
  | int w => exact ⟨.int, by simp [symbolType, code, Value.type], rfl⟩
  | bool b => exact ⟨.bool, by simp [symbolType, code, Value.type, Ty.code], rfl⟩

theorem VarsTyped.update {tab : SymbolTable} {vars : Variables} (h : VarsTyped tab vars) {p : IdPtr}
    {value : Option Value}
    (typed : ∀ v, value = some v → ∃ type, leafType tab (.id p) = some type ∧ v.HasType type) :
    VarsTyped tab (Function.update vars p (some value)) := by
  intro q v holds
  by_cases same : q = p
  · subst same
    rw [Function.update_self] at holds
    exact typed v (Option.some.inj holds)
  · rw [Function.update_of_ne same] at holds
    exact h q v holds

section Operators

variable {voids : Prop} {op : Operator} {type : RetType}

theorem binaryMeaning_typed {l r : RetType} {v u : Value} (result : binaryType op l r = some type)
    (left : v.HasType l) (right : u.HasType r) :
    (∃ a, binaryMeaning op v u = some a ∧ a.HasType type) ∨
      (binaryMeaning op v u = none ∧ binaryFault op v u = .division) := by
  by_cases isEq : op = .eq
  · subst isEq
    obtain rfl := binaryType_eq result
    obtain rfl : type = .bool := binaryType_result result
    cases v <;> cases u <;> cases left <;> cases right
    · exact .inl ⟨_, rfl, rfl⟩
    · exact .inl ⟨_, rfl, rfl⟩
  · obtain ⟨rfl, rfl⟩ := binaryType_operands result isEq
    obtain rfl := binaryType_result result
    cases op with
    | eq => exact absurd rfl isEq
    | division =>
      obtain ⟨a, rfl⟩ := v.hasType_int left
      obtain ⟨b, rfl⟩ := u.hasType_int right
      cases q : quotient a b with
      | none => exact .inr ⟨by simp [binaryMeaning, q], rfl⟩
      | some c => exact .inl ⟨.int c, by simp [binaryMeaning, q], rfl⟩
    | mod =>
      obtain ⟨a, rfl⟩ := v.hasType_int left
      obtain ⟨b, rfl⟩ := u.hasType_int right
      cases q : remainder a b with
      | none => exact .inr ⟨by simp [binaryMeaning, q], rfl⟩
      | some c => exact .inl ⟨.int c, by simp [binaryMeaning, q], rfl⟩
    | and | or =>
      obtain ⟨a, rfl⟩ := v.hasType_bool left
      obtain ⟨b, rfl⟩ := u.hasType_bool right
      exact .inl ⟨_, rfl, rfl⟩
    | minus | neg | decl | assign | ret => cases result
    | _ =>
      obtain ⟨a, rfl⟩ := v.hasType_int left
      obtain ⟨b, rfl⟩ := u.hasType_int right
      exact .inl ⟨_, rfl, rfl⟩

theorem tryBinary_typed {l r : RetType} {v u : Value} (result : binaryType op l r = some type)
    (left : v.HasType l) (right : u.HasType r) :
    Ends (·.HasType type) (Fault.Conceded voids) (tryBinary op v u) := by
  rcases binaryMeaning_typed result left right with ⟨a, value, typed⟩ | ⟨none, division⟩
  · simp only [tryBinary, value]
    exact typed
  · simp only [tryBinary, none, division]
    trivial

theorem tryUnary_typed {l : RetType} {v : Value} (result : unaryType op l = some type)
    (operand : v.HasType l) :
    Ends (·.HasType type) (Fault.Conceded voids) (tryUnary op v) := by
  obtain ⟨rfl, root⟩ := unaryType_operand result
  cases op with
  | minus =>
    obtain ⟨a, rfl⟩ := v.hasType_int operand
    exact root
  | neg =>
    obtain ⟨a, rfl⟩ := v.hasType_bool operand
    exact root
  | _ => cases result

end Operators

/-- A void call among the operands of a node. -/
def UsesVoid (tab : SymbolTable) (node : AstNode) : Prop :=
  ∃ operand ∈ operands node, voidCall tab operand = true

section Runs

variable {W : Type} {tab : SymbolTable} {env : Env} {trial : Trial W} {voids : Prop}

/-- Called with arguments of the declared types, a method returns what it promises, unless it
comes to its end or to a fault that is conceded. -/
def TrialTyped (tab : SymbolTable) (voids : Prop) (trial : Trial W) : Prop :=
  ∀ name method vs w, methodNamed tab name = some method →
    method.args.map Args.type = vs.map Value.type →
    Ends (fun r => r.1 = none ∨ method.returnType.allows r.1 = true) (Fault.Conceded voids)
      (trial name.text vs w)

theorem tryMethod_typed (calls : TrialTyped tab voids trial) {line : Int} {name : Ident}
    {numArgs : Nat} {method : MethodInfo}
    (called : calledMethod tab line name numArgs = .ok method) {vs : List Value}
    (typed : method.args.map Args.type = vs.map Value.type) (w : W) :
    Ends (fun r => method.returnType.allows r.1 = true) (Fault.Conceded voids)
      (tryMethod tab trial line name numArgs vs w) := by
  simp only [tryMethod, called]
  refine (calls name method vs w (methodNamed_called called).1 typed).bind ?_
  rintro ⟨answer, w⟩ promised
  dsimp only at promised ⊢
  split
  · assumption
  · next forbidden =>
    obtain rfl := promised.resolve_right forbidden
    trivial

theorem allows_value {returns : ReturnType} {answer : Option Value} {type : RetType}
    (allowed : returns.allows answer = true) (returned : returns.toRetType = some type) :
    (answer = none ∧ type = .void) ∨ ∃ v, answer = some v ∧ v.HasType type := by
  match returns, answer with
  | .int, some (.int w) => exact .inr ⟨_, rfl, returned⟩
  | .bool, some (.bool b) => exact .inr ⟨_, rfl, returned⟩
  | .void, none => exact .inl ⟨rfl, (Option.some.inj returned).symm⟩

theorem ends_operand {α : Type} {post : α → Prop} {x : Except Fault α} {node operand : AstNode}
    {type : RetType} (h : Ends post (Fault.Conceded (voids ∨ type = .void)) x)
    (uses : UsesVoid tab node → voids) (mem : operand ∈ operands node)
    (typed : exprType env tab operand = some type) : Ends post (Fault.Conceded voids) x :=
  h.mono (fun _ holds => holds) fun _ conceded => conceded.mono fun either =>
    either.elim id fun isVoid => uses ⟨operand, mem, (voidCall_iff typed).mpr isVoid⟩

theorem ends_orVoid {α : Type} {post : α → Prop} {x : Except Fault α} {type : RetType}
    (h : Ends post (Fault.Conceded voids) x) :
    Ends post (Fault.Conceded (voids ∨ type = .void)) x :=
  h.mono (fun _ holds => holds) fun _ conceded => conceded.mono .inl

mutual
theorem tryExpr_typed (methods : tab.MethodsOk) (calls : TrialTyped tab voids trial)
    {vars : Variables} (vals : VarsTyped tab vars) :
    ∀ (node : AstNode) (type : RetType) (w : W), isExpr tab node = true →
      exprType env tab node = some type → (∀ n ∈ subnodes node, UsesVoid tab n → voids) →
      Ends (fun r => r.1.HasType type) (Fault.Conceded (voids ∨ type = .void))
        (tryExpr tab trial vars node w)
  | .leaf line value, type, w, _, typed, _ => by
    rw [tryExpr]
    have value_typed : Ends (·.HasType type) (Fault.Conceded (voids ∨ type = .void))
        (because .unset (leafMeaning vars value)) := .because (fun v has => ?_) fun _ => trivial
    · exact value_typed.map fun v has => has
    cases value with
    | int i =>
      obtain rfl := Option.some.inj has
      exact typed
    | bool i =>
      obtain rfl := Option.some.inj has
      exact typed
    | id p =>
      obtain ⟨declared, known, has⟩ := vals p v (Option.join_eq_some_iff.mp has)
      rw [exprType, known] at typed
      exact Option.some.inj typed ▸ has
  | .common line .binary op left right, type, w, shape, typed, uses => by
    simp only [isExpr, Bool.and_eq_true] at shape
    obtain ⟨l, r, leftType, rightType, -, result⟩ := exprType_binary typed
    have here : UsesVoid tab (.common line .binary op left right) → voids :=
      uses _ (by simp [subnodes])
    have both : operands (.common line .binary op left right) = [left, right] :=
      operands_binary shape.1.1
    rw [tryExpr]
    have leftEnds := tryExpr_typed methods calls vals left l w shape.1.2 leftType
      fun n mem => uses n (by simp [subnodes, mem])
    refine (ends_orVoid (ends_operand leftEnds here (by simp [both]) leftType)).bind ?_
    rintro ⟨v, w⟩ leftValue
    have rightEnds := tryExpr_typed methods calls vals right r w shape.2 rightType
      fun n mem => uses n (by simp [subnodes, mem])
    refine (ends_orVoid (ends_operand rightEnds here (by simp [both]) rightType)).bind ?_
    rintro ⟨u, w⟩ rightValue
    exact (tryBinary_typed result leftValue rightValue).bind fun a has => has
  | .common line .unary op left right, type, w, shape, typed, uses => by
    simp only [isExpr, Bool.and_eq_true] at shape
    simp only [exprType] at typed
    obtain ⟨l, leftType, result⟩ := Option.bind_eq_some_iff.mp typed
    have here : UsesVoid tab (.common line .unary op left right) → voids :=
      uses _ (by simp [subnodes])
    have both : operands (.common line .unary op left right) = [left, right] :=
      operands_unary shape.1.1
    rw [tryExpr]
    have leftEnds := tryExpr_typed methods calls vals left l w shape.1.2 leftType
      fun n mem => uses n (by simp [subnodes, mem])
    refine (ends_orVoid (ends_operand leftEnds here (by simp [both]) leftType)).bind ?_
    rintro ⟨v, w⟩ value
    exact (tryUnary_typed result value).bind fun a has => has
  | .methodCall line name numArgs args, type, w, shape, typed, uses => by
    simp only [isExpr, Bool.and_eq_true, decide_eq_true_eq] at shape
    obtain ⟨method, called, accepted, returned⟩ := exprType_call typed
    rw [tryExpr]
    have argsEnd := tryArgs_typed methods calls vals args method.args w shape.2
      (called_length methods shape.1 called) accepted fun n mem => uses n (by simp [subnodes, mem])
    refine (ends_orVoid argsEnd).bind ?_
    rintro ⟨vs, w⟩ passed
    refine (ends_orVoid (tryMethod_typed calls called passed w)).bind ?_
    rintro ⟨answer, w⟩ allowed
    rcases allows_value allowed returned with ⟨rfl, isVoid⟩ | ⟨v, rfl, has⟩
    · exact .inr isVoid
    · exact has
  | .null, _, _, shape, _, _ | .ifStmt .., _, _, shape, _, _ | .whileStmt .., _, _, shape, _, _
  | .methodDecl .., _, _, shape, _, _ | .block .., _, _, shape, _, _ => by simp [isExpr] at shape
theorem tryArgs_typed (methods : tab.MethodsOk) (calls : TrialTyped tab voids trial)
    {vars : Variables} (vals : VarsTyped tab vars) :
    ∀ (args : AstNodeList) (params : List Args) (w : W), areExprs tab args = true →
      params.length = args.length → argsAccepted env tab params args = true →
      (∀ n ∈ subnodesList args, UsesVoid tab n → voids) →
      Ends (fun r => params.map Args.type = r.1.map Value.type) (Fault.Conceded voids)
        (tryArgs tab trial vars args w)
  | .nil, [], w, _, _, _, _ => rfl
  | .nil, _ :: _, _, _, count, _, _ => by cases count
  | .cons first next, [], _, _, count, _, _ => by cases count
  | .cons first next, param :: params, w, shape, count, accepted, uses => by
    simp only [areExprs, Bool.and_eq_true] at shape
    simp only [argsAccepted, Bool.and_eq_true, beq_iff_eq] at accepted
    obtain ⟨type, is, passed⟩ := Option.bind_eq_some_iff.mp accepted.1
    rw [tryArgs]
    have notVoid : type ≠ .void := by
      rintro rfl
      cases passed
    have firstEnds := tryExpr_typed methods calls vals first type w shape.1 is
      fun n mem => uses n (by simp [subnodesList, mem])
    refine (firstEnds.mono (fun _ has => has) fun _ conceded =>
      conceded.mono (Or.resolve_right · notVoid)).bind ?_
    rintro ⟨v, w⟩ has
    refine (tryArgs_typed methods calls vals next params w shape.2
      (Nat.succ.inj count) accepted.2 fun n mem => uses n (by simp [subnodesList, mem])).bind ?_
    rintro ⟨vs, w⟩ others
    have same : param.type = v.type :=
      toRetType?_inj (toTy_eq_some passed) has
    simp only [List.map_cons, same, others]
    trivial
end

def EndingTyped (returns : RetType) : Ending → Prop
  | .normal => True
  | .returned none => returns = .void
  | .returned (some v) => v.HasType returns

def ResultTyped (tab : SymbolTable) (returns : RetType) (r : ProgState W × Ending) : Prop :=
  VarsTyped tab r.1.vars ∧ EndingTyped returns r.2

theorem tryValue_typed (methods : tab.MethodsOk) (calls : TrialTyped tab voids trial)
    {s : ProgState W} (vals : VarsTyped tab s.vars) (father : AstNode) {node : AstNode}
    {type : RetType} (shape : isExpr tab node = true) (typed : exprType env tab node = some type)
    (mem : node ∈ operands father) (here : UsesVoid tab father → voids)
    (uses : ∀ n ∈ subnodes node, UsesVoid tab n → voids) :
    Ends (fun r => r.1.HasType type ∧ VarsTyped tab r.2.vars) (Fault.Conceded voids)
      (tryValue tab trial node s) :=
  (ends_operand (tryExpr_typed methods calls vals node type s.world shape typed uses) here mem
    typed).map fun _ has => ⟨has, vals⟩

theorem trySet_typed {left : AstNode} {type : RetType} {v : Value} {s : ProgState W}
    (returns : RetType) (shape : isIdLeaf tab left = true)
    (typed : exprType env tab left = some type) (has : v.HasType type)
    (vals : VarsTyped tab s.vars) :
    Ends (ResultTyped tab returns) (Fault.Conceded voids) (trySet tab left v s) := by
  obtain ⟨line, p, info, rfl, entry⟩ := isIdLeaf_iff.mp shape
  rw [exprType] at typed
  have code : info.idType = v.type.code :=
    symbolType_code (by simpa [leafType, entry] using typed) has
  simp only [trySet, entry]
  cases s.vars p with
  | none => trivial
  | some old =>
    dsimp only
    rw [if_pos code]
    refine ⟨vals.update ?_, trivial⟩
    intro u same
    obtain rfl := Option.some.inj same
    exact ⟨type, typed, has⟩

theorem declareVariable_typed (left : AstNode) {s : ProgState W} (vals : VarsTyped tab s.vars) :
    VarsTyped tab (declareVariable left s).vars := by
  unfold declareVariable
  split
  · exact vals.update fun v h => by cases h
  · exact vals

theorem tryLoop_typed {returns : RetType}
    {test : ProgState W → Except Fault (Value × ProgState W)} {body : Attempt W}
    (tests : ∀ s, VarsTyped tab s.vars →
      Ends (fun r => r.1.HasType .bool ∧ VarsTyped tab r.2.vars) (Fault.Conceded voids) (test s))
    (bodies : ∀ s, VarsTyped tab s.vars →
      Ends (ResultTyped tab returns) (Fault.Conceded voids) (body s)) (fuel : Nat) :
    ∀ s, VarsTyped tab s.vars →
      Ends (ResultTyped tab returns) (Fault.Conceded voids) (tryLoop test body fuel s) := by
  induction fuel with
  | zero =>
    intro s vals
    refine (tests s vals).bind ?_
    rintro ⟨v, s⟩ ⟨isBool, vals⟩
    obtain ⟨b, rfl⟩ := v.hasType_bool isBool
    cases b with
    | false => exact ⟨vals, trivial⟩
    | true => trivial
  | succ fuel ih =>
    intro s vals
    refine (tests s vals).bind ?_
    rintro ⟨v, s⟩ ⟨isBool, vals⟩
    obtain ⟨b, rfl⟩ := v.hasType_bool isBool
    cases b with
    | false => exact ⟨vals, trivial⟩
    | true =>
      refine (bodies s vals).bind ?_
      rintro ⟨s, ending⟩ ⟨vals, returned⟩
      cases ending with
      | normal => exact ih s vals
      | returned value => exact ⟨vals, returned⟩

mutual
theorem tryStmt_typed (methods : tab.MethodsOk) (off : env.optimizations = false)
    (calls : TrialTyped tab voids trial) (fuel : Nat) {returns : RetType} :
    ∀ (node : AstNode) (s : ProgState W), isStmt tab node = true →
      stmtAccepted env tab returns node = true → VarsTyped tab s.vars →
      (∀ n ∈ subnodes node, UsesVoid tab n → voids) →
      Ends (ResultTyped tab returns) (Fault.Conceded voids) (tryStmt tab trial fuel node s)
  | .common line arity op left right, s, shape, accepted, vals, uses => by
    have here : UsesVoid tab (.common line arity op left right) → voids :=
      uses _ (by simp [subnodes])
    have inLeft : ∀ n ∈ subnodes left, UsesVoid tab n → voids := fun n mem =>
      uses n (by simp [subnodes, mem])
    have inRight : ∀ n ∈ subnodes right, UsesVoid tab n → voids := fun n mem =>
      uses n (by simp [subnodes, mem])
    cases op with
    | decl =>
      simp only [isStmt, Bool.and_eq_true, Bool.or_eq_true] at shape
      have declared := declareVariable_typed left vals
      simp only [tryStmt]
      split
      · exact ⟨declared, trivial⟩
      · next initialised =>
        have isExprRight := shape.2.resolve_left initialised
        simp only [stmtAccepted, initialised, Bool.false_or] at accepted
        split at accepted
        · next l r leftType rightType =>
          refine (tryValue_typed methods calls declared _ isExprRight rightType (by simp [operands])
            here inRight).bind ?_
          rintro ⟨v, s⟩ ⟨has, vals⟩
          have same : l = r := by
            refine (of_decide_eq_true accepted).resolve_right fun untyped => ?_
            cases v with
            | int w => exact untyped.1 (Option.some.inj has).symm
            | bool b => exact untyped.2 (Option.some.inj has).symm
          exact trySet_typed returns shape.1 leftType (same ▸ has) vals
        · cases accepted
    | assign =>
      simp only [isStmt, Bool.and_eq_true, decide_eq_true_eq] at shape
      obtain ⟨⟨-, leaf⟩, isExprRight⟩ := shape
      simp only [stmtAccepted] at accepted
      split at accepted
      · next l r leftType rightType =>
        obtain rfl := of_decide_eq_true accepted
        simp only [tryStmt]
        refine (tryValue_typed methods calls vals _ isExprRight rightType (by simp [operands]) here
          inRight).bind ?_
        rintro ⟨v, s⟩ ⟨has, vals⟩
        exact trySet_typed returns leaf leftType has vals
      · cases accepted
    | ret =>
      simp only [isStmt, Bool.and_eq_true, Bool.or_eq_true] at shape
      simp only [tryStmt]
      split
      · next absent =>
        simp only [stmtAccepted, absent, if_true, decide_eq_true_eq] at accepted
        exact ⟨vals, accepted⟩
      · next present =>
        have isExprLeft := shape.1.resolve_left present
        simp only [stmtAccepted, present, Bool.false_eq_true, if_false, beq_iff_eq] at accepted
        refine (tryValue_typed methods calls vals _ isExprLeft accepted (by simp [operands]) here
          inLeft).bind ?_
        rintro ⟨v, s⟩ ⟨has, vals⟩
        exact ⟨vals, has⟩
    | _ => cases shape
  | .ifStmt line condition thenBlock elseBlock, s, shape, accepted, vals, uses => by
    simp only [isStmt, Bool.and_eq_true, Bool.or_eq_true] at shape
    simp only [stmtAccepted, ifCase_off off, Bool.and_eq_true, beq_iff_eq, Bool.or_eq_true]
      at accepted
    obtain ⟨⟨conditionShape, thenShape⟩, elseShape⟩ := shape
    obtain ⟨conditionType, thenAccepted, elseAccepted⟩ := accepted
    rw [tryStmt]
    refine (tryValue_typed methods calls vals (.ifStmt line condition thenBlock elseBlock)
      conditionShape conditionType
      (by simp [operands])
      (uses _ (by simp [subnodes])) fun n mem => uses n (by simp [subnodes, mem])).bind ?_
    rintro ⟨v, s⟩ ⟨isBool, vals⟩
    obtain ⟨b, rfl⟩ := v.hasType_bool isBool
    cases b with
    | false =>
      rcases elseShape with null | ⟨-, isStmt⟩
      · obtain rfl := isNull_iff.mp null
        exact ⟨vals, trivial⟩
      · refine tryStmt_typed methods off calls fuel elseBlock s isStmt
          (elseAccepted.resolve_left ?_) vals fun n mem => uses n (by simp [subnodes, mem])
        intro null
        obtain rfl := isNull_iff.mp null
        cases isStmt
    | true =>
      rcases thenShape with null | ⟨-, isStmt⟩
      · obtain rfl := isNull_iff.mp null
        cases thenAccepted
      · exact tryStmt_typed methods off calls fuel thenBlock s isStmt thenAccepted vals
          fun n mem => uses n (by simp [subnodes, mem])
  | .whileStmt line condition block, s, shape, accepted, vals, uses => by
    simp only [isStmt, Bool.and_eq_true, Bool.or_eq_true] at shape
    simp only [stmtAccepted, Bool.and_eq_true, beq_iff_eq] at accepted
    obtain ⟨conditionShape, blockShape⟩ := shape
    obtain ⟨⟨conditionType, blockAccepted⟩, -⟩ := accepted
    rw [tryStmt]
    refine tryLoop_typed (fun s vals => tryValue_typed methods calls vals
      (.whileStmt line condition block) conditionShape conditionType (by simp [operands])
      (uses _ (by simp [subnodes])) fun n mem => uses n (by simp [subnodes, mem]))
      (fun s vals => ?_) fuel s vals
    rcases blockShape with null | ⟨-, isStmt⟩
    · obtain rfl := isNull_iff.mp null
      cases blockAccepted
    · exact tryStmt_typed methods off calls fuel block s isStmt blockAccepted vals
        fun n mem => uses n (by simp [subnodes, mem])
  | .methodCall line name numArgs args, s, shape, accepted, vals, uses => by
    simp only [isStmt, Bool.and_eq_true, decide_eq_true_eq] at shape
    obtain ⟨type, typed⟩ := Option.isSome_iff_exists.mp accepted
    obtain ⟨method, called, passed, -⟩ := exprType_call typed
    rw [tryStmt]
    refine (tryArgs_typed methods calls vals args method.args s.world shape.2
      (called_length methods shape.1 called) passed fun n mem =>
        uses n (by simp [subnodes, mem])).bind ?_
    rintro ⟨vs, w⟩ typed
    exact (tryMethod_typed calls called typed w).bind fun _ _ => ⟨vals, trivial⟩
  | .block line stmts, s, shape, accepted, vals, uses => by
    exact tryStmts_typed methods off calls fuel stmts s shape accepted vals fun n mem =>
      uses n (by simp [subnodes, mem])
  | .null, _, shape, _, _, _ | .methodDecl .., _, shape, _, _, _
  | .leaf .., _, shape, _, _, _ => by cases shape
theorem tryStmts_typed (methods : tab.MethodsOk) (off : env.optimizations = false)
    (calls : TrialTyped tab voids trial) (fuel : Nat) {returns : RetType} :
    ∀ (stmts : AstNodeList) (s : ProgState W), areStmts tab stmts = true →
      stmtsAccepted env tab returns stmts = true → VarsTyped tab s.vars →
      (∀ n ∈ subnodesList stmts, UsesVoid tab n → voids) →
      Ends (ResultTyped tab returns) (Fault.Conceded voids) (tryStmts tab trial fuel stmts s)
  | .nil, s, _, _, vals, _ => ⟨vals, trivial⟩
  | .cons first next, s, shape, accepted, vals, uses => by
    simp only [areStmts, Bool.and_eq_true] at shape
    simp only [stmtsAccepted, Bool.and_eq_true] at accepted
    rw [tryStmts]
    refine (tryStmt_typed methods off calls fuel first s shape.1 accepted.1 vals fun n mem =>
      uses n (by simp [subnodesList, mem])).bind ?_
    rintro ⟨s, ending⟩ ⟨vals, returned⟩
    cases ending with
    | normal =>
      exact tryStmts_typed methods off calls fuel next s shape.2 accepted.2 vals fun n mem =>
        uses n (by simp [subnodesList, mem])
    | returned value => exact ⟨vals, returned⟩
end

end Runs

section Rewriting

variable {env : Env} {tab : SymbolTable}

theorem folded_type (methods : tab.MethodsOk) {node : AstNode} {type : RetType}
    (shape : isExpr tab node = true) (typed : exprType env tab node = some type) :
    exprType env.plain tab (foldTree env node) = some type :=
  foldTree_type env methods node type shape
    ((exprType_safe methods shape (Option.isSome_of_eq_some typed)).2.trans typed)

theorem stmtAccepted_block (returns : RetType) (line : Int) {node : AstNode}
    (block : node.isBlock = true) :
    stmtAccepted env tab returns (.block line (blockStmts node)) =
      stmtAccepted env tab returns node := by
  cases node with
  | block l stmts => simp only [stmtAccepted, blockStmts]
  | _ => cases block

theorem testsLoop_off (off : env.optimizations = false) (condition : AstNode) :
    testsLoop env condition = false := by
  cases condition with
  | leaf line value => exact off
  | _ => rfl

theorem branch_isStmt {returns : RetType} {node : AstNode} (shape : isBranch tab node = true)
    (accepted : stmtAccepted env tab returns node = true) : isStmt tab node = true := by
  rcases isBranch_iff.mp shape with rfl | ⟨line, stmts, rfl, areStmts⟩
  · cases accepted
  · exact areStmts

mutual
/-- What the analyzer leaves under `-opt` passes the checks without it. -/
theorem rewrite_accepted (methods : tab.MethodsOk) {returns : RetType} :
    ∀ (node : AstNode), isStmt tab node = true → stmtAccepted env tab returns node = true →
      stmtAccepted env.plain tab returns (rewrite env node) = true
  | .common line arity op left right, shape, accepted => by
    cases op with
    | decl =>
      simp only [isStmt, Bool.and_eq_true, Bool.or_eq_true] at shape
      simp only [rewrite, stmtAccepted]
      cases initialised : right.isNull with
      | true =>
        obtain rfl := isNull_iff.mp initialised
        rfl
      | false =>
        have isExprRight := shape.2.resolve_left (by simp [initialised])
        simp only [stmtAccepted, initialised, Bool.false_or] at accepted
        split at accepted
        · next l r leftType rightType =>
          simp only [folded_type methods (isIdLeaf_isExpr shape.1) leftType,
            folded_type methods isExprRight rightType, accepted, Bool.or_true]
        · cases accepted
    | assign =>
      simp only [isStmt, Bool.and_eq_true, decide_eq_true_eq] at shape
      obtain ⟨⟨-, leaf⟩, isExprRight⟩ := shape
      simp only [stmtAccepted] at accepted
      simp only [rewrite, stmtAccepted]
      split at accepted
      · next l r leftType rightType =>
        simp only [folded_type methods (isIdLeaf_isExpr leaf) leftType,
          folded_type methods isExprRight rightType, accepted]
      · cases accepted
    | ret =>
      simp only [isStmt, Bool.and_eq_true, Bool.or_eq_true] at shape
      simp only [stmtAccepted] at accepted
      simp only [rewrite, stmtAccepted]
      cases absent : left.isNull with
      | true =>
        obtain rfl := isNull_iff.mp absent
        exact accepted
      | false =>
        have isExprLeft := shape.1.resolve_left (by simp [absent])
        simp only [absent, Bool.false_eq_true, if_false, beq_iff_eq] at accepted
        simp only [isExpr_isNull (foldTree_isExpr env tab left isExprLeft), Bool.false_eq_true,
          if_false, folded_type methods isExprLeft accepted, beq_self_eq_true]
    | _ => cases shape
  | .ifStmt line condition thenBlock elseBlock, shape, accepted => by
    rw [isStmt_ifStmt, Bool.and_eq_true, Bool.and_eq_true] at shape
    obtain ⟨⟨conditionShape, thenShape⟩, elseShape⟩ := shape
    obtain ⟨conditionType, branches⟩ := accepted_ifStmt (acceptedOrNull_of_accepted accepted)
    have folded := folded_type methods conditionShape conditionType
    simp only [rewrite]
    cases only : ifCase env (foldTree env condition) elseBlock with
    | both =>
      rw [only] at branches
      simp only [stmtAccepted, ifCase_off (rfl : env.plain.optimizations = false), folded,
        beq_self_eq_true,
        Bool.true_and, Bool.and_eq_true, Bool.or_eq_true]
      refine ⟨rewrite_accepted methods thenBlock (branch_isStmt thenShape branches.1)
        branches.1, ?_⟩
      cases null : elseBlock.isNull with
      | true =>
        obtain rfl := isNull_iff.mp null
        exact .inl rfl
      | false =>
        have elseAccepted : stmtAccepted env tab returns elseBlock = true := by
          simpa [acceptedOrNull, null] using branches.2
        exact .inr (rewrite_accepted methods elseBlock (branch_isStmt elseShape elseAccepted)
          elseAccepted)
    | thenOnly =>
      rw [only] at branches
      dsimp only at branches ⊢
      rw [stmtAccepted_block returns line
        (rewrite_isBlock env (accepted_isBlock thenShape branches))]
      exact rewrite_accepted methods thenBlock (branch_isStmt thenShape branches) branches
    | elseOnly =>
      rw [only] at branches
      dsimp only at branches ⊢
      rw [stmtAccepted_block returns line
        (rewrite_isBlock env (accepted_isBlock elseShape branches))]
      exact rewrite_accepted methods elseBlock (branch_isStmt elseShape branches) branches
  | .whileStmt line condition block, shape, accepted => by
    rw [isStmt_whileStmt, Bool.and_eq_true] at shape
    obtain ⟨conditionType, blockAccepted⟩ :=
      accepted_whileStmt (acceptedOrNull_of_accepted accepted)
    have folded := folded_type methods shape.1 conditionType
    simp only [rewrite]
    split
    · rfl
    · simp only [stmtAccepted, folded, testsLoop_off (rfl : env.plain.optimizations = false),
        beq_self_eq_true,
        rewrite_accepted methods block (branch_isStmt shape.2 blockAccepted) blockAccepted,
        Bool.and_self, Bool.false_and, Bool.not_false]
  | .methodCall line name numArgs args, shape, accepted => by
    obtain ⟨type, typed⟩ := Option.isSome_iff_exists.mp accepted
    have call : isExpr tab (.methodCall line name numArgs args) = true := shape
    have folded := folded_type methods call typed
    simp only [foldTree] at folded
    simp only [rewrite, stmtAccepted, folded, Option.isSome_some]
  | .block line stmts, shape, accepted => rewriteStmts_accepted methods stmts shape accepted
  | .null, shape, _ | .methodDecl .., shape, _ | .leaf .., shape, _ => by cases shape
theorem rewriteStmts_accepted (methods : tab.MethodsOk) {returns : RetType} :
    ∀ (stmts : AstNodeList), areStmts tab stmts = true →
      stmtsAccepted env tab returns stmts = true →
      stmtsAccepted env.plain tab returns (rewriteStmts env stmts) = true
  | .nil, _, _ => rfl
  | .cons first next, shape, accepted => by
    simp only [areStmts, Bool.and_eq_true] at shape
    simp only [stmtsAccepted, Bool.and_eq_true] at accepted
    simp only [rewriteStmts, stmtsAccepted, rewrite_accepted methods first shape.1 accepted.1,
      rewriteStmts_accepted methods next shape.2 accepted.2, Bool.and_self]
end

end Rewriting

section Programs

variable {W : Type} {env : Env} {prog : ProgramSyn} {ps : ParserState} {sentences : List AstNode}

theorem analyzed_body (parsed : parse prog = .ok ps)
    (analyzed : semanticAnalyzer env ps.tab ps.headAst = .ok sentences) {name : Ident}
    {info : SymbolInfo} {block : AstNode}
    (found : bodyNamed ps.tab name.text sentences = some (info, block)) :
    ∃ method, info = .methodDecl method ∧ methodNamed ps.tab name = some method ∧
      method.returnType.toRetType = some method.retType ∧ isStmt ps.tab block = true ∧
      stmtAccepted env.plain ps.tab method.retType block = true := by
  have ok := parse_sentencesOk parsed
  obtain ⟨rfl, shape⟩ := analyzed_sentences parsed analyzed
  rw [bodyNamed_rewritten shape, Option.map_eq_some_iff] at found
  obtain ⟨⟨info', body⟩, found, same⟩ := found
  obtain ⟨rfl, rfl⟩ := Prod.mk.inj same
  obtain ⟨s, rfl, rfl, text⟩ := bodyNamed_section found
  obtain ⟨method, declared, -⟩ := ok.methods s.line s.sym s.block s.mem
  have entry : s.info = .methodDecl method :=
    Option.some.inj (s.entry.symm.trans declared.entry)
  have own : method.isExtern = false := by
    have := s.own
    rwa [entry] at this
  obtain ⟨branch, accepted⟩ := body_accepted ok analyzed s.mem declared own
  have isBody := branch_isStmt branch accepted
  have named : method.name = name := by
    refine Ident.ext_text ?_
    rw [← text, entry]
    rfl
  refine ⟨method, entry, ?_, declared.toRetType, rewrite_isStmt env ps.tab s.block isBody,
    rewrite_accepted ok.wf.methods s.block isBody accepted⟩
  simp only [methodNamed, ← named, declared.found, Option.bind_some, declared.entry]

theorem bindArgs_typed {tab : SymbolTable} {params : List Args} {args : List Value}
    (typed : params.map Args.type = args.map Value.type) :
    ∃ vars, bindArgs tab params args = some vars ∧ VarsTyped tab vars := by
  refine ⟨_, if_pos typed, ?_⟩
  intro p v holds
  dsimp only at holds
  split at holds
  · next name type entry =>
    obtain ⟨u, -, bound⟩ := Option.bind_eq_some_iff.mp holds
    split at bound
    · next same =>
      obtain rfl := Option.some.inj (Option.some.inj bound)
      have code : (SymbolInfo.id name type).idType = u.type.code := congrArg Ty.code same
      simpa only [leafType, entry, Option.bind_some] using code_symbolType code
    · cases bound
  · cases holds

/-- The functions of other object files answer with what the program declares of them. -/
def Honours (tab : SymbolTable) (headAst : List AstNode) (library : Callee W) : Prop :=
  ∀ name method args w r, bodyNamed tab name.text headAst = none →
    methodNamed tab name = some method → method.args.map Args.type = args.map Value.type →
    library name.text args w = some r → method.returnType.allows r.1 = true

/-- A void call is used as a value somewhere in the program. -/
def voidsUsed (tab : SymbolTable) (headAst : List AstNode) : Prop :=
  ∃ sentence ∈ headAst, ∃ node ∈ subnodes sentence, UsesVoid tab node

theorem ending_allowed {method : MethodInfo}
    (returned : method.returnType.toRetType = some method.retType) {ending : Ending}
    (typed : EndingTyped method.retType ending) :
    ending.answer = none ∨ method.returnType.allows ending.answer = true := by
  match ending with
  | .normal | .returned none => exact .inl rfl
  | .returned (some v) =>
    refine .inr ?_
    have has : v.HasType method.retType := typed
    cases type : method.returnType with
    | int =>
      rw [type] at returned
      obtain ⟨w, rfl⟩ := v.hasType_int (Option.some.inj returned ▸ has)
      rfl
    | bool =>
      rw [type] at returned
      obtain ⟨b, rfl⟩ := v.hasType_bool (Option.some.inj returned ▸ has)
      rfl
    | void =>
      rw [type] at returned
      exact absurd (Option.some.inj returned ▸ has) Value.not_void
    | null =>
      rw [type] at returned
      cases returned

/-- Calls keep to the types, by induction on how deep they go. -/
theorem tryCall_typed (parsed : parse prog = .ok ps)
    (analyzed : semanticAnalyzer env ps.tab ps.headAst = .ok sentences) {library : Callee W}
    (honours : Honours ps.tab sentences library) (fuel depth : Nat) :
    TrialTyped ps.tab (voidsUsed ps.tab sentences)
      (tryCall ps.tab sentences library fuel depth) := by
  induction depth with
  | zero => exact fun _ _ _ _ _ _ => trivial
  | succ depth ih =>
    intro name method args w named typed
    rw [tryCall]
    cases found : bodyNamed ps.tab name.text sentences with
    | none =>
      exact .because (fun r answered => .inr (honours name method args w r found named typed
        answered)) fun _ => trivial
    | some body =>
      obtain ⟨info, block⟩ := body
      obtain ⟨method', rfl, named', returned, shape, accepted⟩ :=
        analyzed_body parsed analyzed found
      obtain rfl := Option.some.inj (named.symm.trans named')
      obtain ⟨vars, bound, vals⟩ := bindArgs_typed typed
      obtain ⟨line, sym, mem, -, -⟩ := bodyNamed_mem found
      have ran := tryStmt_typed (parse_sentencesOk parsed).wf.methods
        (rfl : env.plain.optimizations = false) ih fuel block ⟨vars, w⟩ shape accepted vals
        fun n inside uses => ⟨_, mem, n, by simp [subnodes, inside], uses⟩
      simp only [SymbolInfo.methodView, bound]
      refine ran.bind ?_
      rintro ⟨s, ending⟩ ⟨-, ends⟩
      exact ending_allowed returned ends

/-- An accepted program does not go wrong: a call of a method with arguments of its types has
the meaning that the trees give it, with a value as the method promises, or it has none for a
reason other than types; a call of a void method for a value is one only where the program uses
such a call. A use of a global variable is such a reason (`unset`). -/
theorem accepted_not_wrong (parsed : parse prog = .ok ps)
    (analyzed : semanticAnalyzer env ps.tab ps.headAst = .ok sentences) {library : Callee W}
    (honours : Honours ps.tab sentences library) {name : Ident} {method : MethodInfo}
    (named : methodNamed ps.tab name = some method) {args : List Value}
    (typed : method.args.map Args.type = args.map Value.type) (fuel depth : Nat) (w : W) :
    Ends (fun r => callMeaning ps.tab sentences library fuel depth name.text args w = some r ∧
        (r.1 = none ∨ method.returnType.allows r.1 = true))
      (fun fault => callMeaning ps.tab sentences library fuel depth name.text args w = none ∧
        fault ≠ .type ∧ (fault = .void → voidsUsed ps.tab sentences))
      (tryCall ps.tab sentences library fuel depth name.text args w) := by
  have explains := tryCall_explains ps.tab sentences library fuel depth name.text args w
  have ends := tryCall_typed parsed analyzed honours fuel depth name method args w named typed
  cases ran : tryCall ps.tab sentences library fuel depth name.text args w with
  | ok r =>
    rw [ran] at explains ends
    exact ⟨explains.symm, ends⟩
  | error fault =>
    rw [ran] at explains ends
    refine ⟨explains.symm, ?_, ?_⟩
    · rintro rfl
      exact ends
    · rintro rfl
      exact ends

theorem printer_honours {tab : SymbolTable} {headAst : List AstNode}
    (void : (methodNamed tab printName).all (fun method => method.returnType = .void) = true) :
    Honours tab headAst printer := by
  intro name method args w r _ named _ answered
  unfold printer at answered
  split at answered
  · next v =>
    split at answered
    · next same =>
      obtain rfl := Ident.ext_text same
      obtain rfl := Option.some.inj answered
      rw [named] at void
      simp only [Option.all_some, decide_eq_true_eq] at void
      rw [void]
      rfl
    · cases answered
  · cases answered

/-- The factorial of 3, of the program with its constants folded. -/
theorem factorial_not_wrong :
    ∃ ps sentences method, parse factorial = .ok ps ∧
      semanticAnalyzer (.sample true) ps.tab ps.headAst = .ok sentences ∧
      methodNamed ps.tab factName = some method ∧
      Ends (fun r => callMeaning ps.tab sentences printer 0 5 factName.text [.int 3] [] = some r ∧
          (r.1 = none ∨ method.returnType.allows r.1 = true))
        (fun fault => callMeaning ps.tab sentences printer 0 5 factName.text [.int 3] [] = none ∧
          fault ≠ .type ∧ (fault = .void → voidsUsed ps.tab sentences))
        (tryCall ps.tab sentences printer 0 5 factName.text [.int 3] []) := by
  obtain ⟨ps, parsed⟩ := isOk_iff.mp (by decide +kernel : (parse factorial).isOk = true)
  have facts : (parse factorial).toOption.map (fun ps =>
        ((semanticAnalyzer (.sample true) ps.tab ps.headAst).isOk,
          (methodNamed ps.tab printName).all (fun method => method.returnType = .void),
          (methodNamed ps.tab factName).map (fun method => method.args.map Args.type))) =
      some (true, true, some [.int]) := by decide +kernel
  rw [parsed] at facts
  simp only [Except.toOption, Option.map_some, Option.some.injEq, Prod.mk.injEq] at facts
  obtain ⟨ok, void, typed⟩ := facts
  obtain ⟨sentences, analyzed⟩ := isOk_iff.mp ok
  obtain ⟨method, named, typed⟩ := Option.map_eq_some_iff.mp typed
  have passed : method.args.map Args.type = [Value.int 3].map Value.type := typed
  exact ⟨ps, sentences, method, parsed, analyzed, named,
    accepted_not_wrong parsed analyzed (printer_honours void) named passed 0 5 []⟩

end Programs

end Ctds
