import Ctds.Shape

/-! What `gen_code` emits for the trees the parser builds, apart from the state it
threads: each instruction with exactly the operands its kind takes, and the two counters.
`genCode_expr`, `genCode_stmt` and `genSentences_eq` say that the emitter does this. -/

namespace Ctds

open Decimal

/-- A name that holds a value: the n-th temporary, or a variable of the program. -/
inductive Var where
  | temp (n : Nat)
  | user (x : Ident)
deriving DecidableEq

def Var.ptr : Var → NamePtr
  | temp n => .temp n
  | user x => .str x.text

inductive BinaryInstr where
  | add | sub | mul | div | mod | les | grt | eq | neq | leq | geq | and | or
deriving DecidableEq, Repr

def BinaryInstr.type : BinaryInstr → InstrType
  | add => .add | sub => .sub | mul => .mul | div => .div | mod => .mod
  | les => .les | grt => .grt | eq => .eq | neq => .neq | leq => .leq | geq => .geq
  | and => .and | or => .or

inductive UnaryInstr where
  | min | neg
deriving DecidableEq, Repr

def UnaryInstr.type : UnaryInstr → InstrType
  | min => .min | neg => .neg

inductive IrInstr where
  | load (x : Ident)
  | loadval (value : BitVec 32) (dest : Nat)
  | store (source : Var) (dest : Ident)
  | storeVal (value : BitVec 32) (dest : Ident)
  | binary (t : BinaryInstr) (left right : Var) (dest : Nat)
  | shiftRight (left : Var) (count : Fin 33) (dest : Nat)
  | unary (t : UnaryInstr) (left : Var) (dest : Nat)
  | label (n : Nat)
  | jmp (n : Nat)
  | jmpf (condition : Var) (n : Nat)
  | param (arg : Var)
  | call (name : Ident) (dest : Nat)
  | ret (value : Option Var)
  | enter (name : Ident)
  | leave (name : Ident)
  | externDecl (name : Ident)
deriving DecidableEq

/-- The entry of the code buffer. -/
def IrInstr.instr : IrInstr → Instr NamePtr
  | load x => ⟨.load, some (.str x.text), none, none⟩
  | loadval value dest => ⟨.loadval, some (.str (intText value.toInt)), none, some (.temp dest)⟩
  | store source dest => ⟨.store, some source.ptr, none, some (.str dest.text)⟩
  | storeVal value dest => ⟨.store, some (.str (intText value.toInt)), none, some (.str dest.text)⟩
  | binary t left right dest => ⟨t.type, some left.ptr, some right.ptr, some (.temp dest)⟩
  | shiftRight left count dest =>
    ⟨.shiftRight, some left.ptr, some (.str (natText count)), some (.temp dest)⟩
  | unary t left dest => ⟨t.type, some left.ptr, none, some (.temp dest)⟩
  | label n => ⟨.label, some (.str (labelText n)), none, none⟩
  | jmp n => ⟨.jmp, some (.str (labelText n)), none, none⟩
  | jmpf condition n => ⟨.jmpf, some condition.ptr, none, some (.str (labelText n))⟩
  | param arg => ⟨.param, some arg.ptr, none, none⟩
  | call name dest => ⟨.call, some (.str name.text), none, some (.temp dest)⟩
  | ret value => ⟨.ret, value.map Var.ptr, none, none⟩
  | enter name => ⟨.enter, some (.str name.text), none, none⟩
  | leave name => ⟨.leave, some (.str name.text), none, none⟩
  | externDecl name => ⟨.externDecl, some (.str name.text), none, none⟩

structure ExprCode where
  code : List IrInstr
  result : Var
  temps : Nat

structure ArgsCode where
  code : List IrInstr
  results : List Var
  temps : Nat

def Operator.binaryInstr : Operator → BinaryInstr
  | .subtraction => .sub | .multiplication => .mul | .division => .div | .mod => .mod
  | .les => .les | .grt => .grt | .eq => .eq | .neq => .neq | .leq => .leq | .geq => .geq
  | .and => .and | .or => .or
  | _ => .add

def Operator.unaryInstr : Operator → UnaryInstr
  | .neg => .neg
  | _ => .min

theorem builtinCtz_lt (v : BitVec 32) : builtinCtz v < 33 := by
  unfold builtinCtz
  cases found : (List.range 32).find? fun i => v.getLsbD i with
  | none => decide
  | some i =>
    have := List.mem_range.mp (List.mem_of_find?_eq_some found)
    simp only [Option.getD_some]
    omega

theorem shiftCount_lt {env : Env} {right : AstNode} {count : Nat}
    (h : shiftCount env right = some count) : count < 33 := by
  unfold shiftCount at h
  split at h
  · dsimp only at h
    split at h
    · exact Option.some.inj h ▸ builtinCtz_lt _
    · cases h
  · cases h

/-- The shift a division becomes. -/
def divisionShift (env : Env) (op : Operator) (right : AstNode) : Option (Fin 33) :=
  if op = .division then (shiftCount env right).map (Fin.ofNat 33) else none

def leafCode (env : Env) (tab : SymbolTable) (fatherOp : Nat) (value : LeafValue) (temps : Nat) :
    ExprCode :=
  match value with
  | .id p =>
    match tab.entry p with
    | none => ⟨[], .temp 0, temps⟩
    | some sym =>
      ⟨if fatherOp ≠ Operator.assign.code ∧ fatherOp ≠ Operator.decl.code then [.load sym.name]
        else [], .user sym.name, temps⟩
  | value => ⟨[.loadval (value.intValue env) temps], .temp temps, temps + 1⟩

mutual
def exprCode (env : Env) (tab : SymbolTable) (fatherOp : Nat) : AstNode → Nat → ExprCode
  | .leaf _ value, temps => leafCode env tab fatherOp value temps
  | .common _ .binary op left right, temps =>
    let l := exprCode env tab op.code left temps
    match divisionShift env op right with
    | some count => ⟨l.code ++ [.shiftRight l.result count l.temps], .temp l.temps, l.temps + 1⟩
    | none =>
      let r := exprCode env tab op.code right l.temps
      ⟨l.code ++ r.code ++ [.binary op.binaryInstr l.result r.result r.temps], .temp r.temps,
        r.temps + 1⟩
  | .common _ .unary op left _, temps =>
    let l := exprCode env tab op.code left temps
    ⟨l.code ++ [.unary op.unaryInstr l.result l.temps], .temp l.temps, l.temps + 1⟩
  | .methodCall line name numArgs args, temps =>
    let a := argsCode env tab (env.opView (.methodCall line name numArgs args)) args temps
    ⟨a.code ++ a.results.map .param ++ [.call name a.temps], .temp a.temps, a.temps + 1⟩
  | _, temps => ⟨[], .temp 0, temps⟩
def argsCode (env : Env) (tab : SymbolTable) (fatherOp : Nat) : AstNodeList → Nat → ArgsCode
  | .nil, temps => ⟨[], [], temps⟩
  | .cons first next, temps =>
    let e := exprCode env tab fatherOp first temps
    let a := argsCode env tab fatherOp next e.temps
    ⟨e.code ++ a.code, e.result :: a.results, a.temps⟩
end

structure Counters where
  temp : Nat
  label : Nat

/-- The variable an assignment or a declaration names. -/
def targetOf (tab : SymbolTable) : AstNode → Option Ident
  | .leaf _ (.id p) => (tab.entry p).map SymbolInfo.name
  | _ => none

def storeTo (source : Var) (target : Option Ident) : List IrInstr :=
  target.toList.map (.store source)

mutual
def stmtCode (env : Env) (tab : SymbolTable) : AstNode → Counters → List IrInstr × Counters
  | .common _ _ op left right, c =>
    match op with
    | .decl =>
      if right.isNull then ([], c)
      else
        let r := exprCode env tab op.code right c.temp
        (r.code ++ storeTo r.result (targetOf tab left), { c with temp := r.temps })
    | .assign =>
      match if env.optimizations then right.literal? else none with
      | some value => ((targetOf tab left).toList.map (.storeVal (value.intValue env)), c)
      | none =>
        let r := exprCode env tab op.code right c.temp
        (r.code ++ storeTo r.result (targetOf tab left), { c with temp := r.temps })
    | .ret =>
      if left.isNull then ([.ret none], c)
      else
        let l := exprCode env tab op.code left c.temp
        (l.code ++ [.ret (some l.result)], { c with temp := l.temps })
    | _ => ([], c)
  | .ifStmt line condition thenBlock elseBlock, c =>
    let view := env.opView (.ifStmt line condition thenBlock elseBlock)
    let r := exprCode env tab view condition c.temp
    let t := stmtCode env tab thenBlock ⟨r.temps, c.label + 2⟩
    let e := stmtCode env tab elseBlock t.2
    (r.code ++ .jmpf r.result c.label :: t.1 ++ .jmp (c.label + 1) :: .label c.label :: e.1 ++
      [.label (c.label + 1)], e.2)
  | .whileStmt line condition block, c =>
    let view := env.opView (.whileStmt line condition block)
    let r := exprCode env tab view condition c.temp
    let b := stmtCode env tab block ⟨r.temps, c.label + 2⟩
    (.label c.label :: r.code ++ .jmpf r.result (c.label + 1) :: b.1 ++
      [.jmp c.label, .label (c.label + 1)], b.2)
  | .methodCall line name numArgs args, c =>
    let e := exprCode env tab 0 (.methodCall line name numArgs args) c.temp
    (e.code, { c with temp := e.temps })
  | .block _ stmts, c => blockCode env tab stmts c
  | _, c => ([], c)
def blockCode (env : Env) (tab : SymbolTable) : AstNodeList → Counters → List IrInstr × Counters
  | .nil, c => ([], c)
  | .cons first next, c =>
    let f := stmtCode env tab first c
    if first.isReturn ∧ env.optimizations then f
    else
      let n := blockCode env tab next f.2
      (f.1 ++ n.1, n.2)
end

def GenState.counters (st : GenState) : Counters := ⟨st.tempCounter, st.labelCounter⟩

/-- The state after the instructions are emitted and the counters moved. -/
def GenState.append (st : GenState) (env : Env) (code : List IrInstr) (c : Counters) :
    GenState where
  code := st.code ++ code.map IrInstr.instr
  cantApH :=
    st.cantApH.bind ((code.flatMap fun i => i.instr.operands).foldlM (countOperand env))
  tempCounter := c.temp
  labelCounter := c.label

@[simp] theorem append_tempCounter (env : Env) (st : GenState) (code : List IrInstr)
    (c : Counters) :
    (st.append env code c).tempCounter = c.temp := rfl

@[simp] theorem append_labelCounter (env : Env) (st : GenState) (code : List IrInstr)
    (c : Counters) :
    (st.append env code c).labelCounter = c.label := rfl

@[simp] theorem append_counters (env : Env) (st : GenState) (code : List IrInstr) (c : Counters) :
    (st.append env code c).counters = c := rfl

theorem append_nil (env : Env) (st : GenState) : st.append env [] st.counters = st := by
  simp [GenState.append, GenState.counters]

@[simp] theorem append_append (env : Env) (st : GenState) (code code' : List IrInstr)
    (c c' : Counters) :
    (st.append env code c).append env code' c' = st.append env (code ++ code') c' := by
  simp [GenState.append, List.foldlM_append, Option.bind_assoc]

theorem newTemp_eq (env : Env) (st : GenState) :
    newTemp st = (.temp st.tempCounter,
      st.append env [] ⟨st.tempCounter + 1, st.labelCounter⟩) := by
  simp [newTemp, GenState.append]

theorem newLabel_eq (env : Env) (st : GenState) :
    newLabel st = (.str (labelText st.labelCounter),
      st.append env [] ⟨st.tempCounter, st.labelCounter + 1⟩) := by
  simp [newLabel, GenState.append]

theorem emit_eq (env : Env) (i : IrInstr) (st : GenState) :
    emit env i.instr.instruct i.instr.var1 i.instr.var2 i.instr.reg st =
      st.append env [i] st.counters := by
  simp [emit, GenState.append, GenState.counters]

theorem emit_append (env : Env) (i : IrInstr) {t : InstrType} {var1 var2 reg : Option NamePtr}
    (known : i.instr = ⟨t, var1, var2, reg⟩) (st : GenState) :
    emit env t var1 var2 reg st = st.append env [i] st.counters := by
  rw [← emit_eq env, known]

theorem emitParams_eq (env : Env) (args : List Var) (st : GenState) :
    emitParams env (args.map Var.ptr) st = st.append env (args.map .param) st.counters := by
  induction args generalizing st with
  | nil => exact (append_nil env st).symm
  | cons arg rest ih =>
    have one : emit env .param (some arg.ptr) none none st =
      st.append env [.param arg] st.counters :=
      emit_append env (.param arg) rfl st
    rw [List.map_cons, emitParams, List.foldl_cons, one]
    exact (ih _).trans (by simp)

theorem genBinary_eq (env : Env) (t : BinaryInstr) {genLeft genRight : Emitter}
    {st st' st'' : GenState}
    {l r : Var} (left : genLeft st = (st', some l.ptr))
    (right : genRight st' = (st'', some r.ptr)) :
    genBinary env t.type genLeft genRight st =
      (st''.append env [.binary t l r st''.tempCounter] ⟨st''.tempCounter + 1, st''.labelCounter⟩,
        some (.temp st''.tempCounter)) := by
  simp only [genBinary, left, right, newTemp_eq env, operand, Option.getD_some]
  rw [emit_append env (.binary t l r st''.tempCounter) rfl]
  simp

theorem genUnary_eq (env : Env) (t : UnaryInstr) {genLeft : Emitter} {st st' : GenState} {l : Var}
    (left : genLeft st = (st', some l.ptr)) :
    genUnary env t.type genLeft st =
      (st'.append env [.unary t l st'.tempCounter] ⟨st'.tempCounter + 1, st'.labelCounter⟩,
        some (.temp st'.tempCounter)) := by
  simp only [genUnary, left, newTemp_eq env, operand, Option.getD_some]
  rw [emit_append env (.unary t l st'.tempCounter) rfl]
  simp

theorem genDivision_shift {env : Env} {right : AstNode} {genLeft genRight : Emitter}
    {st st' : GenState} {l : Var} {count : Fin 33} (left : genLeft st = (st', some l.ptr))
    (shift : divisionShift env .division right = some count) :
    genDivision env right genLeft genRight st =
      (st'.append env [.shiftRight l count st'.tempCounter]
        ⟨st'.tempCounter + 1, st'.labelCounter⟩, some (.temp st'.tempCounter)) := by
  rw [divisionShift, if_pos rfl, Option.map_eq_some_iff] at shift
  obtain ⟨n, counted, rfl⟩ := shift
  have small : (Fin.ofNat 33 n).val = n := Nat.mod_eq_of_lt (shiftCount_lt counted)
  simp only [genDivision, left, counted, newTemp_eq env, operand, Option.getD_some]
  rw [emit_append env (.shiftRight l (Fin.ofNat 33 n) st'.tempCounter)
    (by simp only [IrInstr.instr, small])]
  simp

theorem genDivision_plain {env : Env} {right : AstNode} {genLeft genRight : Emitter}
    {st : GenState} (shift : divisionShift env .division right = none) :
    genDivision env right genLeft genRight st = genBinary env .div genLeft genRight st := by
  rw [divisionShift, if_pos rfl, Option.map_eq_none_iff] at shift
  simp only [genDivision, shift, genBinary]

theorem genCodeLeaf_eq {env : Env} {tab : SymbolTable} {line : Int} {value : LeafValue}
    (shape : isExpr tab (.leaf line value) = true) (fatherOp : Nat) (st : GenState) :
    genCodeLeaf env tab fatherOp value st =
      let e := leafCode env tab fatherOp value st.tempCounter
      (st.append env e.code ⟨e.temps, st.labelCounter⟩, some e.result.ptr) := by
  cases value with
  | int v =>
    simp only [genCodeLeaf, genCodeLiteral, newTemp_eq env, leafCode]
    rw [emit_append env (.loadval _ st.tempCounter) rfl]
    simp [Var.ptr]
  | bool v =>
    simp only [genCodeLeaf, genCodeLiteral, newTemp_eq env, leafCode]
    rw [emit_append env (.loadval _ st.tempCounter) rfl]
    simp [Var.ptr]
  | id p =>
    obtain ⟨info, entry⟩ := SymbolTable.hasEntry_iff.mp (by simpa [isExpr] using shape)
    simp only [genCodeLeaf, entry, leafCode]
    by_cases loads : fatherOp ≠ Operator.assign.code ∧ fatherOp ≠ Operator.decl.code
    · rw [if_pos loads, if_pos loads, emit_append env (.load info.name) rfl]
      rfl
    · rw [if_neg loads, if_neg loads]
      exact congrArg (·, _) (append_nil env st).symm

theorem genCodeCommon_binary {env : Env} {op : Operator} {left right : AstNode}
    (binary : op.isBinary = true) {genLeft genRight : Emitter} {st st' st'' : GenState} {l r : Var}
    (shift : divisionShift env op right = none)
    (doneLeft : genLeft st = (st', some l.ptr)) (doneRight : genRight st' = (st'', some r.ptr)) :
    genCodeCommon env op left right genLeft genRight st =
      (st''.append env [.binary op.binaryInstr l r st''.tempCounter]
        ⟨st''.tempCounter + 1, st''.labelCounter⟩, some (.temp st''.tempCounter)) := by
  have done := genBinary_eq env op.binaryInstr doneLeft doneRight
  cases op with
  | division => exact (genDivision_plain shift).trans done
  | minus | neg | decl | assign | ret => cases binary
  | _ => exact done

theorem genCodeCommon_unary {env : Env} {op : Operator} {left right : AstNode}
    (unary : op.isUnary = true) {genLeft genRight : Emitter} {st st' : GenState} {l : Var}
    (doneLeft : genLeft st = (st', some l.ptr)) :
    genCodeCommon env op left right genLeft genRight st =
      (st'.append env [.unary op.unaryInstr l st'.tempCounter]
        ⟨st'.tempCounter + 1, st'.labelCounter⟩, some (.temp st'.tempCounter)) := by
  have done := genUnary_eq env op.unaryInstr doneLeft
  cases op with
  | minus | neg => exact done
  | _ => cases unary

theorem divisionShift_division {env : Env} {op : Operator} {right : AstNode} {count : Fin 33}
    (h : divisionShift env op right = some count) : op = .division := by
  unfold divisionShift at h
  split at h
  · assumption
  · cases h

mutual
theorem genCode_expr (env : Env) (tab : SymbolTable) :
    ∀ (node : AstNode), isExpr tab node = true → ∀ (fatherOp : Nat) (st : GenState),
      genCode env tab fatherOp node st =
        (st.append env (exprCode env tab fatherOp node st.tempCounter).code
          ⟨(exprCode env tab fatherOp node st.tempCounter).temps, st.labelCounter⟩,
          some (exprCode env tab fatherOp node st.tempCounter).result.ptr)
  | .leaf line value, shape, fatherOp, st => genCodeLeaf_eq shape fatherOp st
  | .common line .binary op left right, shape, fatherOp, st => by
    simp only [isExpr, Bool.and_eq_true] at shape
    obtain ⟨⟨binary, leftShape⟩, rightShape⟩ := shape
    have doneLeft := genCode_expr env tab left leftShape op.code st
    rw [genCode, exprCode]
    cases shift : divisionShift env op right with
    | some count =>
      obtain rfl := divisionShift_division shift
      rw [genCodeCommon, genDivision_shift doneLeft shift]
      simp [Var.ptr]
    | none =>
      have doneRight := genCode_expr env tab right rightShape op.code
        (st.append env (exprCode env tab op.code left st.tempCounter).code
          ⟨(exprCode env tab op.code left st.tempCounter).temps, st.labelCounter⟩)
      rw [genCodeCommon_binary binary shift doneLeft doneRight]
      simp [Var.ptr]
  | .common line .unary op left right, shape, fatherOp, st => by
    simp only [isExpr, Bool.and_eq_true] at shape
    have doneLeft := genCode_expr env tab left shape.1.2 op.code st
    rw [genCode, exprCode, genCodeCommon_unary shape.1.1 doneLeft]
    simp [Var.ptr]
  | .methodCall line name numArgs args, shape, fatherOp, st => by
    simp only [isExpr, Bool.and_eq_true, decide_eq_true_eq] at shape
    obtain ⟨count, argsShape⟩ := shape
    obtain ⟨done, length⟩ := genArgs_exprs env tab args argsShape
      (env.opView (.methodCall line name numArgs args)) st
    rw [genCode, exprCode]
    simp only [genCodeMethodCall, done, newTemp_eq env]
    rw [List.take_of_length_le (Nat.le_of_eq (by rw [List.length_map, length, count])),
      emitParams_eq env, emit_append env (.call name _) rfl]
    simp [Var.ptr]
  | .null, shape, _, _ | .ifStmt .., shape, _, _ | .whileStmt .., shape, _, _
  | .methodDecl .., shape, _, _ | .block .., shape, _, _ => by simp [isExpr] at shape
theorem genArgs_exprs (env : Env) (tab : SymbolTable) :
    ∀ (args : AstNodeList), areExprs tab args = true → ∀ (fatherOp : Nat) (st : GenState),
      genArgs env tab fatherOp args st =
        (st.append env (argsCode env tab fatherOp args st.tempCounter).code
          ⟨(argsCode env tab fatherOp args st.tempCounter).temps, st.labelCounter⟩,
          (argsCode env tab fatherOp args st.tempCounter).results.map Var.ptr) ∧
        (argsCode env tab fatherOp args st.tempCounter).results.length = args.length
  | .nil, _, _, st => ⟨congrArg (·, _) (append_nil env st).symm, rfl⟩
  | .cons first next, shape, fatherOp, st => by
    simp only [areExprs, Bool.and_eq_true] at shape
    have one := genCode_expr env tab first shape.1 fatherOp st
    obtain ⟨rest, length⟩ := genArgs_exprs env tab next shape.2 fatherOp
      (st.append env (exprCode env tab fatherOp first st.tempCounter).code
        ⟨(exprCode env tab fatherOp first st.tempCounter).temps, st.labelCounter⟩)
    refine ⟨?_, ?_⟩
    · rw [genArgs, argsCode]
      simp only [one, rest, operand, Option.getD_some]
      simp
    · rw [argsCode]
      simpa [AstNodeList.length] using length
end

theorem genCode_target (env : Env) {tab : SymbolTable} {left : AstNode}
    (shape : isIdLeaf tab left = true) {op : Operator} (target : op = .assign ∨ op = .decl)
    (st : GenState) :
    ∃ x, targetOf tab left = some x ∧
      genCode env tab op.code left st = (st, some (.str x.text)) := by
  unfold isIdLeaf at shape
  split at shape
  · next line p =>
    obtain ⟨info, entry⟩ := SymbolTable.hasEntry_iff.mp shape
    refine ⟨info.name, by simp [targetOf, entry], ?_⟩
    rcases target with rfl | rfl <;> simp [genCode, genCodeLeaf, entry]
  · cases shape

theorem genStore_eq (r : Var) (x : Ident) (st : GenState) :
    emit env .store (some (operand (some r.ptr))) none (some (operand (some (.str x.text)))) st =
      st.append env (storeTo r (some x)) st.counters :=
  emit_append env (.store r x) rfl st

theorem genCode_decl {env : Env} {tab : SymbolTable} {line : Int} {arity : OperatorArity}
    {left right : AstNode} (leftShape : isIdLeaf tab left = true)
    (rightShape : (right.isNull || isExpr tab right) = true) (fatherOp : Nat) (st : GenState) :
    (genCode env tab fatherOp (.common line arity .decl left right) st).1 =
      st.append env (stmtCode env tab (.common line arity .decl left right) st.counters).1
        (stmtCode env tab (.common line arity .decl left right) st.counters).2 := by
  obtain ⟨x, target, doneLeft⟩ := genCode_target env leftShape (.inr rfl) st
  simp only [genCode, genCodeCommon, genDecl, doneLeft, stmtCode]
  by_cases null : right.isNull
  · rw [if_pos null, if_pos null]
    exact (append_nil env st).symm
  · rw [if_neg null, if_neg null]
    have shape : isExpr tab right = true := by simpa [null] using rightShape
    rw [genCode_expr env tab right shape]
    simp only [genStore_eq, target, append_append, append_counters]
    rfl

theorem genCode_assign {env : Env} {tab : SymbolTable} {line : Int} {arity : OperatorArity}
    {left right : AstNode} (leftShape : isIdLeaf tab left = true)
    (rightShape : isExpr tab right = true) (fatherOp : Nat) (st : GenState) :
    (genCode env tab fatherOp (.common line arity .assign left right) st).1 =
      st.append env (stmtCode env tab (.common line arity .assign left right) st.counters).1
        (stmtCode env tab (.common line arity .assign left right) st.counters).2 := by
  obtain ⟨x, target, doneLeft⟩ := genCode_target env leftShape (.inl rfl) st
  simp only [genCode, genCodeCommon, genAssign, doneLeft, stmtCode]
  cases literal : (if env.optimizations = true then right.literal? else none) with
  | some value =>
    rw [target]
    exact emit_append env (.storeVal (value.intValue env) x) rfl st
  | none =>
    dsimp only
    rw [genCode_expr env tab right rightShape]
    simp only [genStore_eq, target, append_append, append_counters]
    rfl

theorem genCode_return {env : Env} {tab : SymbolTable} {line : Int} {arity : OperatorArity}
    {left right : AstNode} (leftShape : (left.isNull || isExpr tab left) = true) (fatherOp : Nat)
    (st : GenState) :
    (genCode env tab fatherOp (.common line arity .ret left right) st).1 =
      st.append env (stmtCode env tab (.common line arity .ret left right) st.counters).1
        (stmtCode env tab (.common line arity .ret left right) st.counters).2 := by
  simp only [genCode, genCodeCommon, genReturn, stmtCode]
  by_cases null : left.isNull
  · rw [if_pos null, if_pos null]
    exact emit_append env (.ret none) rfl st
  · rw [if_neg null, if_neg null]
    have shape : isExpr tab left = true := by simpa [null] using leftShape
    rw [genCode_expr env tab left shape]
    simp only [operand, Option.getD_some]
    refine (emit_append env (.ret (some _)) rfl _).trans ?_
    simp [GenState.counters]

theorem genCodeIf_eq {env : Env} {genCondition genThen genElse : Emitter}
    {st st' : GenState} {r : Var}
    (condition : genCondition st = (st', some r.ptr)) {t e : Counters → List IrInstr × Counters}
    (thenDone : ∀ st, (genThen st).1 = st.append env (t st.counters).1 (t st.counters).2)
    (elseDone : ∀ st, (genElse st).1 = st.append env (e st.counters).1 (e st.counters).2) :
    let l := st'.labelCounter
    let tc := t ⟨st'.tempCounter, l + 2⟩
    let ec := e tc.2
    (genCodeIf env genCondition genThen genElse st).1 =
      st'.append env (.jmpf r l :: tc.1 ++ .jmp (l + 1) :: .label l :: ec.1 ++ [.label (l + 1)])
      ec.2 := by
  simp only [genCodeIf, condition, newLabel_eq env, operand, Option.getD_some, append_labelCounter,
    append_tempCounter]
  rw [emit_append env (.jmpf r st'.labelCounter) rfl, thenDone,
    emit_append env (.jmp (st'.labelCounter + 1)) rfl,
    emit_append env (.label st'.labelCounter) rfl, elseDone,
      emit_append env (.label (st'.labelCounter + 1)) rfl]
  simp

theorem genCodeWhile_eq {env : Env} {genCondition genBlock : Emitter} {st : GenState}
    {r : Counters → ExprCode} {b : Counters → List IrInstr × Counters}
    (condition : ∀ st, genCondition st =
      (st.append env (r st.counters).code ⟨(r st.counters).temps, st.labelCounter⟩,
        some (r st.counters).result.ptr))
    (blockDone : ∀ st, (genBlock st).1 = st.append env (b st.counters).1 (b st.counters).2) :
    let l := st.labelCounter
    let rc := r ⟨st.tempCounter, l + 2⟩
    let bc := b ⟨rc.temps, l + 2⟩
    (genCodeWhile env genCondition genBlock st).1 =
      st.append env (.label l :: rc.code ++ .jmpf rc.result (l + 1) :: bc.1 ++
        [.jmp l, .label (l + 1)]) bc.2 := by
  simp only [genCodeWhile, newLabel_eq env, append_labelCounter, append_tempCounter]
  rw [emit_append env (.label st.labelCounter) rfl, condition]
  simp only [operand, Option.getD_some]
  rw [emit_append env (.jmpf _ (st.labelCounter + 1)) rfl, blockDone,
    emit_append env (.jmp st.labelCounter) rfl,
    emit_append env (.label (st.labelCounter + 1)) rfl]
  simp

theorem genCode_null (env : Env) (tab : SymbolTable) (fatherOp : Nat) (st : GenState) :
    (genCode env tab fatherOp .null st).1 =
      st.append env (stmtCode env tab .null st.counters).1
      (stmtCode env tab .null st.counters).2 := by
  simp only [genCode, stmtCode]
  exact (append_nil env st).symm

mutual
theorem genCode_stmt (env : Env) (tab : SymbolTable) :
    ∀ (node : AstNode), isStmt tab node = true → ∀ (fatherOp : Nat) (st : GenState),
      (genCode env tab fatherOp node st).1 =
        st.append env (stmtCode env tab node st.counters).1 (stmtCode env tab node st.counters).2
  | .common line arity op left right, shape, fatherOp, st => by
    cases op with
    | decl =>
      simp only [isStmt, Bool.and_eq_true] at shape
      exact genCode_decl shape.1 shape.2 fatherOp st
    | assign =>
      simp only [isStmt, Bool.and_eq_true] at shape
      exact genCode_assign shape.1.2 shape.2 fatherOp st
    | ret =>
      simp only [isStmt, Bool.and_eq_true] at shape
      exact genCode_return shape.1 fatherOp st
    | _ => simp [isStmt] at shape
  | .ifStmt line condition thenBlock elseBlock, shape, fatherOp, st => by
    rw [isStmt_ifStmt] at shape
    simp only [Bool.and_eq_true] at shape
    obtain ⟨⟨conditionShape, thenShape⟩, elseShape⟩ := shape
    rw [genCode, stmtCode, genCodeIf_eq (genCode_expr env tab condition conditionShape _ st)
      (genCode_branch env tab thenBlock thenShape _) (genCode_branch env tab elseBlock elseShape _)]
    simp [GenState.counters]
  | .whileStmt line condition block, shape, fatherOp, st => by
    rw [isStmt_whileStmt] at shape
    simp only [Bool.and_eq_true] at shape
    rw [genCode, stmtCode, genCodeWhile_eq
      (r := fun c => exprCode env tab (env.opView (.whileStmt line condition block))
        condition c.temp)
      (genCode_expr env tab condition shape.1 _) (genCode_branch env tab block shape.2 _)]
    simp [GenState.counters]
  | .methodCall line name numArgs args, shape, fatherOp, st => by
    rw [genCode_expr env tab (.methodCall line name numArgs args)
      (by simpa [isStmt, isExpr] using shape)]
    simp [stmtCode, exprCode, GenState.counters]
  | .block line stmts, shape, fatherOp, st => by
    rw [isStmt] at shape
    rw [genCode, stmtCode]
    exact genCodeBlock_stmts env tab stmts shape _ none st
  | .null, shape, _, _ | .methodDecl .., shape, _, _ | .leaf .., shape, _, _ => by
    simp [isStmt] at shape
theorem genCode_branch (env : Env) (tab : SymbolTable) :
    ∀ (node : AstNode), isBranch tab node = true → ∀ (fatherOp : Nat) (st : GenState),
      (genCode env tab fatherOp node st).1 =
        st.append env (stmtCode env tab node st.counters).1 (stmtCode env tab node st.counters).2
  | .null, _, fatherOp, st => genCode_null env tab fatherOp st
  | .block line stmts, shape, fatherOp, st => by
    simp only [isBranch, AstNode.isNull, AstNode.isBlock, isStmt, Bool.false_or,
      Bool.true_and] at shape
    rw [genCode, stmtCode]
    exact genCodeBlock_stmts env tab stmts shape _ none st
  | .common .., shape, _, _ | .ifStmt .., shape, _, _ | .whileStmt .., shape, _, _
  | .methodDecl .., shape, _, _ | .methodCall .., shape, _, _ | .leaf .., shape, _, _ => by
    simp [isBranch, AstNode.isNull, AstNode.isBlock] at shape
theorem genCodeBlock_stmts (env : Env) (tab : SymbolTable) :
    ∀ (stmts : AstNodeList), areStmts tab stmts = true →
      ∀ (fatherOp : Nat) (last : Option NamePtr) (st : GenState),
      (genCodeBlock env tab fatherOp stmts st last).1 =
        st.append env (blockCode env tab stmts st.counters).1
        (blockCode env tab stmts st.counters).2
  | .nil, _, _, _, st => by
    rw [genCodeBlock, blockCode]
    exact (append_nil env st).symm
  | .cons first next, shape, fatherOp, last, st => by
    simp only [areStmts, Bool.and_eq_true] at shape
    have one := genCode_stmt env tab first shape.1 fatherOp st
    simp only [genCodeBlock, blockCode]
    by_cases stops : first.isReturn = true ∧ env.optimizations = true
    · rw [if_pos stops, if_pos stops]
      exact one
    · rw [if_neg stops, if_neg stops, genCodeBlock_stmts env tab next shape.2, one]
      simp
end

/-- The code of a top-level sentence. -/
def sentenceCode (env : Env) (tab : SymbolTable) : AstNode → Counters → List IrInstr × Counters
  | .methodDecl _ sym block, c =>
    match tab.entry sym with
    | none => ([], c)
    | some info =>
      if info.methodView.isExtern then ([.externDecl info.name], c)
      else
        let b := stmtCode env tab block c
        (.enter info.name :: b.1 ++ [.leave info.name], b.2)
  | node, c => stmtCode env tab node c

def programCode (env : Env) (tab : SymbolTable) : List AstNode → Counters → List IrInstr × Counters
  | [], c => ([], c)
  | sentence :: rest, c =>
    let s := sentenceCode env tab sentence c
    let r := programCode env tab rest s.2
    (s.1 ++ r.1, r.2)

theorem genCode_sentence (env : Env) {tab : SymbolTable} {node : AstNode}
    (shape : isSentence tab node = true) (fatherOp : Nat) (st : GenState) :
    (genCode env tab fatherOp node st).1 =
      st.append env (sentenceCode env tab node st.counters).1
      (sentenceCode env tab node st.counters).2 := by
  unfold isSentence at shape
  split at shape
  · exact genCode_stmt env tab _ shape fatherOp st
  · next line sym block =>
    simp only [Bool.and_eq_true] at shape
    obtain ⟨info, entry⟩ := SymbolTable.hasEntry_iff.mp shape.1
    simp only [genCode, genCodeMethodDecl, entry, sentenceCode]
    by_cases isExtern : info.methodView.isExtern = true
    · rw [if_pos isExtern, if_pos isExtern]
      exact emit_append env (.externDecl info.name) rfl st
    · rw [if_neg isExtern, if_neg isExtern]
      dsimp only
      rw [emit_append env (.enter info.name) rfl, genCode_branch env tab block shape.2,
        emit_append env (.leave info.name) rfl]
      simp
  · cases shape

theorem genSentences_eq (env : Env) (tab : SymbolTable) {sentences : List AstNode}
    (shape : ∀ node ∈ sentences, isSentence tab node = true) (st : GenState) :
    genSentences env tab sentences st =
      st.append env (programCode env tab sentences st.counters).1
        (programCode env tab sentences st.counters).2 := by
  induction sentences generalizing st with
  | nil => exact (append_nil env st).symm
  | cons sentence rest ih =>
    have one := genCode_sentence env (shape sentence List.mem_cons_self) 0 st
    rw [genSentences, List.foldl_cons, one]
    refine (ih (fun node mem => shape node (List.mem_cons_of_mem _ mem)) _).trans ?_
    simp [programCode]

end Ctds
