import Ctds.Frame

/-! The two tables of fixed size: `code`, which `emit` fills for the whole program, and
`var_map`, which `get_var_offset` fills for each method. Nothing compares the index with the
size. `code` is as long as the trees ask for, whatever state they are reached in; `var_map`
takes one entry for each name of the method, once in each of the two passes. -/

namespace Ctds

open FirstSeen Fallible

def maxCodeSize : Nat := 1000

def leafSize (fatherOp : Nat) : LeafValue → Nat
  | .id _ => if fatherOp ≠ Operator.assign.code ∧ fatherOp ≠ Operator.decl.code then 1 else 0
  | _ => 1

mutual
def exprSize (env : Env) (fatherOp : Nat) : AstNode → Nat
  | .leaf _ value => leafSize fatherOp value
  | .common _ .binary op left right =>
    exprSize env op.code left +
      (if (divisionShift env op right).isSome then 0 else exprSize env op.code right) + 1
  | .common _ .unary op left _ => exprSize env op.code left + 1
  | .methodCall line name numArgs args =>
    argsSize env (env.opView (.methodCall line name numArgs args)) args + args.length + 1
  | _ => 0
def argsSize (env : Env) (fatherOp : Nat) : AstNodeList → Nat
  | .nil => 0
  | .cons first next => exprSize env fatherOp first + argsSize env fatherOp next
end

mutual
/-- Two jumps and two labels come with each `if` and each `while`. -/
def stmtSize (env : Env) : AstNode → Nat
  | .common _ _ op left right =>
    match op with
    | .decl => if right.isNull then 0 else exprSize env op.code right + 1
    | .assign =>
      if env.optimizations ∧ right.literal?.isSome then 1 else exprSize env op.code right + 1
    | .ret => if left.isNull then 1 else exprSize env op.code left + 1
    | _ => 0
  | .ifStmt line condition thenBlock elseBlock =>
    exprSize env (env.opView (.ifStmt line condition thenBlock elseBlock)) condition +
      stmtSize env thenBlock + stmtSize env elseBlock + 4
  | .whileStmt line condition block =>
    exprSize env (env.opView (.whileStmt line condition block)) condition + stmtSize env block + 4
  | .methodCall line name numArgs args => exprSize env 0 (.methodCall line name numArgs args)
  | .block _ stmts => blockSize env stmts
  | _ => 0
def blockSize (env : Env) : AstNodeList → Nat
  | .nil => 0
  | .cons first next =>
    stmtSize env first + if first.isReturn ∧ env.optimizations then 0 else blockSize env next
end

def sentenceSize (env : Env) (tab : SymbolTable) : AstNode → Nat
  | .methodDecl _ sym block =>
    if (tab.entry sym).any fun info => info.methodView.isExtern then 1 else stmtSize env block + 2
  | node => stmtSize env node

def programSize (env : Env) (tab : SymbolTable) (sentences : List AstNode) : Nat :=
  (sentences.map (sentenceSize env tab)).sum

section Sizes

variable {env : Env} {tab : SymbolTable}

theorem leafCode_length {line : Int} {value : LeafValue}
    (shape : isExpr tab (.leaf line value) = true) (fatherOp temps : Nat) :
    (leafCode env tab fatherOp value temps).code.length = leafSize fatherOp value := by
  cases value with
  | int _ => rfl
  | bool _ => rfl
  | id p =>
    obtain ⟨info, entry⟩ := SymbolTable.hasEntry_iff.mp (by simpa [isExpr] using shape)
    simp only [leafCode, entry, leafSize]
    split <;> rfl

mutual
theorem exprCode_length (env : Env) (tab : SymbolTable) :
    ∀ (node : AstNode), isExpr tab node = true → ∀ (fatherOp temps : Nat),
      (exprCode env tab fatherOp node temps).code.length = exprSize env fatherOp node
  | .leaf line value, shape, fatherOp, temps => by
    rw [exprCode, exprSize, leafCode_length shape]
  | .common line .binary op left right, shape, fatherOp, temps => by
    simp only [isExpr, Bool.and_eq_true] at shape
    have first := exprCode_length env tab left shape.1.2 op.code temps
    rw [exprCode, exprSize]
    cases divisionShift env op right with
    | some count => simp [first]
    | none =>
      have second := exprCode_length env tab right shape.2 op.code
        (exprCode env tab op.code left temps).temps
      simp [first, second, Nat.add_assoc]
  | .common line .unary op left right, shape, fatherOp, temps => by
    simp only [isExpr, Bool.and_eq_true] at shape
    have first := exprCode_length env tab left shape.1.2 op.code temps
    simp [exprCode, exprSize, first]
  | .methodCall line name numArgs args, shape, fatherOp, temps => by
    simp only [isExpr, Bool.and_eq_true] at shape
    obtain ⟨size, results⟩ := argsCode_length env tab args shape.2
      (env.opView (.methodCall line name numArgs args)) temps
    simp [exprCode, exprSize, size, results, Nat.add_assoc]
  | .null, shape, _, _ | .ifStmt .., shape, _, _ | .whileStmt .., shape, _, _
  | .methodDecl .., shape, _, _ | .block .., shape, _, _ => by simp [isExpr] at shape
theorem argsCode_length (env : Env) (tab : SymbolTable) :
    ∀ (args : AstNodeList), areExprs tab args = true → ∀ (fatherOp temps : Nat),
      (argsCode env tab fatherOp args temps).code.length = argsSize env fatherOp args ∧
        (argsCode env tab fatherOp args temps).results.length = args.length
  | .nil, _, _, _ => ⟨rfl, rfl⟩
  | .cons first next, shape, fatherOp, temps => by
    simp only [areExprs, Bool.and_eq_true] at shape
    have one := exprCode_length env tab first shape.1 fatherOp temps
    obtain ⟨size, results⟩ := argsCode_length env tab next shape.2 fatherOp
      (exprCode env tab fatherOp first temps).temps
    simp [argsCode, argsSize, AstNodeList.length, one, size, results]
end

theorem storeTo_length {left : AstNode} (shape : isIdLeaf tab left = true) (source : Var) :
    (storeTo source (targetOf tab left)).length = 1 := by
  obtain ⟨x, target⟩ := targetOf_some shape
  rw [target]
  rfl

mutual
theorem stmtCode_length (env : Env) (tab : SymbolTable) :
    ∀ (node : AstNode), isStmt tab node = true → ∀ (c : Counters),
      (stmtCode env tab node c).1.length = stmtSize env node
  | .common line arity op left right, shape, c => by
    cases op with
    | decl =>
      simp only [isStmt, Bool.and_eq_true] at shape
      simp only [stmtCode, stmtSize]
      by_cases null : right.isNull
      · rw [if_pos null, if_pos null]
        rfl
      · rw [if_neg null, if_neg null, List.length_append, storeTo_length shape.1,
          exprCode_length env tab right (by simpa [null] using shape.2)]
    | assign =>
      simp only [isStmt, Bool.and_eq_true] at shape
      have stored := storeTo_length shape.1.2
      have size := exprCode_length env tab right shape.2 Operator.assign.code c.temp
      obtain ⟨x, target⟩ := targetOf_some shape.1.2
      simp only [stmtCode, stmtSize]
      by_cases on : env.optimizations = true
      · cases literal : right.literal? with
        | some value => simp [on, target]
        | none => simp [on, stored, size]
      · simp [on, stored, size]
    | ret =>
      simp only [isStmt, Bool.and_eq_true] at shape
      simp only [stmtCode, stmtSize]
      by_cases null : left.isNull
      · rw [if_pos null, if_pos null]
        rfl
      · rw [if_neg null, if_neg null, List.length_append,
          exprCode_length env tab left (by simpa [null] using shape.1)]
        rfl
    | _ => simp [isStmt] at shape
  | .ifStmt line condition thenBlock elseBlock, shape, c => by
    rw [isStmt_ifStmt] at shape
    simp only [Bool.and_eq_true] at shape
    have size := exprCode_length env tab condition shape.1.1
    have first := branchCode_length env tab thenBlock shape.1.2
    have second := branchCode_length env tab elseBlock shape.2
    simp only [stmtCode, stmtSize, List.length_append, List.length_cons, List.length_nil, size,
      first, second]
    omega
  | .whileStmt line condition block, shape, c => by
    rw [isStmt_whileStmt] at shape
    simp only [Bool.and_eq_true] at shape
    have size := exprCode_length env tab condition shape.1
    have body := branchCode_length env tab block shape.2
    simp only [stmtCode, stmtSize, List.length_append, List.length_cons,
      List.length_nil, size, body]
    omega
  | .methodCall line name numArgs args, shape, c => by
    rw [stmtCode, stmtSize]
    exact exprCode_length env tab (.methodCall line name numArgs args)
      (by simpa [isStmt, isExpr] using shape) 0 c.temp
  | .block line stmts, shape, c => by
    rw [isStmt] at shape
    rw [stmtCode, stmtSize]
    exact blockCode_length env tab stmts shape c
  | .null, shape, _ | .methodDecl .., shape, _ | .leaf .., shape, _ => by simp [isStmt] at shape
theorem branchCode_length (env : Env) (tab : SymbolTable) :
    ∀ (node : AstNode), isBranch tab node = true → ∀ (c : Counters),
      (stmtCode env tab node c).1.length = stmtSize env node
  | .null, _, c => by simp only [stmtCode, stmtSize, List.length_nil]
  | .block line stmts, shape, c => by
    simp only [isBranch, AstNode.isNull, AstNode.isBlock, isStmt, Bool.false_or,
      Bool.true_and] at shape
    rw [stmtCode, stmtSize]
    exact blockCode_length env tab stmts shape c
  | .common .., shape, _ | .ifStmt .., shape, _ | .whileStmt .., shape, _
  | .methodDecl .., shape, _ | .methodCall .., shape, _ | .leaf .., shape, _ => by
    simp [isBranch, AstNode.isNull, AstNode.isBlock] at shape
theorem blockCode_length (env : Env) (tab : SymbolTable) :
    ∀ (stmts : AstNodeList), areStmts tab stmts = true → ∀ (c : Counters),
      (blockCode env tab stmts c).1.length = blockSize env stmts
  | .nil, _, _ => rfl
  | .cons first next, shape, c => by
    simp only [areStmts, Bool.and_eq_true] at shape
    have one := stmtCode_length env tab first shape.1 c
    rw [blockCode, blockSize]
    by_cases stops : first.isReturn = true ∧ env.optimizations = true
    · rw [if_pos stops, if_pos stops, one, Nat.add_zero]
    · rw [if_neg stops, if_neg stops, List.length_append, one,
        blockCode_length env tab next shape.2]
end

theorem sentenceCode_length {node : AstNode} (shape : isSentence tab node = true) (c : Counters) :
    (sentenceCode env tab node c).1.length = sentenceSize env tab node := by
  unfold isSentence at shape
  split at shape
  · exact stmtCode_length env tab _ shape c
  · rw [Bool.and_eq_true] at shape
    obtain ⟨info, entry⟩ := SymbolTable.hasEntry_iff.mp shape.1
    rw [sentenceCode, sentenceSize, entry, Option.any_some]
    by_cases isExtern : info.methodView.isExtern = true
    · simp [isExtern]
    · simp [isExtern, branchCode_length env tab _ shape.2]
  · cases shape

theorem programCode_length {sentences : List AstNode}
    (shape : ∀ node ∈ sentences, isSentence tab node = true) (c : Counters) :
    (programCode env tab sentences c).1.length = programSize env tab sentences := by
  induction sentences generalizing c with
  | nil => rfl
  | cons sentence rest ih =>
    rw [programCode, List.length_append, sentenceCode_length (shape sentence List.mem_cons_self),
      ih fun node mem => shape node (List.mem_cons_of_mem _ mem)]
    rfl

end Sizes

/-- The index of `code` that each `emit` has written: `emit` fills the next entry. -/
def codeWrites (st : GenState) : List Nat := List.range st.code.length

theorem codeWrites_emit (env : Env) (t : InstrType) (var1 var2 reg : Option NamePtr)
    (st : GenState) :
    codeWrites (emit env t var1 var2 reg st) = codeWrites st ++ [st.code.length] := by
  rw [codeWrites, emit, List.length_append, List.length_singleton, List.range_succ]
  rfl

/-- The indexes of `var_map` written by the calls of `get_var_offset` between two states. -/
def newIndexes (before after : ObjState) : List Nat :=
  List.range' before.varMap.length (after.varMap.length - before.varMap.length)

theorem newIndexes_getVarOffset (name : CString) (os : ObjState) :
    newIndexes os (getVarOffset name os).1 =
      if (findVar name os.varMap).isSome then [] else [os.varMap.length] := by
  unfold getVarOffset newIndexes
  cases findVar name os.varMap with
  | some offset => simp
  | none => simp

section Writes

variable {env : Env}

/-- The indexes of `var_map` written for instruction `j`. An ENTER fills the map twice, each
time from the start. -/
def varMapWrites (b : Compiled env) (j : Nat) : List Nat :=
  match b.code[j]? with
  | none => []
  | some instr =>
    let os := objectState b.tab b.headAst b.code j
    let os' := objectState b.tab b.headAst b.code (j + 1)
    if instr.instruct = .enter then
      let reset := { os with varMap := [], currentStackOffset := 0 }
      let range := codeRange b.code j (endFuncIdx b.code (instr.var1.getD []) j)
      newIndexes reset (firstPass range reset) ++ newIndexes reset os'
    else newIndexes os os'

/-- Both tables are long enough for everything that is written into them. -/
structure TablesFit (b : Compiled env) : Prop where
  code : ∀ i ∈ codeWrites (intermediateCode env b.checked), i < maxCodeSize
  varMap : ∀ e l f, InMethod b.code e l f → ∀ j, e ≤ j → j ≤ l →
    ∀ i ∈ varMapWrites b j, i < maxVarsPerFunction

theorem codeWrites_length (b : Compiled env) :
    (codeWrites (intermediateCode env b.checked)).length = programSize env b.tab b.headAst := by
  have size : b.instrs.length = programSize env b.tab b.headAst :=
    programCode_length b.compilable.shape ⟨0, 0⟩
  rw [codeWrites, List.length_range, b.intermediateCode_eq, GenState.append, List.length_append,
    List.length_map, size]
  exact Nat.zero_add _

theorem codeWrites_fit_iff (b : Compiled env) :
    (∀ i ∈ codeWrites (intermediateCode env b.checked), i < maxCodeSize) ↔
      programSize env b.tab b.headAst ≤ maxCodeSize := by
  rw [← codeWrites_length, codeWrites, List.length_range]
  constructor
  · intro h
    by_contra beyond
    have last := h maxCodeSize (List.mem_range.mpr (by omega))
    omega
  · intro le i mem
    have := List.mem_range.mp mem
    omega

theorem frame_varMap_length (names : List CString) (p s : Nat) :
    (ObjState.frame names p s).varMap.length = names.length := by
  have length : ∀ k, (slotsFrom k names).length = names.length := by
    induction names with
    | nil => intro k; rfl
    | cons name rest ih => intro k; rw [slotsFrom, List.length_cons, List.length_cons, ih]
  exact length 0

theorem range'_fit_iff {n k bound : Nat} (le : n ≤ bound) :
    (∀ i ∈ List.range' n (k - n), i < bound) ↔ k ≤ bound := by
  constructor
  · intro h
    by_contra beyond
    have last := h bound (List.mem_range'_1.mpr (by omega))
    omega
  · intro short i mem
    have := List.mem_range'_1.mp mem
    omega

section Method

variable {b : Compiled env} {e l : Nat} {f : CString}

theorem varMapWrites_enter (method : InMethod b.code e l f) :
    varMapWrites b e = List.range (countedNames b e f).card ++
      List.range (methodNames b.tab b.headAst b.code e f (e + 1)).length := by
  obtain ⟨instr, here, isEnter, name⟩ := method.enter
  have first := seen_frame (firstPassNames (codeRange b.code e (endFuncIdx b.code f e))) []
    (objectState b.tab b.headAst b.code e).paramCount
      (objectState b.tab b.headAst b.code e).stackParams
  have counted : (countedNames b e f).card =
      (seeAll [] (firstPassNames (codeRange b.code e (endFuncIdx b.code f e)))).length := by
    rw [length_seeAll, countedNames, List.card_toFinset]
  have start : { objectState b.tab b.headAst b.code e with varMap := [], currentStackOffset := 0 } =
      ObjState.frame [] (objectState b.tab b.headAst b.code e).paramCount
        (objectState b.tab b.headAst b.code e).stackParams := rfl
  have pass : (firstPass (codeRange b.code e (endFuncIdx b.code f e))
      { objectState b.tab b.headAst b.code e with
        varMap := [], currentStackOffset := 0 }).varMap.length =
      (countedNames b e f).card := by
    rw [start, counted, ← frame_varMap_length _ (objectState b.tab b.headAst b.code e).paramCount
      (objectState b.tab b.headAst b.code e).stackParams, ← first]
    rfl
  have behind := congrArg (fun os => os.varMap.length) (objectState_enter b.tab b.headAst method).1
  rw [frame_varMap_length] at behind
  simp only [varMapWrites, here, isEnter, if_true, name, Option.getD_some, newIndexes, behind, pass,
    List.length_nil, Nat.sub_zero, List.range_eq_range']

theorem varMapWrites_inside (method : InMethod b.code e l f) {j : Nat} (gt : e < j) (lt : j < l) :
    varMapWrites b j =
      List.range' (methodNames b.tab b.headAst b.code e f j).length
        ((methodNames b.tab b.headAst b.code e f (j + 1)).length -
          (methodNames b.tab b.headAst b.code e f j).length) := by
  have here := List.getElem?_eq_getElem (Nat.lt_of_lt_of_le lt method.length)
  obtain ⟨p, s, state⟩ := objectState_inside b.tab b.headAst method gt (Nat.le_of_lt lt)
  obtain ⟨p', s', state'⟩ := objectState_inside b.tab b.headAst method (Nat.lt_succ_of_lt gt) lt
  simp only [varMapWrites, here, if_neg (method.body gt lt here).1, newIndexes, state, state',
    frame_varMap_length]

theorem varMapWrites_leave (method : InMethod b.code e l f) : varMapWrites b l = [] := by
  obtain ⟨instr, here, isLeave, -⟩ := method.leave
  have emptied : (objectState b.tab b.headAst b.code (l + 1)).varMap = [] := by
    rw [objectState_succ here, generateInstr, isLeave]
    rfl
  have notEnter : instr.instruct ≠ .enter := by rw [isLeave]; exact InstrType.noConfusion
  simp only [varMapWrites, here, if_neg notEnter, newIndexes, emptied, List.length_nil,
    Nat.zero_sub, List.range'_zero]

theorem varMapWrites_fit_iff (method : InMethod b.code e l f) :
    (∀ j, e ≤ j → j ≤ l → ∀ i ∈ varMapWrites b j, i < maxVarsPerFunction) ↔
      (countedNames b e f).card ≤ maxVarsPerFunction ∧
        (slotNames b e l f).card ≤ maxVarsPerFunction := by
  have all : (slotNames b e l f).card = (methodNames b.tab b.headAst b.code e f l).length :=
    List.toFinset_card_of_nodup (methodNames_nodup b.tab b.headAst b.code e f l)
  rw [all]
  constructor
  · intro fit
    have enter := fit e (Nat.le_refl e) (Nat.le_of_lt method.lt)
    rw [varMapWrites_enter method, List.forall_mem_append, List.range_eq_range',
      List.range_eq_range'] at enter
    obtain ⟨counted, params⟩ := enter
    refine ⟨(range'_fit_iff (Nat.zero_le _)).mp counted, ?_⟩
    -- along the method, from the parameters on
    have along : ∀ j, e + 1 ≤ j → j ≤ l →
        (methodNames b.tab b.headAst b.code e f j).length ≤ maxVarsPerFunction := by
      intro j ge
      induction j, ge using Nat.le_induction with
      | base => exact fun _ => (range'_fit_iff (Nat.zero_le _)).mp params
      | succ j ge ih =>
        intro le
        have writes := fit j (Nat.le_of_succ_le ge) (Nat.le_of_succ_le le)
        rw [varMapWrites_inside method ge le] at writes
        exact (range'_fit_iff (ih (Nat.le_of_succ_le le))).mp writes
    exact along l method.lt (Nat.le_refl l)
  · rintro ⟨counted, slots⟩ j ge le
    have short : ∀ k, e < k → k ≤ l →
        (methodNames b.tab b.headAst b.code e f k).length ≤ maxVarsPerFunction := fun k gt le' =>
      ((methodNames_initial b.tab b.headAst gt le' method.length).length_le).trans slots
    rcases Nat.eq_or_lt_of_le ge with rfl | gt
    · rw [varMapWrites_enter method, List.forall_mem_append, List.range_eq_range',
        List.range_eq_range']
      exact ⟨(range'_fit_iff (Nat.zero_le _)).mpr counted,
        (range'_fit_iff (Nat.zero_le _)).mpr (short _ (Nat.lt_succ_self _) method.lt)⟩
    · rcases Nat.eq_or_lt_of_le le with rfl | lt
      · rw [varMapWrites_leave method]
        exact fun i mem => absurd mem List.not_mem_nil
      · rw [varMapWrites_inside method gt lt]
        exact (range'_fit_iff (short j gt le)).mpr (short (j + 1) (Nat.lt_succ_of_lt gt) lt)

end Method

/-- Both tables are long enough exactly when the trees become at most a thousand instructions and
no method has more than two hundred names in either pass. -/
theorem tables_fit_iff (b : Compiled env) :
    TablesFit b ↔ programSize env b.tab b.headAst ≤ maxCodeSize ∧
      ∀ e l f, InMethod b.code e l f → (countedNames b e f).card ≤ maxVarsPerFunction ∧
        (slotNames b e l f).card ≤ maxVarsPerFunction := by
  constructor
  · intro fit
    exact ⟨(codeWrites_fit_iff b).mp fit.code,
      fun e l f method => (varMapWrites_fit_iff method).mp (fit.varMap e l f method)⟩
  · rintro ⟨short, names⟩
    exact ⟨(codeWrites_fit_iff b).mpr short,
      fun e l f method => (varMapWrites_fit_iff method).mpr (names e l f method)⟩

end Writes

def returns : Nat → StmtListSyn
  | 0 => .nil
  | n + 1 => .cons (.returnExpr 1 (.integerLiteral 1 1)) (returns n)

/-- `integer main() { return 1; … return 1; }` with five hundred returns. -/
def manyReturns : ProgramSyn :=
  [.methodDecl ⟨1, some .integer, .of "main", [], some (.mk 1 [] (returns 500))⟩]

def manyReturnsInstrs : List IrInstr :=
  .enter (.of "main") ::
    (List.range 500).flatMap (fun k => [.loadval 1 k, .ret (some (.temp k))]) ++
      [.leave (.of "main")]

def manyReturnsCode : List (Instr CString) :=
  manyReturnsInstrs.map fun i => i.instr.map (NamePtr.text tempText)

theorem manyReturns_code :
    ∃ b : Compiled (.sample false), b.prog = manyReturns ∧ b.code = manyReturnsCode := by
  obtain ⟨checked, accepted⟩ := isOk_iff.mp (by decide +kernel :
    (frontEnd (.sample false) manyReturns).isOk = true)
  have facts : (frontEnd (.sample false) manyReturns).toOption.map (fun c =>
      (programCode (.sample false) c.tab c.headAst ⟨0, 0⟩).1) = some manyReturnsInstrs := by
    decide +kernel
  rw [accepted] at facts
  let b := Compiled.plain rfl accepted
  have instrs : b.instrs = manyReturnsInstrs := Option.some.inj facts
  refine ⟨b, rfl, ?_⟩
  rw [Compiled.code, b.intermediateCode_eq, instrs, manyReturnsCode, GenState.append, namedCode,
    resetCode, List.nil_append, List.map_map]
  rfl

theorem manyReturns_method {b : Compiled (.sample false)} (code : b.code = manyReturnsCode) :
    InMethod b.code 0 1001 "main".toList := by
  rw [code]
  exact inMethod_of_range (by decide) rfl (by decide +kernel) (by decide +kernel)

theorem manyReturns_counted {b : Compiled (.sample false)} (code : b.code = manyReturnsCode) :
    500 ≤ (countedNames b 0 "main".toList).card := by
  have inj : Function.Injective tempText := fun n k same => tempText_inj same
  have names : (Finset.range 500).image tempText ⊆ countedNames b 0 "main".toList := by
    intro name mem
    obtain ⟨k, lt, rfl⟩ := Finset.mem_image.mp mem
    have long : b.code.length = 1002 := by
      rw [code]
      decide +kernel
    have range : codeRange b.code 0 (endFuncIdx b.code "main".toList 0) = manyReturnsCode := by
      rw [(manyReturns_method code).endFuncIdx, codeRange, List.drop_zero,
        List.take_of_length_le (by omega), code]
    rw [countedNames, range, List.mem_toFinset, firstPassNames, List.mem_filter, List.mem_flatMap]
    refine ⟨⟨⟨.ret, some (tempText k), none, none⟩, ?_, List.mem_singleton_self _⟩, rfl⟩
    refine List.mem_map.mpr ⟨.ret (some (.temp k)), ?_, rfl⟩
    rw [manyReturnsInstrs, List.mem_append, List.mem_cons, List.mem_flatMap]
    refine .inl (.inr ⟨k, ?_, List.mem_cons_of_mem _ (List.mem_singleton_self _)⟩)
    exact List.mem_range.mpr (Finset.mem_range.mp lt)
  have count := Finset.card_le_card names
  rwa [Finset.card_image_of_injective _ inj, Finset.card_range] at count

/-- It is accepted, and both tables are written behind their ends. -/
theorem tables_overrun :
    ∃ b : Compiled (.sample false), b.prog = manyReturns ∧
      maxCodeSize ∈ codeWrites (intermediateCode (.sample false) b.checked) ∧
      maxVarsPerFunction ∈ varMapWrites b 0 ∧ ¬ TablesFit b := by
  obtain ⟨b, prog, code⟩ := manyReturns_code
  have long : (intermediateCode (.sample false) b.checked).code.length = 1002 := by
    have length : b.code.length = 1002 := by
      rw [code]
      decide +kernel
    rwa [Compiled.code, namedCode, List.length_map] at length
  have past : maxCodeSize ∈ codeWrites (intermediateCode (.sample false) b.checked) := by
    rw [codeWrites, long]
    exact List.mem_range.mpr (by decide)
  refine ⟨b, prog, past, ?_, fun fit => Nat.lt_irrefl _ (fit.code _ past)⟩
  have counted := manyReturns_counted code
  rw [varMapWrites_enter (manyReturns_method code), List.mem_append]
  exact .inl (List.mem_range.mpr (Nat.lt_of_lt_of_le (by decide) counted))

end Ctds
