import Ctds.Codegen
import Ctds.Lib.Placed

/-! The forms of the emitted code, without the trees it comes from: code that leaves the
values of operands in variables, code of statements, and the sections of a whole program.
An operand is a list of one, so that the arguments of a call are operands too. -/

namespace Ctds

/-- Code that takes the temporaries from the first number up to the last and leaves its
values in these variables. -/
inductive Operands : Nat → List IrInstr → List Var → Nat → Prop where
  | nil (t : Nat) : Operands t [] [] t
  | user (x : Ident) (t : Nat) : Operands t [] [.user x] t
  | load (x : Ident) (t : Nat) : Operands t [.load x] [.user x] t
  | loadval (v : BitVec 32) (t : Nat) : Operands t [.loadval v t] [.temp t] (t + 1)
  | cons {t u v : Nat} {code code' : List IrInstr} {r : Var} {rs : List Var} :
    Operands t code [r] u → Operands u code' rs v → Operands t (code ++ code') (r :: rs) v
  | binary {t u : Nat} {code : List IrInstr} {l r : Var} (op : BinaryInstr) :
    Operands t code [l, r] u → Operands t (code ++ [.binary op l r u]) [.temp u] (u + 1)
  | shiftRight {t u : Nat} {code : List IrInstr} {l : Var} (count : Fin 33) :
    Operands t code [l] u → Operands t (code ++ [.shiftRight l count u]) [.temp u] (u + 1)
  | unary {t u : Nat} {code : List IrInstr} {l : Var} (op : UnaryInstr) :
    Operands t code [l] u → Operands t (code ++ [.unary op l u]) [.temp u] (u + 1)
  | call {t u : Nat} {code : List IrInstr} {rs : List Var} (f : Ident) :
    Operands t code rs u → Operands t (code ++ rs.map .param ++ [.call f u]) [.temp u] (u + 1)

/-- Code of statements, between two values of the counters. -/
inductive Emits : Counters → List IrInstr → Counters → Prop where
  | nil (c : Counters) : Emits c [] c
  | append {c d e : Counters} {code code' : List IrInstr} :
    Emits c code d → Emits d code' e → Emits c (code ++ code') e
  | eval {t u l : Nat} {code : List IrInstr} {r : Var} :
    Operands t code [r] u → Emits ⟨t, l⟩ code ⟨u, l⟩
  | store {t u l : Nat} {code : List IrInstr} {r : Var} (x : Ident) :
    Operands t code [r] u → Emits ⟨t, l⟩ (code ++ [.store r x]) ⟨u, l⟩
  | storeVal (v : BitVec 32) (x : Ident) (c : Counters) : Emits c [.storeVal v x] c
  | retNone (c : Counters) : Emits c [.ret none] c
  | ret {t u l : Nat} {code : List IrInstr} {r : Var} :
    Operands t code [r] u → Emits ⟨t, l⟩ (code ++ [.ret (some r)]) ⟨u, l⟩
  | branch {t u l : Nat} {d e : Counters} {code thenCode elseCode : List IrInstr} {r : Var} :
    Operands t code [r] u → Emits ⟨u, l + 2⟩ thenCode d → Emits d elseCode e →
    Emits ⟨t, l⟩ (code ++ .jmpf r l :: thenCode ++ .jmp (l + 1) :: .label l :: elseCode ++
      [.label (l + 1)]) e
  | loop {t u l : Nat} {d : Counters} {code body : List IrInstr} {r : Var} :
    Operands t code [r] u → Emits ⟨u, l + 2⟩ body d →
    Emits ⟨t, l⟩ (.label l :: code ++ .jmpf r (l + 1) :: body ++ [.jmp l, .label (l + 1)]) d

theorem leafCode_operands {env : Env} {tab : SymbolTable} {line : Int} {value : LeafValue}
    (shape : isExpr tab (.leaf line value) = true) (fatherOp temps : Nat) :
    let e := leafCode env tab fatherOp value temps
    Operands temps e.code [e.result] e.temps := by
  cases value with
  | int v => exact .loadval _ _
  | bool v => exact .loadval _ _
  | id p =>
    obtain ⟨info, entry⟩ := SymbolTable.hasEntry_iff.mp (by simpa [isExpr] using shape)
    simp only [leafCode, entry]
    split
    · exact .load _ _
    · exact .user _ _

mutual
theorem exprCode_operands (env : Env) (tab : SymbolTable) :
    ∀ (node : AstNode), isExpr tab node = true → ∀ (fatherOp temps : Nat),
      let e := exprCode env tab fatherOp node temps
      Operands temps e.code [e.result] e.temps
  | .leaf line value, shape, fatherOp, temps => by
    rw [exprCode]
    exact leafCode_operands shape fatherOp temps
  | .common line .binary op left right, shape, fatherOp, temps => by
    simp only [isExpr, Bool.and_eq_true] at shape
    have l := exprCode_operands env tab left shape.1.2 op.code temps
    rw [exprCode]
    cases divisionShift env op right with
    | some count => exact .shiftRight count l
    | none =>
      have r := exprCode_operands env tab right shape.2 op.code
        (exprCode env tab op.code left temps).temps
      have both := Operands.cons l (Operands.cons r (Operands.nil _))
      rw [List.append_nil] at both
      exact .binary op.binaryInstr both
  | .common line .unary op left right, shape, fatherOp, temps => by
    simp only [isExpr, Bool.and_eq_true] at shape
    rw [exprCode]
    exact .unary op.unaryInstr (exprCode_operands env tab left shape.1.2 op.code temps)
  | .methodCall line name numArgs args, shape, fatherOp, temps => by
    simp only [isExpr, Bool.and_eq_true] at shape
    rw [exprCode]
    exact .call name (argsCode_operands env tab args shape.2 _ temps)
  | .null, shape, _, _ | .ifStmt .., shape, _, _ | .whileStmt .., shape, _, _
  | .methodDecl .., shape, _, _ | .block .., shape, _, _ => by simp [isExpr] at shape
theorem argsCode_operands (env : Env) (tab : SymbolTable) :
    ∀ (args : AstNodeList), areExprs tab args = true → ∀ (fatherOp temps : Nat),
      let a := argsCode env tab fatherOp args temps
      Operands temps a.code a.results a.temps
  | .nil, _, _, temps => .nil temps
  | .cons first next, shape, fatherOp, temps => by
    simp only [areExprs, Bool.and_eq_true] at shape
    rw [argsCode]
    exact .cons (exprCode_operands env tab first shape.1 fatherOp temps)
      (argsCode_operands env tab next shape.2 fatherOp _)
end

theorem targetOf_some {tab : SymbolTable} {left : AstNode} (shape : isIdLeaf tab left = true) :
    ∃ x, targetOf tab left = some x := by
  unfold isIdLeaf at shape
  split at shape
  · obtain ⟨info, entry⟩ := SymbolTable.hasEntry_iff.mp shape
    exact ⟨info.name, by rw [targetOf, entry]; rfl⟩
  · cases shape

theorem storeTo_emits {tab : SymbolTable} {left : AstNode} (shape : isIdLeaf tab left = true)
    {t u l : Nat} {code : List IrInstr} {r : Var} (operands : Operands t code [r] u) :
    Emits ⟨t, l⟩ (code ++ storeTo r (targetOf tab left)) ⟨u, l⟩ := by
  obtain ⟨x, target⟩ := targetOf_some shape
  rw [target]
  exact .store x operands

mutual
theorem stmtCode_emits (env : Env) (tab : SymbolTable) :
    ∀ (node : AstNode), isStmt tab node = true → ∀ (c : Counters),
      Emits c (stmtCode env tab node c).1 (stmtCode env tab node c).2
  | .common line arity op left right, shape, c => by
    cases op with
    | decl =>
      simp only [isStmt, Bool.and_eq_true] at shape
      simp only [stmtCode]
      by_cases null : right.isNull
      · rw [if_pos null]
        exact .nil c
      · rw [if_neg null]
        have expr : isExpr tab right = true := by simpa [null] using shape.2
        exact storeTo_emits shape.1 (exprCode_operands env tab right expr _ _)
    | assign =>
      simp only [isStmt, Bool.and_eq_true] at shape
      simp only [stmtCode]
      split
      · next value _ =>
        cases targetOf tab left with
        | none => exact .nil c
        | some x => exact .storeVal _ x c
      · exact storeTo_emits shape.1.2 (exprCode_operands env tab right shape.2 _ _)
    | ret =>
      simp only [isStmt, Bool.and_eq_true] at shape
      simp only [stmtCode]
      by_cases null : left.isNull
      · rw [if_pos null]
        exact .retNone c
      · rw [if_neg null]
        have expr : isExpr tab left = true := by simpa [null] using shape.1
        exact .ret (exprCode_operands env tab left expr _ _)
    | _ => simp [isStmt] at shape
  | .ifStmt line condition thenBlock elseBlock, shape, c => by
    rw [isStmt_ifStmt] at shape
    simp only [Bool.and_eq_true] at shape
    rw [stmtCode]
    exact .branch (exprCode_operands env tab condition shape.1.1 _ _)
      (branchCode_emits env tab thenBlock shape.1.2 _)
        (branchCode_emits env tab elseBlock shape.2 _)
  | .whileStmt line condition block, shape, c => by
    rw [isStmt_whileStmt] at shape
    simp only [Bool.and_eq_true] at shape
    rw [stmtCode]
    exact .loop (exprCode_operands env tab condition shape.1 _ _)
      (branchCode_emits env tab block shape.2 _)
  | .methodCall line name numArgs args, shape, c => by
    rw [stmtCode]
    exact .eval (exprCode_operands env tab (.methodCall line name numArgs args)
      (by simpa [isStmt, isExpr] using shape) _ _)
  | .block line stmts, shape, c => by
    rw [isStmt] at shape
    rw [stmtCode]
    exact blockCode_emits env tab stmts shape c
  | .null, shape, _ | .methodDecl .., shape, _ | .leaf .., shape, _ => by simp [isStmt] at shape
theorem branchCode_emits (env : Env) (tab : SymbolTable) :
    ∀ (node : AstNode), isBranch tab node = true → ∀ (c : Counters),
      Emits c (stmtCode env tab node c).1 (stmtCode env tab node c).2
  | .null, _, c => by
    simp only [stmtCode]
    exact .nil c
  | .block line stmts, shape, c => by
    simp only [isBranch, AstNode.isNull, AstNode.isBlock, isStmt, Bool.false_or,
      Bool.true_and] at shape
    rw [stmtCode]
    exact blockCode_emits env tab stmts shape c
  | .common .., shape, _ | .ifStmt .., shape, _ | .whileStmt .., shape, _
  | .methodDecl .., shape, _ | .methodCall .., shape, _ | .leaf .., shape, _ => by
    simp [isBranch, AstNode.isNull, AstNode.isBlock] at shape
theorem blockCode_emits (env : Env) (tab : SymbolTable) :
    ∀ (stmts : AstNodeList), areStmts tab stmts = true → ∀ (c : Counters),
      Emits c (blockCode env tab stmts c).1 (blockCode env tab stmts c).2
  | .nil, _, c => .nil c
  | .cons first next, shape, c => by
    simp only [areStmts, Bool.and_eq_true] at shape
    have one := stmtCode_emits env tab first shape.1 c
    rw [blockCode]
    by_cases stops : first.isReturn = true ∧ env.optimizations = true
    · rw [if_pos stops]
      exact one
    · rw [if_neg stops]
      exact .append one (blockCode_emits env tab next shape.2 _)
end

/-- The instructions that do not open or close a section. -/
def IrInstr.isInner : IrInstr → Bool
  | enter _ | leave _ | externDecl _ => false
  | _ => true

/-- The instructions of an expression. -/
def IrInstr.isOperand : IrInstr → Bool
  | load _ | loadval _ _ | binary _ _ _ _ | shiftRight _ _ _ | unary _ _ _ | param _ | call _ _ =>
      true
  | _ => false

theorem Operands.all {t u : Nat} {code : List IrInstr} {rs : List Var}
    (h : Operands t code rs u) : ∀ i ∈ code, i.isOperand = true := by
  induction h with
  | nil | user => simp
  | load | loadval => simp [IrInstr.isOperand]
  | cons _ _ first rest => simpa [or_imp, forall_and] using ⟨first, rest⟩
  | binary _ _ ih | shiftRight _ _ ih | unary _ _ ih =>
    simpa [or_imp, forall_and, IrInstr.isOperand] using ih
  | call _ _ ih =>
    intro i mem
    rw [List.append_assoc, List.mem_append, List.mem_append, List.mem_map,
      List.mem_singleton] at mem
    rcases mem with mem | ⟨arg, -, rfl⟩ | rfl
    · exact ih i mem
    · rfl
    · rfl

theorem Operands.inner {t u : Nat} {code : List IrInstr} {rs : List Var}
    (h : Operands t code rs u) : ∀ i ∈ code, i.isInner = true := by
  intro i mem
  have operand := h.all i mem
  cases i <;> first | rfl | cases operand

theorem Emits.inner {c d : Counters} {code : List IrInstr} (h : Emits c code d) :
    ∀ i ∈ code, i.isInner = true := by
  induction h with
  | nil => simp
  | append _ _ first rest => simpa [or_imp, forall_and] using ⟨first, rest⟩
  | eval operands => exact operands.inner
  | store _ operands | ret operands =>
    simpa [or_imp, forall_and, IrInstr.isInner] using operands.inner
  | storeVal | retNone => simp [IrInstr.isInner]
  | branch operands _ _ thenInner elseInner =>
    simpa [or_imp, forall_and, IrInstr.isInner] using ⟨operands.inner, thenInner, elseInner⟩
  | loop operands _ inner =>
    simpa [or_imp, forall_and, IrInstr.isInner] using ⟨operands.inner, inner⟩

theorem programCode_append (env : Env) (tab : SymbolTable) (before after : List AstNode)
    (c : Counters) :
    programCode env tab (before ++ after) c =
      let p := programCode env tab before c
      let q := programCode env tab after p.2
      (p.1 ++ q.1, q.2) := by
  induction before generalizing c with
  | nil => rfl
  | cons sentence rest ih => simp [programCode, ih]

/-- A method with a body among the sentences. -/
structure Section (tab : SymbolTable) (sentences : List AstNode) where
  before : List AstNode
  line : Int
  sym : IdPtr
  block : AstNode
  after : List AstNode
  info : SymbolInfo
  split : sentences = before ++ .methodDecl line sym block :: after
  entry : tab.entry sym = some info
  own : info.methodView.isExtern = false

namespace Section

variable {env : Env} {tab : SymbolTable} {sentences : List AstNode} (s : Section tab sentences)

/-- The position of its ENTER. -/
def start (env : Env) (c : Counters) : Nat := (programCode env tab s.before c).1.length

def body (env : Env) (c : Counters) : List IrInstr :=
  (stmtCode env tab s.block (programCode env tab s.before c).2).1

/-- The position of its LEAVE. -/
def stop (env : Env) (c : Counters) : Nat := s.start env c + 1 + (s.body env c).length

def cons (node : AstNode) : Section tab (node :: sentences) :=
  { s with before := node :: s.before, split := by rw [List.cons_append, ← s.split] }

theorem start_cons (node : AstNode) (c : Counters) :
    (s.cons node).start env c =
      (sentenceCode env tab node c).1.length + s.start env (sentenceCode env tab node c).2 := by
  simp [start, cons, programCode]

theorem stop_cons (node : AstNode) (c : Counters) :
    (s.cons node).stop env c =
      (sentenceCode env tab node c).1.length + s.stop env (sentenceCode env tab node c).2 := by
  have body : (s.cons node).body env c = s.body env (sentenceCode env tab node c).2 := rfl
  rw [stop, stop, start_cons, body]
  omega

theorem sentenceCode_method (line : Int) (block : AstNode) (c : Counters) {sym : IdPtr}
    {info : SymbolInfo} (entry : tab.entry sym = some info)
    (own : info.methodView.isExtern = false) :
    sentenceCode env tab (.methodDecl line sym block) c =
      (.enter info.name :: (stmtCode env tab block c).1 ++ [.leave info.name],
        (stmtCode env tab block c).2) := by
  simp [sentenceCode, entry, own]

theorem placed (env : Env) (c : Counters) :
    Placed (programCode env tab sentences c).1 (s.start env c)
      (.enter s.info.name :: s.body env c ++ [.leave s.info.name]) := by
  refine ⟨(programCode env tab s.before c).1, (programCode env tab s.after
    (sentenceCode env tab (.methodDecl s.line s.sym s.block)
      (programCode env tab s.before c).2).2).1, ?_, rfl⟩
  refine (congrArg (fun l => (programCode env tab l c).1) s.split).trans ?_
  simp only [programCode_append, programCode, sentenceCode_method _ _ _ s.entry s.own]
  rfl

theorem at_enter (env : Env) (c : Counters) :
    (programCode env tab sentences c).1[s.start env c]? = some (.enter s.info.name) :=
  (s.placed env c).left.head

theorem at_leave (env : Env) (c : Counters) :
    (programCode env tab sentences c).1[s.stop env c]? = some (.leave s.info.name) := by
  have last := (s.placed env c).last
  rw [List.length_cons] at last
  rw [stop, Nat.add_right_comm]
  exact last

theorem mem_body {c : Counters} {j : Nat} {i : IrInstr} (gt : s.start env c < j)
    (lt : j < s.stop env c) (here : (programCode env tab sentences c).1[j]? = some i) :
    i ∈ s.body env c := by
  have placed := (s.placed env c).left.tail
  have inside : j - (s.start env c + 1) < (s.body env c).length := by
    rw [stop] at lt
    omega
  have place : s.start env c + 1 + (j - (s.start env c + 1)) = j := by omega
  have same := placed.getElem? inside
  rw [place, here] at same
  exact List.mem_of_getElem? same.symm

theorem mem : .methodDecl s.line s.sym s.block ∈ sentences := by
  obtain ⟨before, line, sym, block, after, info, rfl, entry, own⟩ := s
  simp

theorem body_emits (shape : ∀ node ∈ sentences, isSentence tab node = true) (env : Env)
    (c : Counters) :
    Emits (programCode env tab s.before c).2 (s.body env c)
      (stmtCode env tab s.block (programCode env tab s.before c).2).2 := by
  have here := shape _ s.mem
  rw [isSentence, Bool.and_eq_true] at here
  exact branchCode_emits env tab s.block here.2 _

end Section

theorem sentence_of_instr {env : Env} {tab : SymbolTable} {sentences : List AstNode} {c : Counters}
    {i : Nat} {ir : IrInstr}
    (here : (programCode env tab sentences c).1[i]? = some ir) :
    ∃ before node after d, sentences = before ++ node :: after ∧
      i = (programCode env tab before c).1.length + d ∧
      (sentenceCode env tab node (programCode env tab before c).2).1[d]? = some ir := by
  induction sentences generalizing c i with
  | nil => cases here
  | cons node rest ih =>
    rw [programCode] at here
    by_cases inside : i < (sentenceCode env tab node c).1.length
    · rw [List.getElem?_append_left inside] at here
      exact ⟨[], node, rest, i, rfl, (Nat.zero_add i).symm, here⟩
    · rw [List.getElem?_append_right (Nat.le_of_not_lt inside)] at here
      obtain ⟨before, found, after, d, rfl, place, at'⟩ := ih here
      refine ⟨node :: before, found, after, d, rfl, ?_, at'⟩
      rw [programCode, List.length_append]
      omega

/-- Apart from what opens and closes them, the code is that of methods and of declarations
outside the methods. -/
theorem inner_place {env : Env} {tab : SymbolTable} {sentences : List AstNode}
    (shape : ∀ node ∈ sentences, isSentence tab node = true) {c : Counters} {i : Nat} {ir : IrInstr}
    (here : (programCode env tab sentences c).1[i]? = some ir) (inner : ir.isInner = true) :
    (∃ s : Section tab sentences, s.start env c < i ∧ i < s.stop env c) ∨
      ∃ before line arity left right after d,
        sentences = before ++ .common line arity .decl left right :: after ∧
        i = (programCode env tab before c).1.length + d ∧
        (stmtCode env tab (.common line arity .decl left right)
          (programCode env tab before c).2).1[d]? = some ir := by
  obtain ⟨before, node, after, d, split, place, at'⟩ := sentence_of_instr here
  have nodeShape := shape node (by simp [split])
  unfold isSentence at nodeShape
  split at nodeShape
  · next line arity left right =>
    exact .inr ⟨before, line, arity, left, right, after, d, split, place, at'⟩
  · next line sym block =>
    rw [Bool.and_eq_true] at nodeShape
    obtain ⟨info, entry⟩ := SymbolTable.hasEntry_iff.mp nodeShape.1
    by_cases isExtern : info.methodView.isExtern = true
    · simp only [sentenceCode, entry, isExtern, if_true] at at'
      obtain rfl := List.mem_singleton.mp (List.mem_of_getElem? at')
      cases inner
    · let s : Section tab sentences :=
        ⟨before, line, sym, block, after, info, split, entry, Bool.eq_false_iff.mpr isExtern⟩
      rw [Section.sentenceCode_method line block _ entry s.own] at at'
      have start : s.start env c = (programCode env tab before c).1.length := rfl
      have body : s.body env c = (stmtCode env tab block (programCode env tab before c).2).1 := rfl
      refine .inl ⟨s, ?_⟩
      cases d with
      | zero =>
        obtain rfl := Option.some.inj at'
        cases inner
      | succ d =>
        rw [List.cons_append, List.getElem?_cons_succ] at at'
        rcases Nat.lt_or_ge d (stmtCode env tab block (programCode env tab before c).2).1.length
          with inside | behind
        · rw [Section.stop, body]
          omega
        · rw [List.getElem?_append_right behind] at at'
          obtain rfl := List.mem_singleton.mp (List.mem_of_getElem? at')
          cases inner
  · cases nodeShape

theorem section_of_outer {env : Env} {tab : SymbolTable} {sentences : List AstNode}
    (shape : ∀ node ∈ sentences, isSentence tab node = true) {c : Counters} {e : Nat} {i : IrInstr}
    (here : (programCode env tab sentences c).1[e]? = some i) (outer : i.isInner = false)
    (own : ∀ f, i ≠ .externDecl f) :
    ∃ s : Section tab sentences, (s.start env c = e ∧ i = .enter s.info.name) ∨
      (s.stop env c = e ∧ i = .leave s.info.name) := by
  induction sentences generalizing c e with
  | nil => cases here
  | cons node rest ih =>
    rw [programCode] at here
    by_cases inside : e < (sentenceCode env tab node c).1.length
    · rw [List.getElem?_append_left inside] at here
      have nodeShape := shape node List.mem_cons_self
      unfold isSentence at nodeShape
      split at nodeShape
      · next line arity left right =>
        have inner := (stmtCode_emits env tab _ nodeShape c).inner _ (List.mem_of_getElem? here)
        rw [outer] at inner
        cases inner
      · next line sym block =>
        rw [Bool.and_eq_true] at nodeShape
        obtain ⟨info, entry⟩ := SymbolTable.hasEntry_iff.mp nodeShape.1
        by_cases isExtern : info.methodView.isExtern = true
        · rw [sentenceCode, entry] at here
          simp only [isExtern, if_true] at here
          exact absurd (List.mem_singleton.mp (List.mem_of_getElem? here)) (own _)
        · have emits := branchCode_emits env tab block nodeShape.2 c
          let s : Section tab (.methodDecl line sym block :: rest) :=
            ⟨[], line, sym, block, rest, info, rfl, entry, Bool.eq_false_iff.mpr isExtern⟩
          rw [Section.sentenceCode_method line block c entry s.own] at here inside
          refine ⟨s, ?_⟩
          have body : s.body env c = (stmtCode env tab block c).1 := rfl
          cases e with
          | zero =>
            simp only [List.cons_append, List.getElem?_cons_zero, Option.some.injEq] at here
            exact .inl ⟨rfl, here.symm⟩
          | succ e =>
            rw [List.cons_append, List.getElem?_cons_succ] at here
            by_cases last : e < (stmtCode env tab block c).1.length
            · rw [List.getElem?_append_left last] at here
              have inner := emits.inner _ (List.mem_of_getElem? here)
              rw [outer] at inner
              cases inner
            · have place : e = (stmtCode env tab block c).1.length := by
                simp only [List.length_append, List.length_cons, List.length_nil] at inside
                omega
              rw [place, List.getElem?_append_right (Nat.le_refl _), Nat.sub_self,
                List.getElem?_cons_zero, Option.some.injEq] at here
              refine .inr ⟨?_, here.symm⟩
              rw [Section.stop, body, ← place]
              exact Nat.add_comm 1 e |>.trans rfl
      · cases nodeShape
    · rw [List.getElem?_append_right (Nat.le_of_not_lt inside)] at here
      obtain ⟨s, found⟩ := ih (fun node mem => shape node (List.mem_cons_of_mem _ mem)) here
      have place : (sentenceCode env tab node c).1.length +
          (e - (sentenceCode env tab node c).1.length) = e := by omega
      refine ⟨s.cons node, ?_⟩
      rcases found with ⟨start, name⟩ | ⟨stop, name⟩
      · exact .inl ⟨by rw [s.start_cons, start, place], name⟩
      · exact .inr ⟨by rw [s.stop_cons, stop, place], name⟩

theorem section_of_enter {env : Env} {tab : SymbolTable} {sentences : List AstNode}
    (shape : ∀ node ∈ sentences, isSentence tab node = true) {c : Counters} {e : Nat} {f : Ident}
    (here : (programCode env tab sentences c).1[e]? = some (.enter f)) :
    ∃ s : Section tab sentences, s.start env c = e ∧ s.info.name = f := by
  obtain ⟨s, ⟨start, name⟩ | ⟨-, name⟩⟩ := section_of_outer shape here rfl (by simp)
  · exact ⟨s, start, (IrInstr.enter.inj name).symm⟩
  · cases name

theorem section_of_leave {env : Env} {tab : SymbolTable} {sentences : List AstNode}
    (shape : ∀ node ∈ sentences, isSentence tab node = true) {c : Counters} {l : Nat} {f : Ident}
    (here : (programCode env tab sentences c).1[l]? = some (.leave f)) :
    ∃ s : Section tab sentences, s.stop env c = l ∧ s.info.name = f := by
  obtain ⟨s, ⟨-, name⟩ | ⟨stop, name⟩⟩ := section_of_outer shape here rfl (by simp)
  · cases name
  · exact ⟨s, stop, (IrInstr.leave.inj name).symm⟩

end Ctds
