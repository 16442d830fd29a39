import Ctds.Accepted
import Ctds.CodeMeaning
import Ctds.ConstantFolding

/-! What the analyzer does to a tree, against the meaning of the tree. Where constants fit
in an int and no branch is lost to the address of a variable, a statement that has a meaning
has the same one after constants are folded and dead branches are gone. -/

namespace Ctds

open Fallible Signed SymbolTable Word

theorem leafMeaning_int (vars : Variables) (v : BitVec 32) :
    leafMeaning vars (.int v) = some (.int (BitVec.ofInt 64 v.toInt)) := rfl

theorem leafMeaning_truth (vars : Variables) (t : Bool) :
    leafMeaning vars (.bool (BitVec.ofInt 32 (truth t))) = some (.bool t) := by
  cases t
  · rfl
  · rfl

theorem int_toInt (v : BitVec 32) : (BitVec.ofInt 64 v.toInt).toInt = v.toInt :=
  toInt_of_fits (by decide) ((fits_toInt v).mono (by decide))

theorem leafMeaning_word {tab : SymbolTable} {vars : Variables} {line : Int} {x : LeafValue}
    (env : Env) (shape : isExpr tab (.leaf line x) = true) (literal : ∀ p, x ≠ .id p) {v : Value}
    (means : leafMeaning vars x = some v) : v.word = BitVec.ofInt 64 (x.intValue env).toInt := by
  cases x with
  | int w =>
    obtain rfl := Option.some.inj means
    rfl
  | bool w =>
    obtain rfl := Option.some.inj means
    have bit : w = 0 ∨ w = 1 := by simpa [isExpr] using shape
    rcases bit with rfl | rfl
    · rfl
    · rfl
  | id p => exact absurd rfl (literal p)

theorem binaryMeaning_type {op : Operator} {l r v : Value} (h : binaryMeaning op l r = some v) :
    v.type = .int ↔ resultType op = .int := by
  unfold binaryMeaning at h
  split at h
  case h_4 | h_5 =>
    obtain ⟨q, -, rfl⟩ := Option.map_eq_some_iff.mp h
    exact ⟨fun _ => rfl, fun _ => rfl⟩
  case h_15 => cases h
  all_goals
    obtain rfl := Option.some.inj h
    simp [Value.type, resultType]

theorem foldedLeaf_means {op : Operator} {v : Value} {k : Int} (vars : Variables)
    (type : v.type = .int ↔ resultType op = .int) (word : v.word = BitVec.ofInt 64 k)
    (fits : Fits 32 k) : leafMeaning vars (foldedLeaf op (BitVec.ofInt 32 k)) = some v := by
  cases v with
  | int w =>
    obtain rfl : w = BitVec.ofInt 64 k := word
    rw [foldedLeaf, if_pos (type.mp rfl), leafMeaning_int, toInt_of_fits (by decide) fits]
  | bool t =>
    have wide : BitVec.ofInt 64 (truth t) = BitVec.ofInt 64 k := (ofBool_truth t).symm.trans word
    have bit : Fits 64 (truth t) := by
      cases t
      · decide
      · decide
    obtain rfl := eq_of_ofInt_eq (by decide) bit (fits.mono (by decide)) wide
    rw [foldedLeaf, if_neg (fun int => nomatch type.mpr int), leafMeaning_truth]

theorem foldOperator_means {tab : SymbolTable} {vars : Variables} {op : Operator} {line line' : Int}
    {x y value : LeafValue} (binary : op.isBinary = true) (env : Env)
    (shapeLeft : isExpr tab (.leaf line x) = true) (shapeRight : isExpr tab (.leaf line' y) = true)
    (notLeft : ∀ p, x ≠ .id p) (notRight : ∀ p, y ≠ .id p)
    (folded : foldOperator op (x.intValue env) (y.intValue env) = some value)
    (fits : ∀ v, intOperator op (x.intValue env).toInt (y.intValue env).toInt = some v → Fits 32 v)
    {l r v : Value} (left : leafMeaning vars x = some l) (right : leafMeaning vars y = some r)
    (means : binaryMeaning op l r = some v) : leafMeaning vars value = some v := by
  have value' := binaryMeaning_word means
  have small : l.word.toInt ≠ -2 ^ 63 := by
    have low := (fits_toInt (x.intValue env)).1
    rw [leafMeaning_word env shapeLeft notLeft left, int_toInt]
    simp only [Nat.add_one_sub_one] at low
    omega
  rw [binaryValue_int binary _ _ small, leafMeaning_word env shapeLeft notLeft left,
    leafMeaning_word env shapeRight notRight right, int_toInt, int_toInt] at value'
  obtain ⟨k, result, word⟩ := Option.map_eq_some_iff.mp value'
  rw [foldOperator_int binary, result] at folded
  split at folded
  · cases folded
  · obtain rfl := Option.some.inj folded
    exact foldedLeaf_means vars (binaryMeaning_type means) word.symm (fits k result)

theorem literal_leaf {node : AstNode} {value : LeafValue} (h : node.literal? = some value) :
    ∃ line, node = .leaf line value ∧ ∀ p, value ≠ .id p := by
  unfold AstNode.literal? at h
  split at h
  · cases h
  · next line value' notId =>
    obtain rfl := Option.some.inj h
    exact ⟨line, rfl, fun p eq => notId p (eq ▸ rfl)⟩
  · cases h

theorem foldNode_cases (env : Env) (line : Int) (op : Operator) (left right : AstNode) :
    foldNode env line op left right = .common line .binary op left right ∨
      ∃ l x l' y value, env.optimizations = true ∧ left = .leaf l x ∧ right = .leaf l' y ∧
        (∀ p, x ≠ .id p) ∧ (∀ p, y ≠ .id p) ∧
        foldOperator op (x.intValue env) (y.intValue env) = some value ∧
        foldNode env line op left right = .leaf line value := by
  unfold foldNode
  cases operands : literalOperands env left right with
  | none => exact .inl rfl
  | some pair =>
    obtain ⟨a, b⟩ := pair
    cases folded : foldOperator op a b with
    | none => exact .inl (by simp [folded])
    | some value =>
      refine .inr ?_
      unfold literalOperands at operands
      split at operands
      · next on =>
        split at operands
        · next x y literalLeft literalRight =>
          obtain ⟨rfl, rfl⟩ := Prod.mk.inj (Option.some.inj operands)
          obtain ⟨l, rfl, notLeft⟩ := literal_leaf literalLeft
          obtain ⟨l', rfl, notRight⟩ := literal_leaf literalRight
          exact ⟨l, x, l', y, value, on, rfl, rfl, notLeft, notRight, folded, by simp [folded]⟩
        · cases operands
      · cases operands

theorem foldTree_int {env : Env} {tab : SymbolTable} :
    ∀ (node : AstNode), isExpr tab node = true → ConstantsFit node → ∀ (l : Int) (x : LeafValue),
      foldTree env node = .leaf l x → (∀ p, x ≠ .id p) →
        constantValue id node = some (x.intValue env).toInt
  | .leaf line value, _, _, l, x, folded, literal => by
    obtain ⟨-, rfl⟩ : line = l ∧ value = x := by simpa [foldTree] using folded
    cases value with
    | int v | bool v => rfl
    | id p => exact absurd rfl (literal p)
  | .common line .binary op left right, shape, fits, l, x, folded, _ => by
    have shapes := shape
    simp only [isExpr, Bool.and_eq_true] at shapes
    rw [foldTree] at folded
    rcases foldNode_cases env line op (foldTree env left) (foldTree env right) with kept |
      ⟨_, y, _, z, value, -, leftLeaf, rightLeaf, notLeft, notRight, computed, eq⟩
    · rw [kept] at folded
      cases folded
    · obtain ⟨-, rfl⟩ := AstNode.leaf.inj (eq.symm.trans folded)
      have first := foldTree_int left shapes.1.2 fits.operands.1 _ y leftLeaf notLeft
      have second := foldTree_int right shapes.2 fits.operands.2 _ z rightLeaf notRight
      rw [foldOperator_int shapes.1.1] at computed
      split at computed
      · cases computed
      · obtain ⟨k, result, rfl⟩ := Option.map_eq_some_iff.mp computed
        have whole : constantValue id (.common line .binary op left right) = some k := by
          simp [constantValue, first, second, result]
        rw [whole, foldedLeaf_intValue,
          toInt_of_fits (by decide) (fits _ (self_mem_subnodes (by simp)) k whole)]
  | .common line .unary op left right, _, _, l, x, folded, _ => by simp [foldTree] at folded
  | .methodCall line name numArgs args, _, _, l, x, folded, _ => by simp [foldTree] at folded
  | .null, shape, _, _, _, _, _ | .ifStmt .., shape, _, _, _, _, _
  | .whileStmt .., shape, _, _, _, _, _ | .methodDecl .., shape, _, _, _, _, _
  | .block .., shape, _, _, _, _, _ => by simp [isExpr] at shape

section Rewriting

variable {W : Type} {env : Env} {tab : SymbolTable} {call call' : Callee W}

/-- The second callee answers all that the first one answers. -/
def AnswersMore (call call' : Callee W) : Prop :=
  ∀ name args w r, call name args w = some r → call' name args w = some r

theorem callMethod_more (more : AnswersMore call call') {line : Int} {name : Ident} {numArgs : Nat}
    {vs : List Value} {w : W} {r : Option Value × W}
    (called : callMethod tab call line name numArgs vs w = some r) :
    callMethod tab call' line name numArgs vs w = some r := by
  unfold callMethod at called ⊢
  split at called
  · cases called
  · simp only [Option.bind_eq_bind, Option.bind_eq_some_iff] at called ⊢
    obtain ⟨⟨answer, w'⟩, ran, rest⟩ := called
    exact ⟨_, more _ _ _ _ ran, rest⟩

theorem exprMeaning_binary {line : Int} {op : Operator} {left right : AstNode} {vars : Variables}
    {w w' : W} {v : Value}
    (means : exprMeaning tab call vars (.common line .binary op left right) w = some (v, w')) :
    ∃ l w₁ r, exprMeaning tab call vars left w = some (l, w₁) ∧
      exprMeaning tab call vars right w₁ = some (r, w') ∧ binaryMeaning op l r = some v := by
  simp only [exprMeaning, Option.bind_eq_bind, Option.bind_eq_some_iff, Option.pure_def,
    Option.some.injEq, Prod.mk.injEq] at means
  obtain ⟨⟨l, w₁⟩, first, ⟨r, w₂⟩, second, u, value, rfl, rfl⟩ := means
  exact ⟨l, w₁, r, first, second, value⟩

mutual
/-- An expression that has a meaning keeps it when its constants are folded. -/
theorem foldTree_means (more : AnswersMore call call') {vars : Variables} :
    ∀ (node : AstNode) (w w' : W) (v : Value), isExpr tab node = true →
      (env.optimizations = true → ConstantsFit node) →
      exprMeaning tab call vars node w = some (v, w') →
        exprMeaning tab call' vars (foldTree env node) w = some (v, w')
  | .leaf line value, w, w', v, _, _, means => by rwa [foldTree] <;> simp
  | .common line .binary op left right, w, w', v, shape, fits, means => by
    have shapes := shape
    simp only [isExpr, Bool.and_eq_true] at shapes
    obtain ⟨l, w₁, r, first, second, value⟩ := exprMeaning_binary means
    have left' := foldTree_means more left w w₁ l shapes.1.2 (fun on => (fits on).operands.1) first
    have right' := foldTree_means more right w₁ w' r shapes.2
      (fun on => (fits on).operands.2) second
    rw [foldTree]
    rcases foldNode_cases env line op (foldTree env left) (foldTree env right) with kept |
      ⟨_, x, _, y, leaf, on, leftLeaf, rightLeaf, notLeft, notRight, computed, eq⟩
    · simp [kept, exprMeaning, left', right', value]
    · have fits := fits on
      have a := foldTree_int left shapes.1.2 fits.operands.1 _ x leftLeaf notLeft
      have b := foldTree_int right shapes.2 fits.operands.2 _ y rightLeaf notRight
      have shapeLeft := foldTree_isExpr env tab left shapes.1.2
      have shapeRight := foldTree_isExpr env tab right shapes.2
      rw [leftLeaf] at left' shapeLeft
      rw [rightLeaf] at right' shapeRight
      simp only [exprMeaning, Option.map_eq_some_iff, Prod.mk.injEq] at left' right'
      obtain ⟨_, l', rfl, rfl⟩ := left'
      obtain ⟨_, r', rfl, rfl⟩ := right'
      have here := foldOperator_means shapes.1.1 env shapeLeft shapeRight notLeft notRight computed
        (fun k result => fits _ (self_mem_subnodes (by simp)) k (by
          simp [constantValue, a, b, result])) l' r' value
      rw [eq, exprMeaning, here]
      rfl
  | .common line .unary op left right, w, w', v, shape, fits, means => by
    simp only [isExpr, Bool.and_eq_true] at shape
    simp only [exprMeaning, Option.bind_eq_bind, Option.bind_eq_some_iff, Option.pure_def,
      Option.some.injEq, Prod.mk.injEq] at means
    obtain ⟨⟨l, w₁⟩, first, u, value, rfl, rfl⟩ := means
    have left' := foldTree_means more left w w₁ l shape.1.2 (fun on => (fits on).operands.1) first
    simp [foldTree, exprMeaning, left', value]
  | .methodCall line name numArgs args, w, w', v, shape, fits, means => by
    simp only [isExpr, Bool.and_eq_true] at shape
    simp only [exprMeaning, Option.bind_eq_bind, Option.bind_eq_some_iff, Option.pure_def,
      Option.some.injEq, Prod.mk.injEq] at means
    obtain ⟨⟨vs, w₁⟩, first, ⟨answer, w₂⟩, called, u, value, rfl, rfl⟩ := means
    have args' := foldTrees_mean more args w w₁ vs shape.2
      (fun on sub mem => fits on sub (by simp [subnodes, mem])) first
    obtain rfl : answer = some u := value
    simp [foldTree, exprMeaning, args', callMethod_more more called]
  | .null, _, _, _, shape, _, _ | .ifStmt .., _, _, _, shape, _, _
  | .whileStmt .., _, _, _, shape, _, _ | .methodDecl .., _, _, _, shape, _, _
  | .block .., _, _, _, shape, _, _ => by simp [isExpr] at shape
theorem foldTrees_mean (more : AnswersMore call call') {vars : Variables} :
    ∀ (args : AstNodeList) (w w' : W) (vs : List Value), areExprs tab args = true →
      (env.optimizations = true →
        ∀ sub ∈ subnodesList args, ∀ v, constantValue id sub = some v → Fits 32 v) →
      argsMeaning tab call vars args w = some (vs, w') →
        argsMeaning tab call' vars (foldTrees env args) w = some (vs, w')
  | .nil, w, w', vs, _, _, means => means
  | .cons first next, w, w', vs, shape, fits, means => by
    simp only [areExprs, Bool.and_eq_true] at shape
    simp only [argsMeaning, Option.bind_eq_bind, Option.bind_eq_some_iff, Option.pure_def,
      Option.some.injEq, Prod.mk.injEq] at means
    obtain ⟨⟨v, w₁⟩, one, ⟨us, w₂⟩, others, rfl, rfl⟩ := means
    have first' := foldTree_means more first w w₁ v shape.1
      (fun on sub mem => fits on sub (by simp [subnodesList, mem])) one
    have next' := foldTrees_mean more next w₁ w₂ us shape.2
      (fun on sub mem => fits on sub (by simp [subnodesList, mem])) others
    simp [foldTrees, argsMeaning, first', next']
end

/-- The second meaning says all that the first one says. -/
def Entails (m m' : Meaning W) : Prop := ∀ s r, m s = some r → m' s = some r

theorem ConstantsFit.mono {node inner : AstNode} (h : ConstantsFit node)
    (sub : ∀ n ∈ subnodes inner, n ∈ subnodes node) : ConstantsFit inner :=
  fun n mem => h n (sub n mem)

theorem valueOf_folded (more : AnswersMore call call') {node : AstNode}
    (shape : isExpr tab node = true)
    (fits : env.optimizations = true → ConstantsFit node) {s : ProgState W}
    {r : Value × ProgState W} (means : valueOf tab call node s = some r) :
    valueOf tab call' (foldTree env node) s = some r := by
  simp only [valueOf, Option.map_eq_some_iff] at means ⊢
  obtain ⟨⟨v, w⟩, value, rfl⟩ := means
  exact ⟨(v, w), foldTree_means more node s.world w v shape fits value, rfl⟩

theorem loopMeaning_mono {condition condition' : ProgState W → Option (Value × ProgState W)}
    {body body' : Meaning W} (tests : ∀ s r, condition s = some r → condition' s = some r)
    (steps : Entails body body') (fuel : Nat) :
    Entails (loopMeaning condition body fuel) (loopMeaning condition' body' fuel) := by
  induction fuel with
  | zero =>
    intro s r means
    simp only [loopMeaning, Option.bind_eq_bind, Option.bind_eq_some_iff] at means ⊢
    obtain ⟨⟨v, s₁⟩, tested, rest⟩ := means
    exact ⟨_, tests _ _ tested, rest⟩
  | succ fuel ih =>
    intro s r means
    simp only [loopMeaning, Option.bind_eq_bind, Option.bind_eq_some_iff] at means ⊢
    obtain ⟨⟨v, s₁⟩, tested, rest⟩ := means
    refine ⟨_, tests _ _ tested, ?_⟩
    cases v with
    | int w => cases rest
    | bool t =>
      cases t with
      | false => exact rest
      | true =>
        simp only [Option.bind_eq_some_iff] at rest ⊢
        obtain ⟨⟨s₂, ending⟩, ran, more⟩ := rest
        refine ⟨_, steps _ _ ran, ?_⟩
        cases ending with
        | normal => exact ih _ _ more
        | returned value => exact more

theorem loopMeaning_tests {condition : ProgState W → Option (Value × ProgState W)}
    {body : Meaning W} {fuel : Nat} {s : ProgState W} {r : ProgState W × Ending}
    (means : loopMeaning condition body fuel s = some r) :
    ∃ t s₁, condition s = some (.bool t, s₁) := by
  have tested : ∃ v s₁, condition s = some (v, s₁) ∧ ∀ w, v ≠ .int w := by
    cases fuel <;> simp only [loopMeaning, Option.bind_eq_bind, Option.bind_eq_some_iff] at means
    all_goals
      obtain ⟨⟨v, s₁⟩, value, rest⟩ := means
      refine ⟨v, s₁, value, ?_⟩
      rintro w rfl
      cases rest
  obtain ⟨v, s₁, value, notInt⟩ := tested
  cases v with
  | int w => exact absurd rfl (notInt w)
  | bool t => exact ⟨t, s₁, value⟩

theorem loopMeaning_false {condition : ProgState W → Option (Value × ProgState W)}
    {body : Meaning W} {fuel : Nat} {s : ProgState W} {r : ProgState W × Ending}
    (never : condition s = some (.bool false, s))
    (means : loopMeaning condition body fuel s = some r) : r = (s, .normal) := by
  cases fuel <;> simp [loopMeaning, never] at means <;> exact means.symm

theorem stmtMeaning_blockStmts {fuel : Nat} {node : AstNode} (branch : isBranch tab node = true)
    (line : Int) (s : ProgState W) :
    stmtMeaning tab call fuel (.block line (blockStmts node)) s =
      stmtMeaning tab call fuel node s := by
  rcases isBranch_iff.mp branch with rfl | ⟨l, stmts, rfl, -⟩
  · simp [blockStmts, stmtMeaning, stmtsMeaning]
  · simp [blockStmts, stmtMeaning]

theorem valueOf_leaf {line : Int} {value : LeafValue} {s s₁ : ProgState W} {t : Bool}
    (means : valueOf tab call (.leaf line value) s = some (.bool t, s₁))
    (literal : ∀ p, value ≠ .id p) : ∃ v, value = .bool v ∧ t = (v == 1) ∧ s₁ = s := by
  cases value with
  | int v => simp [valueOf, exprMeaning, leafMeaning] at means
  | bool v =>
    simp only [valueOf, exprMeaning, leafMeaning, Option.map_some, Option.some.injEq,
      Prod.mk.injEq, Value.bool.injEq] at means
    exact ⟨v, rfl, means.1.symm, means.2.symm⟩
  | id p => exact absurd rfl (literal p)

theorem ifCase_decides {line : Int} {condition thenBlock elseBlock : AstNode}
    (keeps : losesBranch env (.ifStmt line condition thenBlock elseBlock) = false)
    {s s₁ : ProgState W} {t : Bool}
    (means : valueOf tab call (foldTree env condition) s = some (.bool t, s₁)) :
    ifCase env (foldTree env condition) elseBlock = .both ∨
      (ifCase env (foldTree env condition) elseBlock = .thenOnly ∧ t = true ∧ s₁ = s) ∨
      (ifCase env (foldTree env condition) elseBlock = .elseOnly ∧ t = false ∧ s₁ = s) := by
  cases folded : foldTree env condition with
  | leaf l value =>
    rw [folded] at means
    rcases literal_or_id value with ⟨p, rfl⟩ | literal
    · obtain rfl := foldTree_leaf_id.mp folded
      refine .inl ?_
      have notOne : (LeafValue.id p).intValue env ≠ 1 := low_address_ne_one env p
      cases opt : env.optimizations <;> cases null : elseBlock.isNull <;>
        simp_all [ifCase, losesBranch]
    · obtain ⟨v, rfl, rfl, rfl⟩ := valueOf_leaf means literal
      cases opt : env.optimizations with
      | false => exact .inl (by simp [ifCase, opt])
      | true =>
        by_cases one : v = 1#32
        · exact .inr (.inl ⟨by simp [ifCase, opt, LeafValue.intValue, one], by simp [one], rfl⟩)
        · cases null : elseBlock.isNull with
          | true => exact .inl (by simp [ifCase, opt, null, LeafValue.intValue, one])
          | false =>
            exact .inr (.inr ⟨by simp [ifCase, opt, null, LeafValue.intValue, one],
              by simp [one], rfl⟩)
  | _ => exact .inl rfl

theorem dropsLoop_decides {line : Int} {condition block : AstNode}
    (keeps : losesBranch env (.whileStmt line condition block) = false)
    (drops : dropsLoop env (foldTree env condition) = true) {s s₁ : ProgState W} {t : Bool}
    (means : valueOf tab call (foldTree env condition) s = some (.bool t, s₁)) :
    t = false ∧ s₁ = s := by
  cases folded : foldTree env condition with
  | leaf l value =>
    rw [folded] at drops means
    simp only [dropsLoop, Bool.and_eq_true, decide_eq_true_eq] at drops
    rcases literal_or_id value with ⟨p, rfl⟩ | literal
    · obtain rfl := foldTree_leaf_id.mp folded
      simp only [losesBranch, drops.1, Bool.true_and, decide_eq_false_iff_not] at keeps
      exact absurd drops.2 keeps
    · obtain ⟨v, rfl, rfl, rfl⟩ := valueOf_leaf means literal
      obtain rfl : v = 0 := drops.2
      exact ⟨rfl, rfl⟩
  | _ => simp [folded, dropsLoop] at drops

/-- What a rewritten statement means, given what the original means. -/
abbrev RewriteKeeps (env : Env) (tab : SymbolTable) (call call' : Callee W) (fuel : Nat)
    (node : AstNode) : Prop :=
  Entails (stmtMeaning tab call fuel node) (stmtMeaning tab call' fuel (rewrite env node))

theorem stmtMeaning_ifStmt {fuel : Nat} {line : Int} {condition thenBlock elseBlock : AstNode}
    {s : ProgState W} {r : ProgState W × Ending} :
    stmtMeaning tab call fuel (.ifStmt line condition thenBlock elseBlock) s = some r ↔
      ∃ t s₁, valueOf tab call condition s = some (.bool t, s₁) ∧
        stmtMeaning tab call fuel (if t then thenBlock else elseBlock) s₁ = some r := by
  simp only [stmtMeaning, Option.bind_eq_bind, Option.bind_eq_some_iff]
  constructor
  · rintro ⟨⟨v, s₁⟩, value, rest⟩
    cases v with
    | int w => cases rest
    | bool t => exact ⟨t, s₁, value, by cases t <;> exact rest⟩
  · rintro ⟨t, s₁, value, rest⟩
    exact ⟨_, value, by cases t <;> exact rest⟩

theorem keeps_ifStmt (more : AnswersMore call call') {fuel : Nat} {line : Int}
    {condition thenBlock elseBlock : AstNode}
    (shape : isStmt tab (.ifStmt line condition thenBlock elseBlock) = true)
    (fits : env.optimizations = true → ConstantsFit condition)
    (keeps : losesBranch env (.ifStmt line condition thenBlock elseBlock) = false)
    (thenKeeps : ifCase env (foldTree env condition) elseBlock ≠ .elseOnly →
      RewriteKeeps env tab call call' fuel thenBlock)
    (elseKeeps : ifCase env (foldTree env condition) elseBlock ≠ .thenOnly →
      RewriteKeeps env tab call call' fuel elseBlock) :
    RewriteKeeps env tab call call' fuel (.ifStmt line condition thenBlock elseBlock) := by
  intro s r means
  rw [isStmt_ifStmt] at shape
  simp only [Bool.and_eq_true] at shape
  obtain ⟨t, s₁, value, ran⟩ := stmtMeaning_ifStmt.mp means
  have folded := valueOf_folded more shape.1.1 fits value
  rcases ifCase_decides keeps folded with both | ⟨only, rfl, rfl⟩ | ⟨only, rfl, rfl⟩
  · rw [rewrite, both]
    refine stmtMeaning_ifStmt.mpr ⟨t, s₁, folded, ?_⟩
    cases t with
    | false => exact elseKeeps (by simp [both]) _ _ ran
    | true => exact thenKeeps (by simp [both]) _ _ ran
  · rw [rewrite, only]
    dsimp only
    rw [stmtMeaning_blockStmts (rewrite_isBranch env tab thenBlock shape.1.2)]
    exact thenKeeps (by simp [only]) _ _ ran
  · rw [rewrite, only]
    dsimp only
    rw [stmtMeaning_blockStmts (rewrite_isBranch env tab elseBlock shape.2)]
    exact elseKeeps (by simp [only]) _ _ ran

theorem keeps_whileStmt (more : AnswersMore call call') {fuel : Nat} {line : Int}
    {condition block : AstNode}
    (shape : isExpr tab condition = true) (fits : env.optimizations = true → ConstantsFit condition)
    (keeps : losesBranch env (.whileStmt line condition block) = false)
    (blockKeeps : RewriteKeeps env tab call call' fuel block) :
    RewriteKeeps env tab call call' fuel (.whileStmt line condition block) := by
  intro s r means
  rw [stmtMeaning] at means
  have tests : ∀ s r, valueOf tab call condition s = some r →
      valueOf tab call' (foldTree env condition) s = some r :=
    fun s r => valueOf_folded more shape fits
  rw [rewrite]
  split
  · next drops =>
    obtain ⟨t, s₁, value⟩ := loopMeaning_tests means
    obtain ⟨rfl, rfl⟩ := dropsLoop_decides keeps drops (tests _ _ value)
    simp [stmtMeaning, stmtsMeaning, loopMeaning_false value means]
  · rw [stmtMeaning]
    exact loopMeaning_mono tests blockKeeps fuel s r means

theorem isExpr_isNull {node : AstNode} (shape : isExpr tab node = true) : node.isNull = false :=
  Bool.eq_false_iff.mpr fun null => isExpr_ne_null shape (isNull_iff.mp null)

theorem keeps_common (more : AnswersMore call call') {fuel : Nat} {line : Int}
    {arity : OperatorArity} {op : Operator}
    {left right : AstNode} (shape : isStmt tab (.common line arity op left right) = true)
    (fits : env.optimizations = true → ConstantsFit (.common line arity op left right)) :
    RewriteKeeps env tab call call' fuel (.common line arity op left right) := by
  intro s r means
  have fitsLeft := fun on => (fits on).operands.1
  have fitsRight := fun on => (fits on).operands.2
  cases op with
  | decl =>
    simp only [isStmt, Bool.and_eq_true, Bool.or_eq_true] at shape
    rw [rewrite]
    simp only [stmtMeaning, foldTree_isIdLeaf shape.1] at means ⊢
    rcases shape.2 with null | isExpr
    · obtain rfl := isNull_iff.mp null
      rwa [foldTree_null]
    · rw [isExpr_isNull isExpr] at means
      rw [isExpr_isNull (foldTree_isExpr env tab right isExpr)]
      simp only [Bool.false_eq_true, if_false, Option.bind_eq_bind,
        Option.bind_eq_some_iff] at means ⊢
      obtain ⟨⟨v, s₁⟩, value, set⟩ := means
      exact ⟨_, valueOf_folded more isExpr fitsRight value, set⟩
  | assign =>
    simp only [isStmt, Bool.and_eq_true] at shape
    rw [rewrite]
    simp only [stmtMeaning, foldTree_isIdLeaf shape.1.2, Option.bind_eq_bind,
      Option.bind_eq_some_iff] at means ⊢
    obtain ⟨⟨v, s₁⟩, value, set⟩ := means
    exact ⟨_, valueOf_folded more shape.2 fitsRight value, set⟩
  | ret =>
    simp only [isStmt, Bool.and_eq_true, Bool.or_eq_true] at shape
    rw [rewrite]
    simp only [stmtMeaning] at means ⊢
    rcases shape.1 with null | isExpr
    · obtain rfl := isNull_iff.mp null
      rwa [foldTree_null]
    · rw [isExpr_isNull isExpr] at means
      rw [isExpr_isNull (foldTree_isExpr env tab left isExpr)]
      simp only [Bool.false_eq_true, if_false, Option.bind_eq_bind,
        Option.bind_eq_some_iff] at means ⊢
      obtain ⟨⟨v, s₁⟩, value, set⟩ := means
      exact ⟨_, valueOf_folded more isExpr fitsLeft value, set⟩
  | _ => simp [isStmt] at shape

mutual
/-- A statement that has a meaning keeps it when it is rewritten. -/
theorem rewrite_keeps (more : AnswersMore call call') (fuel : Nat) :
    ∀ (node : AstNode), isStmtOrNull tab node = true →
      (env.optimizations = true → ConstantsFit node) →
      (∀ n ∈ evaluatedNodes env node, losesBranch env n = false) →
      RewriteKeeps env tab call call' fuel node
  | .null, _, _, _ | .methodDecl .., _, _, _ | .leaf .., _, _, _ =>
    fun s r means => by simpa only [rewrite, stmtMeaning] using means
  | .common line arity op left right, shape, fits, _ =>
    keeps_common more (by simpa [isStmtOrNull, AstNode.isNull] using shape) fits
  | .ifStmt line condition thenBlock elseBlock, shape, fits, keeps => by
    have whole : isStmt tab (.ifStmt line condition thenBlock elseBlock) = true := by
      simpa [isStmtOrNull, AstNode.isNull] using shape
    have shapes := whole
    rw [isStmt_ifStmt] at shapes
    simp only [Bool.and_eq_true] at shapes
    simp only [evaluatedNodes, List.mem_cons, forall_eq_or_imp] at keeps
    have thenFits : env.optimizations = true → ConstantsFit thenBlock := fun on =>
      (fits on).mono fun n mem => by simp [subnodes, mem]
    have elseFits : env.optimizations = true → ConstantsFit elseBlock := fun on =>
      (fits on).mono fun n mem => by simp [subnodes, mem]
    refine keeps_ifStmt more whole (fun on => (fits on).mono fun n mem => by simp [subnodes, mem])
      keeps.1 (fun notElse => ?_) fun notThen => ?_
    · refine rewrite_keeps more fuel thenBlock
        (isStmtOrNull_of_branch shapes.1.2) thenFits fun n mem =>
        keeps.2 n ?_
      cases only : ifCase env (foldTree env condition) elseBlock with
      | both => simp [mem]
      | thenOnly => exact mem
      | elseOnly => exact absurd only notElse
    · refine rewrite_keeps more fuel elseBlock
        (isStmtOrNull_of_branch shapes.2) elseFits fun n mem =>
        keeps.2 n ?_
      cases only : ifCase env (foldTree env condition) elseBlock with
      | both => simp [mem]
      | thenOnly => exact absurd only notThen
      | elseOnly => exact mem
  | .whileStmt line condition block, shape, fits, keeps => by
    simp only [isStmtOrNull, AstNode.isNull, Bool.false_or, isStmt_whileStmt,
      Bool.and_eq_true] at shape
    simp only [evaluatedNodes, List.mem_cons, forall_eq_or_imp] at keeps
    exact keeps_whileStmt more shape.1
      (fun on => (fits on).mono fun n mem => by simp [subnodes, mem])
      keeps.1 (rewrite_keeps more fuel block (isStmtOrNull_of_branch shape.2)
        (fun on => (fits on).mono fun n mem => by simp [subnodes, mem]) keeps.2)
  | .methodCall line name numArgs args, shape, fits, _ => by
    intro s r means
    simp only [isStmtOrNull, AstNode.isNull, Bool.false_or, isStmt, Bool.and_eq_true] at shape
    rw [rewrite]
    simp only [stmtMeaning, Option.bind_eq_bind, Option.bind_eq_some_iff] at means ⊢
    obtain ⟨⟨vs, w⟩, values, called⟩ := means
    obtain ⟨⟨answer, w'⟩, ran, rest⟩ := called
    exact ⟨_, foldTrees_mean more args s.world w vs shape.2
      (fun on sub mem => fits on sub (by simp [subnodes, mem])) values,
      _, callMethod_more more ran, rest⟩
  | .block line stmts, shape, fits, keeps => by
    simp only [isStmtOrNull, AstNode.isNull, Bool.false_or, isStmt] at shape
    simp only [evaluatedNodes] at keeps
    have inner := rewriteStmts_keep more fuel stmts shape
      (fun on sub mem => fits on sub (by simp [subnodes, mem])) keeps
    intro s r means
    simp only [rewrite, stmtMeaning] at means ⊢
    exact inner s r means
theorem rewriteStmts_keep (more : AnswersMore call call') (fuel : Nat) :
    ∀ (stmts : AstNodeList), areStmts tab stmts = true →
      (env.optimizations = true →
        ∀ sub ∈ subnodesList stmts, ∀ v, constantValue id sub = some v → Fits 32 v) →
      (∀ n ∈ evaluatedNodesList env stmts, losesBranch env n = false) →
      Entails (stmtsMeaning tab call fuel stmts)
      (stmtsMeaning tab call' fuel (rewriteStmts env stmts))
  | .nil, _, _, _ => fun s r means => means
  | .cons first next, shape, fits, keeps => by
    simp only [areStmts, Bool.and_eq_true] at shape
    simp only [evaluatedNodesList, List.mem_append] at keeps
    have one := rewrite_keeps more fuel first (by simp [isStmtOrNull, shape.1])
      (fun on sub mem => fits on sub (by simp [subnodesList, mem])) fun n mem => keeps n (.inl mem)
    have others := rewriteStmts_keep more fuel next shape.2
      (fun on sub mem => fits on sub (by simp [subnodesList, mem])) fun n mem => keeps n (.inr mem)
    intro s r means
    simp only [rewriteStmts, stmtsMeaning, Option.bind_eq_bind, Option.bind_eq_some_iff] at means ⊢
    obtain ⟨⟨s₁, ending⟩, ran, rest⟩ := means
    refine ⟨_, one _ _ ran, ?_⟩
    cases ending with
    | normal => exact others _ _ rest
    | returned value => exact rest
end

/-- A leaf of a variable is an old one; an operator is an old one, with its divisor folded. -/
def Remains (env : Env) (nodes : List AstNode) : AstNode → Prop
  | .leaf line (.id p) => .leaf line (.id p) ∈ nodes
  | .common line arity op _ right => ∃ left' right', .common line arity op left' right' ∈ nodes ∧
    (right = right' ∨ right = foldTree env right')
  | _ => True

theorem Remains.mono {nodes more : List AstNode} {n : AstNode} (h : Remains env nodes n)
    (sub : ∀ m ∈ nodes, m ∈ more) : Remains env more n := by
  unfold Remains at h ⊢
  split at h
  · exact sub _ h
  · obtain ⟨left', right', mem, same⟩ := h
    exact ⟨left', right', sub _ mem, same⟩
  · trivial

theorem remains_self {nodes : List AstNode} {n : AstNode} (mem : n ∈ nodes) :
    Remains env nodes n := by
  unfold Remains
  split
  · exact mem
  · next line arity op left right => exact ⟨left, right, mem, .inl rfl⟩
  · trivial

mutual
theorem foldTree_remains (env : Env) : ∀ (node : AstNode), ∀ n ∈ subnodes (foldTree env node),
    Remains env (subnodes node) n
  | .leaf line value => fun n mem => by
    rw [foldTree, subnodes, List.mem_singleton] at mem
    · subst mem
      cases value <;> simp [Remains, subnodes]
    all_goals simp
  | .common line .binary op left right => fun n mem => by
    have inLeft : n ∈ subnodes (foldTree env left) →
        Remains env (subnodes (.common line .binary op left right)) n := fun mem =>
      (foldTree_remains env left n mem).mono fun m mem => by simp [subnodes, mem]
    have inRight : n ∈ subnodes (foldTree env right) →
        Remains env (subnodes (.common line .binary op left right)) n := fun mem =>
      (foldTree_remains env right n mem).mono fun m mem => by simp [subnodes, mem]
    rw [foldTree] at mem
    rcases foldNode_cases env line op (foldTree env left) (foldTree env right) with kept |
      ⟨_, _, _, _, value, -, -, -, -, -, computed, eq⟩
    · rw [kept, subnodes, List.mem_cons, List.mem_append] at mem
      rcases mem with rfl | mem | mem
      · exact ⟨left, right, by simp [subnodes], .inr rfl⟩
      · exact inLeft mem
      · exact inRight mem
    · rw [eq, subnodes, List.mem_singleton] at mem
      subst mem
      rcases foldOperator_value computed with ⟨-, v, rfl⟩ | ⟨-, v, rfl, -⟩ <;> trivial
  | .common line .unary op left right => fun n mem => by
    simp only [foldTree, subnodes, List.mem_cons, List.mem_append] at mem
    rcases mem with rfl | mem | mem
    · exact ⟨left, right, by simp [subnodes], .inl rfl⟩
    · exact (foldTree_remains env left n mem).mono fun m mem => by simp [subnodes, mem]
    · exact remains_self (by simp [subnodes, mem])
  | .methodCall line name numArgs args => fun n mem => by
    simp only [foldTree, subnodes, List.mem_cons] at mem
    rcases mem with rfl | mem
    · trivial
    · exact (foldTrees_remain env args n mem).mono fun m mem => by simp [subnodes, mem]
  | .null | .ifStmt .. | .whileStmt .. | .methodDecl .. | .block .. => fun n mem =>
    remains_self (by simpa only [foldTree] using mem)
theorem foldTrees_remain (env : Env) : ∀ (args : AstNodeList),
    ∀ n ∈ subnodesList (foldTrees env args), Remains env (subnodesList args) n
  | .nil => fun _ mem => by cases mem
  | .cons first next => fun n mem => by
    simp only [foldTrees, subnodesList, List.mem_append] at mem
    rcases mem with mem | mem
    · exact (foldTree_remains env first n mem).mono fun m mem => by simp [subnodesList, mem]
    · exact (foldTrees_remain env next n mem).mono fun m mem => by simp [subnodesList, mem]
end

theorem blockStmts_subnodes (node : AstNode) :
    ∀ n ∈ subnodesList (blockStmts node), n ∈ subnodes node := by
  intro n mem
  cases node with
  | block line stmts =>
    rw [subnodes]
    exact List.mem_cons_of_mem _ mem
  | _ => cases mem

mutual
theorem rewrite_remains (env : Env) : ∀ (node : AstNode), ∀ n ∈ subnodes (rewrite env node),
    Remains env (subnodes node) n
  | .common line arity op left right => fun n mem => by
    have folded : n ∈ subnodes (.common line arity op (foldTree env left) (foldTree env right)) →
        Remains env (subnodes (.common line arity op left right)) n := fun mem => by
      simp only [subnodes, List.mem_cons, List.mem_append] at mem
      rcases mem with rfl | mem | mem
      · exact ⟨left, right, by simp [subnodes], .inr rfl⟩
      · exact (foldTree_remains env left n mem).mono fun m mem => by simp [subnodes, mem]
      · exact (foldTree_remains env right n mem).mono fun m mem => by simp [subnodes, mem]
    cases op with
    | decl | assign | ret => exact folded (by simpa only [rewrite] using mem)
    | _ => exact remains_self (by simpa only [rewrite] using mem)
  | .ifStmt line condition thenBlock elseBlock => fun n mem => by
    have inThen : n ∈ subnodes (rewrite env thenBlock) →
        Remains env (subnodes (.ifStmt line condition thenBlock elseBlock)) n := fun mem =>
      (rewrite_remains env thenBlock n mem).mono fun m mem => by simp [subnodes, mem]
    have inElse : n ∈ subnodes (rewrite env elseBlock) →
        Remains env (subnodes (.ifStmt line condition thenBlock elseBlock)) n := fun mem =>
      (rewrite_remains env elseBlock n mem).mono fun m mem => by simp [subnodes, mem]
    simp only [rewrite] at mem
    split at mem
    · simp only [subnodes, List.mem_cons, List.mem_append] at mem
      rcases mem with rfl | (mem | mem) | mem
      · trivial
      · exact (foldTree_remains env condition n mem).mono fun m mem => by simp [subnodes, mem]
      · exact inThen mem
      · exact inElse mem
    · rcases List.mem_cons.mp mem with rfl | mem
      · trivial
      · exact inThen (blockStmts_subnodes _ n mem)
    · rcases List.mem_cons.mp mem with rfl | mem
      · trivial
      · exact inElse (blockStmts_subnodes _ n mem)
  | .whileStmt line condition block => fun n mem => by
    simp only [rewrite] at mem
    split at mem
    · obtain rfl : n = .block line .nil := by simpa [subnodes, subnodesList] using mem
      trivial
    · simp only [subnodes, List.mem_cons, List.mem_append] at mem
      rcases mem with rfl | mem | mem
      · trivial
      · exact (foldTree_remains env condition n mem).mono fun m mem => by simp [subnodes, mem]
      · exact (rewrite_remains env block n mem).mono fun m mem => by simp [subnodes, mem]
  | .methodCall line name numArgs args => fun n mem => by
    simp only [rewrite, subnodes, List.mem_cons] at mem
    rcases mem with rfl | mem
    · trivial
    · exact (foldTrees_remain env args n mem).mono fun m mem => by simp [subnodes, mem]
  | .block line stmts => fun n mem => by
    simp only [rewrite, subnodes, List.mem_cons] at mem
    rcases mem with rfl | mem
    · trivial
    · exact (rewriteStmts_remain env stmts n mem).mono fun m mem => by simp [subnodes, mem]
  | .null | .methodDecl .. | .leaf .. => fun n mem =>
    remains_self (by simpa only [rewrite] using mem)
theorem rewriteStmts_remain (env : Env) : ∀ (stmts : AstNodeList),
    ∀ n ∈ subnodesList (rewriteStmts env stmts), Remains env (subnodesList stmts) n
  | .nil => fun _ mem => by cases mem
  | .cons first next => fun n mem => by
    simp only [rewriteStmts, subnodesList, List.mem_append] at mem
    rcases mem with mem | mem
    · exact (rewrite_remains env first n mem).mono fun m mem => by simp [subnodesList, mem]
    · exact (rewriteStmts_remain env next n mem).mono fun m mem => by simp [subnodesList, mem]
end

theorem LiteralShifts.rewritten {block : AstNode} (h : LiteralShifts env (subnodes block)) :
    LiteralShifts env (subnodes (rewrite env block)) := by
  intro line arity op left right mem shifted line' p eq
  obtain ⟨left', right', old, same⟩ := rewrite_remains env block _ mem
  have before : right' = .leaf line' (.id p) := by
    rcases same with rfl | rfl
    · exact eq
    · exact foldTree_leaf_id.mp eq
  subst before
  rw [eq] at shifted
  exact h _ _ _ _ _ old shifted line' p rfl

mutual
theorem mem_leafIds {p : IdPtr} : ∀ (node : AstNode),
    p ∈ leafIds node ↔ ∃ line, .leaf line (.id p) ∈ subnodes node
  | .null => by simp [leafIds, subnodes]
  | .common line arity op left right => by
    simp [leafIds, subnodes, mem_leafIds left, mem_leafIds right, exists_or]
  | .ifStmt line condition thenBlock elseBlock => by
    simp [leafIds, subnodes, mem_leafIds condition, mem_leafIds thenBlock,
      mem_leafIds elseBlock, exists_or]
  | .whileStmt line condition block => by
    simp [leafIds, subnodes, mem_leafIds condition, mem_leafIds block, exists_or]
  | .methodDecl line sym block => by simp [leafIds, subnodes, mem_leafIds block]
  | .methodCall line name numArgs args => by
    simp [leafIds, subnodes, mem_leafIdsList args]
  | .block line stmts => by simp [leafIds, subnodes, mem_leafIdsList stmts]
  | .leaf line value => by cases value <;> simp [leafIds, subnodes, eq_comm]
theorem mem_leafIdsList {p : IdPtr} : ∀ (stmts : AstNodeList),
    p ∈ leafIdsList stmts ↔ ∃ line, .leaf line (.id p) ∈ subnodesList stmts
  | .nil => by simp [leafIdsList, subnodesList]
  | .cons first next => by
    simp [leafIdsList, subnodesList, mem_leafIds first, mem_leafIdsList next,
      exists_or]
end

theorem NamesApart.rewritten {block : AstNode} (h : NamesApart tab (leafIds block)) :
    NamesApart tab (leafIds (rewrite env block)) := by
  have old : ∀ p ∈ leafIds (rewrite env block), p ∈ leafIds block := fun p mem => by
    obtain ⟨line, leaf⟩ := (mem_leafIds _).mp mem
    exact (mem_leafIds _).mpr ⟨line, rewrite_remains env block _ leaf⟩
  exact fun p mem q mem' => h p (old p mem) q (old q mem')

/-- Where the analyzer keeps what a body means: under `-opt` the constants of the body fit in
an int, and no if or while loses a branch to the address of a variable. -/
structure KeptBody (env : Env) (block : AstNode) : Prop where
  constants : env.optimizations = true → ConstantsFit block
  branches : ∀ n ∈ evaluatedNodes env block, losesBranch env n = false

theorem bodyNamed_rewritten {name : CString} {headAst : List AstNode}
    (shape : ∀ node ∈ headAst, isSentence tab node = true) :
    bodyNamed tab name (headAst.map (rewriteSentence env tab)) =
      (bodyNamed tab name headAst).map fun (info, block) => (info, rewrite env block) := by
  induction headAst with
  | nil => rfl
  | cons node rest ih =>
    have here := shape node List.mem_cons_self
    have others := ih fun other mem => shape other (List.mem_cons_of_mem _ mem)
    unfold isSentence at here
    split at here
    · simp only [List.map_cons, rewriteSentence, rewrite, bodyNamed, others]
    · next line sym block =>
      rw [Bool.and_eq_true] at here
      obtain ⟨info, entry⟩ := hasEntry_iff.mp here.1
      simp only [List.map_cons, rewriteSentence, entry, bodyNamed, others, rewriteBody]
      split
      · next own => simp [own.1]
      · rfl
    · cases here

theorem bodyNamed_mem {name : CString} {headAst : List AstNode} {info : SymbolInfo}
    {block : AstNode} (found : bodyNamed tab name headAst = some (info, block)) :
    ∃ line sym, .methodDecl line sym block ∈ headAst ∧ tab.entry sym = some info ∧
      info.methodView.isExtern = false := by
  induction headAst with
  | nil => cases found
  | cons node rest ih =>
    have later : bodyNamed tab name rest = some (info, block) →
        ∃ line sym, .methodDecl line sym block ∈ node :: rest ∧ tab.entry sym = some info ∧
          info.methodView.isExtern = false := fun found =>
      let ⟨line, sym, mem, own⟩ := ih found
      ⟨line, sym, List.mem_cons_of_mem _ mem, own⟩
    unfold bodyNamed at found
    split at found
    · cases found
    · next line sym block' rest' same =>
      obtain ⟨rfl, rfl⟩ := List.cons.inj same
      split at found
      · exact later found
      · next info' entry =>
        split at found
        · next own =>
          obtain ⟨rfl, rfl⟩ := Prod.mk.inj (Option.some.inj found)
          exact ⟨line, sym, List.mem_cons_self, entry, own.1⟩
        · exact later found
    · next other rest' notMethod same =>
      obtain ⟨rfl, rfl⟩ := List.cons.inj same
      exact later found

/-- What a call means, it still means after the analyzer has been over all bodies. -/
theorem callMeaning_rewritten {headAst : List AstNode} (library : Callee W) (fuel depth : Nat)
    (shape : ∀ node ∈ headAst, isSentence tab node = true)
    (kept : ∀ line sym block, .methodDecl line sym block ∈ headAst → KeptBody env block) :
    AnswersMore (callMeaning tab headAst library fuel depth)
      (callMeaning tab (headAst.map (rewriteSentence env tab)) library fuel depth) := by
  induction depth with
  | zero =>
    intro name args w r means
    cases means
  | succ depth ih =>
    intro name args w r means
    rw [callMeaning] at means ⊢
    rw [bodyNamed_rewritten shape]
    cases found : bodyNamed tab name headAst with
    | none =>
      rw [found] at means
      exact means
    | some method =>
      obtain ⟨info, block⟩ := method
      rw [found] at means
      simp only [Option.map_some, Option.bind_eq_bind, Option.bind_eq_some_iff] at means ⊢
      obtain ⟨vars, bound, ⟨s, ending⟩, ran, rest⟩ := means
      obtain ⟨line, sym, mem, -, -⟩ := bodyNamed_mem found
      have here := shape _ mem
      rw [isSentence, Bool.and_eq_true] at here
      obtain ⟨constants, branches⟩ := kept line sym block mem
      exact ⟨vars, bound, _, rewrite_keeps ih fuel block (isStmtOrNull_of_branch here.2)
        constants branches _ _ ran, rest⟩

end Rewriting

theorem analyzed_sentences {env : Env} {prog : ProgramSyn} {ps : ParserState}
    {sentences : List AstNode} (parsed : parse prog = .ok ps)
    (analyzed : semanticAnalyzer env ps.tab ps.headAst = .ok sentences) :
    sentences = ps.headAst.map (rewriteSentence env ps.tab) ∧
      ∀ node ∈ ps.headAst, isSentence ps.tab node = true := by
  have ok := parse_sentencesOk parsed
  simp only [semanticAnalyzer, bind_eq_ok] at analyzed
  obtain ⟨⟨out, ret, st⟩, all, last⟩ := analyzed
  have trees := evalSentences_trees ok.wf.methods (fun node mem => ok.topLevel mem) idle_init all
  refine ⟨?_, fun node mem => ok.shape node mem⟩
  dsimp only at last
  split at last
  · exact (Except.ok.inj last).symm.trans trees
  · cases last

/-- The analyzer changes the trees and no meaning: a call that has one in the parser's trees
has the same one in the trees that go to code generation. A call that uses a global variable
has none. -/
theorem analyzer_keeps_meaning {W : Type} {env : Env} {prog : ProgramSyn} {ps : ParserState}
    {sentences : List AstNode} (parsed : parse prog = .ok ps)
    (analyzed : semanticAnalyzer env ps.tab ps.headAst = .ok sentences)
    (kept : ∀ line sym block, .methodDecl line sym block ∈ ps.headAst → KeptBody env block)
    {library : Callee W} {fuel depth : Nat} {name : CString} {args : List Value} {w : W}
    {r : Option Value × W}
    (means : callMeaning ps.tab ps.headAst library fuel depth name args w = some r) :
    callMeaning ps.tab sentences library fuel depth name args w = some r := by
  obtain ⟨rfl, shape⟩ := analyzed_sentences parsed analyzed
  exact callMeaning_rewritten library fuel depth shape kept name args w r means

instance (env : Env) (block : AstNode) : Decidable (KeptBody env block) :=
  decidable_of_iff ((env.optimizations = true → ConstantsFit block) ∧
      ∀ n ∈ evaluatedNodes env block, losesBranch env n = false)
    ⟨fun ⟨constants, branches⟩ => ⟨constants, branches⟩, fun h => ⟨h.constants, h.branches⟩⟩

def keptSentence (env : Env) : AstNode → Bool
  | .methodDecl _ _ block => decide (KeptBody env block)
  | _ => true

/-- The factorial prints 3 with its constants folded, too. -/
theorem factorial_analyzed :
    ∃ ps sentences, parse factorial = .ok ps ∧
      semanticAnalyzer (.sample true) ps.tab ps.headAst = .ok sentences ∧
      callMeaning ps.tab sentences printer 0 5 "main".toList [] [] = some (none, [3]) := by
  obtain ⟨ps, parsed⟩ := isOk_iff.mp (by decide +kernel : (parse factorial).isOk = true)
  have facts : (parse factorial).toOption.map (fun ps =>
        ((semanticAnalyzer (.sample true) ps.tab ps.headAst).isOk,
          ps.headAst.all (keptSentence (.sample true)),
          callMeaning ps.tab ps.headAst printer 0 5 "main".toList [] [])) =
      some (true, true, some (none, [3])) := by decide +kernel
  rw [parsed] at facts
  simp only [Except.toOption, Option.map_some, Option.some.injEq, Prod.mk.injEq] at facts
  obtain ⟨ok, kept, means⟩ := facts
  obtain ⟨sentences, analyzed⟩ := isOk_iff.mp ok
  exact ⟨ps, sentences, parsed, analyzed, analyzer_keeps_meaning parsed analyzed
    (fun line sym block mem => of_decide_eq_true (List.all_eq_true.mp kept _ mem)) means⟩

end Ctds
