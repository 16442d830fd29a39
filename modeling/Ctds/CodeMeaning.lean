import Ctds.Division
import Ctds.Lib.Signed
import Ctds.Simulation
import Ctds.Traces
import Ctds.Typing

/-! The emitted code against the meaning of the trees it comes from, with and without the
shortcuts of `-opt`: a literal is stored without a temporary, a block ends at its first
return, a division by a power of two is a shift. Where every divisor that is shifted by is a
literal, the code goes where the meaning goes under every oracle that fits the trace. -/

namespace Ctds

open Signed Transition Word

/-- No division by a variable becomes a shift. -/
def LiteralShifts (env : Env) (nodes : List AstNode) : Prop :=
  ∀ line arity op left right, .common line arity op left right ∈ nodes →
    (divisionShift env op right).isSome → ∀ line' p, right ≠ .leaf line' (.id p)

theorem LiteralShifts.mono {env : Env} {nodes inner : List AstNode} (h : LiteralShifts env nodes)
    (sub : ∀ node ∈ inner, node ∈ nodes) : LiteralShifts env inner :=
  fun line arity op left right mem => h line arity op left right (sub _ mem)

theorem shift_quotient {env : Env} {op : Operator} {line : Int} {v : BitVec 32} {count : Fin 33}
    (chosen : divisionShift env op (.leaf line (.int v)) = some count) {x : Word} :
    op = .division ∧ quotient x (v.signExtend 64) = some (shiftedQuotient x count) := by
  rw [divisionShift, Option.ite_none_right_eq_some, Option.map_eq_some_iff] at chosen
  obtain ⟨division, k, counted, rfl⟩ := chosen
  refine ⟨division, ?_⟩
  have on : env.optimizations = true := by
    by_contra off
    simp [shiftCount, off] at counted
  have power : v.toInt = 2 ^ k := (shiftCount_eq_some_iff on).mp counted
  have small : (Fin.ofNat 33 k).val = k := Nat.mod_eq_of_lt (shiftCount_lt counted)
  have value : (v.signExtend 64).toInt = 2 ^ k :=
    (BitVec.toInt_signExtend_of_le (by decide)).trans power
  have pos : (0 : Int) < 2 ^ k := Int.pow_pos (by decide)
  have zero : v.signExtend 64 ≠ 0 := by
    rw [ne_eq, eq_zero_iff, value]
    omega
  have minusOne : v.signExtend 64 ≠ -1 := by
    rw [ne_eq, eq_neg_one_iff _ (by decide), value]
    omega
  rw [quotient, if_neg fun fails => fails.elim zero fun h => minusOne h.2, sdiv_eq, value,
    shiftedQuotient, small]

theorem shifted_literal {W : Type} {env : Env} {tab : SymbolTable} {call : Callee W}
    {vars : Variables} {op : Operator} {right : AstNode} {count : Fin 33} {w w' : W}
    {l r v : Value} (chosen : divisionShift env op right = some count)
    (notId : ∀ line p, right ≠ .leaf line (.id p))
    (means : exprMeaning tab call vars right w = some (r, w'))
    (value : binaryMeaning op l r = some v) : ∃ line k, right = .leaf line (.int k) := by
  rw [divisionShift, Option.ite_none_right_eq_some, Option.map_eq_some_iff] at chosen
  obtain ⟨rfl, k, counted, -⟩ := chosen
  cases right with
  | leaf line x =>
    cases x with
    | int k => exact ⟨line, k, rfl⟩
    | bool k =>
      obtain ⟨u, leaf, eq⟩ := Option.map_eq_some_iff.mp means
      obtain ⟨rfl, -⟩ := Prod.mk.inj eq
      obtain rfl := Option.some.inj leaf
      cases l <;> cases value
    | id p => exact absurd rfl (notId line p)
  | _ => cases counted

theorem Matches.congr {tab : SymbolTable} {ids : List IdPtr} {vars : Variables}
    {store store' : Store} (h : Matches tab ids vars store) (same : Agrees store' store) :
    Matches tab ids vars store' := fun p mem info v entry value => by
  obtain ⟨typed, word⟩ := h p mem info v entry value
  exact ⟨typed, (same info.name).trans word⟩

theorem binaryMeaning_result {op : Operator} {l r v : Value} (h : binaryMeaning op l r = some v) :
    binaryResult op.binaryInstr.type l.word r.word = some v.word := by
  have value := binaryMeaning_word h
  cases op with
  | and | or =>
    cases l <;> cases r <;> simp only [binaryMeaning, Option.some.injEq, reduceCtorEq] at h
    subst h
    rename_i x y
    cases x <;> cases y <;> rfl
  | minus | neg | decl | assign | ret => cases l <;> cases r <;> cases h
  | _ => exact value

theorem unaryMeaning_result {op : Operator} (unary : op.isUnary = true) {l v : Value}
    (h : unaryMeaning op l = some v) : unaryResult op.unaryInstr.type l.word = some v.word := by
  rw [unaryResult_value unary, unaryMeaning_word h]

section Code

variable {W : Type} {env : Env} {tab : SymbolTable} {call : Callee W} {ids : List IdPtr}
  {prog : List IrInstr} {vars : Variables}

variable (prog tab call ids vars) in
/-- Under a fitting oracle the code from `p` to `q` leaves the words `vs` in the variables `rs`. -/
def Delivers (p q t : Nat) (rs : List Var) (vs : List Word) (w w' : W) : Prop :=
  Leads call w w' fun o e e' => ∀ store, Matches tab ids vars store →
    Computes prog o p q t rs vs store e e'

theorem leafCode_means {line : Int} {value : LeafValue}
    (shape : isExpr tab (.leaf line value) = true)
    (inside : ∀ p ∈ leafIds (.leaf line value), p ∈ ids) {v : Value}
    (means : leafMeaning vars value = some v) (w : W) (fatherOp temps p : Nat)
    (placed : Placed prog p (leafCode env tab fatherOp value temps).code) :
    let e := leafCode env tab fatherOp value temps
    Delivers tab call ids prog vars p (p + e.code.length) temps [e.result] [v.word] w w := by
  have literal : ∀ u : BitVec 32, Placed prog p [.loadval u temps] → v.word = u.signExtend 64 →
      Delivers tab call ids prog vars p (p + 1) temps [.temp temps] [v.word] w w := by
    rintro u here same
    refine (Leads.refl w).mono fun o e e' eq store _ => ?_
    rw [eq, same]
    exact (Computes.nil p temps store e).snoc (Nat.le_refl _) here.head rfl (fun _ => rfl)
      fun _ _ => rfl
  cases value with
  | int u =>
    obtain rfl := Option.some.inj means
    exact literal u placed rfl
  | bool u =>
    obtain rfl := Option.some.inj means
    have bit : u = 0 ∨ u = 1 := by simpa [isExpr] using shape
    refine literal u placed ?_
    rcases bit with rfl | rfl <;> rfl
  | id x =>
    obtain ⟨info, entry⟩ := SymbolTable.hasEntry_iff.mp (by simpa [isExpr] using shape)
    refine (Leads.refl w).mono fun o e e' eq store h => ?_
    obtain ⟨-, word⟩ := h x (inside x (by simp [leafIds])) info v entry
      (Option.join_eq_some_iff.mp means)
    simp only [leafCode, entry] at placed ⊢
    rw [eq]
    split at placed
    · next loads =>
      rw [if_pos loads]
      have next := irStep_next o placed.head rfl
        (show (IrInstr.load info.name).effect id store = some (store, .next) from rfl) [] e
      exact ⟨store, .single (by simpa [IrInstr.assigned] using next), .refl _ _,
        congrArg (· :: []) word⟩
    · next quiet =>
      rw [if_neg quiet]
      exact ⟨store, .refl _, .refl _ _, congrArg (· :: []) word⟩

mutual
/-- The code of an expression leaves the word of its meaning. -/
theorem exprCode_means : ∀ (node : AstNode), isExpr tab node = true →
    LiteralShifts env (subnodes node) →
    (∀ p ∈ leafIds node, p ∈ ids) → ∀ (w w' : W) (v : Value),
      exprMeaning tab call vars node w = some (v, w') → ∀ (fatherOp temps p : Nat),
        Placed prog p (exprCode env tab fatherOp node temps).code →
        let e := exprCode env tab fatherOp node temps
        Delivers tab call ids prog vars p (p + e.code.length) temps [e.result] [v.word] w w'
  | .leaf line value, shape, exact, inside, w, w', v, means, fatherOp, temps, p, placed => by
    rw [exprMeaning] at means
    obtain ⟨u, leaf, eq⟩ := Option.map_eq_some_iff.mp means
    obtain ⟨rfl, rfl⟩ := Prod.mk.inj eq
    rw [exprCode] at placed ⊢
    exact leafCode_means shape inside leaf w fatherOp temps p placed
  | .common line .binary op left right, shape, exact, inside, w, w', v, means, fatherOp, temps, p,
    placed => by
    simp only [isExpr, Bool.and_eq_true] at shape
    obtain ⟨⟨-, leftShape⟩, rightShape⟩ := shape
    simp only [leafIds, List.mem_append] at inside
    simp only [exprMeaning, Option.bind_eq_bind, Option.bind_eq_some_iff, Option.pure_def,
      Option.some.injEq, Prod.mk.injEq] at means
    obtain ⟨⟨l, w₁⟩, leftMeans, ⟨r, w₂⟩, rightMeans, u, value, rfl, rfl⟩ := means
    have operands := exprCode_operands env tab left leftShape op.code temps
    have leftExact : LiteralShifts env (subnodes left) := exact.mono fun n mem => by
      simp [subnodes, mem]
    rw [exprCode] at placed ⊢
    cases chosen : divisionShift env op right with
    | some count =>
      -- the divisor is a literal, and is not evaluated
      have notId := exact line .binary op left right (by simp [subnodes]) (by rw [chosen]; rfl)
      obtain ⟨line', k, rfl⟩ := shifted_literal chosen notId rightMeans value
      simp only [exprMeaning, leafMeaning, Option.map_some, Option.some.injEq,
        Prod.mk.injEq] at rightMeans
      obtain ⟨rfl, rfl⟩ := rightMeans
      simp only [chosen] at placed ⊢
      have first := exprCode_means left leftShape leftExact (fun p mem => inside p (.inl mem)) w w₁
        l leftMeans op.code temps p placed.left
      refine first.mono fun o e e' computes store h => ?_
      have done := (computes store h).snoc (v := u.word) operands.temps_le placed.last rfl
        (fun _ => rfl) fun store' values => by
          simp only [List.map_cons, List.map_nil, List.cons.injEq, and_true] at values
          have result := binaryMeaning_result value
          obtain ⟨rfl, rounds⟩ := shift_quotient chosen (x := l.word)
          simp only [IrInstr.effect, values, id, Option.some.injEq, Prod.mk.injEq, and_true]
          have same := rounds.symm.trans result
          rw [Option.some.inj same]
      simpa [Nat.add_assoc] using done
    | none =>
      simp only [chosen] at placed ⊢
      have operands' := exprCode_operands env tab right rightShape op.code
        (exprCode env tab op.code left temps).temps
      have first := exprCode_means left leftShape leftExact (fun p mem => inside p (.inl mem)) w w₁
        l leftMeans op.code temps p placed.left.left
      have second := exprCode_means right rightShape (exact.mono fun n mem => by
        simp [subnodes, mem]) (fun p mem => inside p (.inr mem)) w₁ w₂ r rightMeans op.code _ _
          placed.left.right
      refine (first.append second).mono fun o e e' ⟨mid, one, two⟩ store h => ?_
      have both := (one store h).cons (fun _ => rfl) operands.temps_le
        (operands.results_below _ List.mem_cons_self) fun store' agrees =>
          two store' (h.congr agrees)
      have here := placed.last
      rw [List.length_append, ← Nat.add_assoc] at here
      have done := both.snoc (v := u.word) (operands.temps_le.trans operands'.temps_le) here rfl
        (fun _ => rfl) fun store' values => by
          simp only [List.map_cons, List.map_nil, List.cons.injEq, and_true] at values
          simp only [IrInstr.effect, values.1, values.2, id, binaryMeaning_result value]
          rfl
      simpa [Nat.add_assoc] using done
  | .common line .unary op left right, shape, exact, inside, w, w', v, means, fatherOp, temps, p,
    placed => by
    simp only [isExpr, Bool.and_eq_true] at shape
    simp only [leafIds, List.mem_append] at inside
    simp only [exprMeaning, Option.bind_eq_bind, Option.bind_eq_some_iff, Option.pure_def,
      Option.some.injEq, Prod.mk.injEq] at means
    obtain ⟨⟨l, w₁⟩, leftMeans, u, value, rfl, rfl⟩ := means
    have operands := exprCode_operands env tab left shape.1.2 op.code temps
    rw [exprCode] at placed ⊢
    have first := exprCode_means left shape.1.2 (exact.mono fun n mem => by simp [subnodes, mem])
      (fun p mem => inside p (.inl mem)) w w₁ l leftMeans op.code temps p placed.left
    refine first.mono fun o e e' computes store h => ?_
    have done := (computes store h).snoc (v := u.word) operands.temps_le placed.last rfl
      (fun _ => rfl) fun store' values => by
        simp only [List.map_cons, List.map_nil, List.cons.injEq, and_true] at values
        simp only [IrInstr.effect, values, id, unaryMeaning_result shape.1.1 value]
        rfl
    simpa [Nat.add_assoc] using done
  | .methodCall line name numArgs args, shape, exact, inside, w, w', v, means, fatherOp, temps, p,
    placed => by
    simp only [isExpr, Bool.and_eq_true, decide_eq_true_eq] at shape
    simp only [leafIds] at inside
    simp only [exprMeaning, Option.bind_eq_bind, Option.bind_eq_some_iff, Option.pure_def,
      Option.some.injEq, Prod.mk.injEq] at means
    obtain ⟨⟨vs, w₁⟩, argsMean, ⟨answer, w₂⟩, called, u, rfl, rfl, rfl⟩ := means
    have operands := argsCode_operands env tab args shape.2
      (env.opView (.methodCall line name numArgs args)) temps
    rw [exprCode] at placed ⊢
    have first := argsCode_means args shape.2 (exact.mono fun n mem => by simp [subnodes, mem])
      inside w w₁ vs argsMean _ temps p placed.left.left
    simp only [List.append_assoc] at placed
    refine (first.append (Leads.ofCall called)).mono fun o e e' ⟨mid, one, eq, value⟩ store h => ?_
    have done := (one store h).call operands.temps_le placed.right
    rw [value u rfl, ← eq] at done
    simpa [Nat.add_assoc] using done
  | .null, shape, _, _, _, _, _, _, _, _, _, _ | .ifStmt .., shape, _, _, _, _, _, _, _, _, _, _
  | .whileStmt .., shape, _, _, _, _, _, _, _, _, _, _
  | .methodDecl .., shape, _, _, _, _, _, _, _, _, _, _
  | .block .., shape, _, _, _, _, _, _, _, _, _, _ => by simp [isExpr] at shape
theorem argsCode_means : ∀ (args : AstNodeList), areExprs tab args = true →
    LiteralShifts env (subnodesList args) → (∀ p ∈ leafIdsList args, p ∈ ids) →
      ∀ (w w' : W) (vs : List Value),
      argsMeaning tab call vars args w = some (vs, w') → ∀ (fatherOp temps p : Nat),
        Placed prog p (argsCode env tab fatherOp args temps).code →
        let a := argsCode env tab fatherOp args temps
        Delivers tab call ids prog vars p (p + a.code.length) temps a.results (vs.map Value.word)
          w w'
  | .nil, _, _, _, w, w', vs, means, fatherOp, temps, p, _ => by
    simp only [argsMeaning, Option.some.injEq, Prod.mk.injEq] at means
    obtain ⟨rfl, rfl⟩ := means
    refine (Leads.refl w).mono fun o e e' eq store _ => ?_
    rw [eq]
    exact .nil p temps store e
  | .cons first next, shape, exact, inside, w, w', vs, means, fatherOp, temps, p, placed => by
    simp only [areExprs, Bool.and_eq_true] at shape
    simp only [leafIdsList, List.mem_append] at inside
    simp only [argsMeaning, Option.bind_eq_bind, Option.bind_eq_some_iff, Option.pure_def,
      Option.some.injEq, Prod.mk.injEq] at means
    obtain ⟨⟨v, w₁⟩, firstMeans, ⟨rest, w₂⟩, nextMeans, rfl, rfl⟩ := means
    rw [argsCode] at placed ⊢
    have operands := exprCode_operands env tab first shape.1 fatherOp temps
    have one := exprCode_means first shape.1 (exact.mono fun n mem => by simp [subnodesList, mem])
      (fun p mem => inside p (.inl mem)) w w₁ v firstMeans fatherOp
        temps p placed.left
    have more := argsCode_means next shape.2 (exact.mono fun n mem => by simp [subnodesList, mem])
      (fun p mem => inside p (.inr mem)) w₁ w₂ rest nextMeans fatherOp
        _ _ placed.right
    refine (one.append more).mono fun o e e' ⟨mid, head, tail⟩ store h => ?_
    have both := (head store h).cons (fun _ => rfl) operands.temps_le
      (operands.results_below _ List.mem_cons_self) fun store' agrees =>
        tail store' (h.congr agrees)
    simpa [Nat.add_assoc] using both
end

/-- From `p` the code comes to `q` with a store like this, or stops at a RET of this value. -/
def Lands (prog : List IrInstr) (o : Oracle) (p q : Nat) (store : Store)
    (events events' : List Event) (P : Store → Prop) : Completion → Prop
  | .normal => ∃ store', Reaches (irStep (irCode prog) o) ⟨p, store, [], events⟩
      ⟨q, store', [], events'⟩ ∧ P store'
  | .returned value => ∃ t, Reaches (irStep (irCode prog) o) ⟨p, store, [], events⟩ t ∧
      irStep (irCode prog) o t = none ∧ irResult (irCode prog) t = some (.returned value) ∧
      t.events = events'

namespace Lands

variable {o : Oracle} {p p' q q' : Nat} {store store' : Store}
  {events events₁ events' : List Event} {P Q : Store → Prop} {completion : Completion}

theorem after (reaches : Reaches (irStep (irCode prog) o) ⟨p, store, [], events⟩
      ⟨p', store', [], events₁⟩) (h : Lands prog o p' q store' events₁ events' P completion) :
    Lands prog o p q store events events' P completion := by
  cases completion with
  | normal =>
    obtain ⟨store'', more, holds⟩ := h
    exact ⟨store'', reaches.trans more, holds⟩
  | returned value =>
    obtain ⟨t, more, rest⟩ := h
    exact ⟨t, reaches.trans more, rest⟩

theorem andThen (h : Lands prog o p q store events events₁ P .normal)
    (next : ∀ store', P store' → Lands prog o q q' store' events₁ events' Q completion) :
    Lands prog o p q' store events events' Q completion := by
  obtain ⟨store', reaches, holds⟩ := h
  exact (next store' holds).after reaches

theorem thenSteps (h : Lands prog o p q store events events' P completion)
    (steps : ∀ store', Reaches (irStep (irCode prog) o) ⟨q, store', [], events'⟩
      ⟨q', store', [], events'⟩) : Lands prog o p q' store events events' P completion := by
  cases completion with
  | normal => exact h.andThen fun store' holds => ⟨store', steps store', holds⟩
  | returned value => exact h

end Lands

theorem branch_placed {whole test thenCode elseCode : List IrInstr} {r : Var} {p l : Nat}
    (layout : whole = test ++ .jmpf r l :: thenCode ++ .jmp (l + 1) :: .label l :: elseCode ++
      [.label (l + 1)]) (placed : Placed prog p whole) :
    Placed prog (p + test.length + 1) thenCode ∧
      Placed prog (p + test.length + thenCode.length + 3) elseCode := by
  rw [layout] at placed
  have behind := placed.left.right.tail.tail
  refine ⟨placed.left.left.right.tail, ?_⟩
  simp only [List.length_append, List.length_cons] at behind
  convert behind using 1
  omega

theorem branch_lands (unique : LabelsUnique prog) {whole test thenCode elseCode : List IrInstr}
    {r : Var} {p l : Nat} {o : Oracle} {store store' : Store} {events events₁ events' : List Event}
    {P : Store → Prop} {completion : Completion}
    (layout : whole = test ++ .jmpf r l :: thenCode ++ .jmp (l + 1) :: .label l :: elseCode ++
      [.label (l + 1)]) (placed : Placed prog p whole)
    (tested : Reaches (irStep (irCode prog) o) ⟨p, store, [], events⟩
      ⟨p + test.length, store', [], events₁⟩)
    (thenLands : store' (r.name id) ≠ 0 → Lands prog o (p + test.length + 1)
      (p + test.length + 1 + thenCode.length) store' events₁ events' P completion)
    (elseLands : store' (r.name id) = 0 → Lands prog o (p + test.length + thenCode.length + 3)
      (p + test.length + thenCode.length + 3 + elseCode.length) store' events₁ events' P
        completion) :
    Lands prog o p (p + whole.length) store events events' P completion := by
  have length : whole.length = test.length + thenCode.length + elseCode.length + 4 := by
    rw [layout]
    simp only [List.length_append, List.length_cons, List.length_nil]
    omega
  rw [layout] at placed
  have jmpf := placed.left.left.right
  have jmp := placed.left.right
  have last := placed.last
  simp only [List.length_append, List.length_cons] at jmp last
  refine Lands.after (tested.tail
    (jmpf_step o unique jmpf.head jmp.tail.head store' events₁)) ?_
  by_cases zero : store' (r.name id) = 0
  · rw [if_pos zero]
    refine Lands.after (.single (label_step o jmp.tail.head store' events₁)) ?_
    have lands := elseLands zero
    have start : p + (test.length + (thenCode.length + 1)) + 1 + 1 =
      p + test.length + thenCode.length + 3 := by omega
    rw [start]
    refine lands.thenSteps fun store'' => .single ?_
    have next := label_step o last store'' events'
    convert next using 3 <;> omega
  · rw [if_neg zero]
    refine (thenLands zero).thenSteps fun store'' => ?_
    have jump := jmp_step o unique jmp.head last store'' events'
    have run := Reaches.head jump (.single (label_step o last store'' events'))
    convert run using 2 <;> omega

variable (prog tab call ids) in
/-- Under a fitting oracle the code from `p` to `q` leaves the word of this value in `r`. -/
def Decides (p q : Nat) (r : Var) (s s' : ProgState W) (v : Value) : Prop :=
  Leads call s.world s'.world fun o e e' => ∀ store, Matches tab ids s.vars store →
    ∃ store', Reaches (irStep (irCode prog) o) ⟨p, store, [], e⟩ ⟨q, store', [], e'⟩ ∧
      Matches tab ids s'.vars store' ∧ store' (r.name id) = v.word

variable (prog tab call ids) in
/-- Under a fitting oracle the code from `p` to `q` ends like this, with these values in the
variables. -/
def Carries (p q : Nat) (s s' : ProgState W) (ending : Ending) : Prop :=
  Leads call s.world s'.world fun o e e' => ∀ store, Matches tab ids s.vars store →
    Lands prog o p q store e e' (Matches tab ids s'.vars) ending.completion

theorem valueOf_decides {node : AstNode} (shape : isExpr tab node = true)
    (exact : LiteralShifts env (subnodes node)) (inside : ∀ p ∈ leafIds node, p ∈ ids)
    {s s' : ProgState W} {v : Value} (means : valueOf tab call node s = some (v, s'))
    {fatherOp temps p : Nat}
    (placed : Placed prog p (exprCode env tab fatherOp node temps).code) :
    let e := exprCode env tab fatherOp node temps
    Decides tab call ids prog p (p + e.code.length) e.result s s' v := by
  obtain ⟨⟨u, w⟩, value, eq⟩ := Option.map_eq_some_iff.mp means
  obtain ⟨rfl, rfl⟩ := Prod.mk.inj eq
  have delivers := exprCode_means node shape exact inside _ _ _ value fatherOp temps p placed
  refine delivers.mono fun o e e' computes store h => ?_
  obtain ⟨store', reaches, same, values⟩ := computes store h
  exact ⟨store', reaches, h.congr (same.agrees fun _ => rfl), (List.cons.inj values).1⟩

section Jumps

variable {p p' q q' : Nat} {r : Var} {s s₁ s' : ProgState W} {v : Value} {ending : Ending}

theorem carries_nothing (p : Nat) (s : ProgState W) :
    Carries tab call ids prog p p s s .normal :=
  (Leads.refl s.world).mono fun _ _ _ eq store h => ⟨store, by rw [eq]; exact .refl _, h⟩

theorem Carries.andThen {ended : Ending} (first : Carries tab call ids prog p q s s₁ ended)
    (rest : match ended with
      | .normal => Carries tab call ids prog q q' s₁ s' ending
      | .returned value => s₁ = s' ∧ .returned value = ending) :
    Carries tab call ids prog p q' s s' ending := by
  cases ended with
  | normal =>
    exact (Leads.append first rest).mono fun o e e'' ⟨e', lands, more⟩ store matched =>
      (lands store matched).andThen more
  | returned answer =>
    obtain ⟨rfl, rfl⟩ := rest
    exact first

/-- The rounds of a loop, by induction on the fuel. -/
theorem loop_carries (unique : LabelsUnique prog) {whole test body : List IrInstr} {l : Nat}
    (layout : whole = .label l :: test ++ .jmpf r (l + 1) :: body ++ [.jmp l, .label (l + 1)])
    (placed : Placed prog p whole) {condition : ProgState W → Option (Value × ProgState W)}
    {means : Meaning W}
    (tests : ∀ s s' v, condition s = some (v, s') →
      Decides tab call ids prog (p + 1) (p + 1 + test.length) r s s' v)
    (bodies : ∀ s s' ending, means s = some (s', ending) →
      Carries tab call ids prog (p + 1 + test.length + 1) (p + 1 + test.length + 1 + body.length)
        s s' ending)
    (fuel : Nat) (ran : loopMeaning condition means fuel s = some (s', ending)) :
    Carries tab call ids prog p (p + whole.length) s s' ending := by
  have back : ∀ o store e, irStep (irCode prog) o
      ⟨p + 1 + test.length + 1 + body.length, store, [], e⟩ = some ⟨p, store, [], e⟩ := by
    intro o store e
    rw [layout] at placed
    have jmp := placed.right
    simp only [List.length_append, List.length_cons] at jmp
    have jump := jmp_step o unique jmp.head placed.left.left.head store e
    convert jump using 3
    omega
  -- a round whose test fails, and what comes behind a test that holds
  have stops : ∀ {s s₁ : ProgState W},
      Decides tab call ids prog (p + 1) (p + 1 + test.length) r s s₁ (.bool false) →
        Carries tab call ids prog p (p + whole.length) s s₁ .normal := fun tested =>
    tested.mono fun o e e' runs store matched => by
      obtain ⟨store', reaches, matched', value⟩ := runs store matched
      have zero : store' (r.name id) = 0 := value
      have leaves := loop_enters unique layout placed reaches
      rw [if_pos zero] at leaves
      exact ⟨store', leaves, matched'⟩
  have enters : ∀ {s s₁ s₂ : ProgState W} {ended : Ending},
      Decides tab call ids prog (p + 1) (p + 1 + test.length) r s s₁ (.bool true) →
        Carries tab call ids prog (p + 1 + test.length + 1)
          (p + 1 + test.length + 1 + body.length) s₁ s₂ ended →
            Carries tab call ids prog p (p + 1 + test.length + 1 + body.length) s s₂ ended :=
    fun tested lands => (Leads.append tested lands).mono
      fun o e e'' ⟨e', runs, more⟩ store matched => by
        obtain ⟨store', reaches, matched', one⟩ := runs store matched
        have nonzero : store' (r.name id) ≠ 0 := by
          rw [one]
          decide
        have entered := loop_enters unique layout placed reaches
        rw [if_neg nonzero] at entered
        exact (more store' matched').after entered
  induction fuel generalizing s with
  | zero =>
    simp only [loopMeaning, Option.bind_eq_bind, Option.bind_eq_some_iff] at ran
    obtain ⟨⟨v, s₁⟩, value, ran⟩ := ran
    simp only [Option.pure_def, Option.ite_none_right_eq_some, Option.some.injEq,
      Prod.mk.injEq] at ran
    obtain ⟨rfl, rfl, rfl⟩ := ran
    exact stops (tests s s₁ _ value)
  | succ fuel ih =>
    simp only [loopMeaning, Option.bind_eq_bind, Option.bind_eq_some_iff] at ran
    obtain ⟨⟨v, s₁⟩, value, ran⟩ := ran
    have tested := tests s s₁ v value
    cases v with
    | int w => cases ran
    | bool holds =>
      cases holds with
      | false =>
        obtain ⟨rfl, rfl⟩ := Prod.mk.inj (Option.some.inj ran)
        exact stops tested
      | true =>
        simp only [Option.bind_eq_some_iff] at ran
        obtain ⟨⟨s₂, ended⟩, ranBody, ran⟩ := ran
        refine (enters tested (bodies s₁ s₂ ended ranBody)).andThen ?_
        cases ended with
        | normal =>
          exact (ih ran).mono fun o e e' lands store matched =>
            (lands store matched).after (.single (back o store e))
        | returned answer => exact Prod.mk.inj (Option.some.inj ran)

end Jumps

theorem setVariable_some {left : AstNode} {v : Value} {s s' : ProgState W} {ending : Ending}
    (set : setVariable tab left v s = some (s', ending)) :
    ∃ line x info, left = .leaf line (.id x) ∧ tab.entry x = some info ∧
      info.idType = v.type.code ∧ s' = ⟨Function.update s.vars x (some (some v)), s.world⟩ ∧
        ending = .normal := by
  unfold setVariable at set
  split at set
  · next line x =>
    split at set
    · next info old entry declared =>
      simp only [Option.ite_none_right_eq_some, Option.some.injEq, Prod.mk.injEq] at set
      obtain ⟨typed, rfl, rfl⟩ := set
      exact ⟨line, x, info, rfl, entry, typed, rfl, rfl⟩
    · cases set
  · cases set

theorem targetOf_leaf {line : Int} {x : IdPtr} {info : SymbolInfo}
    (entry : tab.entry x = some info) : targetOf tab (.leaf line (.id x)) = some info.name := by
  rw [targetOf, entry]
  rfl

theorem assign_carries (apart : NamesApart tab ids) {left right : AstNode}
    (shape : isExpr tab right = true) (exact : LiteralShifts env (subnodes right))
    (inside : ∀ p ∈ leafIds left ++ leafIds right, p ∈ ids) {s s' : ProgState W} {ending : Ending}
    (means : (valueOf tab call right s).bind (fun x => setVariable tab left x.1 x.2) =
      some (s', ending)) {fatherOp temps p : Nat}
    (placed : Placed prog p ((exprCode env tab fatherOp right temps).code ++
      storeTo (exprCode env tab fatherOp right temps).result (targetOf tab left))) :
    Carries tab call ids prog p (p + ((exprCode env tab fatherOp right temps).code ++
      storeTo (exprCode env tab fatherOp right temps).result (targetOf tab left)).length) s s'
        ending := by
  simp only [List.mem_append] at inside
  obtain ⟨⟨v, s₁⟩, value, set⟩ := Option.bind_eq_some_iff.mp means
  have decides := valueOf_decides shape exact (fun p mem => inside p (.inr mem)) value placed.left
  obtain ⟨line, x, info, rfl, entry, typed, rfl, rfl⟩ := setVariable_some set
  rw [targetOf_leaf entry] at placed ⊢
  refine (Leads.append decides (Leads.assign info.name.text v s₁.world)).mono
    fun o e e'' ⟨e', runs, eq⟩ store h => ?_
  obtain ⟨store', reaches, matched, word⟩ := runs store h
  have next := irStep_next o placed.right.head rfl
    (show (IrInstr.store _ info.name).effect id store' = some (_, .next) from rfl) [] e'
  simp only [IrInstr.assigned, word] at next
  rw [eq]
  refine ⟨_, ?_, matched.assign apart (inside x (.inl (by simp [leafIds]))) entry typed⟩
  have run := reaches.tail next
  simpa [storeTo, Nat.add_assoc] using run

variable (env) in
theorem literal_value {right : AstNode} (shape : isExpr tab right = true) {s s' : ProgState W}
    {v : Value} (means : valueOf tab call right s = some (v, s')) {value : LeafValue}
    (literal : right.literal? = some value) :
    s' = s ∧ v.word = (value.intValue env).signExtend 64 := by
  obtain ⟨⟨u, w⟩, meant, eq⟩ := Option.map_eq_some_iff.mp means
  obtain ⟨rfl, rfl⟩ := Prod.mk.inj eq
  unfold AstNode.literal? at literal
  split at literal
  · cases literal
  · next line leaf notId =>
    obtain rfl := Option.some.inj literal
    rw [exprMeaning] at meant
    obtain ⟨x, isLeaf, eq⟩ := Option.map_eq_some_iff.mp meant
    obtain ⟨rfl, rfl⟩ := Prod.mk.inj eq
    refine ⟨rfl, ?_⟩
    cases leaf with
    | int n => exact Option.some.inj isLeaf ▸ rfl
    | bool n =>
      obtain rfl := Option.some.inj isLeaf
      have bit : n = 0 ∨ n = 1 := by simpa [isExpr] using shape
      rcases bit with rfl | rfl <;> rfl
    | id p => exact absurd rfl (notId p)
  · cases literal

theorem literal_carries (apart : NamesApart tab ids) {left right : AstNode}
    (shape : isExpr tab right = true) (inside : ∀ p ∈ leafIds left, p ∈ ids)
    {s s' : ProgState W} {ending : Ending}
    (means : (valueOf tab call right s).bind (fun x => setVariable tab left x.1 x.2) =
      some (s', ending)) {value : LeafValue} (literal : right.literal? = some value) {p : Nat}
    (placed : Placed prog p ((targetOf tab left).toList.map (.storeVal (value.intValue env)))) :
    Carries tab call ids prog p
      (p + ((targetOf tab left).toList.map (IrInstr.storeVal (value.intValue env))).length) s s'
        ending := by
  obtain ⟨⟨v, s₁⟩, meant, set⟩ := Option.bind_eq_some_iff.mp means
  obtain ⟨rfl, word⟩ := literal_value env shape meant literal
  obtain ⟨line, x, info, rfl, entry, typed, rfl, rfl⟩ := setVariable_some set
  rw [targetOf_leaf entry] at placed ⊢
  refine (Leads.assign info.name.text v s₁.world).mono fun o e e' eq store h => ?_
  have next := irStep_next o placed.head rfl
    (show (IrInstr.storeVal _ info.name).effect id store = some (_, .next) from rfl) [] e
  simp only [IrInstr.assigned, ← word] at next
  rw [eq]
  exact ⟨_, .single next, h.assign apart (inside x (by simp [leafIds])) entry typed⟩

theorem Carries.declare (left : AstNode) {p q : Nat} {s s' : ProgState W} {ending : Ending}
    (h : Carries tab call ids prog p q (declareVariable left s) s' ending) :
    Carries tab call ids prog p q s s' ending := by
  unfold declareVariable at h
  split at h
  · exact h.mono fun o e e' lands store matched => lands store (matched.declare _)
  · exact h

theorem return_ends {node : AstNode} (isReturn : node.isReturn = true) {fuel : Nat}
    {s s' : ProgState W} {ending : Ending}
    (means : stmtMeaning tab call fuel node s = some (s', ending)) :
    ∃ value, ending = .returned value := by
  unfold AstNode.isReturn at isReturn
  split at isReturn
  · simp only [stmtMeaning] at means
    split at means
    · exact ⟨_, (Prod.mk.inj (Option.some.inj means)).2.symm⟩
    · simp only [Option.bind_eq_bind, Option.bind_eq_some_iff, Option.pure_def,
        Option.some.injEq, Prod.mk.injEq] at means
      obtain ⟨-, -, -, rfl⟩ := means
      exact ⟨_, rfl⟩
  · cases isReturn

mutual
/-- The code of a statement goes where its meaning goes. -/
theorem stmtCode_means (unique : LabelsUnique prog) (apart : NamesApart tab ids) (fuel : Nat) :
    ∀ (node : AstNode), isStmtOrNull tab node = true → LiteralShifts env (subnodes node) →
      (∀ p ∈ leafIds node, p ∈ ids) → ∀ (s s' : ProgState W) (ending : Ending),
        stmtMeaning tab call fuel node s = some (s', ending) → ∀ (c : Counters) (p : Nat),
          Placed prog p (stmtCode env tab node c).1 →
          Carries tab call ids prog p (p + (stmtCode env tab node c).1.length) s s' ending
  | .null, _, _, _, s, s', ending, means, c, p, _ => by
    rw [stmtMeaning] at means
    obtain ⟨rfl, rfl⟩ := Prod.mk.inj (Option.some.inj means)
    simp only [stmtCode, List.length_nil, Nat.add_zero]
    exact carries_nothing p s
  | .common line arity op left right, shape, exact, inside, s, s', ending, means, c, p, placed => by
    simp only [isStmtOrNull, AstNode.isNull, Bool.false_or] at shape
    simp only [leafIds] at inside
    have leftExact : LiteralShifts env (subnodes left) := exact.mono fun n mem => by
      simp [subnodes, mem]
    have rightExact : LiteralShifts env (subnodes right) := exact.mono fun n mem => by
      simp [subnodes, mem]
    cases op with
    | decl =>
      simp only [isStmt, Bool.and_eq_true] at shape
      simp only [stmtMeaning] at means
      simp only [stmtCode] at placed ⊢
      refine Carries.declare left ?_
      by_cases null : right.isNull = true
      · simp only [if_pos null, Option.some.injEq, Prod.mk.injEq] at means
        obtain ⟨rfl, rfl⟩ := means
        simp only [if_pos null, List.length_nil, Nat.add_zero]
        exact carries_nothing p _
      · rw [Bool.not_eq_true] at null
        simp only [null, Bool.false_or] at shape
        simp only [null, Bool.false_eq_true, if_false] at means placed ⊢
        exact assign_carries apart shape.2 rightExact inside means placed
    | assign =>
      simp only [isStmt, Bool.and_eq_true] at shape
      simp only [stmtMeaning] at means
      simp only [stmtCode] at placed ⊢
      cases chosen : (if env.optimizations then right.literal? else none) with
      | some value =>
        simp only [chosen] at placed ⊢
        have literal : right.literal? = some value := by
          rw [Option.ite_none_right_eq_some] at chosen
          exact chosen.2
        exact literal_carries apart shape.2
          (fun p mem => inside p (List.mem_append_left _ mem)) means literal placed
      | none =>
        simp only [chosen] at placed ⊢
        exact assign_carries apart shape.2 rightExact inside means placed
    | ret =>
      simp only [isStmt, Bool.and_eq_true] at shape
      simp only [stmtMeaning] at means
      simp only [stmtCode] at placed ⊢
      by_cases null : left.isNull = true
      · simp only [if_pos null, Option.some.injEq, Prod.mk.injEq] at means placed ⊢
        obtain ⟨rfl, rfl⟩ := means
        refine (Leads.refl s.world).mono fun o e e' eq store _ => ?_
        obtain ⟨final, result⟩ := irStep_ret o (s := ⟨p, store, [], e⟩)
          (irCode_getElem? placed.head)
        exact ⟨_, .refl _, final, result, eq.symm⟩
      · rw [Bool.not_eq_true] at null
        simp only [null, Bool.false_or] at shape
        simp only [null, Bool.false_eq_true, if_false, Option.bind_eq_bind, Option.bind_eq_some_iff,
          Option.pure_def, Option.some.injEq, Prod.mk.injEq] at means placed ⊢
        obtain ⟨⟨v, s₁⟩, value, rfl, rfl⟩ := means
        have decides := valueOf_decides shape.1 leftExact
          (fun p mem => inside p (List.mem_append_left _ mem)) value placed.left
        refine decides.mono fun o e e' runs store matched => ?_
        obtain ⟨store', reaches, -, word⟩ := runs store matched
        obtain ⟨final, result⟩ := irStep_ret o (s := ⟨_, store', [], e'⟩)
          (irCode_getElem? placed.last)
        dsimp only [Option.map_some] at result
        rw [word] at result
        exact ⟨_, reaches, final, result, rfl⟩
    | _ => simp [isStmt] at shape
  | .ifStmt line condition thenBlock elseBlock, shape, exact, inside, s, s', ending, means, c, p,
    placed => by
    simp only [isStmtOrNull, AstNode.isNull, Bool.false_or, isStmt_ifStmt,
      Bool.and_eq_true] at shape
    obtain ⟨⟨conditionShape, thenShape⟩, elseShape⟩ := shape
    simp only [leafIds, List.mem_append] at inside
    simp only [stmtMeaning, Option.bind_eq_bind, Option.bind_eq_some_iff] at means
    obtain ⟨⟨v, s₁⟩, value, means⟩ := means
    simp only [stmtCode] at placed ⊢
    have decides := valueOf_decides conditionShape (exact.mono fun n mem => by
      simp [subnodes, mem]) (fun p mem => inside p (.inl (.inl mem))) value placed.left.left.left
    obtain ⟨thenPlaced, elsePlaced⟩ := branch_placed rfl placed
    cases v with
    | int w => cases means
    | bool holds =>
      cases holds with
      | false =>
        have branch := stmtCode_means unique apart fuel elseBlock
          (isStmtOrNull_of_branch elseShape) (exact.mono fun n mem => by simp [subnodes, mem])
          (fun p mem => inside p (.inr mem)) s₁ s' ending means _ _ elsePlaced
        refine (Leads.append decides branch).mono fun o e e'' ⟨e', runs, lands⟩ store matched => ?_
        obtain ⟨store', reaches, matched', word⟩ := runs store matched
        exact branch_lands unique rfl placed reaches (fun nonzero => absurd word nonzero)
          fun _ => lands store' matched'
      | true =>
        have branch := stmtCode_means unique apart fuel thenBlock
          (isStmtOrNull_of_branch thenShape) (exact.mono fun n mem => by simp [subnodes, mem])
          (fun p mem => inside p (.inl (.inr mem))) s₁ s' ending means _ _ thenPlaced
        refine (Leads.append decides branch).mono fun o e e'' ⟨e', runs, lands⟩ store matched => ?_
        obtain ⟨store', reaches, matched', word⟩ := runs store matched
        refine branch_lands unique rfl placed reaches (fun _ => lands store' matched') fun zero =>
          ?_
        rw [zero] at word
        cases word
  | .whileStmt line condition block, shape, exact, inside, s, s', ending, means, c, p, placed => by
    simp only [isStmtOrNull, AstNode.isNull, Bool.false_or, isStmt_whileStmt, Bool.and_eq_true]
      at shape
    simp only [leafIds, List.mem_append] at inside
    simp only [stmtMeaning] at means
    simp only [stmtCode] at placed ⊢
    have body := placed.left.right.tail
    rw [List.length_cons, ← Nat.add_assoc, Nat.add_right_comm p _ 1] at body
    refine loop_carries unique rfl placed (fun s s' v value => ?_) (fun s s' ending means => ?_)
      fuel means
    · exact valueOf_decides shape.1 (exact.mono fun n mem => by simp [subnodes, mem])
        (fun p mem => inside p (.inl mem)) value placed.left.left.tail
    · exact stmtCode_means unique apart fuel block (isStmtOrNull_of_branch shape.2)
        (exact.mono fun n mem => by simp [subnodes, mem]) (fun p mem => inside p (.inr mem)) s s'
        ending means _ _ body
  | .methodCall line name numArgs args, shape, exact, inside, s, s', ending, means, c, p,
    placed => by
    simp only [isStmtOrNull, AstNode.isNull, Bool.false_or, isStmt, Bool.and_eq_true,
      decide_eq_true_eq] at shape
    simp only [leafIds] at inside
    simp only [stmtMeaning, Option.bind_eq_bind, Option.bind_eq_some_iff, Option.pure_def,
      Option.some.injEq, Prod.mk.injEq] at means
    obtain ⟨⟨vs, w₁⟩, argsMean, ⟨answer, w₂⟩, called, rfl, rfl⟩ := means
    have operands := argsCode_operands env tab args shape.2
      (env.opView (.methodCall line name numArgs args)) c.temp
    simp only [stmtCode, exprCode] at placed ⊢
    have first := argsCode_means args shape.2 (exact.mono fun n mem => by simp [subnodes, mem])
      inside s.world w₁ vs argsMean _ c.temp p placed.left.left
    simp only [List.append_assoc] at placed
    refine (first.append (Leads.ofCall called)).mono fun o e e' ⟨mid, one, eq, _⟩ store h => ?_
    obtain ⟨store', reaches, same, -⟩ := (one store h).call operands.temps_le placed.right
    rw [← eq] at reaches
    refine ⟨store', ?_, h.congr (same.agrees fun _ => rfl)⟩
    simpa [Nat.add_assoc] using reaches
  | .block line stmts, shape, exact, inside, s, s', ending, means, c, p, placed => by
    simp only [isStmtOrNull, AstNode.isNull, Bool.false_or, isStmt] at shape
    simp only [leafIds] at inside
    simp only [stmtMeaning] at means
    simp only [stmtCode] at placed ⊢
    exact blockCode_means unique apart fuel stmts shape
      (exact.mono fun n mem => by simp [subnodes, mem]) inside s s' ending means c p placed
  | .methodDecl .., shape, _, _, _, _, _, _, _, _, _
  | .leaf .., shape, _, _, _, _, _, _, _, _, _ => by
    simp [isStmtOrNull, AstNode.isNull, isStmt] at shape
theorem blockCode_means (unique : LabelsUnique prog) (apart : NamesApart tab ids) (fuel : Nat) :
    ∀ (stmts : AstNodeList), areStmts tab stmts = true → LiteralShifts env (subnodesList stmts) →
      (∀ p ∈ leafIdsList stmts, p ∈ ids) → ∀ (s s' : ProgState W) (ending : Ending),
        stmtsMeaning tab call fuel stmts s = some (s', ending) → ∀ (c : Counters) (p : Nat),
          Placed prog p (blockCode env tab stmts c).1 →
          Carries tab call ids prog p (p + (blockCode env tab stmts c).1.length) s s' ending
  | .nil, _, _, _, s, s', ending, means, c, p, _ => by
    rw [stmtsMeaning] at means
    obtain ⟨rfl, rfl⟩ := Prod.mk.inj (Option.some.inj means)
    exact carries_nothing p s
  | .cons first next, shape, exact, inside, s, s', ending, means, c, p, placed => by
    simp only [areStmts, Bool.and_eq_true] at shape
    simp only [leafIdsList, List.mem_append] at inside
    simp only [stmtsMeaning, Option.bind_eq_bind, Option.bind_eq_some_iff] at means
    obtain ⟨⟨s₁, ended⟩, ranFirst, means⟩ := means
    have one := fun placed => stmtCode_means unique apart fuel first
      (by simp [isStmtOrNull, shape.1]) (exact.mono fun n mem => by simp [subnodesList, mem])
      (fun p mem => inside p (.inl mem)) s s₁ ended ranFirst c p placed
    simp only [blockCode] at placed ⊢
    by_cases stops : first.isReturn = true ∧ env.optimizations = true
    · -- behind a return nothing is emitted, and nothing is meant
      rw [if_pos stops] at placed ⊢
      obtain ⟨answer, rfl⟩ := return_ends stops.1 ranFirst
      exact (one placed).andThen (Prod.mk.inj (Option.some.inj means))
    · rw [if_neg stops] at placed ⊢
      rw [List.length_append, ← Nat.add_assoc]
      refine (one placed.left).andThen ?_
      cases ended with
      | normal =>
        exact blockCode_means unique apart fuel next shape.2
          (exact.mono fun n mem => by simp [subnodesList, mem]) (fun p mem => inside p (.inr mem))
          s₁ s' ending means _ _ placed.right
      | returned answer => exact Prod.mk.inj (Option.some.inj means)
end

end Code

end Ctds
