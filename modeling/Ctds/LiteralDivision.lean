import Ctds.Division
import Ctds.Lowering
import Ctds.MemoryOptimization

/-! Division by an integer literal under `-opt`: a power of two becomes a biased shift, any
other literal is loaded into a temporary of its own and divided by. Both leave the quotient
rounded towards zero, the one `idivq` computes, and fail where `idivq` does. -/

namespace Ctds

open NameReuse Signed Word Decimal Fallible

namespace Compiled

theorem exists_of_accepted {env : Env} {prog : ProgramSyn} {checked : Checked}
    (accepted : frontEnd env prog = .ok checked)
    (null : env.optimizations = true → NullLists env (intermediateCode env checked)) :
    ∃ b : Compiled env, b.prog = prog ∧ b.checked = checked := by
  cases on : env.optimizations with
  | false => exact ⟨.plain on accepted, rfl, rfl⟩
  | true =>
    obtain ⟨code, c, low, s, ρ, -, emitted, -, optimized, -⟩ :=
      optimizePass_program (frontEnd_compilable accepted).shape (null on)
    refine ⟨⟨prog, checked, s.heap, accepted, ?_⟩, rfl, rfl⟩
    rw [finalHeap, if_pos on, intermediateCode, emitted]
    exact congrArg (Option.map OptState.heap) optimized

variable {env : Env} (b : Compiled env)

theorem ranges : ∃ low, Ranges 0 0 b.instrs low (programCode env b.tab b.headAst ⟨0, 0⟩).2.temp :=
  programCode_ranges env b.compilable.shape ⟨0, 0⟩ (Nat.le_refl 0)

theorem separated (on : env.optimizations = true) :
    Separated b.rename 0 (occurrences b.instrs) := by
  have named := b.named
  rw [finalHeap, if_pos on] at named
  obtain ⟨s, passed, eq⟩ := Option.map_eq_some_iff.mp named
  obtain ⟨ρ, heap, separated⟩ := separated_of_pass b.compilable.shape passed
  have same : b.rename = ρ := by
    funext n
    have texts : b.heap = tempHeap b.rename := b.heap_tempHeap.choose_spec
    rw [← eq, heap] at texts
    exact tempText_inj (congrFun texts n).symm
  rw [same]
  exact separated

end Compiled

/-- `left / v`. -/
def divisionBy (line line' : Int) (left : AstNode) (v : BitVec 32) : AstNode :=
  .common line .binary .division left (.leaf line' (.int v))

section Code

variable {env : Env} (on : env.optimizations = true) (tab : SymbolTable) (line line' : Int)
  (left : AstNode) {v : BitVec 32} (fatherOp temps : Nat)

include on

theorem divisionBy_shift {k : Fin 33} (power : v.toInt = 2 ^ k.val) :
    let l := exprCode env tab Operator.division.code left temps
    exprCode env tab fatherOp (divisionBy line line' left v) temps =
      ⟨l.code ++ [.shiftRight l.result k l.temps], .temp l.temps, l.temps + 1⟩ := by
  have count : shiftCount env (.leaf line' (.int v)) = some k.val :=
    (shiftCount_eq_some_iff on).mpr power
  have chosen : divisionShift env .division (.leaf line' (.int v)) = some k := by
    rw [divisionShift, if_pos rfl, count, Option.map_some, Option.some.injEq]
    exact Fin.cast_val_eq_self k
  rw [divisionBy, exprCode, chosen]

theorem divisionBy_plain (other : ∀ k, v.toInt ≠ 2 ^ k) :
    let l := exprCode env tab Operator.division.code left temps
    exprCode env tab fatherOp (divisionBy line line' left v) temps =
      ⟨l.code ++ [.loadval v l.temps, .binary .div l.result (.temp l.temps) (l.temps + 1)],
        .temp (l.temps + 1), l.temps + 2⟩ := by
  have count : shiftCount env (.leaf line' (.int v)) = none := by
    cases found : shiftCount env (.leaf line' (.int v)) with
    | none => rfl
    | some k => exact absurd ((shiftCount_eq_some_iff on).mp found) (other k)
  have chosen : divisionShift env .division (.leaf line' (.int v)) = none := by
    rw [divisionShift, if_pos rfl, count, Option.map_none]
  rw [divisionBy, exprCode, chosen]
  simp [exprCode, leafCode, LeafValue.intValue, Operator.binaryInstr]

end Code

/-- What `cqto` and `idivq` leave in `%rax`. -/
def idivqQuotient (x v : Word) : Option Word :=
  (signedDivision (x.sshiftRight 63) x v).map Prod.fst

theorem idivqQuotient_eq (x v : Word) : idivqQuotient x v = quotient x v := by
  rw [idivqQuotient, signedDivision_eq, Option.map_bind]
  refine Eq.trans ?_ (quotient_pick x v)
  congr 1
  funext q
  rw [Function.comp_apply, Option.map_map]
  rfl

theorem idivqQuotient_literal (x : Word) {v : BitVec 32} (nonzero : v ≠ 0) :
    idivqQuotient x (v.signExtend 64) =
      if x = BitVec.intMin 64 ∧ v = -1 then none
      else some (BitVec.ofInt 64 (x.toInt.tdiv v.toInt)) := by
  have value : (v.signExtend 64).toInt = v.toInt := BitVec.toInt_signExtend_of_le (by decide)
  have zero : v.signExtend 64 ≠ 0 := by
    rw [ne_eq, eq_zero_iff, value, ← eq_zero_iff]
    exact nonzero
  have minusOne : v.signExtend 64 = -1 ↔ v = -1 := by
    rw [eq_neg_one_iff _ (by decide), eq_neg_one_iff _ (by decide), value]
  rw [idivqQuotient_eq, quotient]
  simp only [zero, false_or, minusOne, sdiv_eq, value]

/-- The value in the slot of a name. -/
def InSlot (slots : List VarLocation) (m : Machine) (name : CString) (v : Word) : Prop :=
  ∃ offset, findVar name slots = some offset ∧ m.mem (m.rbp + offset) = v

theorem SlotsHold.inSlot {slots : List VarLocation} {store : Store} {m : Machine}
    (h : SlotsHold slots store m) {name : CString}
    (found : ∃ offset, findVar name slots = some offset) : InSlot slots m name (store name) := by
  obtain ⟨offset, found⟩ := found
  exact ⟨offset, found, h name offset found⟩

/-- The lines divide the word of one name by a literal and leave the quotient, rounded towards
zero, in the slot of the other. Where it does not fit, they fail like `idivq`. -/
def DividesBy (slots : List VarLocation) (lines : List AsmLine) (dividend dest : CString)
    (v : BitVec 32) : Prop :=
  ∀ (store : Store) (m : Machine), SlotsHold slots store m →
    let x := store dividend
    if x = BitVec.intMin 64 ∧ v = -1 then
      idivqQuotient x (v.signExtend 64) = none ∧ execLines lines m = none
    else
      idivqQuotient x (v.signExtend 64) = some (BitVec.ofInt 64 (x.toInt.tdiv v.toInt)) ∧
        ∃ m', execLines lines m = some (m', .next) ∧
          InSlot slots m' dest (BitVec.ofInt 64 (x.toInt.tdiv v.toInt))

section Lines

variable {env : Env} (b : Compiled env) {e l i : Nat} {f : CString}
  (method : InMethod b.code e l f) (gt : e < i)

include method gt

theorem shift_divides (lt : i < l) {left : Var} {count : Fin 33} {t : Nat} {v : BitVec 32}
    (power : v.toInt = 2 ^ count.val) (here : b.instrs[i]? = some (.shiftRight left count t)) :
    DividesBy (objectState b.tab b.headAst b.code l).varMap (objectLines b.tab b.headAst b.code i)
      (left.name b.rename) (tempText (b.rename t)) v := by
  intro store m holds
  have pos : 0 < v.toInt := power ▸ Int.pow_pos (by decide)
  have nonzero : v ≠ 0 := by
    rintro rfl
    exact absurd pos (by decide)
  have positive : v ≠ -1 := by
    rintro rfl
    exact absurd pos (by decide)
  dsimp only
  rw [if_neg fun special => positive special.2, idivqQuotient_literal _ nonzero,
    if_neg fun special => positive special.2]
  obtain ⟨m', run, holds', -⟩ := b.objectLines_refine method gt lt here rfl holds
  have asked : tempText (b.rename t) ∈ (IrInstr.shiftRight left count t).slotNames b.rename := by
    simp [IrInstr.slotNames]
  have slot := holds'.inSlot (b.slot_found method gt lt here asked)
  rw [Function.update_self, shiftedQuotient, ← power] at slot
  exact ⟨rfl, m', run, slot⟩

theorem divide_divides (lt : i + 1 < l) {left : Var} {v : BitVec 32} {t : Nat} (nonzero : v ≠ 0)
    (loads : b.instrs[i]? = some (.loadval v t))
    (divides : b.instrs[i + 1]? = some (.binary .div left (.temp t) (t + 1)))
    (apart : left.name b.rename ≠ tempText (b.rename t)) :
    DividesBy (objectState b.tab b.headAst b.code l).varMap
      (objectLines b.tab b.headAst b.code i ++ objectLines b.tab b.headAst b.code (i + 1))
      (left.name b.rename) (tempText (b.rename (t + 1))) v := by
  intro store m holds
  obtain ⟨m1, run1, holds1, -⟩ := b.objectLines_refine method gt (by omega) loads rfl holds
  have second := b.objectLines_refine method (by omega) lt divides rfl holds1
  have asked : tempText (b.rename (t + 1)) ∈
      (IrInstr.binary .div left (.temp t) (t + 1)).slotNames b.rename := by
    simp [IrInstr.slotNames]
  have found := b.slot_found method (by omega) lt divides asked
  have literal : (Var.temp t).name b.rename = tempText (b.rename t) := rfl
  simp only [IrInstr.effect, literal, Function.update_self, Function.update_of_ne apart,
    BinaryInstr.type, binaryResult, ← idivqQuotient_eq, idivqQuotient_literal _ nonzero] at second
  dsimp only
  rw [execLines_append run1, idivqQuotient_literal _ nonzero]
  split
  · next special =>
    rw [if_pos special] at second
    exact ⟨rfl, second⟩
  · next regular =>
    rw [if_neg regular] at second
    obtain ⟨m', run, holds', -⟩ := second
    have slot := holds'.inSlot found
    rw [Function.update_self] at slot
    exact ⟨rfl, m', run, slot⟩

end Lines

theorem twoPow_small {v : BitVec 32} {k : Nat} (power : v.toInt = 2 ^ k) : k < 33 := by
  have chosen : shiftCount (.sample true) (.leaf 0 (.int v)) = some k :=
    (shiftCount_eq_some_iff rfl).mpr power
  exact shiftCount_lt chosen

theorem literal_apart {env : Env} (on : env.optimizations = true) (b : Compiled env) {i t : Nat}
    {left : Var} {v : BitVec 32} (below : ∀ n ∈ left.temps, n < t)
    (loads : b.instrs[i]? = some (.loadval v t))
    (divides : b.instrs[i + 1]? = some (.binary .div left (.temp t) (t + 1))) :
    left.name b.rename ≠ tempText (b.rename t) := by
  cases left with
  | user x => exact fun same => tempText_ne_ident _ x same.symm
  | temp n =>
    obtain ⟨low, ranges⟩ := b.ranges
    have live : Live b.instrs (i + 1) n :=
      live_of_used ranges divides (List.mem_append_left _ List.mem_cons_self)
    have lt := below n List.mem_cons_self
    have apart := name_apart ranges loads (b.separated on) rfl live (Nat.ne_of_lt lt)
    exact fun same => apart (tempText_inj same)

theorem literal_division_correct {env : Env} (on : env.optimizations = true) (b : Compiled env)
    {line line' : Int} {left : AstNode} {v : BitVec 32} {fatherOp temps p : Nat}
    (shape : isExpr b.tab left = true) (nonzero : v ≠ 0)
    (placed : Placed b.instrs p
      (exprCode env b.tab fatherOp (divisionBy line line' left v) temps).code)
    {e l : Nat} {f : CString} (method : InMethod b.code e l f) (gt : e < p)
    (le : p + (exprCode env b.tab fatherOp (divisionBy line line' left v) temps).code.length ≤ l) :
    let dividend := exprCode env b.tab Operator.division.code left temps
    let division := exprCode env b.tab fatherOp (divisionBy line line' left v) temps
    let first := p + dividend.code.length
    let lines := (List.range' first (division.code.length - dividend.code.length)).flatMap
      (objectLines b.tab b.headAst b.code)
    (∀ k, (∃ var1 reg, b.code[first]? =
        some ⟨.shiftRight, some var1, some (natText k), some reg⟩) ↔ v.toInt = 2 ^ k) ∧
      Placed b.lines (lineStart b.tab b.headAst b.code first) lines ∧
      DividesBy (objectState b.tab b.headAst b.code l).varMap lines
        (dividend.result.name b.rename) (division.result.name b.rename) v := by
  have results := (exprCode_operands env b.tab left shape Operator.division.code temps).results
  have size : ∀ {i : Nat} {ir : IrInstr}, b.instrs[i]? = some ir → i < b.code.length := by
    intro i ir here
    exact (List.getElem?_eq_some_iff.mp (b.code_of_instrs here)).1
  dsimp only
  by_cases power : ∃ k, v.toInt = 2 ^ k
  · obtain ⟨k, power⟩ := power
    have count : v.toInt = 2 ^ (⟨k, twoPow_small power⟩ : Fin 33).val := power
    rw [divisionBy_shift on b.tab line line' left fatherOp temps count] at placed le ⊢
    generalize exprCode env b.tab Operator.division.code left temps = dividend at *
    have here := placed.right.head
    have one : (dividend.code ++ [IrInstr.shiftRight dividend.result ⟨k, twoPow_small power⟩
        dividend.temps]).length - dividend.code.length = 1 := by simp
    rw [List.length_append, List.length_singleton] at le
    dsimp only
    rw [one]
    refine ⟨fun k' => ?_, objectBlock_placed b.tab b.headAst (size here), ?_⟩
    · rw [b.code_of_instrs here, named_shiftRight, power]
      constructor
      · rintro ⟨var1, reg, same⟩
        simp only [Option.some.injEq, Instr.mk.injEq, true_and] at same
        rw [natText_injective same.2.1]
      · intro same
        obtain rfl : k = k' := Nat.pow_right_injective (Nat.le_refl 2) (by exact_mod_cast same)
        exact ⟨_, _, rfl⟩
    · rw [List.range'_one, List.flatMap_singleton]
      exact shift_divides b method (by omega) (by omega) count here
  · have other : ∀ k, v.toInt ≠ 2 ^ k := fun k same => power ⟨k, same⟩
    rw [divisionBy_plain on b.tab line line' left fatherOp temps other] at placed le ⊢
    generalize exprCode env b.tab Operator.division.code left temps = dividend at *
    have loads := placed.right.head
    have divides := placed.right.tail.head
    have two : (dividend.code ++ [IrInstr.loadval v dividend.temps, .binary .div dividend.result
        (.temp dividend.temps) (dividend.temps + 1)]).length - dividend.code.length = 2 := by simp
    rw [List.length_append, List.length_cons, List.length_singleton] at le
    dsimp only
    rw [two]
    refine ⟨fun k' => ?_, objectBlock_placed b.tab b.headAst (size divides), ?_⟩
    · rw [b.code_of_instrs loads]
      refine iff_of_false ?_ (other k')
      rintro ⟨var1, reg, same⟩
      cases same
    · have apart := literal_apart on b
        (fun n mem => (results n (by simpa using mem)).2) loads divides
      have both : (List.range' (p + dividend.code.length) 2).flatMap
          (objectLines b.tab b.headAst b.code) =
          objectLines b.tab b.headAst b.code (p + dividend.code.length) ++
            objectLines b.tab b.headAst b.code (p + dividend.code.length + 1) := by
        simp [List.range'_succ]
      rw [both]
      exact divide_divides b method (by omega) (by omega) nonzero loads divides apart

/-- `integer main() { integer x = 5; return x / divisor; }`. -/
def xOver (divisor : ExprSyn) : ProgramSyn :=
  let x : Ident := .of "x"
  [.methodDecl ⟨1, some .integer, .of "main", [],
    some (.mk 1 [⟨2, .integer, x, some (.integerLiteral 2 5)⟩]
      (.cons (.returnExpr 3 (.binary 3 .slash (.id 3 x) divisor)) .nil))⟩]

/-- The frame of `main` in front of the division. -/
def beforeDivision (x : Word) : Machine where
  reg _ := 0
  rsp := 968
  rbp := 1000
  mem a := if a = 984 then x else 0
  flags := ⟨false, false, false⟩

/-- `x / (0 - 1)`: the divisor is folded to the literal -1, and for the least dividend the
lines leave no value. -/
theorem literal_division_overflow :
    ∃ b : Compiled (.sample true),
      b.prog = xOver (.paren (.binary 3 .minus (.integerLiteral 3 0) (.integerLiteral 3 1))) ∧
      InMethod b.code 0 7 "main".toList ∧
      b.code[4]? = some ⟨.loadval, some "-1".toList, none, some (tempText 0)⟩ ∧
      b.code[5]? = some ⟨.div, some "x".toList, some (tempText 0), some (tempText 0)⟩ ∧
      InSlot (objectState b.tab b.headAst b.code 7).varMap (beforeDivision (BitVec.intMin 64))
        "x".toList (BitVec.intMin 64) ∧
      execLines (objectLines b.tab b.headAst b.code 4 ++ objectLines b.tab b.headAst b.code 5)
        (beforeDivision (BitVec.intMin 64)) = none := by
  obtain ⟨checked, accepted⟩ := isOk_iff.mp (by decide +kernel : (frontEnd (.sample true)
    (xOver (.paren (.binary 3 .minus (.integerLiteral 3 0) (.integerLiteral 3 1))))).isOk = true)
  have facts : (frontEnd (.sample true)
      (xOver (.paren (.binary 3 .minus (.integerLiteral 3 0) (.integerLiteral 3 1))))).toOption.bind
        (fun c => (finalHeap (.sample true) (intermediateCode (.sample true) c)).map fun heap =>
          let code := namedCode heap (intermediateCode (.sample true) c).code
          (code, findVar "x".toList (objectState c.tab c.headAst code 7).varMap,
            objectLines c.tab c.headAst code 4 ++ objectLines c.tab c.headAst code 5)) =
      some ([⟨.enter, some "main".toList, none, none⟩,
        ⟨.loadval, some "5".toList, none, some (tempText 0)⟩,
        ⟨.store, some (tempText 0), none, some "x".toList⟩,
        ⟨.load, some "x".toList, none, none⟩,
        ⟨.loadval, some "-1".toList, none, some (tempText 0)⟩,
        ⟨.div, some "x".toList, some (tempText 0), some (tempText 0)⟩,
        ⟨.ret, some (tempText 0), none, none⟩,
        ⟨.leave, some "main".toList, none, none⟩], some (-16),
        [.movqImm (.imm "-1".toList) (.slot (-8)), .movqToReg (.slot (-16)) .rax, .cqto,
          .idivq (.slot (-8)), .movqFromReg .rax (.slot (-8))]) := by decide +kernel
  obtain ⟨b, prog, rfl⟩ := Compiled.exists_of_accepted accepted fun _ _ _ => rfl
  simp only [accepted, Except.toOption, Option.bind_some, b.named, Option.map_some,
    Option.some.injEq, Prod.mk.injEq] at facts
  obtain ⟨code, slot, lines⟩ := facts
  have code' : b.code = _ := code
  have lines' : objectLines b.tab b.headAst b.code 4 ++ objectLines b.tab b.headAst b.code 5 = _ :=
    lines
  have method : InMethod b.code 0 7 "main".toList := by
    rw [code']
    exact inMethod_of_range (by decide) rfl rfl (by decide)
  refine ⟨b, prog, method, by rw [code']; rfl, by rw [code']; rfl, ⟨-16, slot, rfl⟩, ?_⟩
  rw [lines']
  decide +kernel

/-- `x / 8` is -2 for `x` -17. -/
theorem literal_division_correct_eight :
    ∃ (b : Compiled (.sample true)) (m' : Machine), b.prog = xOver (.integerLiteral 3 8) ∧
      b.code[4]? = some ⟨.shiftRight, some "x".toList, some "3".toList, some (tempText 0)⟩ ∧
      execLines (objectLines b.tab b.headAst b.code 4) (beforeDivision (-17)) = some (m', .next) ∧
      InSlot (objectState b.tab b.headAst b.code 6).varMap m' (tempText 0) (-2) := by
  obtain ⟨checked, accepted⟩ := isOk_iff.mp (by decide +kernel :
    (frontEnd (.sample true) (xOver (.integerLiteral 3 8))).isOk = true)
  have final : (frontEnd (.sample true) (xOver (.integerLiteral 3 8))).toOption.bind
        (fun c => (finalHeap (.sample true) (intermediateCode (.sample true) c)).map fun heap =>
          let code := namedCode heap (intermediateCode (.sample true) c).code
          (code, (objectState c.tab c.headAst code 6).varMap)) =
      some ([⟨.enter, some "main".toList, none, none⟩,
        ⟨.loadval, some "5".toList, none, some (tempText 0)⟩,
        ⟨.store, some (tempText 0), none, some "x".toList⟩,
        ⟨.load, some "x".toList, none, none⟩,
        ⟨.shiftRight, some "x".toList, some "3".toList, some (tempText 0)⟩,
        ⟨.ret, some (tempText 0), none, none⟩,
        ⟨.leave, some "main".toList, none, none⟩], slotsFrom 0 [tempText 0, "x".toList]) := by
    decide +kernel
  let left : AstNode := .leaf 3 (.id 0)
  have trees : (frontEnd (.sample true) (xOver (.integerLiteral 3 8))).toOption.map (fun c =>
        let dividend := exprCode (.sample true) c.tab Operator.division.code left 1
        let division := exprCode (.sample true) c.tab Operator.ret.code (divisionBy 3 3 left 8) 1
        (isExpr c.tab left, (programCode (.sample true) c.tab c.headAst ⟨0, 0⟩).1,
          (dividend.code, dividend.result), (division.code, division.result))) =
      some (true, [.enter (.of "main"), .loadval 5 0, .store (.temp 0) (.of "x"), .load (.of "x"),
          .shiftRight (.user (.of "x")) 3 1, .ret (some (.temp 1)), .leave (.of "main")],
        ([.load (.of "x")], .user (.of "x")),
        ([.load (.of "x"), .shiftRight (.user (.of "x")) 3 1], .temp 1)) := by
    decide +kernel
  obtain ⟨b, prog, rfl⟩ := Compiled.exists_of_accepted accepted fun _ _ _ => rfl
  simp only [accepted, Except.toOption, Option.bind_some, b.named, Option.map_some,
    Option.some.injEq, Prod.mk.injEq] at final trees
  obtain ⟨code, slots⟩ := final
  obtain ⟨shape, instrs, ⟨dividendCode, dividend⟩, divisionCode, division⟩ := trees
  have code' : b.code = _ := code
  have instrs' : b.instrs = _ := instrs
  have slots' : (objectState b.tab b.headAst b.code 6).varMap = _ := slots
  have method : InMethod b.code 0 6 "main".toList := by
    rw [code']
    exact inMethod_of_range (by decide) rfl rfl (by decide)
  change (exprCode _ b.tab _ _ _).code = _ at dividendCode divisionCode
  change (exprCode _ b.tab _ _ _).result = _ at dividend division
  have placed : Placed b.instrs 3
      (exprCode (.sample true) b.tab Operator.ret.code (divisionBy 3 3 left 8) 1).code := by
    rw [divisionCode, instrs']
    exact ⟨[.enter (.of "main"), .loadval 5 0, .store (.temp 0) (.of "x")],
      [.ret (some (.temp 1)), .leave (.of "main")], rfl, rfl⟩
  have done := literal_division_correct rfl b (v := 8) shape (by decide) placed method (by decide)
    (by rw [divisionCode]; decide)
  obtain ⟨-, -, divides⟩ := done
  rw [dividendCode, divisionCode, dividend, division, slots'] at divides
  let store : Store := fun name => if name = "x".toList then -17 else 0
  have holds : SlotsHold (slotsFrom 0 [tempText 0, "x".toList]) store (beforeDivision (-17)) :=
    slotsHold_iff.mpr (by unfold Holds; decide)
  have special : ¬ ((-17 : Word) = BitVec.intMin 64 ∧ (8 : BitVec 32) = -1) := by decide
  have value : store ((Var.user (.of "x")).name b.rename) = -17 := rfl
  have result := divides store _ holds
  dsimp only at result
  rw [value, if_neg special] at result
  obtain ⟨-, m', run, slot⟩ := result
  have shift : b.code[4]? = some ((IrInstr.shiftRight (.user (.of "x")) 3 1).named b.rename) :=
    b.code_of_instrs (by rw [instrs']; rfl)
  rw [named_shiftRight, code', List.getElem?_cons_succ] at shift
  have name : tempText 0 = tempText (b.rename 1) :=
    Option.some.inj (Instr.mk.inj (Option.some.inj shift)).2.2.2
  refine ⟨b, m', prog, by rw [code']; rfl, ?_, ?_⟩
  · have one : (List.range' 4 1).flatMap (objectLines b.tab b.headAst b.code) =
        objectLines b.tab b.headAst b.code 4 := by simp
    rw [← one]
    exact run
  · change InSlot _ m' (tempText (b.rename 1)) _ at slot
    rw [slots']
    rw [← name] at slot
    exact slot

end Ctds
