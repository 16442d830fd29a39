import Ctds.AsmRuns

/-! The arguments of a call on their way to the callee's slots: six in registers, the rest
pushed in the order in which they were written, and read by the prologue in the order of
the parameters, from the word that was pushed last. -/

namespace Ctds

open Decimal FirstSeen Transition Fallible

/-- The number of PARAMs directly in front of instruction `i`. -/
def argsBefore (code : List (Instr CString)) : Nat → Nat
  | 0 => 0
  | i + 1 =>
    match code[i]? with
    | some ⟨.param, _, _, _⟩ => argsBefore code i + 1
    | _ => 0

theorem getOperandStr_counts (var : Option CString) (os : ObjState) :
    (getOperandStr var os).1.paramCount = os.paramCount ∧
      (getOperandStr var os).1.stackParams = os.stackParams := by
  unfold getOperandStr getVarOffset
  cases var with
  | none => exact ⟨rfl, rfl⟩
  | some name =>
    dsimp only
    split
    · exact ⟨rfl, rfl⟩
    · split
      · exact ⟨rfl, rfl⟩
      · split <;> exact ⟨rfl, rfl⟩

theorem moveArguments_counts (args : List Args) (argIdx : Nat) (os : ObjState) :
    (moveArguments args argIdx os).1.paramCount = os.paramCount ∧
      (moveArguments args argIdx os).1.stackParams = os.stackParams := by
  induction args generalizing argIdx os with
  | nil => exact ⟨rfl, rfl⟩
  | cons arg rest ih =>
    have one : (getVarOffset arg.name.text os).1.paramCount = os.paramCount ∧
        (getVarOffset arg.name.text os).1.stackParams = os.stackParams := by
      unfold getVarOffset
      split <;> exact ⟨rfl, rfl⟩
    obtain ⟨params, stack⟩ := ih (argIdx + 1) (getVarOffset arg.name.text os).1
    exact ⟨params.trans one.1, stack.trans one.2⟩

theorem generateInstr_counts (tab : SymbolTable) (headAst : List AstNode)
    (code : List (Instr CString)) (i : Nat) (instr : Instr CString) (os : ObjState) :
    let os' := (generateInstr tab headAst code i instr os).1
    os'.paramCount = paramCountAfter instr os.paramCount ∧
      os'.stackParams = stackParamsAfter instr os.paramCount os.stackParams := by
  obtain ⟨t, var1, var2, reg⟩ := instr
  have params := fun var os => (getOperandStr_counts var os).1
  have stack := fun var os => (getOperandStr_counts var os).2
  cases t with
  | enter => exact moveArguments_counts _ _ _
  | ret =>
    cases var1 with
    | none => exact ⟨rfl, rfl⟩
    | some name => exact getOperandStr_counts (some name) os
  | param =>
    simp only [generateInstr, generateParam, paramCountAfter, stackParamsAfter, params]
    by_cases few : os.paramCount < 6
    · have reg : argRegs[os.paramCount]? = some (argRegs.get ⟨os.paramCount, few⟩) :=
        List.getElem?_eq_getElem few
      simp [reg, few, stack]
    · have none : argRegs[os.paramCount]? = none := List.getElem?_eq_none (Nat.le_of_not_lt few)
      simp [none, few, stack]
  | call => exact ⟨rfl, rfl⟩
  | load | externDecl | leave => exact ⟨rfl, rfl⟩
  | _ =>
    simp [generateInstr, generateLoadval, generateStore, generateArith, generateDivision,
      generateShiftRight, generateMin, generateNeg, generateComparison, generateLabel, generateJmp,
      generateJmpf, paramCountAfter, stackParamsAfter, params, stack]

theorem argsBefore_pos {code : List (Instr CString)} {i : Nat} (pos : argsBefore code i ≠ 0) :
    ∃ k instr, i = k + 1 ∧ code[k]? = some instr ∧ instr.instruct = .param := by
  cases i with
  | zero => exact absurd rfl pos
  | succ k =>
    refine ⟨k, ?_⟩
    unfold argsBefore at pos
    split at pos
    · next here => exact ⟨_, rfl, here, rfl⟩
    · exact absurd rfl pos

theorem eq_param {i : IrInstr} (isParam : i.instr.instruct = .param) : ∃ arg, i = .param arg := by
  cases i with
  | param arg => exact ⟨arg, rfl⟩
  | binary t _ _ _ => cases t <;> cases isParam
  | unary t _ _ => cases t <;> cases isParam
  | _ => cases isParam

theorem Grouped.argsBefore_eq_zero {instrs : List IrInstr} (grouped : Grouped instrs)
    (ρ : Nat → Nat) {i : Nat} {instr : Instr CString}
    (here : (instrs.map (IrInstr.named ρ))[i]? = some instr) (notParam : instr.instruct ≠ .param)
    (notCall : instr.instruct ≠ .call) : argsBefore (instrs.map (IrInstr.named ρ)) i = 0 := by
  have renamed : ∀ {k : Nat} {ir : IrInstr}, instrs[k]? = some ir →
      (instrs.map (IrInstr.named ρ))[k]? = some (ir.named ρ) := fun at' => by
    rw [List.getElem?_map, at']
    rfl
  by_contra pos
  obtain ⟨k, previous, rfl, before, isParam⟩ := argsBefore_pos pos
  rw [List.getElem?_map, Option.map_eq_some_iff] at before
  obtain ⟨ir, atIr, rfl⟩ := before
  obtain ⟨arg, rfl⟩ := eq_param isParam
  rcases grouped k arg atIr with ⟨next, eq⟩ | ⟨f, t, eq⟩
  · obtain rfl := Option.some.inj (here.symm.trans (renamed eq))
    exact notParam rfl
  · obtain rfl := Option.some.inj (here.symm.trans (renamed eq))
    exact notCall rfl

theorem objectState_argsBefore (tab : SymbolTable) (headAst : List AstNode)
    {code : List (Instr CString)} (others : ∀ i instr, code[i]? = some instr →
      instr.instruct ≠ .param → instr.instruct ≠ .call → argsBefore code i = 0)
    {i : Nat} (le : i ≤ code.length) :
    (objectState tab headAst code i).paramCount = argsBefore code i ∧
      (objectState tab headAst code i).stackParams = argsBefore code i - 6 := by
  induction i with
  | zero => exact ⟨rfl, rfl⟩
  | succ i ih =>
    obtain ⟨params, stack⟩ := ih (Nat.le_of_succ_le le)
    have here := List.getElem?_eq_getElem le
    obtain ⟨params', stack'⟩ := generateInstr_counts tab headAst code i code[i]
      (objectState tab headAst code i)
    rw [objectState_succ here, params', stack', params, stack, argsBefore, here]
    have zero := others i code[i] here
    revert zero
    generalize code[i] = instr
    obtain ⟨t, var1, var2, reg⟩ := instr
    intro zero
    cases t with
    | param =>
      dsimp only [paramCountAfter, stackParamsAfter]
      refine ⟨rfl, ?_⟩
      split <;> omega
    | call => exact ⟨rfl, rfl⟩
    | _ =>
      have none := zero (by simp) (by simp)
      simp [paramCountAfter, stackParamsAfter, none]

namespace Compiled

variable {env : Env} (b : Compiled env)

theorem grouped : Grouped b.instrs := programCode_grouped b.compilable.shape ⟨0, 0⟩

theorem argsBefore_eq_zero {i : Nat} {instr : Instr CString} (here : b.code[i]? = some instr)
    (notParam : instr.instruct ≠ .param) (notCall : instr.instruct ≠ .call) :
    argsBefore b.code i = 0 := by
  rw [b.code_eq] at here ⊢
  exact b.grouped.argsBefore_eq_zero b.rename here notParam notCall

theorem objectState_counts {i : Nat} (le : i ≤ b.code.length) :
    (objectState b.tab b.headAst b.code i).paramCount = argsBefore b.code i ∧
      (objectState b.tab b.headAst b.code i).stackParams = argsBefore b.code i - 6 :=
  objectState_argsBefore b.tab b.headAst (fun _ _ => b.argsBefore_eq_zero) le

end Compiled

/-- The lines of consecutive PARAMs. -/
def paramLines (names : List CString) : List CString → Nat → List AsmLine
  | [], _ => []
  | arg :: rest, k =>
    (match argRegs[k]? with
      | some r => .movqToReg (.slot (slotOffset names arg)) r
      | none => .pushq (.slot (slotOffset names arg))) :: paramLines names rest (k + 1)

/-- The words that consecutive pushes put on the stack. A push can hit the slot of an
argument that is still to be pushed, when the slot lies below the stack pointer. -/
def pushedWords (rbp : Int) : List Int → Int → (Int → Word) → List Word
  | [], _, _ => []
  | offset :: rest, rsp, mem =>
    mem (rbp + offset) ::
      pushedWords rbp rest (rsp - 8) (Function.update mem (rsp - 8) (mem (rbp + offset)))

theorem length_pushedWords (rbp : Int) (offsets : List Int) (rsp : Int) (mem : Int → Word) :
    (pushedWords rbp offsets rsp mem).length = offsets.length := by
  induction offsets generalizing rsp mem with
  | nil => rfl
  | cons offset rest ih => rw [pushedWords, List.length_cons, ih, List.length_cons]

theorem pushedWords_covered {rbp rsp : Int} {mem : Int → Word} {offsets : List Int}
    (above : ∀ offset ∈ offsets, rsp ≤ rbp + offset) :
    pushedWords rbp offsets rsp mem = offsets.map fun offset => mem (rbp + offset) := by
  induction offsets generalizing rsp mem with
  | nil => rfl
  | cons offset rest ih =>
    have rest' : ∀ other ∈ rest, rsp ≤ rbp + other := fun other mem =>
      above other (List.mem_cons_of_mem _ mem)
    rw [pushedWords, ih fun other mem => by have := rest' other mem; omega, List.map_cons]
    refine congrArg _ (List.map_congr_left fun other mem => ?_)
    exact Function.update_of_ne (by have := rest' other mem; omega) _ _

theorem argRegs_getElem? {k : Nat} (lt : k < 6) : ∃ r, argRegs[k]? = some r :=
  ⟨_, List.getElem?_eq_getElem lt⟩

theorem argRegs_nodup : argRegs.Nodup := by decide

theorem argRegs_ne_rax {k : Nat} {r : Reg} (here : argRegs[k]? = some r) : r ≠ .rax := by
  rintro rfl
  exact absurd (List.mem_of_getElem? here) (by decide)

theorem argRegs_inj {i j : Nat} {r : Reg} (here : argRegs[i]? = some r)
    (other : argRegs[j]? = some r) : i = j :=
  (List.nodup_iff_injective_get.mp argRegs_nodup |> fun inj => by
    obtain ⟨ltI, eqI⟩ := List.getElem?_eq_some_iff.mp here
    obtain ⟨ltJ, eqJ⟩ := List.getElem?_eq_some_iff.mp other
    exact congrArg Fin.val (@inj ⟨i, ltI⟩ ⟨j, ltJ⟩ (eqI.trans eqJ.symm)))

theorem execLines_registers (names : List CString) (args : List CString) (k : Nat)
    (few : k + args.length ≤ 6) (m : Machine) :
    ∃ reg, execLines (paramLines names args k) m = some ({ m with reg := reg }, .next) ∧
      (∀ i arg r, args[i]? = some arg → argRegs[k + i]? = some r →
        reg r = m.mem (m.rbp + slotOffset names arg)) ∧
      ∀ i r, argRegs[i]? = some r → i < k → reg r = m.reg r := by
  induction args generalizing k m with
  | nil => exact ⟨m.reg, rfl, by simp, fun _ _ _ _ => rfl⟩
  | cons arg rest ih =>
    rw [List.length_cons] at few
    obtain ⟨r₀, reg₀⟩ := argRegs_getElem? (k := k) (by omega)
    obtain ⟨reg, run, later, earlier⟩ := ih (k + 1) (by omega)
      (m.setReg r₀ (m.mem (m.rbp + slotOffset names arg)))
    have first : execLine (.movqToReg (.slot (slotOffset names arg)) r₀) m =
        some (m.setReg r₀ (m.mem (m.rbp + slotOffset names arg)), .next) := rfl
    refine ⟨reg, ?_, ?_, ?_⟩
    · simp only [paramLines, reg₀]
      rw [execLines_next first, run]
      rfl
    · intro i other r at' here
      cases i with
      | zero =>
        obtain rfl := Option.some.inj at'
        obtain rfl := Option.some.inj (reg₀.symm.trans here)
        rw [earlier k r₀ reg₀ (Nat.lt_succ_self k)]
        exact Function.update_self _ _ _
      | succ i =>
        refine later i other r at' ?_
        rw [← here]
        congr 1
        omega
    · intro i r here lt
      rw [earlier i r here (Nat.lt_succ_of_lt lt)]
      refine Function.update_of_ne ?_ _ _
      rintro rfl
      have := argRegs_inj here reg₀
      omega

theorem execLines_pushes {names : List CString} {args : List CString} {k : Nat} (many : 6 ≤ k)
    {m m' : Machine} {control : Control}
    (run : execLines (paramLines names args k) m = some (m', control)) :
    control = .next ∧ m'.reg = m.reg ∧ m'.rbp = m.rbp ∧ m'.rsp = m.rsp - 8 * args.length ∧
      (∀ address, m.rsp ≤ address → m'.mem address = m.mem address) ∧
      ∀ t : Nat, t < args.length → some (m'.mem (m'.rsp + 8 * t)) =
        (pushedWords m.rbp (args.map (slotOffset names)) m.rsp m.mem)[args.length - 1 - t]? := by
  induction args generalizing k m with
  | nil =>
    simp only [paramLines, execLines, Option.some.injEq, Prod.mk.injEq] at run
    obtain ⟨rfl, rfl⟩ := run
    simp
  | cons arg rest ih =>
    have none : argRegs[k]? = none := List.getElem?_eq_none many
    simp only [paramLines, none] at run
    have push : execLine (.pushq (.slot (slotOffset names arg))) m =
        (m.push (m.mem (m.rbp + slotOffset names arg))).map fun m => (m, Control.next) := rfl
    by_cases full : m.rsp < 8
    · rw [execLines_fault (by rw [push, Machine.push, if_pos full]; rfl)] at run
      cases run
    · rw [execLines_next (by rw [push, Machine.push, if_neg full]; rfl)] at run
      obtain ⟨next, reg, rbp, rsp, above, words⟩ := ih (Nat.le_succ_of_le many) run
      dsimp only at reg rbp rsp above words
      have rsp' : m'.rsp = m.rsp - 8 * ((arg :: rest).length : Nat) := by
        rw [rsp, List.length_cons]
        push_cast
        omega
      refine ⟨next, reg, rbp, rsp', fun address le => ?_, fun t lt => ?_⟩
      · rw [above address (by omega)]
        exact Function.update_of_ne (by omega) _ _
      · rw [List.map_cons, pushedWords]
        by_cases last : t = rest.length
        · subst last
          have place : m'.rsp + 8 * (rest.length : Int) = m.rsp - 8 := by rw [rsp]; omega
          rw [place, above _ (Int.le_refl _), Function.update_self]
          simp
        · rw [List.length_cons] at lt ⊢
          have index : rest.length + 1 - 1 - t = rest.length - 1 - t + 1 := by omega
          rw [words t (by omega), index, List.getElem?_cons_succ]

/-- The word the prologue reads for parameter `i`. -/
def incoming (m : Machine) (i : Nat) : Word :=
  match argRegs[i]? with
  | some r => m.reg r
  | none => m.mem (m.rbp + (16 + ((i : Int) - 6) * 8))

theorem incoming_congr {m m' : Machine} (rbp : m'.rbp = m.rbp)
    (reg : ∀ r, r ≠ .rax → m'.reg r = m.reg r)
    (mem : ∀ address, m.rbp ≤ address → m'.mem address = m.mem address) (i : Nat) :
    incoming m' i = incoming m i := by
  unfold incoming
  cases here : argRegs[i]? with
  | some r => exact reg r (argRegs_ne_rax here)
  | none =>
    have many : 6 ≤ i := List.getElem?_eq_none_iff.mp here
    dsimp only
    rw [rbp, mem _ (by omega)]

theorem execLines_move_one (all : List CString) (arg : Args) (rest : List Args) (k : Nat)
    (m : Machine) :
    ∃ m', execLines (moveLines all (arg :: rest) k) m = execLines (moveLines all rest (k + 1)) m' ∧
      m'.rbp = m.rbp ∧ m'.rsp = m.rsp ∧ (∀ r, r ≠ .rax → m'.reg r = m.reg r) ∧
      m'.mem = Function.update m.mem (m.rbp + slotOffset all arg.name.text) (incoming m k) := by
  unfold incoming
  cases here : argRegs[k]? with
  | some r =>
    refine ⟨m.setMem (m.rbp + slotOffset all arg.name.text) (m.reg r), ?_, rfl, rfl,
      fun _ _ => rfl, rfl⟩
    rw [moveLines, here]
    exact execLines_next rfl
  | none =>
    refine ⟨(m.setReg .rax (m.mem (m.rbp + (16 + ((k : Int) - 6) * 8)))).setMem
      (m.rbp + slotOffset all arg.name.text)
        (m.mem (m.rbp + (16 + ((k : Int) - 6) * 8))), ?_, rfl, rfl,
      fun r other => Function.update_of_ne other _ _, rfl⟩
    rw [moveLines, here]
    exact (execLines_next rfl).trans (execLines_next rfl)

theorem execLines_moves {all : List CString} {args : List Args} (k : Nat)
    (nodup : (argNames args).Nodup) (known : ∀ name ∈ argNames args, name ∈ all) (m : Machine) :
    ∃ m', execLines (moveLines all args k) m = some (m', .next) ∧ m'.rbp = m.rbp ∧
      m'.rsp = m.rsp ∧
      (∀ i name, (argNames args)[i]? = some name →
        m'.mem (m.rbp + slotOffset all name) = incoming m (k + i)) ∧
      ∀ address, (∀ name ∈ argNames args, address ≠ m.rbp + slotOffset all name) →
        m'.mem address = m.mem address := by
  induction args generalizing k m with
  | nil => exact ⟨m, rfl, rfl, rfl, by simp [argNames], fun _ _ => rfl⟩
  | cons arg rest ih =>
    have names : argNames (arg :: rest) = arg.name.text :: argNames rest := rfl
    rw [names, List.nodup_cons] at nodup
    have here : arg.name.text ∈ all := known _ (names ▸ List.mem_cons_self)
    have known' : ∀ name ∈ argNames rest, name ∈ all := fun name mem =>
      known name (names ▸ List.mem_cons_of_mem _ mem)
    obtain ⟨m₁, first, rbp, rsp, reg, mem⟩ := execLines_move_one all arg rest k m
    obtain ⟨m', run, rbp', rsp', values, frame⟩ := ih (k + 1) nodup.2 known' m₁
    have same : ∀ i, incoming m₁ i = incoming m i := incoming_congr rbp reg fun address le => by
      rw [mem]
      have := slotOffset_neg all arg.name.text
      exact Function.update_of_ne (by omega) _ _
    rw [rbp] at values frame
    refine ⟨m', first.trans run, rbp'.trans rbp, rsp'.trans rsp, fun i name at' => ?_,
      fun address apart => ?_⟩
    · rw [names] at at'
      cases i with
      | zero =>
        obtain rfl := Option.some.inj at'
        rw [frame, mem, Function.update_self, Nat.add_zero]
        intro name other eq
        refine nodup.1 ?_
        rw [slotOffset_inj here (Int.add_left_cancel eq)]
        exact other
      | succ i =>
        rw [values i name at', same, Nat.add_right_comm, Nat.add_assoc]
    · rw [frame address fun name mem => apart name (names ▸ List.mem_cons_of_mem _ mem), mem]
      exact Function.update_of_ne (apart _ (names ▸ List.mem_cons_self)) _ _

theorem paramLines_append (names args more : List CString) (k : Nat) :
    paramLines names (args ++ more) k =
      paramLines names args k ++ paramLines names more (k + args.length) := by
  induction args generalizing k with
  | nil => rfl
  | cons arg rest ih =>
    rw [List.cons_append, paramLines, ih, paramLines, List.length_cons, Nat.add_right_comm,
      Nat.add_assoc]
    rfl

theorem paramLines_split (names args : List CString) :
    paramLines names args 0 =
      paramLines names (args.take 6) 0 ++ paramLines names (args.drop 6) 6 := by
  have split := paramLines_append names (args.take 6) (args.drop 6) 0
  rw [List.take_append_drop, Nat.zero_add, List.length_take] at split
  rw [split]
  refine congrArg _ ?_
  rcases Nat.le_total 6 args.length with many | few
  · rw [Nat.min_eq_left many]
  · rw [List.drop_eq_nil_of_le few]
    rfl

/-- All the arguments of a call: the first six in their registers, the words of the others
above the stack pointer, the last one lowest. -/
theorem execLines_args {names args : List CString} {m m' : Machine} {control : Control}
    (run : execLines (paramLines names args 0) m = some (m', control)) :
    (∀ (i : Nat) arg r, args[i]? = some arg → argRegs[i]? = some r →
        m'.reg r = m.mem (m.rbp + slotOffset names arg)) ∧
      ∀ t : Nat, t < args.length - 6 → some (m'.mem (m'.rsp + 8 * t)) =
        (pushedWords m.rbp ((args.drop 6).map (slotOffset names)) m.rsp
        m.mem)[args.length - 6 - 1 - t]? := by
  obtain ⟨reg, first, inRegs, -⟩ := execLines_registers names (args.take 6) 0
    (by rw [List.length_take]; omega) m
  rw [paramLines_split, execLines_append first] at run
  obtain ⟨-, sameReg, -, -, -, words⟩ := execLines_pushes (Nat.le_refl 6) run
  refine ⟨fun i arg r at' here => ?_, fun t lt => ?_⟩
  · rw [sameReg]
    refine inRegs i arg r ?_ (by rwa [Nat.zero_add])
    have few : i < 6 := (List.getElem?_eq_some_iff.mp here).1
    rw [List.getElem?_take_of_lt few, at']
  · rw [← List.length_drop] at lt ⊢
    exact words t lt

/-- From position `j` on: the PARAMs of a call, all of them, and the CALL. -/
structure CallSite (code : List (Instr CString)) (j : Nat) (g : CString) (args : List CString) :
    Prop where
  params : ∀ k arg, args[k]? = some arg → code[j + k]? = some ⟨.param, some arg, none, none⟩
  call : ∃ dest, code[j + args.length]? = some ⟨.call, some g, none, dest⟩
  first : ∀ instr, code[j - 1]? = some instr → instr.instruct ≠ .param

/-- The lines of the prologue behind `.globl`. -/
def prologueLines (all : List CString) (size : Int) (g : CString) (params : List Args) :
    List AsmLine :=
  [.label g, .pushqRbp, .movqRspRbp] ++ (if 0 < size then [.subqRsp size] else []) ++
    moveLines all params 0

theorem prologueLines_straight (all : List CString) (size : Int) (g : CString)
    (params : List Args) : ∀ line ∈ prologueLines all size g params, line.isStraight = true := by
  intro line mem
  simp only [prologueLines, List.mem_append] at mem
  rcases mem with (mem | mem) | mem
  · simp only [List.mem_cons, List.not_mem_nil, or_false] at mem
    rcases mem with rfl | rfl | rfl <;> rfl
  · split at mem
    · obtain rfl := List.mem_singleton.mp mem
      rfl
    · cases mem
  · rcases mem_moveLines mem with ⟨r, name, rfl⟩ | ⟨offset, rfl⟩ <;> rfl

/-- After the prologue each parameter's slot holds the word that came in for it, and the
words that were pushed lie where they did. -/
theorem execLines_prologue {all : List CString} {size : Int} {g : CString} {params : List Args}
    (nodup : (argNames params).Nodup) (known : ∀ name ∈ argNames params, name ∈ all)
    {m m' : Machine} {control : Control}
    (run : execLines (prologueLines all size g params) m = some (m', control)) :
    m'.rbp = m.rsp - 8 ∧ ∀ (i : Nat) name, (argNames params)[i]? = some name →
      m'.mem (m'.rbp + slotOffset all name) =
        match argRegs[i]? with
        | some r => m.reg r
        | none => m.mem (m.rsp + 8 + ((i : Int) - 6) * 8) := by
  by_cases full : m.rsp < 8
  · rw [prologueLines, List.append_assoc, List.cons_append,
      execLines_next (rfl : execLine (.label g) m = some (m, .next)), List.cons_append,
      execLines_fault (by rw [execLine, Machine.push, if_pos full]; rfl)] at run
    cases run
  · let pushed : Machine :=
      { m with rsp := m.rsp - 8, mem := Function.update m.mem (m.rsp - 8) (BitVec.ofInt 64 m.rbp) }
    let framed : Machine := { pushed with rbp := m.rsp - 8 }
    have push : execLine .pushqRbp m = some (pushed, .next) := by
      rw [execLine, Machine.push, if_neg full]
      rfl
    rw [prologueLines, List.append_assoc, List.cons_append,
      execLines_next (rfl : execLine (.label g) m = some (m, .next)), List.cons_append,
      execLines_next push, List.cons_append,
        execLines_next (rfl : execLine .movqRspRbp pushed = some (framed, .next)),
          List.nil_append] at run
    -- `subq` changes nothing that the moves read
    have sub : ∃ m₂ : Machine, m₂.rbp = framed.rbp ∧ m₂.reg = framed.reg ∧ m₂.mem = framed.mem ∧
        execLines (moveLines all params 0) m₂ = some (m', control) := by
      by_cases room : 0 < size
      · rw [if_pos room, List.cons_append, List.nil_append] at run
        by_cases low : framed.rsp < size
        · rw [execLines_fault (by rw [execLine, if_pos low])] at run
          cases run
        · rw [execLines_next (by rw [execLine, if_neg low])] at run
          exact ⟨framed.moveStackPointer (framed.rsp - size), rfl, rfl, rfl, run⟩
      · rw [if_neg room, List.nil_append] at run
        exact ⟨framed, rfl, rfl, rfl, run⟩
    obtain ⟨m₂, rbp₂, reg₂, mem₂, moves⟩ := sub
    obtain ⟨m₃, moved, rbp₃, -, values, -⟩ := execLines_moves 0 nodup known m₂
    obtain ⟨rfl, -⟩ := Prod.mk.inj (Option.some.inj (moved.symm.trans moves))
    refine ⟨rbp₃.trans rbp₂, fun i name at' => ?_⟩
    rw [rbp₃, values i name at', Nat.zero_add, incoming, reg₂, mem₂, rbp₂]
    cases here : argRegs[i]? with
    | some r => rfl
    | none =>
      have many : 6 ≤ i := List.getElem?_eq_none_iff.mp here
      have place : m.rsp - 8 + (16 + ((i : Int) - 6) * 8) =
        m.rsp + 8 + ((i : Int) - 6) * 8 := by omega
      dsimp only [framed, pushed]
      rw [place, Function.update_of_ne (by omega)]

section Site

variable {env : Env} {b : Compiled env} {e l j : Nat} {f g : CString} {args : List CString}

theorem argsBefore_site (pos : 0 < j) (site : CallSite b.code j g args) {k : Nat}
    (le : k ≤ args.length) : argsBefore b.code (j + k) = k := by
  induction k with
  | zero =>
    by_contra some
    obtain ⟨i, instr, eq, here, isParam⟩ := argsBefore_pos some
    refine site.first instr ?_ isParam
    rw [← here]
    congr 1
    omega
  | succ k ih =>
    have here := site.params k _ (List.getElem?_eq_getElem le)
    rw [← Nat.add_assoc, argsBefore, here]
    dsimp only
    rw [ih (Nat.le_of_succ_le le)]

theorem param_var {i : Nat} {arg : CString}
    (here : b.code[i]? = some ⟨.param, some arg, none, none⟩) :
    ∃ x : Var, arg = x.name b.rename := by
  obtain ⟨ir, -, named⟩ := b.code_getElem? here
  obtain ⟨x, rfl⟩ := eq_param (i := ir) (congrArg Instr.instruct named).symm
  rw [named_param, Instr.mk.injEq] at named
  exact ⟨x, Option.some.inj named.2.1⟩

theorem objectLines_param (caller : InMethod b.code e l f) (gt : e < j) (lt : j + args.length < l)
    (site : CallSite b.code j g args) {k : Nat} {arg : CString} (at' : args[k]? = some arg) :
    objectLines b.tab b.headAst b.code (j + k) =
      paramLines (methodNames b.tab b.headAst b.code e f l) [arg] k := by
  have inside := (List.getElem?_eq_some_iff.mp at').1
  have here := site.params k arg at'
  obtain ⟨x, rfl⟩ := param_var here
  obtain ⟨p, s, state, lines⟩ := objectLines_inside b.tab b.headAst caller
    (by omega) (by omega) here
  have counts := (b.objectState_counts (i := j + k)
    (Nat.le_of_lt (List.getElem?_eq_some_iff.mp here).1)).1
  rw [state, argsBefore_site (by omega) site (Nat.le_of_lt inside)] at counts
  obtain rfl : p = k := counts
  rw [lines]
  dsimp only [instrLines]
  rw [operandFor_var, paramLines, paramLines]
  cases argRegs[p]? <;> rfl

theorem lineStart_site (caller : InMethod b.code e l f) (gt : e < j) (lt : j + args.length < l)
    (site : CallSite b.code j g args) {k : Nat} (le : k ≤ args.length) :
    lineStart b.tab b.headAst b.code (j + k) = lineStart b.tab b.headAst b.code j + k := by
  induction k with
  | zero => rfl
  | succ k ih =>
    rw [← Nat.add_assoc, lineStart_succ, ih (Nat.le_of_succ_le le),
      objectLines_param caller gt lt site (List.getElem?_eq_getElem le)]
    rfl

theorem paramLines_getElem? (names args : List CString) (s k : Nat) :
    (paramLines names args s)[k]? =
      args[k]?.bind fun arg => (paramLines names [arg] (s + k))[0]? := by
  induction args generalizing s k with
  | nil => rfl
  | cons arg rest ih =>
    cases k with
    | zero => rfl
    | succ k =>
      rw [paramLines, List.getElem?_cons_succ, List.getElem?_cons_succ, ih, Nat.add_right_comm,
        Nat.add_assoc]

theorem paramLines_at (caller : InMethod b.code e l f) (gt : e < j) (lt : j + args.length < l)
    (site : CallSite b.code j g args) {k : Nat} (inside : k < args.length) :
    b.lines[lineStart b.tab b.headAst b.code j + k]? =
      (paramLines (methodNames b.tab b.headAst b.code e f l) args 0)[k]? := by
  have at' := List.getElem?_eq_getElem inside
  have line : (objectLines b.tab b.headAst b.code (j + k))[0]? =
      (paramLines (methodNames b.tab b.headAst b.code e f l) args 0)[k]? := by
    rw [objectLines_param caller gt lt site at', paramLines_getElem? _ args, at', Nat.zero_add]
    rfl
  cases known : (paramLines (methodNames b.tab b.headAst b.code e f l) args 0)[k]? with
  | none =>
    rw [paramLines_getElem?, at'] at known
    cases known
  | some asmLine =>
    rw [known] at line
    have placed := b.line_of_instr line
    rwa [lineStart_site caller gt lt site (Nat.le_of_lt inside), Nat.add_zero] at placed

theorem length_paramLines (names args : List CString) (k : Nat) :
    (paramLines names args k).length = args.length := by
  induction args generalizing k with
  | nil => rfl
  | cons arg rest ih => rw [paramLines, List.length_cons, ih, List.length_cons]

theorem paramLines_straight (names args : List CString) (k : Nat) :
    ∀ line ∈ paramLines names args k, line.isStraight = true := by
  induction args generalizing k with
  | nil => simp [paramLines]
  | cons arg rest ih =>
    intro line mem
    rw [paramLines, List.mem_cons] at mem
    rcases mem with rfl | mem
    · split <;> rfl
    · exact ih _ line mem

theorem objectLines_enter {e' l' : Nat} (callee : InMethod b.code e' l' g) :
    objectLines b.tab b.headAst b.code e' =
      .globl g :: prologueLines (methodNames b.tab b.headAst b.code e' g l')
      (frameSize b.code e' g) g
        (funcArgs b.tab b.headAst g) := by
  rw [(objectState_enter b.tab b.headAst callee).2]
  rfl

/-- The run of a call: the arguments, the push of the return address, the prologue. -/
theorem run_call {ext : Extern} {e' l' : Nat} (caller : InMethod b.code e l f)
    (callee : InMethod b.code e' l' g) (gt : e < j) (lt : j + args.length < l)
    (site : CallSite b.code j g args) {m : Machine} {c : Config}
    (ran : run (asmStep b.lines ext)
      (args.length + (objectLines b.tab b.headAst b.code e').length)
      ⟨lineStart b.tab b.headAst b.code j, m⟩ = some c) :
    c.pc = lineStart b.tab b.headAst b.code (e' + 1) ∧
      ∃ m₁ m₂ control control', execLines
          (paramLines (methodNames b.tab b.headAst b.code e f l) args 0) m = some (m₁, control) ∧
        m₁.push (BitVec.ofNat 64 (lineStart b.tab b.headAst b.code j + args.length + 1)) = some m₂ ∧
        execLines (prologueLines (methodNames b.tab b.headAst b.code e' g l')
          (frameSize b.code e' g) g (funcArgs b.tab b.headAst g)) m₂ =
          some (c.machine, control') := by
  have enter := objectLines_enter callee
  have params := @run_straight b.lines ext _ (lineStart b.tab b.headAst b.code j)
    (paramLines_straight (methodNames b.tab b.headAst b.code e f l) args 0)
    (fun i inside => paramLines_at caller gt lt site (by rwa [length_paramLines] at inside)) m
  rw [length_paramLines] at params
  rw [run_add, params] at ran
  cases exec₁ : execLines (paramLines (methodNames b.tab b.headAst b.code e f l) args 0) m with
  | none => rw [exec₁] at ran; cases ran
  | some result =>
    obtain ⟨m₁, control⟩ := result
    rw [exec₁, enter, List.length_cons, Option.map_some, Option.bind_some] at ran
    -- the call goes to the line behind `.globl`
    obtain ⟨dest, call⟩ := site.call
    have callLine : b.lines[lineStart b.tab b.headAst b.code j + args.length]? =
      some (.call g) := by
      obtain ⟨p, s, -, lines⟩ := objectLines_inside b.tab b.headAst caller
        (by omega) lt call
      have first : (objectLines b.tab b.headAst b.code (j + args.length))[0]? = some (.call g) := by
        rw [lines]
        rfl
      have placed := b.line_of_instr first
      rwa [lineStart_site caller gt lt site (Nat.le_refl _), Nat.add_zero] at placed
    let prologue := prologueLines (methodNames b.tab b.headAst b.code e' g l')
      (frameSize b.code e' g) g (funcArgs b.tab b.headAst g)
    have placed : ∀ i, i < prologue.length →
        b.lines[lineStart b.tab b.headAst b.code e' + 1 + i]? = prologue[i]? := fun i inside => by
      have line : (objectLines b.tab b.headAst b.code e')[i + 1]? = some prologue[i] := by
        rw [enter, List.getElem?_cons_succ]
        exact List.getElem?_eq_getElem inside
      rw [Nat.add_assoc, Nat.add_comm 1, b.line_of_instr line, List.getElem?_eq_getElem inside]
    have target := b.findLabel_eq (placed 0 (Nat.zero_lt_succ _))
    have called : asmStep b.lines ext ⟨lineStart b.tab b.headAst b.code j + args.length, m₁⟩ =
        (m₁.push (BitVec.ofNat 64 (lineStart b.tab b.headAst b.code j + args.length + 1))).map
          fun m => ⟨lineStart b.tab b.headAst b.code e' + 1, m⟩ := by
      simp only [asmStep, callLine, execLine]
      rw [show findLabel b.lines g = _ from target]
    cases pushed : m₁.push
      (BitVec.ofNat 64 (lineStart b.tab b.headAst b.code j + args.length + 1)) with
    | none =>
      rw [pushed] at called
      simp [run, called] at ran
    | some m₂ =>
      rw [pushed] at called
      rw [run_succ called, run_straight ext (prologueLines_straight _ _ _ _) placed,
        Option.map_eq_some_iff] at ran
      obtain ⟨⟨m₃, control'⟩, exec₂, rfl⟩ := ran
      refine ⟨?_, m₁, m₂, control, control', rfl, pushed, exec₂⟩
      rw [lineStart_succ, enter, List.length_cons]
      dsimp only
      omega

def slotOf (slots : List VarLocation) (name : CString) : Int := (findVar name slots).getD 0

/-- The word in the slot of a name. -/
def valueIn (slots : List VarLocation) (m : Machine) (name : CString) : Word :=
  m.mem (m.rbp + slotOf slots name)

theorem slotOf_eq {names : List CString} {name : CString} (mem : name ∈ names) :
    slotOf (slotsFrom 0 names) name = slotOffset names name := by
  rw [slotOf, findVar_slots, if_pos mem, Option.getD_some]

theorem push_stack {m m' : Machine} {v : Word} (pushed : m.push v = some m') :
    m'.rsp = m.rsp - 8 ∧ m'.reg = m.reg ∧
      ∀ address, m.rsp ≤ address → m'.mem address = m.mem address := by
  obtain ⟨-, rfl⟩ := Machine.of_push pushed
  exact ⟨rfl, rfl, fun address le => Function.update_of_ne (by omega) _ _⟩

theorem arg_mem_methodNames (caller : InMethod b.code e l f) (gt : e < j)
    (lt : j + args.length < l) (site : CallSite b.code j g args) {k : Nat} {arg : CString}
    (at' : args[k]? = some arg) : arg ∈ methodNames b.tab b.headAst b.code e f l := by
  have inside := (List.getElem?_eq_some_iff.mp at').1
  have here := site.params k arg at'
  obtain ⟨x, rfl⟩ := param_var here
  refine slotOperands_subset caller (by omega) (by omega) here ?_
  rw [slotOperands, operandNames_var]
  exact List.mem_singleton_self _

theorem argument_slot (caller : InMethod b.code e l f) (gt : e < j) (lt : j + args.length < l)
    (site : CallSite b.code j g args) {arg : CString} (mem : arg ∈ args) :
    slotOf (objectState b.tab b.headAst b.code l).varMap arg =
      slotOffset (methodNames b.tab b.headAst b.code e f l) arg := by
  obtain ⟨p, k, final⟩ := objectState_inside b.tab b.headAst caller caller.lt (Nat.le_refl l)
  obtain ⟨i, at'⟩ := List.mem_iff_getElem?.mp mem
  rw [final]
  exact slotOf_eq (arg_mem_methodNames caller gt lt site at')

/-- Below the return address the pushed words lie in reverse. -/
theorem pushedWords_reverse {names args : List CString} {m m' : Machine} {control : Control}
    (ran : execLines (paramLines names args 0) m = some (m', control)) {t : Nat}
    (lt : t < args.length - 6) :
    (pushedWords m.rbp ((args.drop 6).map (slotOffset names)) m.rsp m.mem).reverse[t]? =
      some (m'.mem (m'.rsp + 8 * t)) := by
  have length : (pushedWords m.rbp ((args.drop 6).map (slotOffset names)) m.rsp m.mem).length =
      args.length - 6 := by
    rw [length_pushedWords, List.length_map, List.length_drop]
  rw [List.getElem?_reverse (by rwa [length]), length, ← (execLines_args ran).2 t lt]

section Entered

variable {e' l' : Nat} (callee : InMethod b.code e' l' g) {m m' entered : Machine} {v : Word}
  {control : Control} (pushed : m.push v = some entered)
  (ran : execLines (prologueLines (methodNames b.tab b.headAst b.code e' g l')
    (frameSize b.code e' g) g (funcArgs b.tab b.headAst g)) entered = some (m', control))

include callee pushed ran

/-- Where the prologue finds the word of a parameter when the return address has been pushed. -/
theorem parameter_word {i : Nat} {param : CString}
    (at' : (argNames (funcArgs b.tab b.headAst g))[i]? = some param) :
    valueIn (objectState b.tab b.headAst b.code l').varMap m' param = match argRegs[i]? with
      | some r => m.reg r
      | none => m.mem (m.rsp + ((i : Int) - 6) * 8) := by
  obtain ⟨p, k, final⟩ := objectState_inside b.tab b.headAst callee callee.lt (Nat.le_refl l')
  obtain ⟨s, -, -, rfl⟩ := b.section_of_inMethod callee
  have nodup := b.args_nodup s
  rw [← b.funcArgs_section s] at nodup
  have known : ∀ name ∈ argNames (funcArgs b.tab b.headAst s.info.name.text),
      name ∈ methodNames b.tab b.headAst b.code e' s.info.name.text l' := fun name mem =>
    mem_seeAll.mpr (.inr (List.mem_append_left _ mem))
  obtain ⟨rsp, reg, above⟩ := push_stack pushed
  rw [valueIn, final, ObjState.frame, slotOf_eq (known param (List.mem_of_getElem? at')),
    (execLines_prologue nodup known ran).2 i param at']
  cases here : argRegs[i]? with
  | some r => exact congrFun reg r
  | none =>
    have many : 6 ≤ i := List.getElem?_eq_none_iff.mp here
    have place : entered.rsp + 8 + ((i : Int) - 6) * 8 = m.rsp + ((i : Int) - 6) * 8 := by omega
    dsimp only
    rw [place, above _ (by omega)]

theorem register_parameter {i : Nat} {param : CString} {r : Reg}
    (at' : (argNames (funcArgs b.tab b.headAst g))[i]? = some param)
    (register : argRegs[i]? = some r) :
    valueIn (objectState b.tab b.headAst b.code l').varMap m' param = m.reg r := by
  have word := parameter_word callee pushed ran at'
  rwa [register] at word

theorem pushed_parameter {t : Nat} {param : CString}
    (at' : (argNames (funcArgs b.tab b.headAst g))[6 + t]? = some param) :
    valueIn (objectState b.tab b.headAst b.code l').varMap m' param =
      m.mem (m.rsp + 8 * t) := by
  have none : argRegs[6 + t]? = none := List.getElem?_eq_none (Nat.le_add_right 6 t)
  have place : m.rsp + (((6 + t : Nat) : Int) - 6) * 8 = m.rsp + 8 * t := by
    push_cast
    omega
  have word := parameter_word callee pushed ran at'
  rw [none] at word
  dsimp only at word
  rw [word, place]

end Entered

/-- The arguments reach the parameters exactly when the words pushed for the seventh
argument and those behind it read the same from the last to the first. -/
theorem arguments_reach_iff (b : Compiled env) (ext : Extern) {e l e' l' j : Nat} {f g : CString}
    {args : List CString} (caller : InMethod b.code e l f) (callee : InMethod b.code e' l' g)
    (gt : e < j) (lt : j + args.length < l) (site : CallSite b.code j g args)
    (count : (funcArgs b.tab b.headAst g).length = args.length) {m : Machine} {c : Config}
    (ran : run (asmStep b.lines ext)
      (args.length + (objectLines b.tab b.headAst b.code e').length)
      ⟨lineStart b.tab b.headAst b.code j, m⟩ = some c) :
    let slots := (objectState b.tab b.headAst b.code l).varMap
    let slots' := (objectState b.tab b.headAst b.code l').varMap
    let values := args.map (valueIn slots m)
    c.pc = lineStart b.tab b.headAst b.code (e' + 1) ∧
      ((∀ (i : Nat) param, (argNames (funcArgs b.tab b.headAst g))[i]? = some param →
          some (valueIn slots' c.machine param) = values[i]?) ↔
        (pushedWords m.rbp ((args.drop 6).map (slotOf slots)) m.rsp m.mem).reverse =
          values.drop 6) := by
  intro slots slots' values
  obtain ⟨done, m₁, m₂, control, control', exec₁, pushed, exec₂⟩ :=
    run_call caller callee gt lt site ran
  have inRegs := (execLines_args exec₁).1
  have argSlot : ∀ arg ∈ args, slotOf slots arg =
      slotOffset (methodNames b.tab b.headAst b.code e f l) arg := fun arg mem =>
    argument_slot caller gt lt site mem
  refine ⟨done, ?_⟩
  have offsets : (args.drop 6).map (slotOf slots) =
      (args.drop 6).map (slotOffset (methodNames b.tab b.headAst b.code e f l)) :=
    List.map_congr_left fun arg mem => argSlot arg (List.mem_of_mem_drop mem)
  rw [offsets]
  have length : values.length = args.length := List.length_map _
  have few : (argNames (funcArgs b.tab b.headAst g)).length = args.length := by
    rw [argNames, List.length_map, count]
  constructor
  · intro reach
    refine List.ext_getElem? fun t => ?_
    rw [List.getElem?_drop]
    by_cases inside : t < args.length - 6
    · have at' := List.getElem?_eq_getElem
        (l := argNames (funcArgs b.tab b.headAst g)) (i := 6 + t) (by omega)
      rw [pushedWords_reverse exec₁ inside, ← reach (6 + t) _ at',
        pushed_parameter callee pushed exec₂ at']
    · rw [List.getElem?_eq_none (by
          rw [List.length_reverse, length_pushedWords, List.length_map, List.length_drop]
          omega),
        List.getElem?_eq_none (by omega)]
  · intro same i param at'
    have inside : i < args.length := few ▸ (List.getElem?_eq_some_iff.mp at').1
    rcases Nat.lt_or_ge i 6 with small | large
    · obtain ⟨r, register⟩ := argRegs_getElem? small
      have arg := List.getElem?_eq_getElem inside
      rw [register_parameter callee pushed exec₂ at' register, inRegs i _ r arg register,
        List.getElem?_map, arg, Option.map_some, valueIn, argSlot _ (List.getElem_mem inside)]
    · obtain ⟨t, rfl⟩ := Nat.exists_eq_add_of_le large
      rw [pushed_parameter callee pushed exec₂ at', ← pushedWords_reverse exec₁ (by omega), same,
        List.getElem?_drop]

end Site

theorem pushedWords_values {slots : List VarLocation} {m : Machine} {args : List CString}
    (above : ∀ arg ∈ args, m.rsp ≤ m.rbp + slotOf slots arg) :
    pushedWords m.rbp (args.map (slotOf slots)) m.rsp m.mem = args.map (valueIn slots m) := by
  rw [pushedWords_covered (fun offset mem => by
    obtain ⟨arg, here, rfl⟩ := List.mem_map.mp mem
    exact above arg here), List.map_map]
  rfl

theorem pushedWords_few (slots : List VarLocation) (m : Machine) {args : List CString}
    (few : args.length ≤ 7) :
    (pushedWords m.rbp ((args.drop 6).map (slotOf slots)) m.rsp m.mem).reverse =
      (args.map (valueIn slots m)).drop 6 := by
  rw [← List.map_drop]
  have one : (args.drop 6).length ≤ 1 := by
    rw [List.length_drop]
    omega
  match args.drop 6, one with
  | [], _ => rfl
  | [arg], _ => rfl

/-- `integer f(integer p0, ..., integer p7)`, called with the arguments 1 to 8. -/
def eightArguments : ProgramSyn :=
  let f : Ident := .of "f"
  let params : List Ident := [.of "p0", .of "p1",
    .of "p2", .of "p3", .of "p4",
    .of "p5", .of "p6", .of "p7"]
  let args : ExprListSyn := [1, 2, 3, 4, 5, 6, 7, 8].foldr
    (fun v rest => .cons (.integerLiteral 2 v) rest) .nil
  [.methodDecl ⟨1, some .integer, f, params.map (⟨1, .integer, ·⟩),
      some (.mk 1 [] (.cons (.returnExpr 1 (.id 1 (.of "p7"))) .nil))⟩,
    .methodDecl ⟨2, some .integer, .of "main", [],
      some (.mk 2 [] (.cons (.returnExpr 2 (.methodCall 2 f args)) .nil))⟩]

/-- The frame of `main` in front of the first PARAM. -/
def beforeParams (last : Word) : Machine where
  reg _ := 0
  rsp := 1920
  rbp := 2000
  mem a := if a = 1936 then last else BitVec.ofInt 64 ((2000 - a) / 8)
  flags := ⟨false, false, false⟩

def eightTemps : List CString := (List.range 8).map tempText

def noExtern : Extern := fun _ _ => none

theorem eightArguments_code :
    ∃ b : Compiled (.sample false), b.prog = eightArguments ∧
      InMethod b.code 4 23 "main".toList ∧ InMethod b.code 0 3 "f".toList ∧
      CallSite b.code 13 "f".toList eightTemps ∧
      (funcArgs b.tab b.headAst "f".toList).length = 8 ∧
      (objectState b.tab b.headAst b.code 23).varMap = slotsFrom 0 ((List.range 9).map tempText) ∧
      ∀ last ∈ [(7 : Word), 8], ∃ c, run (asmStep b.lines noExtern)
        (8 + (objectLines b.tab b.headAst b.code 0).length)
        ⟨lineStart b.tab b.headAst b.code 13, beforeParams last⟩ = some c ∧
        valueIn (objectState b.tab b.headAst b.code 3).varMap c.machine "p6".toList = last := by
  obtain ⟨checked, accepted⟩ := isOk_iff.mp (by decide +kernel :
    (frontEnd (.sample false) eightArguments).isOk = true)
  have facts : (frontEnd (.sample false) eightArguments).toOption.map (fun c =>
        let code := namedCode tempText (intermediateCode (.sample false) c).code
        let lines := generateObjectCode c.tab c.headAst code
        let value last := (run (asmStep lines noExtern)
          (8 + (objectLines c.tab c.headAst code 0).length)
          ⟨lineStart c.tab c.headAst code 13, beforeParams last⟩).map fun d =>
            valueIn (objectState c.tab c.headAst code 3).varMap d.machine "p6".toList
        (code, (argNames (funcArgs c.tab c.headAst "f".toList)).length,
          (objectState c.tab c.headAst code 23).varMap, [value 7, value 8])) =
      some ([⟨.enter, some "f".toList, none, none⟩, ⟨.load, some "p7".toList, none, none⟩,
        ⟨.ret, some "p7".toList, none, none⟩, ⟨.leave, some "f".toList, none, none⟩,
        ⟨.enter, some "main".toList, none, none⟩] ++
        (List.range 8).map (fun k => ⟨.loadval, some (natText (k + 1)), none, some (tempText k)⟩) ++
        (List.range 8).map (fun k => ⟨.param, some (tempText k), none, none⟩) ++
        [⟨.call, some "f".toList, none, some (tempText 8)⟩,
          ⟨.ret, some (tempText 8), none, none⟩, ⟨.leave, some "main".toList, none, none⟩],
        8, slotsFrom 0 ((List.range 9).map tempText), [some 7, some 8]) := by decide +kernel
  rw [accepted] at facts
  simp only [Except.toOption, Option.map_some, Option.some.injEq, Prod.mk.injEq] at facts
  obtain ⟨code, count, map, values⟩ := facts
  simp only [List.cons.injEq, and_true] at values
  let b := Compiled.plain rfl accepted
  have code' : b.code = _ := code
  refine ⟨b, rfl, ?_, ?_, ⟨?_, ⟨some (tempText 8), ?_⟩, ?_⟩, ?_, map, ?_⟩
  · rw [code']
    exact inMethod_of_range (by decide) rfl rfl (by decide)
  · rw [code']
    exact inMethod_of_range (by decide) rfl rfl (by decide)
  · intro k arg at'
    have inside : k < 8 := (List.getElem?_eq_some_iff.mp at').1
    have all : ∀ k < 8, b.code[13 + k]? = eightTemps[k]?.map (⟨.param, some ·, none, none⟩) := by
      rw [code']
      decide
    rw [all k inside, at']
    rfl
  · rw [code']
    rfl
  · rw [code']
    intro instr here
    obtain rfl := Option.some.inj here
    decide
  · rwa [argNames, List.length_map] at count
  · intro last mem
    simp only [List.mem_cons, List.not_mem_nil, or_false] at mem
    rcases mem with rfl | rfl
    · exact Option.map_eq_some_iff.mp values.1
    · exact Option.map_eq_some_iff.mp values.2

/-- The seventh parameter gets the eighth argument. -/
theorem arguments_reversed :
    ∃ (b : Compiled (.sample false)) (c : Config), b.prog = eightArguments ∧
      InMethod b.code 4 23 "main".toList ∧ InMethod b.code 0 3 "f".toList ∧
      CallSite b.code 13 "f".toList eightTemps ∧
      run (asmStep b.lines noExtern) (8 + (objectLines b.tab b.headAst b.code 0).length)
        ⟨lineStart b.tab b.headAst b.code 13, beforeParams 8⟩ = some c ∧
      valueIn (objectState b.tab b.headAst b.code 3).varMap c.machine "p6".toList = 8 ∧
      valueIn (objectState b.tab b.headAst b.code 23).varMap (beforeParams 8) (tempText 6) = 7 := by
  obtain ⟨b, prog, caller, callee, site, -, map, runs⟩ := eightArguments_code
  obtain ⟨c, ran, value⟩ := runs 8 (by decide)
  refine ⟨b, c, prog, caller, callee, site, ran, value, ?_⟩
  rw [map]
  decide

/-- With equal seventh and eighth arguments every argument reaches its parameter. -/
theorem arguments_reach_equal :
    ∃ (b : Compiled (.sample false)) (c : Config), b.prog = eightArguments ∧
      run (asmStep b.lines noExtern) (8 + (objectLines b.tab b.headAst b.code 0).length)
        ⟨lineStart b.tab b.headAst b.code 13, beforeParams 7⟩ = some c ∧
      ∀ (i : Nat) param, (argNames (funcArgs b.tab b.headAst "f".toList))[i]? = some param →
        some (valueIn (objectState b.tab b.headAst b.code 3).varMap c.machine param) =
          (eightTemps.map (valueIn (objectState b.tab b.headAst b.code 23).varMap
            (beforeParams 7)))[i]? := by
  obtain ⟨b, prog, caller, callee, site, count, map, runs⟩ := eightArguments_code
  obtain ⟨c, ran, -⟩ := runs 7 (by decide)
  refine ⟨b, c, prog, ran,
    (arguments_reach_iff b noExtern caller callee (by decide) (by decide) site
    count ran).2.mpr ?_⟩
  rw [map]
  decide

end Ctds
