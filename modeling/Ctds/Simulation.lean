import Ctds.DeadBranches
import Ctds.Labels

/-! `gen_code` against the meaning of the program, without optimizations: the emitted code
takes a typed run of a statement, one that reads 0 or 1 in every bool variable, to the same
values of the variables, the same events and the same return. -/

namespace Ctds

open Transition Word

/-- The code with the strings that `new_temp` wrote. -/
def irCode (prog : List IrInstr) : List (Instr CString) := prog.map (IrInstr.named id)

/-- The callee answers with a value of its return type. -/
def OracleTyped (tab : SymbolTable) (oracle : Oracle) : Prop :=
  ∀ line name numArgs method, calledMethod tab line name numArgs = .ok method →
    method.returnType = .bool → ∀ events args, IsBit (oracle events name.text args)

/-- The two stores agree on the variables of the program. -/
def Agrees (store src : Store) : Prop := ∀ x : Ident, store x.text = src x.text

/-- A variable of the program, or a temporary taken before the number `t`. -/
def Var.below (t : Nat) : Var → Prop
  | temp n => n < t
  | user _ => True

def SameBelow (t : Nat) (store store' : Store) : Prop :=
  ∀ x : Var, x.below t → store' (x.name id) = store (x.name id)

theorem Var.below_mono {t u : Nat} (le : t ≤ u) {x : Var} (h : x.below t) : x.below u := by
  cases x with
  | temp n => exact Nat.lt_of_lt_of_le h le
  | user x => trivial

theorem Operands.results_below {t u : Nat} {code : List IrInstr} {rs : List Var}
    (h : Operands t code rs u) : ∀ r ∈ rs, r.below u := by
  induction h with
  | nil => simp
  | user | load => simp [Var.below]
  | loadval | binary | shiftRight | unary | call => simp [Var.below]
  | cons _ rest first below =>
    simp only [List.mem_cons, List.not_mem_nil, or_false, forall_eq] at first ⊢
    rintro r (rfl | mem)
    · exact Var.below_mono rest.temps_le first
    · exact below r mem

namespace SameBelow

variable {t u : Nat} {store store' store'' : Store}

theorem refl (t : Nat) (store : Store) : SameBelow t store store := fun _ _ => rfl

theorem trans (le : t ≤ u) (h : SameBelow t store store') (g : SameBelow u store' store'') :
    SameBelow t store store'' := fun x below =>
  (g x (Var.below_mono le below)).trans (h x below)

theorem update (le : t ≤ u) (h : SameBelow t store store') (v : Word) :
    SameBelow t store (Function.update store' (tempText u) v) := by
  intro x below
  refine (Function.update_of_ne ?_ _ _).trans (h x below)
  cases x with
  | temp n =>
    intro same
    have number := tempText_inj same
    have lt : n < t := below
    simp only [id] at number
    omega
  | user x => exact (tempText_ne_ident u x).symm

theorem agrees {src : Store} (h : SameBelow t store store') (agrees : Agrees store src) :
    Agrees store' src := fun x => (h (.user x) trivial).trans (agrees x)

end SameBelow

theorem binaryResult_value {op : Operator} (binary : op.isBinary = true) {lt rt type : RetType}
    (typed : binaryType op lt rt = some type) {l r : Word} (left : lt = .bool → IsBit l)
    (right : rt = .bool → IsBit r) :
    binaryResult op.binaryInstr.type l r = binaryValue op l r := by
  cases op with
  | and =>
    simp only [binaryType, Option.ite_none_right_eq_some] at typed
    exact congrArg some (and_of_isBit (left typed.1.1) (right typed.1.2))
  | or =>
    simp only [binaryType, Option.ite_none_right_eq_some] at typed
    exact congrArg some (or_of_isBit (left typed.1.1) (right typed.1.2))
  | minus | neg | decl | assign | ret => cases binary
  | _ => rfl

theorem binaryValue_isBit {op : Operator} {lt rt : RetType}
    (typed : binaryType op lt rt = some .bool) {l r v : Word}
    (value : binaryValue op l r = some v) : IsBit v := by
  have result := binaryType_result typed
  cases op with
  | les | grt | eq | neq | leq | geq | and | or =>
    exact Option.some.inj value ▸ isBit_ofBool _
  | minus | neg | decl | assign | ret => cases typed
  | _ => cases result

theorem unaryResult_value {op : Operator} (unary : op.isUnary = true) (v : Word) :
    unaryResult op.unaryInstr.type v = unaryValue op v := by
  cases op with
  | minus | neg => rfl
  | _ => cases unary

theorem unaryValue_isBit {op : Operator} {type : RetType} (typed : unaryType op type = some .bool)
    {v w : Word} (value : unaryValue op v = some w) : IsBit w := by
  cases op with
  | neg => exact Option.some.inj value ▸ isBit_ofBool _
  | minus =>
    simp only [unaryType, Option.ite_none_right_eq_some] at typed
    cases typed.2
  | _ => cases typed

theorem returnType_bool {type : ReturnType} (h : type.toRetType = some .bool) : type = .bool := by
  cases type <;> first
    | rfl
    | cases h

theorem divisionShift_off {env : Env} (off : env.optimizations = false) (op : Operator)
    (right : AstNode) : divisionShift env op right = none := by
  have none : shiftCount env right = none := by
    unfold shiftCount
    split
    · simp [off]
    · rfl
  simp [divisionShift, none]

section Runs

variable {prog : List IrInstr} {oracle : Oracle}

theorem irCode_getElem? {p : Nat} {i : IrInstr} (here : prog[p]? = some i) :
    (irCode prog)[p]? = some (i.named id) := by
  rw [irCode, List.getElem?_map, here, Option.map_some]

variable (oracle) in
theorem irStep_next {p : Nat} {i : IrInstr} (here : prog[p]? = some i) (isLocal : i.isLocal = true)
    {store store' : Store} (effect : i.effect id store = some (store', .next))
    (pending : List Word) (events : List Event) :
    irStep (irCode prog) oracle ⟨p, store, pending, events⟩ =
      some ⟨p + 1, store', pending, events ++ i.assigned id store⟩ := by
  rw [irStep_local oracle (irCode_getElem? here) isLocal, effect]
  rfl

/-- From `p` to `q` the code leaves the words `vs` in the variables `rs`, and writes no
variable but temporaries from the number `t` on. -/
def Computes (prog : List IrInstr) (oracle : Oracle) (p q t : Nat) (rs : List Var)
    (vs : List Word) (store : Store) (events events' : List Event) : Prop :=
  ∃ store', Reaches (irStep (irCode prog) oracle) ⟨p, store, [], events⟩ ⟨q, store', [], events'⟩ ∧
    SameBelow t store store' ∧ rs.map (fun r => store' (r.name id)) = vs

namespace Computes

variable {p q q' t u : Nat} {rs : List Var} {vs : List Word} {store src : Store}
  {events events' events'' : List Event}

theorem nil (p t : Nat) (store : Store) (events : List Event) :
    Computes prog oracle p p t [] [] store events events :=
  ⟨store, .refl _, .refl t store, rfl⟩

theorem cons {r : Var} {v : Word} (first : Computes prog oracle p q t [r] [v] store events events')
    (agrees : Agrees store src) (le : t ≤ u) (below : r.below u)
    (rest : ∀ store', Agrees store' src →
      Computes prog oracle q q' u rs vs store' events' events'') :
    Computes prog oracle p q' t (r :: rs) (v :: vs) store events events'' := by
  obtain ⟨store', reaches, same, value⟩ := first
  obtain ⟨store'', reaches', same', values⟩ := rest store' (same.agrees agrees)
  refine ⟨store'', reaches.trans reaches', same.trans le same', ?_⟩
  simp only [List.map_cons, List.map_nil, List.cons.injEq, and_true] at value
  rw [List.map_cons, same' r below, value, values]

theorem snoc {i : IrInstr} {v : Word} (h : Computes prog oracle p q t rs vs store events events')
    (le : t ≤ u) (here : prog[q]? = some i) (isLocal : i.isLocal = true)
    (silent : ∀ store, i.assigned id store = [])
    (effect : ∀ store', rs.map (fun r => store' (r.name id)) = vs →
      i.effect id store' = some (Function.update store' (tempText u) v, .next)) :
    Computes prog oracle p (q + 1) t [.temp u] [v] store events events' := by
  obtain ⟨store', reaches, same, values⟩ := h
  have next := irStep_next oracle here isLocal (effect store' values) [] events'
  rw [silent, List.append_nil] at next
  refine ⟨_, reaches.tail next, same.update le v, ?_⟩
  simp [Var.name]

end Computes

variable (oracle) in
theorem params_run {p : Nat} {rs : List Var} (placed : Placed prog p (rs.map .param))
    (store : Store)
    (pending : List Word) (events : List Event) :
    Reaches (irStep (irCode prog) oracle) ⟨p, store, pending, events⟩
      ⟨p + rs.length, store, pending ++ rs.map (fun r => store (r.name id)), events⟩ := by
  induction rs generalizing p pending with
  | nil =>
    rw [List.map_nil, List.append_nil]
    exact .refl _
  | cons r rest ih =>
    have one : irStep (irCode prog) oracle ⟨p, store, pending, events⟩ =
        some ⟨p + 1, store, pending ++ [store (r.name id)], events⟩ :=
      irStep_param oracle (irCode_getElem? placed.head)
    have more := ih placed.tail (pending ++ [store (r.name id)])
    rw [List.append_assoc, show p + 1 + rest.length = p + (r :: rest).length by
      rw [List.length_cons]; omega] at more
    exact .head one more

theorem Computes.call {p q t u : Nat} {rs : List Var} {vs : List Word} {store : Store}
    {events events' : List Event} {f : Ident}
    (h : Computes prog oracle p q t rs vs store events events') (le : t ≤ u)
    (placed : Placed prog q (rs.map .param ++ [.call f u])) :
    Computes prog oracle p (q + rs.length + 1) t [.temp u] [oracle events' f.text vs] store events
      (events' ++ [.call f.text vs]) := by
  obtain ⟨store', reaches, same, rfl⟩ := h
  have params := params_run oracle placed.left store' [] events'
  have here := placed.last
  rw [List.length_map] at here
  have call := irStep_call oracle (irCode_getElem? here)
    (s := ⟨q + rs.length, store', [] ++ rs.map (fun r => store' (r.name id)), events'⟩)
  refine ⟨_, (reaches.trans params).tail call, same.update le _, ?_⟩
  simp [Var.name]

theorem leafCode_runs {env : Env} {tab : SymbolTable} {line : Int} {value : LeafValue}
    (shape : isExpr tab (.leaf line value) = true) {type : RetType}
    (typed : leafType tab value = some type) (fatherOp temps p : Nat) {store src : Store}
    (events : List Event) {v : Word}
    (placed : Placed prog p (leafCode env tab fatherOp value temps).code)
    (agrees : Agrees store src) (ran : leafValue tab true src value = some v) :
    let e := leafCode env tab fatherOp value temps
    Computes prog oracle p (p + e.code.length) temps [e.result] [v] store events events ∧
      (type = .bool → IsBit v) := by
  have literal : ∀ w : BitVec 32, Placed prog p [.loadval w temps] → v = w.signExtend 64 →
      Computes prog oracle p (p + 1) temps [.temp temps] [v] store events events := by
    rintro w here rfl
    exact (Computes.nil p temps store events).snoc (Nat.le_refl _) here.head rfl (fun _ => rfl)
      fun _ _ => rfl
  cases value with
  | int w =>
    obtain rfl := Option.some.inj ran
    refine ⟨literal w placed rfl, ?_⟩
    rintro rfl
    cases typed
  | bool w =>
    obtain rfl := Option.some.inj ran
    refine ⟨literal w placed rfl, fun _ => ?_⟩
    have bit : w = 0 ∨ w = 1 := by simpa [isExpr] using shape
    rcases bit with rfl | rfl
    · exact .inl rfl
    · exact .inr rfl
  | id x =>
    obtain ⟨info, entry⟩ := SymbolTable.hasEntry_iff.mp (by simpa [isExpr] using shape)
    simp only [leafValue, readVariable, entry, true_and] at ran
    simp only [leafCode, entry] at placed ⊢
    split at ran
    · cases ran
    · next bit =>
      obtain rfl := Option.some.inj ran
      refine ⟨?_, ?_⟩
      · split at placed
        · next loads =>
          rw [if_pos loads]
          have next := irStep_next oracle placed.head rfl
            (show (IrInstr.load info.name).effect id store = some (store, .next) from rfl) [] events
          exact ⟨store, .single (by simpa [IrInstr.assigned] using next), .refl _ _,
            congrArg (· :: []) (agrees info.name)⟩
        · next quiet =>
          rw [if_neg quiet]
          exact ⟨store, .refl _, .refl _ _, congrArg (· :: []) (agrees info.name)⟩
      · rintro rfl
        simp only [leafType, entry, Option.bind_some, symbolType] at typed
        by_contra notBit
        refine bit ⟨?_, notBit⟩
        split at typed
        · cases typed
        · split at typed
          · assumption
          · cases typed

theorem argsAccepted_cons {env : Env} {tab : SymbolTable} {params : List Args} {first : AstNode}
    {next : AstNodeList} (accepted : argsAccepted env tab params (.cons first next) = true)
    (count : params.length = (AstNodeList.cons first next).length) :
    ∃ type rest, exprType env tab first = some type ∧ argsAccepted env tab rest next = true ∧
      rest.length = next.length := by
  cases params with
  | nil => cases count
  | cons param rest =>
    simp only [argsAccepted, Bool.and_eq_true, beq_iff_eq, Option.bind_eq_some_iff] at accepted
    obtain ⟨⟨type, typed, -⟩, accepted⟩ := accepted
    exact ⟨type, rest, typed, accepted, Nat.succ.inj count⟩

mutual
/-- The code of an expression computes its value; a bool expression has the value 0 or 1. -/
theorem exprCode_runs {env : Env} (off : env.optimizations = false) {tab : SymbolTable}
    (methods : tab.MethodsOk) (answers : OracleTyped tab oracle) :
    ∀ (node : AstNode), isExpr tab node = true → ∀ (type : RetType),
      exprType env tab node = some type → ∀ (fatherOp temps p : Nat) (store src : Store)
        (events : List Event) (v : Word) (events' : List Event),
        Placed prog p (exprCode env tab fatherOp node temps).code → Agrees store src →
        exprValue tab true oracle src node events = some (v, events') →
        let e := exprCode env tab fatherOp node temps
        Computes prog oracle p (p + e.code.length) temps [e.result] [v] store events events' ∧
          (type = .bool → IsBit v)
  | .leaf line value, shape, type, typed, fatherOp, temps, p, store, src, events, v, events',
    placed, agrees, ran => by
    rw [exprType] at typed
    rw [exprValue, Option.map_eq_some_iff] at ran
    obtain ⟨w, value, eq⟩ := ran
    obtain ⟨rfl, rfl⟩ := Prod.mk.inj eq
    rw [exprCode] at placed ⊢
    exact leafCode_runs shape typed fatherOp temps p events placed agrees value
  | .common line .binary op left right, shape, type, typed, fatherOp, temps, p, store, src, events,
    v, events', placed, agrees, ran => by
    simp only [isExpr, Bool.and_eq_true] at shape
    obtain ⟨⟨binary, leftShape⟩, rightShape⟩ := shape
    simp only [exprType, foldFaults_off off, Bool.false_eq_true, if_false] at typed
    simp only [exprValue, Option.bind_eq_bind, Option.bind_eq_some_iff, Option.pure_def,
      Option.some.injEq, Prod.mk.injEq] at ran
    obtain ⟨⟨l, events₁⟩, ranLeft, ⟨r, events₂⟩, ranRight, w, value, rfl, rfl⟩ := ran
    rw [exprCode] at placed ⊢
    simp only [divisionShift_off off] at placed ⊢
    split at typed
    · next lt rt leftTyped rightTyped =>
      have operands := exprCode_operands env tab left leftShape op.code temps
      have operands' := exprCode_operands env tab right rightShape op.code
        (exprCode env tab op.code left temps).temps
      have runsLeft := exprCode_runs off methods answers left leftShape lt leftTyped op.code temps p
        store src events l events₁ placed.left.left agrees ranLeft
      have runsRight := fun store' agrees' => exprCode_runs off methods answers right rightShape rt
        rightTyped op.code _ _ store' src events₁ r events₂ placed.left.right agrees' ranRight
      have bit := (runsRight src fun _ => rfl).2
      have both := runsLeft.1.cons agrees operands.temps_le
        (operands.results_below _ List.mem_cons_self) fun store' agrees' =>
          (runsRight store' agrees').1
      have here := placed.last
      rw [List.length_append, ← Nat.add_assoc] at here
      have done := both.snoc (operands.temps_le.trans operands'.temps_le) here rfl (fun _ => rfl)
        (v := w) fun store' values => by
          simp only [List.map_cons, List.map_nil, List.cons.injEq, and_true] at values
          simp only [IrInstr.effect, values.1, values.2, id]
          rw [binaryResult_value binary typed runsLeft.2 bit, value]
          rfl
      refine ⟨?_, ?_⟩
      · simpa [Nat.add_assoc] using done
      · rintro rfl
        exact binaryValue_isBit typed value
    · cases typed
  | .common line .unary op left right, shape, type, typed, fatherOp, temps, p, store, src, events,
    v, events', placed, agrees, ran => by
    simp only [isExpr, Bool.and_eq_true] at shape
    simp only [exprType, Option.bind_eq_some_iff] at typed
    obtain ⟨lt, leftTyped, typed⟩ := typed
    simp only [exprValue, Option.bind_eq_bind, Option.bind_eq_some_iff, Option.pure_def,
      Option.some.injEq, Prod.mk.injEq] at ran
    obtain ⟨⟨l, events₁⟩, ranLeft, w, value, rfl, rfl⟩ := ran
    rw [exprCode] at placed ⊢
    have operands := exprCode_operands env tab left shape.1.2 op.code temps
    have runs := exprCode_runs off methods answers left shape.1.2 lt leftTyped op.code temps p
      store src events l events₁ placed.left agrees ranLeft
    have done := runs.1.snoc operands.temps_le placed.last rfl (fun _ => rfl)
      (v := w) fun store' values => by
        simp only [List.map_cons, List.map_nil, List.cons.injEq, and_true] at values
        simp only [IrInstr.effect, values, id]
        rw [unaryResult_value shape.1.1, value]
        rfl
    refine ⟨?_, ?_⟩
    · simpa [Nat.add_assoc] using done
    · rintro rfl
      exact unaryValue_isBit typed value
  | .methodCall line name numArgs args, shape, type, typed, fatherOp, temps, p, store, src, events,
    v, events', placed, agrees, ran => by
    simp only [isExpr, Bool.and_eq_true, decide_eq_true_eq] at shape
    rw [exprType] at typed
    simp only [exprValue, Option.bind_eq_bind, Option.bind_eq_some_iff, Option.pure_def,
      Option.some.injEq, Prod.mk.injEq] at ran
    obtain ⟨⟨vs, events₁⟩, ranArgs, rfl, rfl⟩ := ran
    cases called : calledMethod tab line name numArgs with
    | error err => simp [called] at typed
    | ok method =>
      simp only [called, Option.ite_none_right_eq_some] at typed
      obtain ⟨sym, -, entry, counted⟩ := calledMethod_entry called
      have count : method.args.length = args.length := by
        rw [← (methods sym method entry).1, counted, shape.1]
      rw [exprCode] at placed ⊢
      have operands := argsCode_operands env tab args shape.2
        (env.opView (.methodCall line name numArgs args)) temps
      have runs := argsCode_runs off methods answers args shape.2 method.args typed.1 count
        (env.opView (.methodCall line name numArgs args)) temps p store src events vs events₁
        placed.left.left agrees ranArgs
      simp only [List.append_assoc] at placed
      have done := runs.call operands.temps_le placed.right
      refine ⟨?_, ?_⟩
      · simpa [Nat.add_assoc] using done
      · rintro rfl
        exact answers line name numArgs method called (returnType_bool typed.2) events₁ vs
  | .null, shape, _, _, _, _, _, _, _, _, _, _, _, _, _
  | .ifStmt .., shape, _, _, _, _, _, _, _, _, _, _, _, _, _
  | .whileStmt .., shape, _, _, _, _, _, _, _, _, _, _, _, _, _
  | .methodDecl .., shape, _, _, _, _, _, _, _, _, _, _, _, _, _
  | .block .., shape, _, _, _, _, _, _, _, _, _, _, _, _, _ => by simp [isExpr] at shape
theorem argsCode_runs {env : Env} (off : env.optimizations = false) {tab : SymbolTable}
    (methods : tab.MethodsOk) (answers : OracleTyped tab oracle) :
    ∀ (args : AstNodeList), areExprs tab args = true → ∀ (params : List Args),
      argsAccepted env tab params args = true → params.length = args.length →
      ∀ (fatherOp temps p : Nat) (store src : Store) (events : List Event) (vs : List Word)
        (events' : List Event),
        Placed prog p (argsCode env tab fatherOp args temps).code → Agrees store src →
        argValues tab true oracle src args events = some (vs, events') →
        let a := argsCode env tab fatherOp args temps
        Computes prog oracle p (p + a.code.length) temps a.results vs store events events'
  | .nil, _, _, _, _, fatherOp, temps, p, store, src, events, vs, events', _, _, ran => by
    simp only [argValues, Option.some.injEq, Prod.mk.injEq] at ran
    obtain ⟨rfl, rfl⟩ := ran
    exact .nil p temps store events
  | .cons first next, shape, params, accepted, count, fatherOp, temps, p, store, src, events, vs,
    events', placed, agrees, ran => by
    simp only [areExprs, Bool.and_eq_true] at shape
    simp only [argValues, Option.bind_eq_bind, Option.bind_eq_some_iff, Option.pure_def,
      Option.some.injEq, Prod.mk.injEq] at ran
    obtain ⟨⟨v, events₁⟩, ranFirst, ⟨rest, events₂⟩, ranNext, rfl, rfl⟩ := ran
    obtain ⟨type, params', typed, accepted', count'⟩ := argsAccepted_cons accepted count
    rw [argsCode] at placed ⊢
    have operands := exprCode_operands env tab first shape.1 fatherOp temps
    have one := exprCode_runs off methods answers first shape.1 type typed fatherOp
      temps p store src
      events v events₁ placed.left agrees ranFirst
    have more := one.1.cons agrees operands.temps_le
      (operands.results_below _ List.mem_cons_self) fun store' agrees' =>
        argsCode_runs off methods answers next shape.2 params' accepted' count' fatherOp
          _ _ store' src
          events₁ rest events₂ placed.right agrees' ranNext
    simpa [Nat.add_assoc] using more
end

theorem evaluate_runs {env : Env} (off : env.optimizations = false) {tab : SymbolTable}
    (methods : tab.MethodsOk) (answers : OracleTyped tab oracle) {node : AstNode} {type : RetType}
    (shape : isExpr tab node = true) (typed : exprType env tab node = some type)
    {fatherOp temps p : Nat} {store : Store} {s s' : SourceState} {v : Word}
    (placed : Placed prog p (exprCode env tab fatherOp node temps).code)
    (agrees : Agrees store s.store) (ran : evaluate tab true oracle node s = some (v, s')) :
    let e := exprCode env tab fatherOp node temps
    ∃ store', Reaches (irStep (irCode prog) oracle) ⟨p, store, [], s.events⟩
        ⟨p + e.code.length, store', [], s'.events⟩ ∧
      Agrees store' s'.store ∧ store' (e.result.name id) = v := by
  rw [evaluate, Option.map_eq_some_iff] at ran
  obtain ⟨⟨w, events⟩, value, eq⟩ := ran
  obtain ⟨rfl, rfl⟩ := Prod.mk.inj eq
  obtain ⟨⟨store', reaches, same, values⟩, -⟩ := exprCode_runs off methods answers node shape type
    typed fatherOp temps p store s.store s.events w events placed agrees value
  exact ⟨store', reaches, same.agrees agrees, (List.cons.inj values).1⟩

/-- Every label of the code is at one place. -/
def LabelsUnique (prog : List IrInstr) : Prop :=
  ∀ (i j n : Nat), prog[i]? = some (IrInstr.label n) → prog[j]? = some (IrInstr.label n) → i = j

theorem LabelsIn.labelsUnique {prog : List IrInstr} {low high : Nat} (h : LabelsIn prog low high) :
    LabelsUnique prog := fun _ _ _ here there => h.unique here there

theorem named_label {i : IrInstr} {n : Nat} (type : (i.named id).instruct = .label)
    (text : (i.named id).var1 = some (labelText n)) : i = .label n := by
  cases i with
  | label m => exact congrArg IrInstr.label (labelText_inj (Option.some.inj text))
  | binary t _ _ _ => cases t <;> cases type
  | unary t _ _ => cases t <;> cases type
  | _ => cases type

theorem labelIndex_eq (unique : LabelsUnique prog) {p n : Nat} (here : prog[p]? = some (.label n)) :
    labelIndex (irCode prog) (labelText n) = some p := by
  have at' := irCode_getElem? here
  obtain ⟨inside, value⟩ := List.getElem?_eq_some_iff.mp at'
  rw [labelIndex, List.findIdx?_eq_some_iff_getElem]
  refine ⟨inside, ?_, fun j lt found => ?_⟩
  · rw [value]
    exact decide_eq_true ⟨rfl, rfl⟩
  · have bound : j < prog.length := by
      have := (List.getElem?_eq_some_iff.mp here).1
      omega
    have known := irCode_getElem? (List.getElem?_eq_getElem bound)
    rw [(List.getElem?_eq_some_iff.mp known).2, decide_eq_true_eq] at found
    have label := named_label found.1 found.2
    have same := unique j p n (by rw [List.getElem?_eq_getElem bound, label]) here
    omega

variable (oracle) in
theorem label_step {p n : Nat} (here : prog[p]? = some (.label n)) (store : Store)
    (events : List Event) :
    irStep (irCode prog) oracle ⟨p, store, [], events⟩ = some ⟨p + 1, store, [], events⟩ := by
  have next := irStep_next oracle here rfl
    (show (IrInstr.label n).effect id store = some (store, .next) from rfl) [] events
  simpa [IrInstr.assigned] using next

variable (oracle) in
theorem jmp_step (unique : LabelsUnique prog) {p q n : Nat} (here : prog[p]? = some (.jmp n))
    (target : prog[q]? = some (.label n)) (store : Store) (events : List Event) :
    irStep (irCode prog) oracle ⟨p, store, [], events⟩ = some ⟨q, store, [], events⟩ := by
  rw [irStep_local oracle (irCode_getElem? here) rfl]
  simp [IrInstr.effect, flowTarget, labelIndex_eq unique target, IrInstr.assigned]

variable (oracle) in
theorem jmpf_step (unique : LabelsUnique prog) {p q n : Nat} {r : Var}
    (here : prog[p]? = some (.jmpf r n)) (target : prog[q]? = some (.label n)) (store : Store)
    (events : List Event) :
    irStep (irCode prog) oracle ⟨p, store, [], events⟩ =
      some ⟨if store (r.name id) = 0 then q else p + 1, store, [], events⟩ := by
  rw [irStep_local oracle (irCode_getElem? here) rfl]
  by_cases zero : store (r.name id) = 0
  · simp only [IrInstr.effect, if_pos zero, Option.bind_some, flowTarget,
      labelIndex_eq unique target,
      Option.map_some, IrInstr.assigned, List.append_nil]
  · simp only [IrInstr.effect, if_neg zero, Option.bind_some, flowTarget, Option.map_some,
      IrInstr.assigned, List.append_nil]

/-- The code from `p` comes to `q` where the statement ends, and stops at a RET where the
statement returns. -/
def Arrives (prog : List IrInstr) (oracle : Oracle) (p q : Nat) (store : Store)
    (events : List Event) (s' : SourceState) : Completion → Prop
  | .normal => ∃ store', Reaches (irStep (irCode prog) oracle) ⟨p, store, [], events⟩
      ⟨q, store', [], s'.events⟩ ∧ Agrees store' s'.store
  | .returned value => ∃ t, Reaches (irStep (irCode prog) oracle) ⟨p, store, [], events⟩ t ∧
      irStep (irCode prog) oracle t = none ∧
      irResult (irCode prog) t = some (.returned value) ∧
      t.events = s'.events ∧ Agrees t.store s'.store

namespace Arrives

variable {p p' q q' : Nat} {store store' : Store} {events events' : List Event}
  {s' s'' : SourceState} {completion : Completion}

theorem after (reaches : Reaches (irStep (irCode prog) oracle) ⟨p, store, [], events⟩
      ⟨p', store', [], events'⟩)
    (h : Arrives prog oracle p' q store' events' s' completion) :
    Arrives prog oracle p q store events s' completion := by
  cases completion with
  | normal =>
    obtain ⟨store'', more, agrees⟩ := h
    exact ⟨store'', reaches.trans more, agrees⟩
  | returned value =>
    obtain ⟨t, more, rest⟩ := h
    exact ⟨t, reaches.trans more, rest⟩

theorem andThen (h : Arrives prog oracle p q store events s' .normal)
    (next : ∀ store', Agrees store' s'.store →
      Arrives prog oracle q q' store' s'.events s'' completion) :
    Arrives prog oracle p q' store events s'' completion := by
  obtain ⟨store', reaches, agrees⟩ := h
  exact (next store' agrees).after reaches

theorem returned {value : Option Word}
    (h : Arrives prog oracle p q store events s' (.returned value)) (q' : Nat) :
    Arrives prog oracle p q' store events s' (.returned value) := h

theorem thenSteps (h : Arrives prog oracle p q store events s' completion)
    (steps : ∀ store', Reaches (irStep (irCode prog) oracle) ⟨q, store', [], s'.events⟩
      ⟨q', store', [], s'.events⟩) :
    Arrives prog oracle p q' store events s' completion := by
  cases completion with
  | normal => exact h.andThen fun store' agrees => ⟨store', steps store', agrees⟩
  | returned value => exact h.returned q'

end Arrives

theorem assign_runs {env : Env} (off : env.optimizations = false) {tab : SymbolTable}
    (methods : tab.MethodsOk) (answers : OracleTyped tab oracle) {left right : AstNode}
    {type : RetType} (target : isIdLeaf tab left = true) (shape : isExpr tab right = true)
    (typed : exprType env tab right = some type) {fatherOp temps p : Nat} {store : Store}
    {s s' : SourceState} {completion : Completion}
    (placed : Placed prog p ((exprCode env tab fatherOp right temps).code ++
      storeTo (exprCode env tab fatherOp right temps).result (targetOf tab left)))
    (agrees : Agrees store s.store)
    (ran : ((evaluate tab true oracle right s).bind fun (v, s) => assignTo tab left v s) =
      some (s', completion)) :
    Arrives prog oracle p (p + ((exprCode env tab fatherOp right temps).code ++
      storeTo (exprCode env tab fatherOp right temps).result (targetOf tab left)).length) store
      s.events s' completion := by
  obtain ⟨⟨v, s₁⟩, value, assigned⟩ := Option.bind_eq_some_iff.mp ran
  obtain ⟨line, x, info, rfl, entry⟩ := isIdLeaf_iff.mp target
  have symbol : leafSymbol tab (.leaf line (.id x)) = some info := entry
  simp only [assignTo, symbol, Option.some.injEq, Prod.mk.injEq] at assigned
  obtain ⟨rfl, rfl⟩ := assigned
  have name : targetOf tab (.leaf line (.id x)) = some info.name := by simp [targetOf, entry]
  rw [name] at placed ⊢
  obtain ⟨store', reaches, agrees', result⟩ :=
    evaluate_runs off methods answers shape typed placed.left agrees value
  have next := irStep_next oracle placed.right.head rfl
    (show (IrInstr.store _ info.name).effect id store' = some (_, .next) from rfl) [] s₁.events
  rw [result] at next
  refine ⟨Function.update store' info.name.text v, ?_, fun y => ?_⟩
  · have run := reaches.tail next
    simpa [IrInstr.assigned, result, storeTo, Nat.add_assoc] using run
  · by_cases same : y.text = info.name.text
    · simp [same]
    · simp only [Function.update_of_ne same]
      exact agrees' y

theorem branch_runs (unique : LabelsUnique prog) {whole test thenCode elseCode : List IrInstr}
    {r : Var} {p l : Nat} {store store' : Store} {events : List Event} {s s' : SourceState}
    {completion : Completion}
    (layout : whole = test ++ .jmpf r l :: thenCode ++ .jmp (l + 1) :: .label l :: elseCode ++
      [.label (l + 1)])
    (placed : Placed prog p whole)
    (tested : Reaches (irStep (irCode prog) oracle) ⟨p, store, [], events⟩
      ⟨p + test.length, store', [], s.events⟩)
    (thenRuns : store' (r.name id) ≠ 0 → ∀ p, Placed prog p thenCode →
      Arrives prog oracle p (p + thenCode.length) store' s.events s' completion)
    (elseRuns : store' (r.name id) = 0 → ∀ p, Placed prog p elseCode →
      Arrives prog oracle p (p + elseCode.length) store' s.events s' completion) :
    Arrives prog oracle p (p + whole.length) store events s' completion := by
  have length : whole.length = test.length + thenCode.length + elseCode.length + 4 := by
    rw [layout]
    simp only [List.length_append, List.length_cons, List.length_nil]
    omega
  rw [layout] at placed
  have jmpf := placed.left.left.right
  have jmp := placed.left.right
  have last := placed.last
  simp only [List.length_append, List.length_cons] at jmp last
  refine Arrives.after (tested.tail
    (jmpf_step oracle unique jmpf.head jmp.tail.head store' s.events)) ?_
  by_cases zero : store' (r.name id) = 0
  · rw [if_pos zero]
    refine Arrives.after (.single (label_step oracle jmp.tail.head store' s.events)) ?_
    refine (elseRuns zero _ jmp.tail.tail).thenSteps fun store'' => .single ?_
    have next := label_step oracle last store'' s'.events
    convert next using 3 <;> omega
  · rw [if_neg zero]
    refine (thenRuns zero _ jmpf.tail).thenSteps fun store'' => ?_
    have jump := jmp_step oracle unique jmp.head last store'' s'.events
    have run := Reaches.head jump (.single (label_step oracle last store'' s'.events))
    convert run using 2 <;> omega

section Loop

variable {whole test body : List IrInstr} {r : Var} {p l : Nat}
  {condition : SourceState → Option (Word × SourceState)} {runBody : Runner}

theorem loop_enters (unique : LabelsUnique prog)
    (layout : whole = .label l :: test ++ .jmpf r (l + 1) :: body ++ [.jmp l, .label (l + 1)])
    (placed : Placed prog p whole) {store store' : Store} {events events' : List Event}
    (tested : Reaches (irStep (irCode prog) oracle) ⟨p + 1, store, [], events⟩
      ⟨p + 1 + test.length, store', [], events'⟩) :
    Reaches (irStep (irCode prog) oracle) ⟨p, store, [], events⟩
      ⟨if store' (r.name id) = 0 then p + whole.length else p + 1 + test.length + 1, store', [],
        events'⟩ := by
  have length : whole.length = test.length + body.length + 4 := by
    rw [layout]
    simp only [List.length_append, List.length_cons, List.length_nil]
    omega
  rw [layout] at placed
  have jmpf := placed.left.right
  have jmp := placed.right
  have place : p + (IrInstr.label l :: test).length = p + 1 + test.length := by
    rw [List.length_cons]
    omega
  rw [place] at jmpf
  simp only [List.length_append, List.length_cons] at jmp
  have start := Reaches.head (label_step oracle placed.left.left.head store events) tested
  have step := jmpf_step oracle unique jmpf.head jmp.tail.head store' events'
  by_cases zero : store' (r.name id) = 0
  · rw [if_pos zero] at step ⊢
    have run := (start.tail step).tail (label_step oracle jmp.tail.head store' events')
    convert run using 2
    omega
  · rw [if_neg zero] at step ⊢
    exact start.tail step

/-- The rounds of a loop, by induction on the fuel. -/
theorem loop_runs (unique : LabelsUnique prog)
    (layout : whole = .label l :: test ++ .jmpf r (l + 1) :: body ++ [.jmp l, .label (l + 1)])
    (placed : Placed prog p whole)
    (tested : ∀ store s v s₁, Agrees store s.store → condition s = some (v, s₁) →
      ∃ store', Reaches (irStep (irCode prog) oracle) ⟨p + 1, store, [], s.events⟩
          ⟨p + 1 + test.length, store', [], s₁.events⟩ ∧
        Agrees store' s₁.store ∧ store' (r.name id) = v)
    (bodyRuns : ∀ store s s' completion, Agrees store s.store →
      runBody s = some (s', completion) → Arrives prog oracle (p + 1 + test.length + 1)
        (p + 1 + test.length + 1 + body.length) store s.events s' completion)
    (fuel : Nat) {store : Store} {s s' : SourceState} {completion : Completion}
    (agrees : Agrees store s.store)
    (ran : runLoop condition runBody fuel s = some (s', completion)) :
    Arrives prog oracle p (p + whole.length) store s.events s' completion := by
  have back : ∀ store events, irStep (irCode prog) oracle
      ⟨p + 1 + test.length + 1 + body.length, store, [], events⟩ =
        some ⟨p, store, [], events⟩ := by
    intro store events
    rw [layout] at placed
    have jmp := placed.right
    simp only [List.length_append, List.length_cons] at jmp
    have jump := jmp_step oracle unique jmp.head placed.left.left.head store events
    convert jump using 3
    omega
  induction fuel generalizing store s with
  | zero =>
    simp only [runLoop, Option.bind_eq_bind, Option.bind_eq_some_iff] at ran
    obtain ⟨⟨v, s₁⟩, value, ran⟩ := ran
    obtain ⟨store', reaches, agrees', rfl⟩ := tested store s v s₁ agrees value
    have enters := loop_enters unique layout placed reaches
    simp only [Option.pure_def, Option.ite_none_right_eq_some, Option.some.injEq,
      Prod.mk.injEq] at ran
    obtain ⟨zero, rfl, rfl⟩ := ran
    rw [if_pos zero] at enters
    exact ⟨store', enters, agrees'⟩
  | succ fuel ih =>
    simp only [runLoop, Option.bind_eq_bind, Option.bind_eq_some_iff] at ran
    obtain ⟨⟨v, s₁⟩, value, ran⟩ := ran
    obtain ⟨store', reaches, agrees', rfl⟩ := tested store s v s₁ agrees value
    have enters := loop_enters unique layout placed reaches
    by_cases zero : store' (r.name id) = 0
    · simp only [if_pos zero, Option.pure_def, Option.some.injEq, Prod.mk.injEq] at ran enters
      obtain ⟨rfl, rfl⟩ := ran
      exact ⟨store', enters, agrees'⟩
    · simp only [if_neg zero, Option.bind_eq_some_iff] at ran enters
      obtain ⟨⟨s₂, completed⟩, ranBody, ran⟩ := ran
      have round := bodyRuns store' s₁ s₂ completed agrees' ranBody
      refine Arrives.after enters ?_
      cases completed with
      | normal =>
        exact round.andThen fun store'' agrees'' =>
          Arrives.after (.single (back store'' s₂.events)) (ih agrees'' ran)
      | returned value =>
        simp only [Option.pure_def, Option.some.injEq, Prod.mk.injEq] at ran
        obtain ⟨rfl, rfl⟩ := ran
        exact round.returned _

end Loop

mutual
/-- The code of a statement follows the statement. -/
theorem stmtCode_runs (unique : LabelsUnique prog) {env : Env} (off : env.optimizations = false)
    {tab : SymbolTable} (methods : tab.MethodsOk) (answers : OracleTyped tab oracle)
    {methodReturnType : RetType} (fuel : Nat) :
    ∀ (node : AstNode), isStmtOrNull tab node = true →
      acceptedOrNull env tab methodReturnType node = true → ∀ (c : Counters) (p : Nat)
        (store : Store) (s s' : SourceState) (completion : Completion),
        Placed prog p (stmtCode env tab node c).1 → Agrees store s.store →
        runStmt tab true oracle fuel node s = some (s', completion) →
        Arrives prog oracle p (p + (stmtCode env tab node c).1.length) store s.events s' completion
  | .null, _, _, c, p, store, s, s', completion, _, agrees, ran => by
    rw [runStmt] at ran
    obtain ⟨rfl, rfl⟩ := Prod.mk.inj (Option.some.inj ran)
    simp only [stmtCode, List.length_nil, Nat.add_zero]
    exact ⟨store, .refl _, agrees⟩
  | .common line arity op left right, shape, accepted, c, p, store, s, s', completion, placed,
    agrees, ran => by
    simp only [isStmtOrNull, AstNode.isNull, Bool.false_or] at shape
    simp only [acceptedOrNull, AstNode.isNull, Bool.false_or] at accepted
    cases op with
    | decl =>
      simp only [isStmt, Bool.and_eq_true] at shape
      simp only [stmtAccepted] at accepted
      simp only [runStmt] at ran
      simp only [stmtCode] at placed ⊢
      by_cases null : right.isNull = true
      · simp only [if_pos null, Option.some.injEq, Prod.mk.injEq] at ran
        obtain ⟨rfl, rfl⟩ := ran
        simp only [if_pos null, List.length_nil, Nat.add_zero]
        exact ⟨store, .refl _, agrees⟩
      · rw [Bool.not_eq_true] at null
        simp only [null, Bool.false_or] at shape accepted
        simp only [null, Bool.false_eq_true, if_false] at ran placed ⊢
        split at accepted
        · next lt rt leftTyped rightTyped =>
          exact assign_runs off methods answers shape.1 shape.2 rightTyped placed agrees ran
        · cases accepted
    | assign =>
      simp only [isStmt, Bool.and_eq_true] at shape
      simp only [stmtAccepted] at accepted
      simp only [runStmt] at ran
      simp only [stmtCode, off, Bool.false_eq_true, if_false] at placed ⊢
      split at accepted
      · next lt rt leftTyped rightTyped =>
        exact assign_runs off methods answers shape.1.2 shape.2 rightTyped placed agrees ran
      · cases accepted
    | ret =>
      simp only [isStmt, Bool.and_eq_true] at shape
      simp only [stmtAccepted] at accepted
      simp only [runStmt] at ran
      simp only [stmtCode] at placed ⊢
      by_cases null : left.isNull = true
      · simp only [if_pos null, Option.some.injEq, Prod.mk.injEq] at ran placed
        obtain ⟨rfl, rfl⟩ := ran
        obtain ⟨final, result⟩ := irStep_ret oracle (s := ⟨p, store, [], s.events⟩)
          (irCode_getElem? placed.head)
        exact ⟨_, .refl _, final, result, rfl, agrees⟩
      · rw [Bool.not_eq_true] at null
        simp only [null, Bool.false_or] at shape
        simp only [null, Bool.false_eq_true, if_false, beq_iff_eq] at accepted
        simp only [null, Bool.false_eq_true, if_false, Option.bind_eq_bind, Option.bind_eq_some_iff,
          Option.pure_def, Option.some.injEq, Prod.mk.injEq] at ran placed ⊢
        obtain ⟨⟨v, s₁⟩, value, rfl, rfl⟩ := ran
        obtain ⟨store', reaches, agrees', rfl⟩ :=
          evaluate_runs off methods answers shape.1 accepted placed.left agrees value
        obtain ⟨final, result⟩ := irStep_ret oracle
          (s := ⟨_, store', [], s₁.events⟩) (irCode_getElem? placed.last)
        exact ⟨_, reaches, final, result, rfl, agrees'⟩
    | _ => simp [isStmt] at shape
  | .ifStmt line condition thenBlock elseBlock, shape, accepted, c, p, store, s, s', completion,
    placed, agrees, ran => by
    simp only [isStmtOrNull, AstNode.isNull, Bool.false_or, isStmt_ifStmt,
      Bool.and_eq_true] at shape
    obtain ⟨⟨conditionShape, thenShape⟩, elseShape⟩ := shape
    obtain ⟨typed, branches⟩ := accepted_ifStmt accepted
    rw [ifCase_off off] at branches
    simp only [runStmt, Option.bind_eq_bind, Option.bind_eq_some_iff] at ran
    obtain ⟨⟨v, s₁⟩, value, ran⟩ := ran
    simp only [stmtCode] at placed ⊢
    obtain ⟨store', reaches, agrees', rfl⟩ :=
      evaluate_runs off methods answers conditionShape typed placed.left.left.left agrees value
    refine branch_runs unique rfl placed reaches (fun nonzero q here => ?_) fun zero q here => ?_
    · rw [if_neg nonzero] at ran
      exact stmtCode_runs unique off methods answers fuel thenBlock
        (isStmtOrNull_of_branch thenShape)
        (acceptedOrNull_of_accepted branches.1) _ q store' s₁ s' completion here agrees' ran
    · rw [if_pos zero] at ran
      exact stmtCode_runs unique off methods answers fuel elseBlock
        (isStmtOrNull_of_branch elseShape)
        branches.2 _ q store' s₁ s' completion here agrees' ran
  | .whileStmt line condition block, shape, accepted, c, p, store, s, s', completion,
      placed, agrees,
    ran => by
    simp only [isStmtOrNull, AstNode.isNull, Bool.false_or, isStmt_whileStmt, Bool.and_eq_true]
      at shape
    obtain ⟨typed, bodyAccepted⟩ := accepted_whileStmt accepted
    simp only [runStmt] at ran
    simp only [stmtCode] at placed ⊢
    have body := placed.left.right.tail
    rw [List.length_cons, ← Nat.add_assoc, Nat.add_right_comm p _ 1] at body
    refine loop_runs unique rfl placed (fun store s v s₁ agrees value => ?_)
      (fun store s s' completion agrees ran => ?_) fuel agrees ran
    · exact evaluate_runs off methods answers shape.1 typed placed.left.left.tail agrees value
    · exact stmtCode_runs unique off methods answers fuel block (isStmtOrNull_of_branch shape.2)
        (acceptedOrNull_of_accepted bodyAccepted) _ _ store s s' completion body agrees ran
  | .methodCall line name numArgs args, shape, accepted, c, p, store, s, s', completion, placed,
    agrees, ran => by
    simp only [acceptedOrNull, AstNode.isNull, Bool.false_or, stmtAccepted] at accepted
    obtain ⟨type, typed⟩ := Option.isSome_iff_exists.mp accepted
    simp only [runStmt, Option.bind_eq_bind, Option.bind_eq_some_iff, Option.pure_def,
      Option.some.injEq, Prod.mk.injEq] at ran
    obtain ⟨⟨v, s₁⟩, value, rfl, rfl⟩ := ran
    simp only [stmtCode] at placed ⊢
    obtain ⟨store', reaches, agrees', -⟩ := evaluate_runs off methods answers
      (by simpa [isStmtOrNull, AstNode.isNull, isStmt, isExpr] using shape) typed
        placed agrees value
    exact ⟨store', reaches, agrees'⟩
  | .block line stmts, shape, accepted, c, p, store, s, s', completion, placed, agrees, ran => by
    simp only [isStmtOrNull, AstNode.isNull, Bool.false_or, isStmt] at shape
    simp only [acceptedOrNull, AstNode.isNull, Bool.false_or, stmtAccepted] at accepted
    simp only [runStmt] at ran
    simp only [stmtCode] at placed ⊢
    exact blockCode_runs unique off methods answers fuel stmts shape accepted c p store s s'
      completion placed agrees ran
  | .methodDecl .., shape, _, _, _, _, _, _, _, _, _, _
  | .leaf .., shape, _, _, _, _, _, _, _, _, _, _ => by
    simp [isStmtOrNull, AstNode.isNull, isStmt] at shape
theorem blockCode_runs (unique : LabelsUnique prog) {env : Env} (off : env.optimizations = false)
    {tab : SymbolTable} (methods : tab.MethodsOk) (answers : OracleTyped tab oracle)
    {methodReturnType : RetType} (fuel : Nat) :
    ∀ (stmts : AstNodeList), areStmts tab stmts = true →
      stmtsAccepted env tab methodReturnType stmts = true → ∀ (c : Counters) (p : Nat)
        (store : Store) (s s' : SourceState) (completion : Completion),
        Placed prog p (blockCode env tab stmts c).1 → Agrees store s.store →
        runStmts tab true oracle fuel stmts s = some (s', completion) →
        Arrives prog oracle p (p + (blockCode env tab stmts c).1.length) store
        s.events s' completion
  | .nil, _, _, c, p, store, s, s', completion, _, agrees, ran => by
    rw [runStmts] at ran
    obtain ⟨rfl, rfl⟩ := Prod.mk.inj (Option.some.inj ran)
    exact ⟨store, .refl _, agrees⟩
  | .cons first next, shape, accepted, c, p, store, s, s', completion, placed, agrees, ran => by
    simp only [areStmts, Bool.and_eq_true] at shape
    simp only [stmtsAccepted, Bool.and_eq_true] at accepted
    simp only [runStmts, Option.bind_eq_bind, Option.bind_eq_some_iff] at ran
    obtain ⟨⟨s₁, completed⟩, ranFirst, ran⟩ := ran
    simp only [blockCode, off, Bool.false_eq_true, and_false, if_false] at placed ⊢
    have one := stmtCode_runs unique off methods answers fuel first
      (by simp [isStmtOrNull, shape.1])
      (acceptedOrNull_of_accepted accepted.1) c p store s s₁ completed placed.left agrees ranFirst
    cases completed with
    | normal =>
      rw [List.length_append, ← Nat.add_assoc]
      exact one.andThen fun store' agrees' =>
        blockCode_runs unique off methods answers fuel next shape.2 accepted.2 _ _ store' s₁ s'
          completion placed.right agrees' ran
    | returned value =>
      simp only [Option.pure_def, Option.some.injEq, Prod.mk.injEq] at ran
      obtain ⟨rfl, rfl⟩ := ran
      exact one.returned _
end

end Runs

end Ctds
