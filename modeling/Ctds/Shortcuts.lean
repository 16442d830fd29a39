import Ctds.MemoryOptimization
import Ctds.PlainCode

/-! Two of the shortcuts that `-opt` turns on in `gen_code`: a literal is stored without a
temporary, and a block ends at its first return. Both codes are laid side by side. The longer
one has temporaries and labels of its own, so every later number differs; a relation says which
temporary, and which label, of the one stands for which of the other. -/

namespace Ctds

/-- Which number of the first code, if any, a number of the second stands for. Both are between
two values of their counter. -/
structure Pairs (low high low' high' : Nat) (T : Option Nat → Nat → Prop) : Prop where
  le : low ≤ high
  le' : low' ≤ high'
  left : ∀ {a b}, T (some a) b → low ≤ a ∧ a < high
  right : ∀ {o b}, T o b → low' ≤ b ∧ b < high'
  single : ∀ {a b b'}, T (some a) b → T (some a) b' → b = b'
  own : ∀ {o o' b}, T o b → T o' b → o = o'

/-- The numbers from `low` up to `high`, each `k` later. -/
def Later (low high k : Nat) (o : Option Nat) (b : Nat) : Prop :=
  ∃ a, o = some a ∧ low ≤ a ∧ a < high ∧ b = a + k

def Both (T T' : Option Nat → Nat → Prop) (o : Option Nat) (b : Nat) : Prop := T o b ∨ T' o b

namespace Pairs

variable {low mid high low' mid' high' : Nat} {T T' : Option Nat → Nat → Prop}

theorem both (h : Pairs low mid low' mid' T) (h' : Pairs mid high mid' high' T') :
    Pairs low high low' high' (Both T T') where
  le := h.le.trans h'.le
  le' := h.le'.trans h'.le'
  left := by
    have := h.le
    have := h'.le
    rintro a b (mem | mem)
    · have := h.left mem
      omega
    · have := h'.left mem
      omega
  right := by
    have := h.le'
    have := h'.le'
    rintro o b (mem | mem)
    · have := h.right mem
      omega
    · have := h'.right mem
      omega
  single := by
    rintro a b b' (mem | mem) (mem' | mem')
    · exact h.single mem mem'
    · have := h.left mem
      have := h'.left mem'
      omega
    · have := h'.left mem
      have := h.left mem'
      omega
    · exact h'.single mem mem'
  own := by
    rintro o o' b (mem | mem) (mem' | mem')
    · exact h.own mem mem'
    · have := h.right mem
      have := h'.right mem'
      omega
    · have := h'.right mem
      have := h.right mem'
      omega
    · exact h'.own mem mem'

theorem none (n n' : Nat) : Pairs n n n' n' fun _ _ => False where
  le := Nat.le_refl n
  le' := Nat.le_refl n'
  left := False.elim
  right := False.elim
  single := fun absurd => absurd.elim
  own := fun absurd => absurd.elim

theorem more (h : Pairs low high low' mid' T) (le : mid' ≤ high') : Pairs low high low' high' T :=
  { h with
    le' := h.le'.trans le
    right := fun mem => ⟨(h.right mem).1, Nat.lt_of_lt_of_le (h.right mem).2 le⟩ }

theorem later (le : low ≤ high) (k : Nat) :
    Pairs low high (low + k) (high + k) (Later low high k) where
  le := le
  le' := Nat.add_le_add_right le k
  left := by
    rintro a b ⟨a', same, lower, upper, -⟩
    rw [Option.some.injEq] at same
    omega
  right := by
    rintro o b ⟨a, -, lower, upper, rfl⟩
    omega
  single := by
    rintro a b b' ⟨a', same, -, -, rfl⟩ ⟨a'', same', -, -, rfl⟩
    rw [Option.some.injEq] at same same'
    omega
  own := by
    rintro o o' b ⟨a, rfl, -, -, rfl⟩ ⟨a', rfl, -, -, same⟩
    rw [Option.some.injEq]
    omega

theorem alone (n n' : Nat) : Pairs n n n' (n' + 1) fun o b => o = Option.none ∧ b = n' where
  le := Nat.le_refl n
  le' := Nat.le_succ n'
  left := by
    rintro a b ⟨absurd, -⟩
    cases absurd
  right := by
    rintro o b ⟨-, rfl⟩
    omega
  single := by
    rintro a b b' ⟨absurd, -⟩
    cases absurd
  own := by
    rintro o o' b ⟨rfl, -⟩ ⟨rfl, -⟩
    rfl

end Pairs

/-- The same instruction with the numbers the relations give. -/
def SameInstr (T L : Option Nat → Nat → Prop) (i i' : IrInstr) : Prop :=
  ∃ φ ψ, i' = i.rename φ ψ ∧ (∀ n ∈ i.temps, T (some n) (φ n)) ∧ ∀ n ∈ i.labels, L (some n) (ψ n)

namespace SameInstr

variable {T L : Option Nat → Nat → Prop} {n m : Nat}

theorem label (paired : L (some n) m) : SameInstr T L (.label n) (.label m) :=
  ⟨id, fun _ => m, rfl, by simp [IrInstr.temps, IrInstr.uses, IrInstr.dest?],
    by simpa [IrInstr.labels] using paired⟩

theorem jmp (paired : L (some n) m) : SameInstr T L (.jmp n) (.jmp m) :=
  ⟨id, fun _ => m, rfl, by simp [IrInstr.temps, IrInstr.uses, IrInstr.dest?],
    by simpa [IrInstr.labels] using paired⟩

theorem jmpf {r : Var} {φ : Nat → Nat} (read : ∀ a ∈ r.temps, T (some a) (φ a))
    (paired : L (some n) m) : SameInstr T L (.jmpf r n) (.jmpf (r.rename φ) m) :=
  ⟨φ, fun _ => m, rfl, by simpa [IrInstr.temps, IrInstr.uses, IrInstr.dest?] using read,
    by simpa [IrInstr.labels] using paired⟩

end SameInstr

/-- The first code is the second with literals stored directly, and without some of what stands
behind a RET. -/
inductive Shortens (T L : Option Nat → Nat → Prop) : List IrInstr → List IrInstr → Prop where
  | nil : Shortens T L [] []
  | same {i i' : IrInstr} {code code' : List IrInstr} :
    SameInstr T L i i' → Shortens T L code code' → Shortens T L (i :: code) (i' :: code')
  | literal (v : BitVec 32) (x : Ident) {t : Nat} {code code' : List IrInstr} :
    T none t → Shortens T L code code' →
    Shortens T L (.storeVal v x :: code) (.loadval v t :: .store (.temp t) x :: code')
  | dead {r r' : Option Var} {code code' : List IrInstr} (rest : List IrInstr) :
    SameInstr T L (.ret r) (.ret r') → Shortens T L code code' →
    Shortens T L (.ret r :: code) (.ret r' :: rest ++ code')

namespace Shortens

variable {T L T' L' : Option Nat → Nat → Prop} {code code' more more' : List IrInstr}

theorem mono (h : Shortens T L code code') (temps : ∀ o b, T o b → T' o b)
    (labels : ∀ o b, L o b → L' o b) : Shortens T' L' code code' := by
  have wider : ∀ {i i' : IrInstr}, SameInstr T L i i' → SameInstr T' L' i i' := by
    rintro i i' ⟨φ, ψ, eq, usesT, usesL⟩
    exact ⟨φ, ψ, eq, fun n mem => temps _ _ (usesT n mem), fun n mem => labels _ _ (usesL n mem)⟩
  induction h with
  | nil => exact .nil
  | same instr _ ih => exact .same (wider instr) ih
  | literal v x own _ ih => exact .literal v x (temps _ _ own) ih
  | dead rest instr _ ih => exact .dead rest (wider instr) ih

theorem append (h : Shortens T L code code') (h' : Shortens T L more more') :
    Shortens T L (code ++ more) (code' ++ more') := by
  induction h with
  | nil => exact h'
  | same instr _ ih => exact .same instr ih
  | literal v x own _ ih => exact .literal v x own ih
  | dead rest instr _ ih =>
    rw [List.cons_append, List.cons_append, List.cons_append, List.append_assoc]
    exact .dead rest instr ih

theorem first (h : Shortens T L code code') : Shortens (Both T T') (Both L L') code code' :=
  h.mono (fun _ _ => Or.inl) fun _ _ => Or.inl

theorem second (h : Shortens T' L' code code') : Shortens (Both T T') (Both L L') code code' :=
  h.mono (fun _ _ => Or.inr) fun _ _ => Or.inr

theorem one {i i' : IrInstr} (instr : SameInstr T L i i') : Shortens T L [i] [i'] :=
  .same instr .nil

theorem shift {k : Nat} (temps : ∀ i ∈ code, ∀ n ∈ i.temps, T (some n) (n + k))
    (labels : ∀ i ∈ code, i.labels = []) : Shortens T L code (code.map (IrInstr.shift k)) := by
  induction code with
  | nil => exact .nil
  | cons i rest ih =>
    refine .same ⟨(· + k), id, rfl, temps i List.mem_cons_self, ?_⟩ (ih ?_ ?_)
    · rw [labels i List.mem_cons_self]
      exact fun n mem => absurd mem List.not_mem_nil
    · exact fun j mem => temps j (List.mem_cons_of_mem i mem)
    · exact fun j mem => labels j (List.mem_cons_of_mem i mem)

theorem label_at (h : Shortens T L code code') {p n : Nat} (here : code[p]? = some (.label n)) :
    ∃ q m, code'[q]? = some (.label m) ∧ L (some n) m ∧
      Shortens T L (code.drop p) (code'.drop q) := by
  induction h generalizing p with
  | nil => cases here
  | @same i i' code code' instr rest ih =>
    cases p with
    | zero =>
      obtain rfl := Option.some.inj here
      obtain ⟨φ, ψ, rfl, -, labels⟩ := id instr
      exact ⟨0, ψ n, rfl, labels n List.mem_cons_self, .same instr rest⟩
    | succ p =>
      obtain ⟨q, m, there, paired, behind⟩ := ih here
      exact ⟨q + 1, m, there, paired, behind⟩
  | @literal v x t code code' own rest ih =>
    cases p with
    | zero => cases here
    | succ p =>
      obtain ⟨q, m, there, paired, behind⟩ := ih here
      exact ⟨q + 2, m, there, paired, behind⟩
  | @dead r r' code code' rest instr _ ih =>
    cases p with
    | zero => cases here
    | succ p =>
      obtain ⟨q, m, there, paired, behind⟩ := ih here
      refine ⟨rest.length + q + 1, m, ?_, paired, ?_⟩
      · rw [List.cons_append, List.getElem?_cons_succ, List.getElem?_append_right (by omega),
          Nat.add_sub_cancel_left, there]
      · rw [List.cons_append, List.drop_succ_cons, List.drop_succ_cons, List.drop_length_add_append]
        exact behind

end Shortens

/-- The code names temporaries in this range only, and no label. -/
def NamesIn (t u : Nat) (code : List IrInstr) : Prop :=
  ∀ i ∈ code, (∀ n ∈ i.temps, t ≤ n ∧ n < u) ∧ i.labels = []

namespace NamesIn

variable {t u v w : Nat} {code code' : List IrInstr}

theorem nil (t u : Nat) : NamesIn t u [] := fun _ mem => absurd mem List.not_mem_nil

theorem mono (h : NamesIn t u code) (low : v ≤ t) (high : u ≤ w) : NamesIn v w code := by
  refine fun i mem => ⟨fun n here => ?_, (h i mem).2⟩
  have := (h i mem).1 n here
  omega

theorem append (h : NamesIn t u code) (h' : NamesIn t u code') : NamesIn t u (code ++ code') :=
  fun i mem => (List.mem_append.mp mem).elim (h i) (h' i)

theorem one {i : IrInstr} (temps : ∀ n ∈ i.temps, t ≤ n ∧ n < u) (labels : i.labels = []) :
    NamesIn t u [i] := by
  intro j mem
  obtain rfl := List.mem_singleton.mp mem
  exact ⟨temps, labels⟩

theorem snoc {i : IrInstr} (h : NamesIn t u code) (le : t ≤ u)
    (uses : ∀ n ∈ i.uses, t ≤ n ∧ n < u) (dest : i.dest? = some u) (labels : i.labels = []) :
    NamesIn t (u + 1) (code ++ [i]) := by
  refine (h.mono (Nat.le_refl t) (Nat.le_succ u)).append (.one (fun n mem => ?_) labels)
  rw [IrInstr.temps, dest, Option.toList, List.mem_append, List.mem_singleton] at mem
  rcases mem with mem | rfl
  · have := uses n mem
    omega
  · omega

end NamesIn

theorem Operands.own_names {t u : Nat} {code : List IrInstr} {rs : List Var}
    (h : Operands t code rs u) : NamesIn t u code := by
  induction h with
  | nil | user => exact .nil _ _
  | load | loadval => exact .one (by simp [IrInstr.temps, IrInstr.uses, IrInstr.dest?]) rfl
  | cons first rest ih ih' =>
    exact (ih.mono (Nat.le_refl _) rest.temps_le).append (ih'.mono first.temps_le (Nat.le_refl _))
  | binary op operands ih | shiftRight count operands ih | unary op operands ih =>
    exact ih.snoc operands.temps_le
      (fun n mem => operands.results n (by simpa [IrInstr.uses] using mem)) rfl rfl
  | @call t u code rs f operands ih =>
    have params : NamesIn t u (rs.map IrInstr.param) := by
      intro i mem
      obtain ⟨r, here, rfl⟩ := List.mem_map.mp mem
      refine ⟨fun n read => operands.results n (List.mem_flatMap.mpr ⟨r, here, ?_⟩), rfl⟩
      simpa [IrInstr.temps, IrInstr.uses, IrInstr.dest?] using read
    exact (ih.append params).snoc operands.temps_le (by simp [IrInstr.uses]) rfl rfl

def ExprCode.shift (k : Nat) (e : ExprCode) : ExprCode :=
  ⟨e.code.map (IrInstr.shift k), e.result.rename (· + k), e.temps + k⟩

def ArgsCode.shift (k : Nat) (a : ArgsCode) : ArgsCode :=
  ⟨a.code.map (IrInstr.shift k), a.results.map (Var.rename (· + k)), a.temps + k⟩

theorem leafCode_shift {env : Env} {tab : SymbolTable} {line : Int} {value : LeafValue}
    (shape : isExpr tab (.leaf line value) = true) (fatherOp temps k : Nat) :
    leafCode env tab fatherOp value (temps + k) =
      (leafCode env tab fatherOp value temps).shift k := by
  have next : temps + k + 1 = temps + 1 + k := Nat.add_right_comm temps k 1
  cases value with
  | int _ | bool _ =>
    simp [leafCode, ExprCode.shift, IrInstr.shift, IrInstr.rename, Var.rename, next]
  | id p =>
    obtain ⟨info, entry⟩ := SymbolTable.hasEntry_iff.mp (by simpa [isExpr] using shape)
    simp only [leafCode, entry, ExprCode.shift, Var.rename]
    split <;> rfl

mutual
/-- The code of an expression from a later temporary on. -/
theorem exprCode_shift (env : Env) (tab : SymbolTable) :
    ∀ (node : AstNode), isExpr tab node = true → ∀ (fatherOp temps k : Nat),
      exprCode env tab fatherOp node (temps + k) = (exprCode env tab fatherOp node temps).shift k
  | .leaf line value, shape, fatherOp, temps, k => by
    rw [exprCode, exprCode]
    exact leafCode_shift shape fatherOp temps k
  | .common line .binary op left right, shape, fatherOp, temps, k => by
    simp only [isExpr, Bool.and_eq_true] at shape
    have first := exprCode_shift env tab left shape.1.2 op.code temps k
    have second := exprCode_shift env tab right shape.2 op.code
      (exprCode env tab op.code left temps).temps k
    simp only [exprCode, first]
    cases divisionShift env op right with
    | some count =>
      simp [ExprCode.shift, IrInstr.shift, IrInstr.rename, Var.rename, Nat.add_right_comm]
    | none =>
      simp only [ExprCode.shift] at second
      simp [ExprCode.shift, IrInstr.shift, IrInstr.rename, Var.rename, second, Nat.add_right_comm]
  | .common line .unary op left right, shape, fatherOp, temps, k => by
    simp only [isExpr, Bool.and_eq_true] at shape
    have first := exprCode_shift env tab left shape.1.2 op.code temps k
    simp [exprCode, first, ExprCode.shift, IrInstr.shift, IrInstr.rename, Var.rename,
      Nat.add_right_comm]
  | .methodCall line name numArgs args, shape, fatherOp, temps, k => by
    simp only [isExpr, Bool.and_eq_true] at shape
    have all := argsCode_shift env tab args shape.2
      (env.opView (.methodCall line name numArgs args)) temps k
    simp [exprCode, all, ArgsCode.shift, ExprCode.shift, IrInstr.shift, IrInstr.rename, Var.rename,
      Function.comp_def, Nat.add_right_comm]
  | .null, shape, _, _, _ | .ifStmt .., shape, _, _, _ | .whileStmt .., shape, _, _, _
  | .methodDecl .., shape, _, _, _ | .block .., shape, _, _, _ => by simp [isExpr] at shape
theorem argsCode_shift (env : Env) (tab : SymbolTable) :
    ∀ (args : AstNodeList), areExprs tab args = true → ∀ (fatherOp temps k : Nat),
      argsCode env tab fatherOp args (temps + k) = (argsCode env tab fatherOp args temps).shift k
  | .nil, _, _, _, _ => by simp [argsCode, ArgsCode.shift]
  | .cons first next, shape, fatherOp, temps, k => by
    simp only [areExprs, Bool.and_eq_true] at shape
    have one := exprCode_shift env tab first shape.1 fatherOp temps k
    have more := argsCode_shift env tab next shape.2 fatherOp
      (exprCode env tab fatherOp first temps).temps k
    simp only [ExprCode.shift] at one
    simp only [ArgsCode.shift] at more
    simp [argsCode, one, more, ArgsCode.shift]
end

/-- The counters of the second code are never behind. -/
def Counters.Ahead (c c' : Counters) : Prop := c.temp ≤ c'.temp ∧ c.label ≤ c'.label

/-- The one code beside the other, each from one value of its counters to another. -/
def Shortened (c d : Counters) (code : List IrInstr) (c' d' : Counters) (code' : List IrInstr) :
    Prop :=
  ∃ T L, Pairs c.temp d.temp c'.temp d'.temp T ∧ Pairs c.label d.label c'.label d'.label L ∧
    Shortens T L code code'

namespace Shortened

variable {c d e c' d' e' : Counters} {code code' more more' : List IrInstr}

theorem nil (c c' : Counters) : Shortened c c [] c' c' [] :=
  ⟨_, _, .none _ _, .none _ _, .nil⟩

theorem append (h : Shortened c d code c' d' code') (h' : Shortened d e more d' e' more') :
    Shortened c e (code ++ more) c' e' (code' ++ more') := by
  obtain ⟨T, L, temps, labels, short⟩ := h
  obtain ⟨T', L', temps', labels', short'⟩ := h'
  exact ⟨_, _, temps.both temps', labels.both labels', short.first.append short'.second⟩

theorem outer (c c' : Counters) (outer : ∀ i ∈ code, i.isInner = false) :
    Shortened c c code c' c' code := by
  refine ⟨_, _, .none _ _, .none _ _, ?_⟩
  induction code with
  | nil => exact .nil
  | cons i rest ih =>
    refine .same ⟨id, id, ?_, ?_, ?_⟩ (ih fun j mem => outer j (List.mem_cons_of_mem i mem))
    all_goals
      have inner := outer i List.mem_cons_self
      cases i with
      | enter _ | leave _ | externDecl _ =>
        simp [IrInstr.rename, IrInstr.temps, IrInstr.uses, IrInstr.dest?, IrInstr.labels]
      | _ => cases inner

theorem literal (v : BitVec 32) (x : Ident) (c c' : Counters) :
    Shortened c c [.storeVal v x] c' { c' with temp := c'.temp + 1 }
      [.loadval v c'.temp, .store (.temp c'.temp) x] :=
  ⟨_, _, .alone _ _, .none _ _, .literal v x ⟨rfl, rfl⟩ .nil⟩

section Own

variable {t u k l : Nat} {r : Var} (le : t ≤ u)
  (names : NamesIn t u code)
  (range : ∀ n ∈ r.temps, t ≤ n ∧ n < u)

include names

theorem ownShortens {L : Option Nat → Nat → Prop} :
    Shortens (Later t u k) L code (code.map (IrInstr.shift k)) := by
  refine .shift (fun i mem n here => ?_) fun i mem => (names i mem).2
  have range := (names i mem).1 n here
  exact ⟨n, rfl, range.1, range.2, rfl⟩

include range in
theorem ownTest {L : Option Nat → Nat → Prop} {n n' : Nat} (paired : L (some n) n') :
    Shortens (Later t u k) L (code ++ [.jmpf r n])
      (code.map (IrInstr.shift k) ++ [.jmpf (r.rename (· + k)) n']) := by
  refine (ownShortens names).append (.one (.jmpf (fun a mem => ?_) paired))
  exact ⟨a, rfl, (range a mem).1, (range a mem).2, rfl⟩

include le

theorem own (l' : Nat) :
    Shortened ⟨t, l⟩ ⟨u, l⟩ code ⟨t + k, l'⟩ ⟨u + k, l'⟩ (code.map (IrInstr.shift k)) :=
  ⟨_, _, .later le k, .none _ _, ownShortens names⟩

theorem ret {l' : Nat} {r : Option Var} (range : ∀ n ∈ (IrInstr.ret r).temps, t ≤ n ∧ n < u)
    (ahead : Counters.Ahead ⟨u + k, l'⟩ e') (rest : List IrInstr) :
    Shortened ⟨t, l⟩ ⟨u, l⟩ (code ++ [.ret r]) ⟨t + k, l'⟩ e'
      (code.map (IrInstr.shift k) ++ [.ret (r.map (Var.rename (· + k)))] ++ rest) := by
  refine ⟨_, _, (Pairs.later le k).more ahead.1, (Pairs.none l l').more ahead.2, ?_⟩
  have last : SameInstr (Later t u k) (fun _ _ => False) (.ret r)
    (.ret (r.map (Var.rename (· + k)))) :=
    ⟨(· + k), id, rfl, fun n mem => ⟨n, rfl, (range n mem).1, (range n mem).2, rfl⟩,
      fun n mem => absurd mem List.not_mem_nil⟩
  rw [List.append_assoc]
  simpa using (ownShortens names).append (.dead rest last .nil)

include range

theorem branch {m : Nat} {thenCode thenCode' elseCode elseCode' : List IrInstr}
    (thens : Shortened ⟨u, l + 2⟩ d thenCode ⟨u + k, l + m + 2⟩ d' thenCode')
    (elses : Shortened d e elseCode d' e' elseCode') :
    Shortened ⟨t, l⟩ e
      (code ++ .jmpf r l :: thenCode ++ .jmp (l + 1) :: .label l :: elseCode ++ [.label (l + 1)])
      ⟨t + k, l + m⟩ e'
      (code.map (IrInstr.shift k) ++ .jmpf (r.rename (· + k)) (l + m) :: thenCode' ++
        .jmp (l + m + 1) :: .label (l + m) :: elseCode' ++ [.label (l + m + 1)]) := by
  obtain ⟨T, L, temps, labels, short⟩ := thens
  obtain ⟨T', L', temps', labels', short'⟩ := elses
  have two := Pairs.later (show l ≤ l + 2 by omega) m
  rw [Nat.add_right_comm l 2 m] at two
  refine ⟨_, _, (Pairs.later le k).both (temps.both temps'), two.both (labels.both labels'), ?_⟩
  have first : Later l (l + 2) m (some l) (l + m) := ⟨l, rfl, by omega, by omega, rfl⟩
  have second : Later l (l + 2) m (some (l + 1)) (l + m + 1) :=
    ⟨l + 1, rfl, by omega, by omega, by omega⟩
  have test := ownTest names range first (k := k)
  have jump : Shortens (Later t u k) (Later l (l + 2) m) [.jmp (l + 1), .label l]
      [.jmp (l + m + 1), .label (l + m)] := .same (.jmp second) (.one (.label first))
  have last : Shortens (Later t u k) (Later l (l + 2) m) [.label (l + 1)] [.label (l + m + 1)] :=
    .one (.label second)
  have all : Shortens (Both (Later t u k) (Both T T')) (Both (Later l (l + 2) m) (Both L L')) _ _ :=
    (((test.first.append short.first.second).append jump.first).append short'.second.second).append
      last.first
  simpa using all

theorem loop {m : Nat} {body body' : List IrInstr}
    (bodies : Shortened ⟨u, l + 2⟩ d body ⟨u + k, l + m + 2⟩ d' body') :
    Shortened ⟨t, l⟩ d
      (.label l :: code ++ .jmpf r (l + 1) :: body ++ [.jmp l, .label (l + 1)])
      ⟨t + k, l + m⟩ d'
      (.label (l + m) :: code.map (IrInstr.shift k) ++
        .jmpf (r.rename (· + k)) (l + m + 1) :: body' ++
        [.jmp (l + m), .label (l + m + 1)]) := by
  obtain ⟨T, L, temps, labels, short⟩ := bodies
  have two := Pairs.later (show l ≤ l + 2 by omega) m
  rw [Nat.add_right_comm l 2 m] at two
  refine ⟨_, _, (Pairs.later le k).both temps, two.both labels, ?_⟩
  have first : Later l (l + 2) m (some l) (l + m) := ⟨l, rfl, by omega, by omega, rfl⟩
  have second : Later l (l + 2) m (some (l + 1)) (l + m + 1) :=
    ⟨l + 1, rfl, by omega, by omega, by omega⟩
  have test := ownTest names range second (k := k)
  have last : Shortens (Later t u k) (Later l (l + 2) m) [.jmp l, .label (l + 1)]
      [.jmp (l + m), .label (l + m + 1)] := .same (.jmp first) (.one (.label second))
  have head := Shortens.same (.label first) test
  have all : Shortens (Both (Later t u k) T) (Both (Later l (l + 2) m) L) _ _ :=
    (head.first.append short.second).append last.first
  simpa using all

end Own

end Shortened

section Trees

variable {env : Env} {tab : SymbolTable}

theorem Operands.result_range {t u : Nat} {code : List IrInstr} {r : Var}
    (h : Operands t code [r] u) : ∀ n ∈ r.temps, t ≤ n ∧ n < u :=
  fun n mem => h.results n (by simpa using mem)

theorem expr_shortened {node : AstNode} (shape : isExpr tab node = true) (fatherOp t k l l' : Nat) :
    Shortened ⟨t, l⟩ ⟨(exprCode env tab fatherOp node t).temps, l⟩
      (exprCode env tab fatherOp node t).code
      ⟨t + k, l'⟩ ⟨(exprCode env tab fatherOp node (t + k)).temps, l'⟩
      (exprCode env tab fatherOp node (t + k)).code := by
  have operands := exprCode_operands env tab node shape fatherOp t
  rw [exprCode_shift env tab node shape]
  exact .own operands.temps_le operands.own_names l'

theorem store_shortened {left node : AstNode} (target : isIdLeaf tab left = true)
    (shape : isExpr tab node = true) (fatherOp t k l l' : Nat) :
    Shortened ⟨t, l⟩ ⟨(exprCode env tab fatherOp node t).temps, l⟩
      ((exprCode env tab fatherOp node t).code ++
        storeTo (exprCode env tab fatherOp node t).result (targetOf tab left))
      ⟨t + k, l'⟩ ⟨(exprCode env tab fatherOp node (t + k)).temps, l'⟩
      ((exprCode env tab fatherOp node (t + k)).code ++
        storeTo (exprCode env tab fatherOp node (t + k)).result (targetOf tab left)) := by
  have operands := exprCode_operands env tab node shape fatherOp t
  obtain ⟨x, named⟩ := targetOf_some target
  rw [exprCode_shift env tab node shape, named]
  have names := operands.own_names.append
    (.one (i := .store (exprCode env tab fatherOp node t).result x)
      (by simpa [IrInstr.temps, IrInstr.uses, IrInstr.dest?] using operands.result_range) rfl)
  have all := Shortened.own (k := k) (l := l) operands.temps_le names l'
  simpa [storeTo, ExprCode.shift, IrInstr.shift, IrInstr.rename] using all

theorem return_shortened (env : Env) {line : Int} {arity : OperatorArity} {left right : AstNode}
    (shape : isStmt tab (.common line arity .ret left right) = true) {c c' e' : Counters}
    (ahead : c.Ahead c')
    (behind : (plainStmtCode env tab (.common line arity .ret left right) c').2.Ahead e')
    (rest : List IrInstr) :
    Shortened c (stmtCode env tab (.common line arity .ret left right) c).2
      (stmtCode env tab (.common line arity .ret left right) c).1 c' e'
      ((plainStmtCode env tab (.common line arity .ret left right) c').1 ++ rest) := by
  obtain ⟨t, l⟩ := c
  obtain ⟨t', l'⟩ := c'
  obtain ⟨k, rfl⟩ : ∃ k, t' = t + k := Nat.exists_eq_add_of_le ahead.1
  simp only [isStmt, Bool.and_eq_true] at shape
  simp only [stmtCode, plainStmtCode] at behind ⊢
  by_cases null : left.isNull
  · rw [if_pos null] at behind ⊢
    rw [if_pos null]
    have all := Shortened.ret (k := k) (l := l) (r := none) (Nat.le_refl t) (.nil t t)
      (by simp [IrInstr.temps, IrInstr.uses, IrInstr.dest?]) behind rest
    simpa using all
  · rw [if_neg null] at behind ⊢
    rw [if_neg null]
    have expr : isExpr tab left = true := by simpa [null] using shape.1
    have operands := exprCode_operands env tab left expr Operator.ret.code t
    rw [exprCode_shift env tab left expr] at behind ⊢
    have all := Shortened.ret (l := l)
      (r := some (exprCode env tab Operator.ret.code left t).result)
      operands.temps_le operands.own_names
      (by simpa [IrInstr.temps, IrInstr.uses, IrInstr.dest?] using operands.result_range)
      behind rest
    exact all

theorem Counters.Ahead.refl (c : Counters) : c.Ahead c := ⟨Nat.le_refl _, Nat.le_refl _⟩

theorem Counters.Ahead.trans {c d e : Counters} (h : c.Ahead d) (h' : d.Ahead e) : c.Ahead e :=
  ⟨h.1.trans h'.1, h.2.trans h'.2⟩

theorem Emits.ahead {c d : Counters} {code : List IrInstr} (h : Emits c code d) : c.Ahead d := by
  refine ⟨?_, h.labels.le⟩
  obtain ⟨low, -, ranges⟩ := h.ranges (Nat.le_refl c.temp)
  exact ranges.le

mutual
theorem stmt_shortened (env : Env) (tab : SymbolTable) :
    ∀ (node : AstNode), isStmt tab node = true → ∀ (c c' : Counters), c.Ahead c' →
      (stmtCode env tab node c).2.Ahead (plainStmtCode env tab node c').2 ∧
        Shortened c (stmtCode env tab node c).2 (stmtCode env tab node c).1 c'
          (plainStmtCode env tab node c').2 (plainStmtCode env tab node c').1
  | .common line arity op left right, shape, ⟨t, l⟩, ⟨t', l'⟩, ahead => by
    obtain ⟨k, rfl⟩ : ∃ k, t' = t + k := Nat.exists_eq_add_of_le ahead.1
    have later : ∀ {node : AstNode}, isExpr tab node = true → ∀ op : Operator,
        Counters.Ahead ⟨(exprCode env tab op.code node t).temps, l⟩
          ⟨(exprCode env tab op.code node (t + k)).temps, l'⟩ := by
      intro node expr op
      rw [exprCode_shift env tab node expr]
      exact ⟨Nat.le_add_right _ k, ahead.2⟩
    cases op with
    | decl =>
      simp only [isStmt, Bool.and_eq_true] at shape
      simp only [stmtCode, plainStmtCode]
      by_cases null : right.isNull
      · rw [if_pos null, if_pos null]
        exact ⟨ahead, .nil _ _⟩
      · rw [if_neg null, if_neg null]
        have expr : isExpr tab right = true := by simpa [null] using shape.2
        exact ⟨later expr _, store_shortened shape.1 expr _ t k l l'⟩
    | assign =>
      simp only [isStmt, Bool.and_eq_true] at shape
      obtain ⟨x, target⟩ := targetOf_some shape.1.2
      simp only [stmtCode, plainStmtCode]
      split
      · next value direct =>
        -- the literal is stored directly in the first code, through a temporary in the second
        have loaded : exprCode env tab Operator.assign.code right (t + k) =
            ⟨[.loadval (value.intValue env) (t + k)], .temp (t + k), t + k + 1⟩ := by
          cases right with
          | leaf line leafValue =>
            cases leafValue with
            | id p => simp [AstNode.literal?] at direct
            | int v | bool v =>
              simp only [AstNode.literal?, Option.ite_none_right_eq_some,
                Option.some.injEq] at direct
              simp [← direct.2, exprCode, leafCode]
          | _ => simp [AstNode.literal?] at direct
        rw [target, loaded]
        exact ⟨⟨ahead.1.trans (Nat.le_succ _), ahead.2⟩, .literal _ x _ _⟩
      · exact ⟨later shape.2 _, store_shortened shape.1.2 shape.2 _ t k l l'⟩
    | ret =>
      have all := return_shortened env shape ahead (.refl _) []
      rw [List.append_nil] at all
      refine ⟨?_, all⟩
      simp only [isStmt, Bool.and_eq_true] at shape
      simp only [stmtCode, plainStmtCode]
      by_cases null : left.isNull
      · rw [if_pos null, if_pos null]
        exact ahead
      · rw [if_neg null, if_neg null]
        exact later (by simpa [null] using shape.1) _
    | _ => simp [isStmt] at shape
  | .ifStmt line condition thenBlock elseBlock, shape, ⟨t, l⟩, ⟨t', l'⟩, ahead => by
    obtain ⟨k, rfl⟩ : ∃ k, t' = t + k := Nat.exists_eq_add_of_le ahead.1
    obtain ⟨m, rfl⟩ : ∃ m, l' = l + m := Nat.exists_eq_add_of_le ahead.2
    rw [isStmt_ifStmt] at shape
    simp only [Bool.and_eq_true] at shape
    have operands := exprCode_operands env tab condition shape.1.1
      (env.opView (.ifStmt line condition thenBlock elseBlock)) t
    simp only [stmtCode, plainStmtCode]
    rw [exprCode_shift env tab condition shape.1.1]
    obtain ⟨aheadThen, thens⟩ := branch_shortened env tab thenBlock shape.1.2
      ⟨(exprCode env tab (env.opView (.ifStmt line condition thenBlock elseBlock))
        condition t).temps,
        l + 2⟩ ⟨_ + k, l + m + 2⟩ ⟨Nat.le_add_right _ k, by simp only; omega⟩
    obtain ⟨aheadElse, elses⟩ := branch_shortened env tab elseBlock shape.2 _ _ aheadThen
    exact ⟨aheadElse, .branch operands.temps_le operands.own_names
      operands.result_range thens elses⟩
  | .whileStmt line condition block, shape, ⟨t, l⟩, ⟨t', l'⟩, ahead => by
    obtain ⟨k, rfl⟩ : ∃ k, t' = t + k := Nat.exists_eq_add_of_le ahead.1
    obtain ⟨m, rfl⟩ : ∃ m, l' = l + m := Nat.exists_eq_add_of_le ahead.2
    rw [isStmt_whileStmt] at shape
    simp only [Bool.and_eq_true] at shape
    have operands := exprCode_operands env tab condition shape.1
      (env.opView (.whileStmt line condition block)) t
    simp only [stmtCode, plainStmtCode]
    rw [exprCode_shift env tab condition shape.1]
    obtain ⟨aheadBody, bodies⟩ := branch_shortened env tab block shape.2
      ⟨(exprCode env tab (env.opView (.whileStmt line condition block)) condition t).temps, l + 2⟩
      ⟨_ + k, l + m + 2⟩ ⟨Nat.le_add_right _ k, by simp only; omega⟩
    exact ⟨aheadBody, .loop operands.temps_le operands.own_names operands.result_range bodies⟩
  | .methodCall line name numArgs args, shape, ⟨t, l⟩, ⟨t', l'⟩, ahead => by
    obtain ⟨k, rfl⟩ : ∃ k, t' = t + k := Nat.exists_eq_add_of_le ahead.1
    have expr : isExpr tab (.methodCall line name numArgs args) = true := by
      simpa [isStmt, isExpr] using shape
    simp only [stmtCode, plainStmtCode]
    refine ⟨⟨?_, ahead.2⟩, expr_shortened expr 0 t k l l'⟩
    rw [exprCode_shift env tab _ expr]
    exact Nat.le_add_right _ k
  | .block line stmts, shape, c, c', ahead => by
    rw [isStmt] at shape
    simp only [stmtCode, plainStmtCode]
    exact block_shortened env tab stmts shape c c' ahead
  | .null, shape, _, _, _ | .methodDecl .., shape, _, _, _ | .leaf .., shape, _, _, _ => by
    simp [isStmt] at shape
theorem branch_shortened (env : Env) (tab : SymbolTable) :
    ∀ (node : AstNode), isBranch tab node = true → ∀ (c c' : Counters), c.Ahead c' →
      (stmtCode env tab node c).2.Ahead (plainStmtCode env tab node c').2 ∧
        Shortened c (stmtCode env tab node c).2 (stmtCode env tab node c).1 c'
          (plainStmtCode env tab node c').2 (plainStmtCode env tab node c').1
  | .null, _, c, c', ahead => by
    simp only [stmtCode, plainStmtCode]
    exact ⟨ahead, .nil c c'⟩
  | .block line stmts, shape, c, c', ahead => by
    simp only [isBranch, AstNode.isNull, AstNode.isBlock, isStmt, Bool.false_or, Bool.true_and]
      at shape
    simp only [stmtCode, plainStmtCode]
    exact block_shortened env tab stmts shape c c' ahead
  | .common .., shape, _, _, _ | .ifStmt .., shape, _, _, _ | .whileStmt .., shape, _, _, _
  | .methodDecl .., shape, _, _, _ | .methodCall .., shape, _, _, _ | .leaf .., shape, _, _, _ => by
    simp [isBranch, AstNode.isNull, AstNode.isBlock] at shape
theorem block_shortened (env : Env) (tab : SymbolTable) :
    ∀ (stmts : AstNodeList), areStmts tab stmts = true → ∀ (c c' : Counters), c.Ahead c' →
      (blockCode env tab stmts c).2.Ahead (plainBlockCode env tab stmts c').2 ∧
        Shortened c (blockCode env tab stmts c).2 (blockCode env tab stmts c).1 c'
          (plainBlockCode env tab stmts c').2 (plainBlockCode env tab stmts c').1
  | .nil, _, c, c', ahead => ⟨ahead, .nil c c'⟩
  | .cons first next, shape, c, c', ahead => by
    simp only [areStmts, Bool.and_eq_true] at shape
    obtain ⟨aheadFirst, one⟩ := stmt_shortened env tab first shape.1 c c' ahead
    have rest := plainBlockCode_emits env tab next shape.2 (plainStmtCode env tab first c').2
    rw [blockCode, plainBlockCode]
    by_cases stops : first.isReturn = true ∧ env.optimizations = true
    · rw [if_pos stops]
      refine ⟨aheadFirst.trans rest.ahead, ?_⟩
      cases first with
      | common line arity op left right =>
        cases op with
        | ret => exact return_shortened env shape.1 ahead rest.ahead _
        | _ => cases stops.1
      | _ => cases stops.1
    · rw [if_neg stops]
      obtain ⟨aheadRest, more⟩ := block_shortened env tab next shape.2 _ _ aheadFirst
      exact ⟨aheadRest, one.append more⟩
end

theorem sentence_shortened (env : Env) {node : AstNode} (shape : isSentence tab node = true)
    {c c' : Counters} (ahead : c.Ahead c') :
    (sentenceCode env tab node c).2.Ahead (plainSentenceCode env tab node c').2 ∧
      Shortened c (sentenceCode env tab node c).2 (sentenceCode env tab node c).1 c'
        (plainSentenceCode env tab node c').2 (plainSentenceCode env tab node c').1 := by
  unfold isSentence at shape
  split at shape
  · exact stmt_shortened env tab _ shape c c' ahead
  · next line sym block =>
    rw [Bool.and_eq_true] at shape
    obtain ⟨info, entry⟩ := SymbolTable.hasEntry_iff.mp shape.1
    by_cases isExtern : info.methodView.isExtern = true
    · simp only [sentenceCode, plainSentenceCode, entry, if_pos isExtern]
      exact ⟨ahead, .outer c c' (by simp [IrInstr.isInner])⟩
    · have own := Bool.eq_false_iff.mpr isExtern
      rw [Section.sentenceCode_method line block c entry own,
        plainSentenceCode_method env line block c' entry own]
      obtain ⟨aheadBody, bodies⟩ := branch_shortened env tab block shape.2 c c' ahead
      have enter : Shortened c c [.enter info.name] c' c' [.enter info.name] :=
        .outer c c' (by simp [IrInstr.isInner])
      have leave : ∀ d d', Shortened d d [.leave info.name] d' d' [.leave info.name] := fun d d' =>
        .outer d d' (by simp [IrInstr.isInner])
      exact ⟨aheadBody, (enter.append bodies).append (leave _ _)⟩
  · cases shape

theorem program_shortened (env : Env) {sentences : List AstNode}
    (shape : ∀ node ∈ sentences, isSentence tab node = true) {c c' : Counters}
    (ahead : c.Ahead c') :
    (programCode env tab sentences c).2.Ahead (plainProgramCode env tab sentences c').2 ∧
      Shortened c (programCode env tab sentences c).2 (programCode env tab sentences c).1 c'
        (plainProgramCode env tab sentences c').2 (plainProgramCode env tab sentences c').1 := by
  induction sentences generalizing c c' with
  | nil => exact ⟨ahead, .nil c c'⟩
  | cons node rest ih =>
    obtain ⟨aheadFirst, first⟩ := sentence_shortened env (shape node List.mem_cons_self) ahead
    obtain ⟨aheadRest, more⟩ := ih (fun n mem => shape n (List.mem_cons_of_mem _ mem)) aheadFirst
    exact ⟨aheadRest, first.append more⟩

end Trees

end Ctds
