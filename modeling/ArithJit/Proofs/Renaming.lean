import ArithJit.Proofs.Grammar
import ArithJit.Proofs.Sessions

/-!
# Proofs: programs with other symbols

The symbols of a program are numbers that depend on the names that were seen before. Two expressions are the
same if they differ in their symbols only, and each symbol of the one stands for the same name as the symbol
in its place in the other (`Expr.Same`). Such expressions are lowered to the same code and evaluate to the
same value, or fail with the same error: a name is only ever looked up, and two symbols of one table are
equal exactly if the symbols in their places in the other table are.
-/

namespace ArithJit

open Assoc (find?)
open Bytecode (Builder)

variable {t u : SymbolTable} {x x' y y' : Symbol}

/-! ## Symbols of two tables -/

/-- The symbols `x` of `t` and `y` of `u` stand for one name. -/
def Symbol.Same (t u : SymbolTable) (x y : Symbol) : Prop :=
  ∃ name, t.name? x = some name ∧ u.name? y = some name

/-- Symbols of one table are equal if the symbols in their places in the other table are. -/
theorem Symbol.Same.eq_iff (h : Same t u x y) (h' : Same t u x' y') : x = x' ↔ y = y' := by
  obtain ⟨name, hx, hy⟩ := h
  obtain ⟨name', hx', hy'⟩ := h'
  constructor
  · rintro rfl
    obtain rfl : name = name' := Option.some.inj (hx.symm.trans hx')
    exact SymbolTable.name?_inj hy hy'
  · rintro rfl
    obtain rfl : name = name' := Option.some.inj (hy.symm.trans hy')
    exact SymbolTable.name?_inj hx hx'

theorem Symbol.Same.nameOf (h : Same t u x y) : t.nameOf x = u.nameOf y := by
  obtain ⟨name, hx, hy⟩ := h
  rw [SymbolTable.nameOf, SymbolTable.nameOf, hx, hy]
  rfl

/-- Entries for the same names, with the same values. -/
def Renamed {ν : Type} (t u : SymbolTable) : List (Symbol × ν) → List (Symbol × ν) → Prop :=
  List.Forall₂ fun a b => Symbol.Same t u a.1 b.1 ∧ a.2 = b.2

theorem Renamed.find? {ν : Type} {l l' : List (Symbol × ν)} (h : Renamed t u l l') (hx : Symbol.Same t u x y) :
    find? x l = find? y l' := by
  induction h with
  | nil => rfl
  | @cons a b l l' hab _ ih =>
    rw [Assoc.find?, Assoc.find?, hab.2, ih]
    exact if_congr (hab.1.eq_iff hx) rfl rfl

theorem Renamed.insert {ν : Type} {l l' : List (Symbol × ν)} (h : Renamed t u l l') (hx : Symbol.Same t u x y)
    (value : ν) : Renamed t u (Assoc.insert x value l) (Assoc.insert y value l') := by
  induction h with
  | nil => exact .cons ⟨hx, rfl⟩ .nil
  | @cons a b l l' hab hrest ih =>
    rw [Assoc.insert, Assoc.insert]
    by_cases ha : a.1 = x
    · rw [if_pos ha, if_pos ((hab.1.eq_iff hx).mp ha)]
      exact .cons ⟨hx, rfl⟩ hrest
    · rw [if_neg ha, if_neg (mt (hab.1.eq_iff hx).mpr ha)]
      exact .cons hab ih

/-! ## Expressions with other symbols -/

/-- The expressions differ in their symbols only, and these stand for the same names. -/
inductive Expr.Same (t u : SymbolTable) : Expr → Expr → Prop where
  | literal (value : Int32) : Same t u (.literal value) (.literal value)
  | name {x y : Symbol} (symbol : Symbol.Same t u x y) : Same t u (.name x) (.name y)
  | assign {x y : Symbol} {e e' : Expr} (symbol : Symbol.Same t u x y) (value : Same t u e e') :
      Same t u (.assign x e) (.assign y e')
  | arithmetic {l l' r r' : Expr} (op : Arithmetic) (left : Same t u l l') (right : Same t u r r') :
      Same t u (.arithmetic op l r) (.arithmetic op l' r')

section Forest

variable {f g : Forest} {id id' : NodeId} {e e' : Expr} {tree : Tree}

theorem Forest.Holds.eq_literal {value : Int32} (h : f.Holds id e)
    (hnode : f.get? id = some (.literal (.integer value))) : e = .literal value := by
  cases h with
  | literal node => simpa [node] using hnode
  | name node | assign node | arithmetic node => simp [node] at hnode

theorem Forest.Holds.eq_name (h : f.Holds id e) (hnode : f.get? id = some (.name x)) : e = .name x := by
  cases h with
  | name node => simpa [node] using hnode
  | literal node | assign node | arithmetic node => simp [node] at hnode

theorem Forest.Holds.eq_assign {left right : NodeId} (h : f.Holds id e)
    (hnode : f.get? id = some (.binary left .assign right)) :
    ∃ x value, e = .assign x value ∧ f.get? left = some (.name x) ∧ f.Holds right value := by
  cases h with
  | assign node target below source =>
    obtain ⟨rfl, rfl⟩ : _ = left ∧ _ = right := by simpa [node] using hnode
    exact ⟨_, _, rfl, target, source⟩
  | literal node | name node | arithmetic node => simp [node] at hnode

theorem Forest.Holds.eq_arithmetic {left right : NodeId} {op : Arithmetic} (h : f.Holds id e)
    (hnode : f.get? id = some (.binary left (.arithmetic op) right)) :
    ∃ l r, e = .arithmetic op l r ∧ f.Holds left l ∧ f.Holds right r := by
  cases h with
  | arithmetic node belowLeft belowRight first second =>
    obtain ⟨rfl, rfl, rfl⟩ : _ = left ∧ _ = op ∧ _ = right := by simpa [node] using hnode
    exact ⟨_, _, rfl, first, second⟩
  | literal node | name node | assign node => simp [node] at hnode

/-- A node that is a name shows the text of the name. -/
theorem Forest.Shows.eq_name (h : f.Shows t id tree) (hnode : f.get? id = some (.name x)) :
    ∃ text, tree = .name text ∧ t.name? x = some text := by
  cases h with
  | name node named =>
    obtain rfl : _ = x := by simpa [node] using hnode
    exact ⟨_, rfl, named⟩
  | number node | binary node => simp [node] at hnode

end Forest

/-! ## Lowering -/

namespace Bytecode.Builder

variable {b b' : Builder}

/-- The builders have the same code, and slots for the same names. -/
structure Same (t u : SymbolTable) (b b' : Builder) : Prop where
  code : b.code = b'.code
  temps : b.temps = b'.temps
  locals : Renamed t u b.locals b'.locals

theorem Same.append (h : Same t u b b') (i : Instruction) : Same t u (b.append i) (b'.append i) :=
  ⟨congrArg (·.push i) h.code, h.temps, h.locals⟩

theorem Same.define (h : Same t u b b') (i : Instruction) : Same t u (b.define i) (b'.define i) :=
  ⟨congrArg (·.push i) h.code, congrArg (· + 1) h.temps, h.locals⟩

theorem Same.next (h : Same t u b b') (ty : Ty) : b.next ty = b'.next ty := by
  rw [Builder.next, Builder.next, h.temps]

/-- Two results are the same, and the builders with them. -/
def SameResult (t u : SymbolTable) (r r' : Operand × Builder) : Prop :=
  r.1 = r'.1 ∧ Same t u r.2 r'.2

theorem Same.slot (h : Same t u b b') (hx : Symbol.Same t u x y) : SameResult t u (b.slot x) (b'.slot y) := by
  rw [Builder.slot, Builder.slot, h.locals.find? hx]
  cases find? y b'.locals with
  | some o => exact ⟨rfl, h⟩
  | none =>
    have hdefine := h.define { opcode := .push, dest := b.next .slot, src0 := .immediate Ty.word.size .slot }
    rw [Builder.addSlot, Builder.addSlot, ← h.next]
    exact ⟨rfl, hdefine.code, hdefine.temps, h.locals.insert hx _⟩

theorem SameResult.read {r r' : Operand × Builder} (h : SameResult t u r r') :
    SameResult t u (r.2.read r.1) (r'.2.read r'.1) := by
  rw [Builder.read, Builder.read, ← h.2.next, ← h.1]
  split
  · exact ⟨rfl, h.2.define _⟩
  · exact ⟨rfl, h.2⟩

theorem Same.compute (h : Same t u b b') (op : Arithmetic) (l r : Operand) :
    SameResult t u (b.compute op l r) (b'.compute op l r) := by
  rw [Builder.compute, Builder.compute, ← h.next]
  exact ⟨rfl, h.define _⟩

theorem Same.lower {e e' : Expr} (he : Expr.Same t u e e') (h : Same t u b b') :
    SameResult t u (e.lower b) (e'.lower b') := by
  induction he generalizing b b' with
  | literal value => exact ⟨rfl, h⟩
  | name symbol => exact h.slot symbol
  | assign symbol value ih =>
    have htarget := h.slot symbol
    have hsource := (ih htarget.2).read
    refine ⟨htarget.1, ?_⟩
    rw [Expr.lower, Expr.lower]
    simp only
    rw [htarget.1, hsource.1]
    exact hsource.2.append _
  | arithmetic op left right ihl ihr =>
    have hfirst := (ihl h).read
    have hsecond := (ihr hfirst.2).read
    rw [Expr.lower, Expr.lower, hfirst.1, hsecond.1]
    exact hsecond.2.compute op _ _

theorem Same.lowerAll {es es' : List Expr} (hes : List.Forall₂ (Expr.Same t u) es es') (o : Operand)
    (h : Same t u b b') : SameResult t u (Expr.lowerAll es o b) (Expr.lowerAll es' o b') := by
  induction hes generalizing o b b' with
  | nil => exact ⟨rfl, h⟩
  | cons he _ ih =>
    have hfirst := h.lower he
    rw [Expr.lowerAll, Expr.lowerAll, hfirst.1]
    exact ih _ hfirst.2

theorem Same.bindAll {ns ns' : List (Symbol × Int32)} (hns : Renamed t u ns ns') (h : Same t u b b') :
    Same t u (bindAll ns b) (bindAll ns' b') := by
  induction hns generalizing b b' with
  | nil => exact h
  | @cons a a' ns ns' ha _ ih =>
    have hslot := h.slot ha.1
    rw [Builder.bindAll, Builder.bindAll, hslot.1, ha.2]
    exact ih (hslot.2.append _)

end Bytecode.Builder

/-! ## Evaluating -/

section Evaluate

variable {env env' : Environment} {e e' : Expr}

/-- The environments give the same values to the same names. -/
def Environment.Same (t u : SymbolTable) (env env' : Environment) : Prop :=
  ∀ x y, Symbol.Same t u x y → env.find? x = env'.find? y

theorem Environment.Same.assign (h : Same t u env env') (hx : Symbol.Same t u x y) (v : Value) :
    Same t u (env.assign x v) (env'.assign y v) := by
  intro x' y' hx'
  rw [find?_assign, find?_assign, h x' y' hx']
  exact if_congr (hx'.eq_iff hx) rfl rfl

/-- Two evaluations come to the same value, with the same values for names, or to the same failure. -/
def SameValue (t u : SymbolTable) :
    EStateM.Result Failure Environment Value → EStateM.Result Failure Environment Value → Prop :=
  Agree (fun v s w s' => v = w ∧ Environment.Same t u s s') fun _ _ => True

theorem Expr.Same.evaluate (he : Expr.Same t u e e') (h : Environment.Same t u env env') :
    SameValue t u (e.evaluate t env) (e'.evaluate u env') := by
  induction he generalizing env env' with
  | literal value => exact ⟨rfl, h⟩
  | @name x y symbol =>
    rw [evaluate_name, evaluate_name, h x y symbol, symbol.nameOf]
    cases env'.find? y with
    | some v => exact ⟨rfl, h⟩
    | none => exact ⟨rfl, trivial⟩
  | assign symbol value ih =>
    refine Agree.bind (ih h) fun v s w s' hv => ?_
    obtain ⟨rfl, hs⟩ := hv
    exact ⟨rfl, hs.assign symbol v⟩
  | arithmetic op left right ihl ihr =>
    refine Agree.bind (ihl h) fun a s a' s' ha => ?_
    obtain ⟨rfl, hs⟩ := ha
    refine Agree.bind (ihr hs) fun b s₁ b' s₁' hb => ?_
    obtain ⟨rfl, hs₁⟩ := hb
    cases op.onValues a b with
    | ok v => exact ⟨rfl, hs₁⟩
    | error f => exact ⟨rfl, trivial⟩

end Evaluate

end ArithJit
