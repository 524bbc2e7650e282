import ArithJit.Proofs.CallerState
import ArithJit.Proofs.Outcomes
import ArithJit.Proofs.Pressure

/-!
# Proofs: how many registers a program needs

The number of registers that an expression needs is read off its tree (`Expr.need`). A literal needs none,
since it becomes a constant in the code; the operands of an operator are held while the other operand is
computed and while the left one is copied to the target. The code of an expression is a `Segment`: it
mentions temporaries of its own only, so what is live around it only adds to its need. A program needs as
many registers as the most demanding of its expressions, and compiling it fails for a lack of registers if
these are more than six.
-/

namespace ArithJit

namespace Expr

/-- The number of registers that hold the value of an operand. -/
def holds : Expr → Nat
  | literal _ => 0
  | _ => 1

/-- The number of registers that it takes to compute an operand. -/
def need : Expr → Nat
  | literal _ => 0
  | name _ => 1
  | assign _ value => max value.need 1
  | arithmetic _ left right =>
    max left.need (max (left.holds + right.need) (1 + left.holds + right.holds))

/-- The names that occur in an expression. -/
def symbols : Expr → List Symbol
  | literal _ => []
  | name x => [x]
  | assign x value => x :: value.symbols
  | arithmetic _ left right => left.symbols ++ right.symbols

end Expr

/-! ## The temporaries of bytecode -/

namespace Bytecode

open Machine (Touch)

/-- The temporary of an operand that is held in a register. -/
def Operand.word? : Operand → Option Temp
  | register t .word => some t
  | _ => Option.none

/-- The temporaries of the machine instructions that an instruction becomes. -/
def Instruction.touches (i : Instruction) : List Touch :=
  match i.opcode with
  | .noop => [{}]
  | .push => []
  | .load => [⟨i.dest.word?, i.src0.word?⟩]
  | .store => [⟨i.src0.word?, i.src1.word?⟩]
  | .arithmetic _ => [⟨i.dest.word?, i.src0.word?⟩, ⟨i.dest.word?, i.src1.word?⟩]
  | .ret => if i.src0.isNone then [{}] else [⟨none, i.src0.word?⟩, {}]

end Bytecode

namespace Machine

theorem Converts.temp?_eq {slots : List (Temp × Int32)} {o : Bytecode.Operand} {p : Operand}
    (h : Converts slots o p) : p.temp? = o.word? := by
  cases h <;> rfl

variable {b : Bytecode.Builder} {s : Selector} {o : Bytecode.Operand}

end Machine

/-! ## The temporaries of lowered expressions -/

namespace Bytecode.Builder

open Machine (Segment peak)

variable {b b' b'' : Builder} {o o' : Operand} {n n' : Nat}

/-- The builder `b'` was made from `b` by code that needs `n` registers and has the result `o`. -/
def Takes (b b' : Builder) (o : Operand) (n : Nat) : Prop :=
  ∃ more, b'.instructions = b.instructions ++ more ∧
    Segment b.temps b'.temps o.word?.toFinset n (more.flatMap Instruction.touches)

theorem Takes.append (h : Takes b b' o n) (h' : Takes b' b'' o' n') : Takes b b'' o' (max n n') := by
  obtain ⟨more, hcode, hsegment⟩ := h
  obtain ⟨more', hcode', hsegment'⟩ := h'
  refine ⟨more ++ more', by rw [hcode', hcode, List.append_assoc], ?_⟩
  rw [List.flatMap_append]
  exact hsegment.append hsegment'

/-- A slot is read into a register; any other operand stays where it is. -/
theorem Takes.read (h : Takes b b' o n) :
    Takes b (b'.read o).2 (b'.read o).1 (if o.isPointer then max n 1 else n) := by
  rw [Builder.read]
  by_cases hp : o.isPointer = true
  · obtain ⟨more, hcode, hsegment⟩ := h
    have hword : o.word? = none := by
      cases o with
      | register t ty =>
        cases ty with
        | word => cases hp
        | slot => rfl
      | none => rfl
      | immediate value ty => rfl
    rw [hword] at hsegment
    rw [if_pos hp, if_pos hp]
    refine ⟨more ++ [⟨.load, b'.next .word, o, .none⟩], ?_, ?_⟩
    · rw [instructions_define, hcode, List.append_assoc]
    · have hload := hsegment.load
      rw [List.flatMap_append, List.flatMap_singleton, Instruction.touches, hword]
      exact hload
  · rw [if_neg hp, if_neg hp]
    exact h

theorem Takes.write (h : Takes b b' o n) (t : Temp) :
    Takes b (b'.write (.register t .slot) o) (.register t .slot) n := by
  obtain ⟨more, hcode, hsegment⟩ := h
  refine ⟨more ++ [⟨.store, .none, .register t .slot, o⟩], ?_, ?_⟩
  · rw [Builder.write, instructions_append, hcode, List.append_assoc]
  · rw [List.flatMap_append, List.flatMap_singleton]
    exact hsegment.store

theorem Takes.compute (h : Takes b b' o n) (h' : Takes b' b'' o' n') (op : Arithmetic) :
    Takes b (b''.compute op o o').2 (b''.compute op o o').1
      (max n (max (o.word?.toFinset.card + n') (1 + o.word?.toFinset.card + o'.word?.toFinset.card))) := by
  obtain ⟨more, hcode, hsegment⟩ := h
  obtain ⟨more', hcode', hsegment'⟩ := h'
  refine ⟨more ++ more' ++ [⟨.arithmetic op, b''.next .word, o, o'⟩], ?_, ?_⟩
  · rw [Builder.compute, instructions_define, hcode', hcode, List.append_assoc, List.append_assoc,
      List.append_assoc]
  · rw [List.flatMap_append, List.flatMap_append, List.flatMap_singleton]
    exact hsegment.compute hsegment'

/-- The names that have slots are these. -/
def Lists (b : Builder) (names : Finset Symbol) : Prop :=
  (b.locals.map Prod.fst).Nodup ∧ (b.locals.map Prod.fst).toFinset = names

theorem Lists.length {names : Finset Symbol} (h : Lists b names) : b.locals.length = names.card := by
  rw [← h.2, List.toFinset_card_of_nodup h.1, List.length_map]

theorem Lists.slot {names : Finset Symbol} (h : Lists b names) (x : Symbol) :
    Lists (b.slot x).2 (insert x names) := by
  obtain ⟨hnodup, hnames⟩ := h
  rw [Builder.slot]
  cases hfind : Assoc.find? x b.locals with
  | some o =>
    have hmem : x ∈ names := by
      rw [← hnames, List.mem_toFinset]
      exact List.mem_map.mpr ⟨_, Assoc.mem_of_find? hfind, rfl⟩
    refine ⟨hnodup, ?_⟩
    rw [Finset.insert_eq_of_mem hmem]
    exact hnames
  | none =>
    have hlocals : (b.addSlot x).locals = b.locals ++ [(x, b.next .slot)] := Assoc.insert_eq_append hfind
    rw [Lists, hlocals, List.map_append, List.map_singleton, List.toFinset_append, hnames]
    refine ⟨List.nodup_append.mpr ⟨hnodup, List.nodup_singleton x, ?_⟩, ?_⟩
    · intro y hy z hz hyz
      have hyx : y = x := hyz.trans (List.mem_singleton.mp hz)
      exact Assoc.find?_eq_none.mp hfind (hyx ▸ hy)
    · rw [List.toFinset_cons, List.toFinset_nil, Finset.union_comm]
      rfl

theorem Lists.read {names : Finset Symbol} (h : Lists b names) (o : Operand) : Lists (b.read o).2 names := by
  rw [Builder.read]
  split
  · exact h
  · exact h

theorem Lists.lower {names : Finset Symbol} (h : Lists b names) (e : Expr) :
    Lists (e.lower b).2 (names ∪ e.symbols.toFinset) := by
  induction e generalizing b names with
  | literal value =>
    rw [Expr.symbols, List.toFinset_nil, Finset.union_empty]
    exact h
  | name x =>
    have hslot := h.slot x
    rw [Expr.symbols, List.toFinset_cons, List.toFinset_nil, Finset.union_insert, Finset.union_empty]
    exact hslot
  | assign x value ih =>
    have hvalue := (ih (h.slot x)).read (value.lower (b.slot x).2).1
    rw [Expr.symbols, List.toFinset_cons, Finset.union_insert, ← Finset.insert_union]
    exact hvalue
  | arithmetic op l r ihl ihr =>
    have hleft := (ihl h).read (l.lower b).1
    have hright := (ihr hleft).read (r.lower ((l.lower b).2.read (l.lower b).1).2).1
    rw [Expr.symbols, List.toFinset_append, ← Finset.union_assoc]
    exact hright

theorem Lists.lowerAll {names : Finset Symbol} (h : Lists b names) (es : List Expr) (o : Operand) :
    Lists (Expr.lowerAll es o b).2 (names ∪ (es.flatMap Expr.symbols).toFinset) := by
  induction es generalizing b names o with
  | nil =>
    rw [List.flatMap_nil, List.toFinset_nil, Finset.union_empty]
    exact h
  | cons e es ih =>
    have hrest := ih (h.lower e) (e.lower b).1
    rw [List.flatMap_cons, List.toFinset_append, ← Finset.union_assoc]
    exact hrest

theorem Lists.bindAll {names : Finset Symbol} (h : Lists b names) (ns : List (Symbol × Int32)) :
    Lists (bindAll ns b) (names ∪ (ns.map Prod.fst).toFinset) := by
  induction ns generalizing b names with
  | nil =>
    rw [List.map_nil, List.toFinset_nil, Finset.union_empty]
    exact h
  | cons binding ns ih =>
    have hrest := ih (b := (b.slot binding.1).2.write (b.slot binding.1).1 (.immediate binding.2 .word))
      (h.slot binding.1)
    rw [List.map_cons, List.toFinset_cons, Finset.union_insert, ← Finset.insert_union]
    exact hrest

end Bytecode.Builder

/-! ## Compiling programs -/

namespace Session

open Machine (withReturn)

variable {s : Session} {root : NodeId} {es : List Expr} {ns : List (Symbol × Int32)}

/-- Names that differ have symbols that differ. -/
theorem Named.nodup {t : SymbolTable} {bs : List (Symbol × Value)} {cs : List (String × Value)}
    (h : Named t bs cs) (hcs : (cs.map Prod.fst).Nodup) : (bs.map Prod.fst).Nodup := by
  have hnames : (bs.map Prod.fst).map t.name? = (cs.map Prod.fst).map some := by
    induction h with
    | nil => rfl
    | cons hb _ ih =>
      rw [List.map_cons, List.nodup_cons] at hcs
      simp only [List.map_cons, hb.1, ih hcs.2]
  have hdistinct : ((bs.map Prod.fst).map t.name?).Nodup := by
    rw [hnames]
    exact hcs.map (Option.some_injective _)
  exact hdistinct.of_map _

end Session

end ArithJit
