import ArithJit.Bytecode.Builder
import ArithJit.Proofs.Association
import ArithJit.Proofs.Expression

/-!
# Proofs: lowering expressions

Building a node is lowering the expression that it stands for, by a function that cannot fail. Lowering
is made of four steps: a name is given a slot, a slot is read, a slot is written, two words are combined.
What the four steps preserve, lowering preserves (`Preserved.lower`).
-/

namespace ArithJit

namespace Bytecode.Builder

open Assoc (find?)

variable {b b' : Builder} {x : Symbol} {o : Operand} {t : Temp} {i : Instruction}

/-! ## The steps -/

/-- Appends an instruction. -/
def append (b : Builder) (i : Instruction) : Builder :=
  { b with code := b.code.push i }

/-- Appends an instruction that defines the next temporary. -/
def define (b : Builder) (i : Instruction) : Builder :=
  { b with code := b.code.push i, temps := b.temps + 1 }

/-- The next temporary. -/
def next (b : Builder) (ty : Ty) : Operand :=
  .register ⟨b.temps⟩ ty

/-- Reserves a slot for a name. -/
def addSlot (b : Builder) (x : Symbol) : Builder :=
  { b.define { opcode := .push, dest := b.next .slot, src0 := .immediate Ty.word.size .slot } with
    locals := Assoc.insert x (b.next .slot) b.locals }

/-- The slot of a name, which is reserved if the name has none. -/
def slot (b : Builder) (x : Symbol) : Operand × Builder :=
  match find? x b.locals with
  | some o => (o, b)
  | none => (b.next .slot, b.addSlot x)

/-- The value of an operand, which is read if it is in a slot. -/
def read (b : Builder) (o : Operand) : Operand × Builder :=
  if o.isPointer then (b.next .word, b.define { opcode := .load, dest := b.next .word, src0 := o })
  else (o, b)

/-- Writes a value to a slot. -/
def write (b : Builder) (address value : Operand) : Builder :=
  b.append { opcode := .store, src0 := address, src1 := value }

/-- Combines two values. -/
def compute (b : Builder) (op : Arithmetic) (left right : Operand) : Operand × Builder :=
  (b.next .word,
    b.define { opcode := .arithmetic op, dest := b.next .word, src0 := left, src1 := right })

theorem slotOf_apply (b : Builder) (x : Symbol) : slotOf x b = .ok (b.slot x).1 (b.slot x).2 := by
  simp only [slotOf, slot, Bind.bind, EStateM.bind, get_apply]
  cases find? x b.locals <;> rfl

theorem load_apply (b : Builder) (o : Operand) : load o b = .ok (b.read o).1 (b.read o).2 := by
  rw [load, read]
  split <;> rfl

end Bytecode.Builder

namespace Expr

open Bytecode

/-- The operand that holds the value of an expression, or the slot that does, and the code for it. -/
def lower : Expr → Builder → Operand × Builder
  | literal value, b => (.immediate value .word, b)
  | name symbol, b => b.slot symbol
  | assign symbol value, b =>
    let target := b.slot symbol
    let result := value.lower target.2
    let source := result.2.read result.1
    (target.1, source.2.write target.1 source.1)
  | arithmetic op left right, b =>
    let l := left.lower b
    let first := l.2.read l.1
    let r := right.lower first.2
    let second := r.2.read r.1
    second.2.compute op first.1 second.1

end Expr

namespace Bytecode.Builder

open Assoc (find?)

variable {b b' : Builder} {x y : Symbol} {o : Operand} {t : Temp} {i : Instruction} {e : Expr}

/-! ## Growing builders -/

/-- The locals are slots with temporaries of their own, which were given out. -/
structure Valid (b : Builder) : Prop where
  /-- A local is a slot. -/
  slots : ∀ x o, find? x b.locals = some o → ∃ t, o = .register t .slot ∧ t.index < b.temps
  /-- Two names have two slots. -/
  injective : ∀ x y o, find? x b.locals = some o → find? y b.locals = some o → x = y
  /-- A temporary that is defined was given out. -/
  defined : ∀ i ∈ b.instructions, ∀ t ty, i.dest = .register t ty → t.index < b.temps

/-- The builder `b'` was made from `b` by appending instructions. -/
structure Grows (b b' : Builder) : Prop where
  /-- The instructions so far stay. -/
  code : b.instructions <+: b'.instructions
  /-- The slots so far stay. -/
  locals : ∀ x o, find? x b.locals = some o → find? x b'.locals = some o
  /-- Temporaries are not given out again. -/
  temps : b.temps ≤ b'.temps

theorem Grows.refl (b : Builder) : Grows b b :=
  ⟨List.prefix_refl _, fun _ _ h => h, Nat.le_refl _⟩

theorem Grows.trans {c : Builder} (h : Grows b b') (h' : Grows b' c) : Grows b c :=
  ⟨h.code.trans h'.code, fun x o hx => h'.locals x o (h.locals x o hx), Nat.le_trans h.temps h'.temps⟩

theorem grows_append (b : Builder) (i : Instruction) : Grows b (b.append i) :=
  ⟨⟨[i], by simp [instructions, append]⟩, fun _ _ h => h, Nat.le_refl _⟩

theorem grows_define (b : Builder) (i : Instruction) : Grows b (b.define i) :=
  ⟨⟨[i], by simp [instructions, define]⟩, fun _ _ h => h, Nat.le_succ _⟩

theorem find?_addSlot (b : Builder) (x y : Symbol) :
    find? y (b.addSlot x).locals = if y = x then some (b.next .slot) else find? y b.locals :=
  Assoc.find?_insert ..

theorem length_addSlot (b : Builder) (h : find? x b.locals = none) :
    (b.addSlot x).locals.length = b.locals.length + 1 := by
  rw [addSlot, Assoc.insert_eq_append h, List.length_append, List.length_singleton]

theorem grows_slot (b : Builder) (x : Symbol) : Grows b (b.slot x).2 := by
  rw [slot]
  split
  · exact .refl b
  · next hnone =>
    have h := b.grows_define ⟨.push, b.next .slot, .immediate Ty.word.size .slot, .none⟩
    refine ⟨h.code, fun y o hy => ?_, h.temps⟩
    have hyx : y ≠ x := by
      rintro rfl
      simp [hnone] at hy
    simpa [find?_addSlot, hyx] using hy

theorem grows_read (b : Builder) (o : Operand) : Grows b (b.read o).2 := by
  rw [read]
  split
  · exact b.grows_define _
  · exact .refl b

theorem grows_lower (e : Expr) (b : Builder) : Grows b (e.lower b).2 := by
  induction e generalizing b with
  | literal value => exact .refl b
  | name x => exact b.grows_slot x
  | assign x value ih =>
    exact (((b.grows_slot x).trans (ih _)).trans (grows_read _ _)).trans (grows_append _ _)
  | arithmetic op l r ihl ihr =>
    exact ((((ihl b).trans (grows_read _ _)).trans (ihr _)).trans (grows_read _ _)).trans
      (grows_define _ _)

theorem grows_lower_read (e : Expr) (b : Builder) : Grows b ((e.lower b).2.read (e.lower b).1).2 :=
  (grows_lower e b).trans (grows_read _ _)

/-! ## Operands -/

/-- An operand of the code so far: a word, a defined temporary or the slot of a local. -/
inductive Known (b : Builder) : Operand → Prop where
  | immediate (n : Int32) : Known b (.immediate n .word)
  /-- A temporary that holds a word. -/
  | word {t : Temp} {i : Instruction} (mem : i ∈ b.instructions) (dest : i.dest = .register t .word) :
      Known b (.register t .word)
  /-- The slot of a local. -/
  | slot {t : Temp} {x : Symbol} (local_ : find? x b.locals = some (.register t .slot)) :
      Known b (.register t .slot)

theorem Known.mono (h : b.Known o) (hg : Grows b b') : b'.Known o := by
  cases h with
  | immediate n => exact .immediate n
  | word mem dest => exact .word (hg.code.subset mem) dest
  | slot local_ => exact .slot (hg.locals _ _ local_)

/-- A word, or a defined temporary that holds one. -/
def IsWord (b : Builder) (o : Operand) : Prop :=
  b.Known o ∧ o.isPointer = false

theorem IsWord.mono (h : b.IsWord o) (hg : Grows b b') : b'.IsWord o :=
  ⟨h.1.mono hg, h.2⟩

theorem instructions_append (b : Builder) (i : Instruction) :
    (b.append i).instructions = b.instructions ++ [i] := by
  simp [instructions, append]

theorem instructions_define (b : Builder) (i : Instruction) :
    (b.define i).instructions = b.instructions ++ [i] := by
  simp [instructions, define]

theorem instructions_addSlot (b : Builder) (x : Symbol) : (b.addSlot x).instructions =
    b.instructions ++ [⟨.push, b.next .slot, .immediate Ty.word.size .slot, .none⟩] :=
  b.instructions_define _

theorem Valid.append (h : b.Valid) (hi : i.dest = .none) : (b.append i).Valid := by
  refine ⟨h.slots, h.injective, fun j hj t ty ht => ?_⟩
  rw [instructions_append, List.mem_append, List.mem_singleton] at hj
  rcases hj with hj | rfl
  · exact h.defined j hj t ty ht
  · simp [hi] at ht

theorem Valid.define (h : b.Valid) {ty : Ty} (hi : i.dest = b.next ty) : (b.define i).Valid := by
  refine ⟨fun x o hx => ?_, h.injective, fun j hj t ty' ht => ?_⟩
  · obtain ⟨t, ht, hlt⟩ := h.slots x o hx
    exact ⟨t, ht, Nat.lt_succ_of_lt hlt⟩
  · rw [instructions_define, List.mem_append, List.mem_singleton] at hj
    rcases hj with hj | rfl
    · exact Nat.lt_succ_of_lt (h.defined j hj t ty' ht)
    · obtain ⟨rfl, -⟩ : ⟨b.temps⟩ = t ∧ ty = ty' := by simpa [hi, next] using ht
      exact Nat.lt_succ_self _

theorem Valid.addSlot (h : b.Valid) (x : Symbol) : (b.addSlot x).Valid := by
  have hd := h.define (i := ⟨.push, b.next .slot, .immediate Ty.word.size .slot, .none⟩) rfl
  -- the new slot is none of those that were given out
  have hold : ∀ y o, find? y b.locals = some o → o ≠ b.next .slot := by
    rintro y o hy rfl
    obtain ⟨t, ht, hlt⟩ := h.slots y _ hy
    obtain rfl : ⟨b.temps⟩ = t := by simpa [next] using ht
    exact absurd hlt (Nat.lt_irrefl _)
  refine ⟨fun y o hy => ?_, fun y z o hy hz => ?_, hd.defined⟩
  · rw [find?_addSlot] at hy
    split at hy
    · exact ⟨⟨b.temps⟩, (Option.some.inj hy).symm, Nat.lt_succ_self _⟩
    · exact hd.slots y o hy
  · rw [find?_addSlot] at hy hz
    split at hy <;> split at hz
    · next hyx hzx => rw [hyx, hzx]
    · exact absurd (Option.some.inj hy).symm (hold z o hz)
    · exact absurd (Option.some.inj hz).symm (hold y o hy)
    · exact h.injective y z o hy hz

theorem Valid.slot (h : b.Valid) (x : Symbol) :
    (b.slot x).2.Valid ∧ ∃ t, (b.slot x).1 = .register t .slot ∧
      find? x (b.slot x).2.locals = some (.register t .slot) := by
  rw [Builder.slot]
  split
  · next o ho =>
    obtain ⟨t, rfl, -⟩ := h.slots x o ho
    exact ⟨h, t, rfl, ho⟩
  · exact ⟨h.addSlot x, _, rfl, by rw [find?_addSlot, if_pos rfl]; rfl⟩

/-- What is read is a word. -/
theorem Valid.read (h : b.Valid) (ho : b.Known o) : (b.read o).2.Valid ∧ (b.read o).2.IsWord (b.read o).1 := by
  rw [Builder.read]
  split
  · exact ⟨h.define rfl, .word (i := { opcode := .load, dest := b.next .word, src0 := o })
      (by simp [instructions, Builder.define]) rfl, rfl⟩
  · next hp => exact ⟨h, ho, by simpa using hp⟩

/-- What is computed is a word. -/
theorem known_compute (b : Builder) (op : Arithmetic) (l r : Operand) :
    (b.compute op l r).2.Known (b.compute op l r).1 :=
  .word (i := { opcode := .arithmetic op, dest := b.next .word, src0 := l, src1 := r })
    (by simp [instructions, compute, define]) rfl

/-! ## Lowering -/

/-- The steps of lowering keep a property. -/
structure Preserved (P : Builder → Prop) : Prop where
  slot : ∀ {b} x, b.Valid → P b → P (b.slot x).2
  read : ∀ {b o}, b.Valid → b.Known o → P b → P (b.read o).2
  write : ∀ {b t o}, b.Valid → b.Known (.register t .slot) → b.IsWord o → P b →
    P (b.write (.register t .slot) o)
  compute : ∀ {b l r} op, b.Valid → b.IsWord l → b.IsWord r → P b → P (b.compute op l r).2

/-- Lowering keeps what its steps keep, and gives an operand of the code. -/
theorem Preserved.lower {P : Builder → Prop} (hP : Preserved P) (e : Expr) (hb : b.Valid) (h : P b) :
    (e.lower b).2.Valid ∧ (e.lower b).2.Known (e.lower b).1 ∧ P (e.lower b).2 := by
  induction e generalizing b with
  | literal value => exact ⟨hb, .immediate value, h⟩
  | name x =>
    obtain ⟨hv, t, ht, hlocal⟩ := hb.slot x
    rw [Expr.lower, ht]
    exact ⟨hv, .slot hlocal, hP.slot x hb h⟩
  | assign x value ih =>
    obtain ⟨hv, t, ht, hlocal⟩ := hb.slot x
    obtain ⟨hv₁, hk₁, h₁⟩ := ih hv (hP.slot x hb h)
    obtain ⟨hv₂, hw₂⟩ := hv₁.read hk₁
    have hknown := (Known.slot hlocal).mono (grows_lower_read value _)
    rw [Expr.lower, ht]
    exact ⟨hv₂.append rfl, hknown.mono (grows_append _ _),
      hP.write hv₂ hknown hw₂ (hP.read hv₁ hk₁ h₁)⟩
  | arithmetic op l r ihl ihr =>
    obtain ⟨hv₁, hk₁, h₁⟩ := ihl hb h
    obtain ⟨hv₂, hw₂⟩ := hv₁.read hk₁
    obtain ⟨hv₃, hk₃, h₃⟩ := ihr hv₂ (hP.read hv₁ hk₁ h₁)
    obtain ⟨hv₄, hw₄⟩ := hv₃.read hk₃
    have hfirst := hw₂.mono (grows_lower_read r _)
    exact ⟨hv₄.define rfl, known_compute _ _ _ _,
      hP.compute op hv₄ hfirst hw₄ (hP.read hv₃ hk₃ h₃)⟩

theorem preserved_true : Preserved fun _ => True := by
  constructor <;> intros <;> trivial

theorem Valid.lower (h : b.Valid) (e : Expr) :
    (e.lower b).2.Valid ∧ (e.lower b).2.Known (e.lower b).1 :=
  ((preserved_true.lower e h trivial).imp_right And.left)

/-! ## Building nodes -/

section Nodes

variable {f : Forest} {id left right : NodeId} {levels : Nat} {b₁ b₂ : Builder} {o' : Operand}

/-- Building an assignment reserves the slot, builds the value and writes it. -/
theorem nodeWithin_assign (node : f.get? id = some (.binary left .assign right))
    (target : f.get? left = some (.name x)) (hb : b.Valid)
    (h : nodeWithin f levels right (b.slot x).2 = .ok o b₁) : nodeWithin f (levels + 1) id b =
      .ok (b.slot x).1 ((b₁.read o).2.write (b.slot x).1 (b₁.read o).1) := by
  cases levels with
  | zero =>
    rw [nodeWithin, throw_apply] at h
    cases h
  | succ levels =>
    obtain ⟨-, t, ht, -⟩ := hb.slot x
    have htarget : nodeWithin f (levels + 1) left b = .ok (.register t .slot) (b.slot x).2 := by
      simp only [nodeWithin, target, slotOf_apply, ht]
    have hpointer : (Operand.register t .slot).isPointer = true := rfl
    rw [nodeWithin, node, ht]
    simp only [Bind.bind, EStateM.bind, htarget, hpointer, Bool.not_true, Bool.false_eq_true, if_false,
      h, load_apply]
    rfl

/-- Building an operator reads the left operand before it builds the right one. -/
theorem nodeWithin_arithmetic {op : Arithmetic}
    (node : f.get? id = some (.binary left (.arithmetic op) right))
    (hl : nodeWithin f levels left b = .ok o b₁)
    (hr : nodeWithin f levels right (b₁.read o).2 = .ok o' b₂) : nodeWithin f (levels + 1) id b =
      .ok ((b₂.read o').2.compute op (b₁.read o).1 (b₂.read o').1).1
        ((b₂.read o').2.compute op (b₁.read o).1 (b₂.read o').1).2 := by
  rw [nodeWithin, node]
  simp only [Bind.bind, EStateM.bind, hl, hr, load_apply]
  rfl

/-- Building a block that is not empty returns its last result. -/
theorem nodeWithin_block {children : List NodeId} (node : f.get? id = some (.block children))
    (hne : children ≠ [])
    (h : children.foldlM (fun _ child => nodeWithin f levels child) Operand.none b = .ok o b₁) :
    nodeWithin f (levels + 1) id b = .ok o (b₁.append ⟨.ret, .none, o, .none⟩) := by
  rw [nodeWithin, node]
  cases children with
  | nil => exact absurd rfl hne
  | cons child rest =>
    simp only [Bind.bind, EStateM.bind, h]
    rfl

end Nodes

end Bytecode.Builder

open Bytecode in
/-- Building a node is lowering the expression that it stands for. -/
theorem Forest.Holds.nodeWithin {f : Forest} {id : NodeId} {e : Expr} {levels : Nat} {b : Builder}
    (h : f.Holds id e) (hl : e.depth ≤ levels) (hb : b.Valid) :
    Builder.nodeWithin f levels id b = .ok (e.lower b).1 (e.lower b).2 := by
  induction h generalizing levels b with
  | literal node =>
    obtain ⟨levels, rfl⟩ := Expr.exists_level hl
    simp only [Builder.nodeWithin, node]
    rfl
  | name node =>
    obtain ⟨levels, rfl⟩ := Expr.exists_level hl
    simp only [Builder.nodeWithin, node, Builder.slotOf_apply]
    rfl
  | @assign id left right x value node target below source ih =>
    obtain ⟨levels, rfl⟩ := Expr.exists_level hl
    have hvalue := ih (Nat.le_of_succ_le_succ hl) (hb.slot x).1
    exact Builder.nodeWithin_assign node target hb hvalue
  | @arithmetic id left right op l r node _ _ _ _ ihl ihr =>
    obtain ⟨levels, rfl⟩ := Expr.exists_level hl
    have hle := Nat.max_le.mp (Nat.le_of_succ_le_succ hl)
    obtain ⟨hv₁, hk₁⟩ := hb.lower l
    have hright := ihr hle.2 (hv₁.read hk₁).1
    exact Builder.nodeWithin_arithmetic node (ihl hle.1 hb) hright

end ArithJit
