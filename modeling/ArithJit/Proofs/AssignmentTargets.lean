import ArithJit.Proofs.Grounded
import ArithJit.Proofs.Lowering

/-!
# Proofs: what may be assigned to

Evaluation and the builder both check the target of an assignment, but not in the same way: evaluation looks at the
node, which has to be a name, and the builder at the operand that the node is built to, which has to be a slot. A
name is built to its slot, and so is an assignment, which yields the slot of its target. So the builder faults at an
assignment to a number or to an arithmetic operator (`Forest.IsExpression.runs_nodeWithin`), and it accepts an
assignment to an assignment, which evaluation rejects.
-/

namespace ArithJit

open Assoc (find?)
open Bytecode (Builder Operand)

/-! ## Targets -/

/-- Whether the node is an assignment. -/
def Node.isAssignment : Node → Bool
  | binary _ .assign _ => true
  | _ => false

/-- Whether the node is built to a slot. -/
def Node.isSlot (n : Node) : Bool :=
  n.isName || n.isAssignment

namespace Forest

variable {f : Forest} {id left right : NodeId} {op : Operator} {P Q R : Node → Bool} {levels : Nat}
  {b : Builder}

/-- The node is a tree of integers, names and operators, in which children have smaller numbers. -/
inductive IsExpression (f : Forest) : NodeId → Prop where
  | literal {id : NodeId} {n : Int32} (node : f.get? id = some (.literal (.integer n))) : IsExpression f id
  | name {id : NodeId} {x : Symbol} (node : f.get? id = some (.name x)) : IsExpression f id
  | binary {id left right : NodeId} {op : Operator} (node : f.get? id = some (.binary left op right))
      (belowLeft : left.index < id.index) (belowRight : right.index < id.index) (first : IsExpression f left)
      (second : IsExpression f right) : IsExpression f id

theorem IsExpression.exists_get? (h : f.IsExpression id) : ∃ node, f.get? id = some node := by
  cases h with
  | literal node => exact ⟨_, node⟩
  | name node => exact ⟨_, node⟩
  | binary node => exact ⟨_, node⟩

/-- An assignment in the tree of the node has a target as `P` says. -/
inductive AssignsTo (f : Forest) (P : Node → Bool) : NodeId → Prop where
  | here {id left right : NodeId} (node : f.get? id = some (.binary left .assign right))
      (target : (f.get? left).any P = true) : AssignsTo f P id
  | left {id left right : NodeId} {op : Operator} (node : f.get? id = some (.binary left op right))
      (inside : AssignsTo f P left) : AssignsTo f P id
  | right {id left right : NodeId} {op : Operator} (node : f.get? id = some (.binary left op right))
      (inside : AssignsTo f P right) : AssignsTo f P id

theorem assignsTo_binary (hnode : f.get? id = some (.binary left op right)) : f.AssignsTo P id ↔
    (op = .assign ∧ (f.get? left).any P = true) ∨ f.AssignsTo P left ∨ f.AssignsTo P right := by
  constructor
  · intro h
    cases h with
    | here node target =>
      cases node.symm.trans hnode
      exact .inl ⟨rfl, target⟩
    | left node inside =>
      cases node.symm.trans hnode
      exact .inr (.inl inside)
    | right node inside =>
      cases node.symm.trans hnode
      exact .inr (.inr inside)
  · rintro (⟨rfl, htarget⟩ | hleft | hright)
    · exact .here hnode htarget
    · exact .left hnode hleft
    · exact .right hnode hright

theorem not_assignsTo {node : Node} (hnode : f.get? id = some node) (hleaf : node.children = []) :
    ¬ f.AssignsTo P id := by
  intro h
  cases h with
  | here binary =>
    cases binary.symm.trans hnode
    cases hleaf
  | left binary =>
    cases binary.symm.trans hnode
    cases hleaf
  | right binary =>
    cases binary.symm.trans hnode
    cases hleaf

/-- Targets of one kind are of one of two kinds. -/
theorem AssignsTo.or (h : f.AssignsTo P id) (hPQR : ∀ n, P n = true → Q n = true ∨ R n = true) :
    f.AssignsTo Q id ∨ f.AssignsTo R id := by
  induction h with
  | @here id left right node target =>
    cases hleft : f.get? left with
    | none =>
      rw [hleft] at target
      cases target
    | some n =>
      rw [hleft] at target
      rcases hPQR n target with hQ | hR
      · exact .inl (.here node (by rw [hleft]; exact hQ))
      · exact .inr (.here node (by rw [hleft]; exact hR))
  | left node _ ih => exact ih.imp (.left node) (.left node)
  | right node _ ih => exact ih.imp (.right node) (.right node)

end Forest

/-! ## Slots -/

namespace Bytecode.Builder

variable {b : Builder}

/-- All names have slots. -/
def SlotsOnly (b : Builder) : Prop :=
  ∀ x o, find? x b.locals = some o → o.isPointer = true

theorem slotsOnly_empty : empty.SlotsOnly := by
  intro x o h
  cases h

theorem SlotsOnly.slot (h : b.SlotsOnly) (x : Symbol) :
    (b.slot x).1.isPointer = true ∧ (b.slot x).2.SlotsOnly := by
  rw [Builder.slot]
  cases hx : find? x b.locals with
  | some o => exact ⟨h x o hx, h⟩
  | none =>
    refine ⟨rfl, fun y o hy => ?_⟩
    rw [find?_addSlot] at hy
    split at hy
    · cases hy
      rfl
    · exact h y o hy

theorem SlotsOnly.read (h : b.SlotsOnly) (o : Operand) : (b.read o).2.SlotsOnly := by
  rw [Builder.read]
  split
  · exact h
  · exact h

end Bytecode.Builder

/-! ## Building -/

namespace Forest

variable {f : Forest} {id left right : NodeId} {op : Operator} {levels : Nat} {b : Builder}

/-- An assignment in the tree has a target that is not built to a slot. -/
abbrev Misassigns (f : Forest) (id : NodeId) : Prop :=
  f.AssignsTo (fun n => !n.isSlot) id

/-- The node is built to a slot or to a value, as its kind says, and no assignment in its tree is wrong. -/
structure Built (f : Forest) (id : NodeId) (o : Operand) (b : Builder) : Prop where
  good : ¬ f.Misassigns id
  slots : b.SlotsOnly
  kind : ∀ node, f.get? id = some node → o.isPointer = node.isSlot

/-- The builder has met an operand that is no slot, because of a wrong assignment. -/
def Refused (f : Forest) (id : NodeId) (e : Fault) (_ : Builder) : Prop :=
  f.Misassigns id ∧ ∃ o, e = .notASlot o

/-- The target of an assignment is built before it is checked, and then its value is built. -/
theorem runs_assign (hnode : f.get? id = some (.binary left .assign right)) (hleft : f.IsExpression left)
    (hfirst : Runs (Builder.nodeWithin f levels left) b (f.Built left) (f.Refused left))
    (hsecond : ∀ b', b'.SlotsOnly → Runs (Builder.nodeWithin f levels right) b' (f.Built right)
      (f.Refused right)) :
    Runs (Builder.nodeWithin f (levels + 1) id) b (f.Built id) (f.Refused id) := by
  obtain ⟨target, htarget⟩ := hleft.exists_get?
  have hassigns : f.Misassigns id ↔ _ := assignsTo_binary hnode
  rw [htarget] at hassigns
  rw [Builder.nodeWithin, hnode]
  refine (hfirst.mono (fun _ _ h => h) fun _ _ h => ⟨hassigns.mpr (.inr (.inl h.1)), h.2⟩).bind
    fun o b' hfirst => ?_
  have hkind := hfirst.kind target htarget
  cases hslot : target.isSlot with
  | false =>
    rw [hkind, hslot]
    exact .of_error rfl ⟨hassigns.mpr (.inl ⟨rfl, by simp [hslot]⟩), o, rfl⟩
  | true =>
    rw [hkind, hslot]
    refine ((hsecond b' hfirst.slots).mono (fun _ _ h => h)
      fun _ _ h => ⟨hassigns.mpr (.inr (.inr h.1)), h.2⟩).bind
      fun o' b'' hsecond => ?_
    refine .after (Builder.load_apply b'' o') ?_
    refine .of_ok rfl ⟨?_, hsecond.slots.read o', fun node hid => ?_⟩
    · rw [hassigns]
      simp [hslot, hfirst.good, hsecond.good]
    · cases hnode.symm.trans hid
      rw [hkind, hslot]
      rfl

/-- Both operands of an arithmetic operator are built and read. -/
theorem runs_arithmetic {op : Arithmetic} (hnode : f.get? id = some (.binary left (.arithmetic op) right))
    (hfirst : Runs (Builder.nodeWithin f levels left) b (f.Built left) (f.Refused left))
    (hsecond : ∀ b', b'.SlotsOnly → Runs (Builder.nodeWithin f levels right) b' (f.Built right)
      (f.Refused right)) :
    Runs (Builder.nodeWithin f (levels + 1) id) b (f.Built id) (f.Refused id) := by
  have hassigns : f.Misassigns id ↔ _ := assignsTo_binary hnode
  rw [Builder.nodeWithin, hnode]
  refine (hfirst.mono (fun _ _ h => h) fun _ _ h => ⟨hassigns.mpr (.inr (.inl h.1)), h.2⟩).bind
    fun o b' hfirst => ?_
  refine .after (Builder.load_apply b' o) ?_
  refine ((hsecond _ (hfirst.slots.read o)).mono (fun _ _ h => h) fun _ _ h =>
    ⟨hassigns.mpr (.inr (.inr h.1)), h.2⟩).bind fun o' b'' hsecond => ?_
  refine .after (Builder.load_apply b'' o') ?_
  refine .of_ok rfl ⟨?_, hsecond.slots.read o', fun node hid => ?_⟩
  · rw [hassigns]
    simp [hfirst.good, hsecond.good]
  · cases hnode.symm.trans hid
    rfl

/-- An expression is built, unless an assignment in it is wrong. -/
theorem IsExpression.runs_nodeWithin (h : f.IsExpression id) (hl : id.index < levels) (hb : b.SlotsOnly) :
    Runs (Builder.nodeWithin f levels id) b (f.Built id) (f.Refused id) := by
  induction h generalizing levels b with
  | literal node =>
    obtain ⟨levels, rfl⟩ := Nat.exists_eq_add_one.mpr (Nat.zero_lt_of_lt hl)
    rw [Builder.nodeWithin, node]
    refine .of_ok rfl ⟨not_assignsTo node rfl, hb, fun other hother => ?_⟩
    cases node.symm.trans hother
    rfl
  | @name id x node =>
    obtain ⟨levels, rfl⟩ := Nat.exists_eq_add_one.mpr (Nat.zero_lt_of_lt hl)
    rw [Builder.nodeWithin, node]
    refine .of_ok (Builder.slotOf_apply b x) ⟨not_assignsTo node rfl, (hb.slot x).2, fun other hother => ?_⟩
    cases node.symm.trans hother
    exact (hb.slot x).1
  | @binary id left right op node belowLeft belowRight first second ihl ihr =>
    obtain ⟨levels, rfl⟩ := Nat.exists_eq_add_one.mpr (Nat.zero_lt_of_lt hl)
    have hleft : left.index < levels := by omega
    have hright : right.index < levels := by omega
    cases op with
    | assign => exact runs_assign node first (ihl hleft hb) fun b' hb' => ihr hright hb'
    | arithmetic op => exact runs_arithmetic node (ihl hleft hb) fun b' hb' => ihr hright hb'

theorem IsExpression.runs_node (h : f.IsExpression id) :
    Runs (Builder.node f id) .empty (f.Built id) (f.Refused id) := by
  obtain ⟨node, hnode⟩ := h.exists_get?
  exact h.runs_nodeWithin (lt_levels (index_lt_size hnode)) Builder.slotsOnly_empty

/-- Where all targets are names and assignments, the builder comes to a result. -/
theorem IsExpression.exists_node (h : f.IsExpression id) (hgood : ¬ f.Misassigns id) :
    ∃ o b, Builder.node f id .empty = .ok o b := by
  have hruns := h.runs_node
  rw [Runs] at hruns
  cases hrun : Builder.node f id .empty with
  | ok o b => exact ⟨o, b, rfl⟩
  | error e b =>
    rw [hrun] at hruns
    exact absurd hruns.1 hgood

/-- Where another target occurs, the builder faults. -/
theorem IsExpression.exists_fault (h : f.IsExpression id) (hbad : f.Misassigns id) :
    ∃ o b, Builder.node f id .empty = .error (.notASlot o) b := by
  have hruns := h.runs_node
  rw [Runs] at hruns
  cases hrun : Builder.node f id .empty with
  | ok o b =>
    rw [hrun] at hruns
    exact absurd hbad hruns.good
  | error e b =>
    rw [hrun] at hruns
    obtain ⟨o, rfl⟩ := hruns.2
    exact ⟨o, b, rfl⟩

/-! ## Evaluation -/

variable {names : SymbolTable} {env : Environment}

/-- If evaluation has rejected a target, then an assignment in the tree has a target other than a name. -/
def Rejected (f : Forest) (id : NodeId) (e : Failure) (_ : Environment) : Prop :=
  ∀ span, e = .error (.invalidAssignTarget span) → f.AssignsTo (fun n => !n.isName) id

/-- A target other than a name is rejected before the value is evaluated. -/
theorem evaluate_rejects {n : Node} (hnode : f.get? id = some (.binary left .assign right))
    (htarget : f.get? left = some n) (hn : n.isName = false) :
    f.evaluate names id env = .error (.error (.invalidAssignTarget (f.span left))) env := by
  have hlevels : f.levels = (f.size + revisitLimit) + 1 := by
    rw [levels]
    omega
  rw [evaluate, hlevels, evaluateWithin, hnode]
  simp only [Forest.target, htarget]
  cases n with
  | name x => cases hn
  | literal | binary | block => rfl

theorem onValues_ne_invalidAssignTarget (op : Arithmetic) (a b : Value) (span : Span) :
    op.onValues a b ≠ .error (.invalidAssignTarget span) := by
  intro h
  rw [Arithmetic.onValues] at h
  split at h
  · split at h
    · cases h
    · cases h
  · cases h

theorem IsExpression.runs_evaluateWithin (h : f.IsExpression id) :
    Runs (f.evaluateWithin names levels id) env (fun _ _ => True) (f.Rejected id) := by
  induction h generalizing levels env with
  | literal node =>
    cases levels with
    | zero => exact .of_error rfl fun _ he => by cases he
    | succ levels =>
      rw [evaluateWithin, node]
      exact .of_ok rfl trivial
  | name node =>
    cases levels with
    | zero => exact .of_error rfl fun _ he => by cases he
    | succ levels =>
      rw [evaluateWithin, node]
      refine .after (get_apply env) ?_
      split
      · exact .of_ok rfl trivial
      · exact .of_error rfl fun _ he => by cases he
  | @binary id left right op node belowLeft belowRight first second ihl ihr =>
    cases levels with
    | zero => exact .of_error rfl fun _ he => by cases he
    | succ levels =>
      have hleft : ∀ e env, f.Rejected left e env → f.Rejected id e env :=
        fun _ _ h span he => .left node (h span he)
      have hright : ∀ e env, f.Rejected right e env → f.Rejected id e env :=
        fun _ _ h span he => .right node (h span he)
      obtain ⟨target, htarget⟩ := first.exists_get?
      rw [evaluateWithin, node]
      cases op with
      | assign =>
        simp only [Forest.target, htarget]
        cases target with
        | name x =>
          refine (ihr.mono (fun _ _ h => h) hright).bind fun value env' _ => ?_
          exact .after (modify_apply _ env') (.of_ok rfl trivial)
        | literal | binary | block => exact .of_error rfl fun _ _ => .here node (by rw [htarget]; rfl)
      | arithmetic op =>
        refine (ihl.mono (fun _ _ h => h) hleft).bind fun a env' _ => ?_
        refine (ihr.mono (fun _ _ h => h) hright).bind fun b env'' _ => ?_
        cases hvalue : op.onValues a b with
        | ok value => exact .of_ok rfl trivial
        | error e =>
          refine .of_error rfl fun span he => ?_
          cases he
          exact absurd hvalue (onValues_ne_invalidAssignTarget op a b span)

theorem IsExpression.assignsTo_of_evaluateWithin {env' : Environment} {span : Span} (h : f.IsExpression id)
    (he : f.evaluateWithin names levels id env = .error (.error (.invalidAssignTarget span)) env') :
    f.AssignsTo (fun n => !n.isName) id := by
  have hruns : Runs (f.evaluateWithin names levels id) env (fun _ _ => True) (f.Rejected id) :=
    h.runs_evaluateWithin
  rw [Runs, he] at hruns
  exact hruns span rfl

end Forest

/-- The builder faults at an expression if and only if an assignment in it has a target that is neither a name nor an
assignment, and comes to a result otherwise. So it faults wherever evaluation rejects a target, unless an assignment
is assigned to. -/
theorem builder_faults_iff_misassigns (f : Forest) (root : NodeId) (h : f.IsExpression root) :
    ((∃ o b, Builder.node f root .empty = .error (.notASlot o) b) ↔ f.AssignsTo (fun n => !n.isSlot) root) ∧
    ((∃ o b, Builder.node f root .empty = .ok o b) ↔ ¬ f.AssignsTo (fun n => !n.isSlot) root) ∧
    ∀ names env span env', f.evaluate names root env = .error (.error (.invalidAssignTarget span)) env' →
      (∃ o b, Builder.node f root .empty = .error (.notASlot o) b) ∨ f.AssignsTo Node.isAssignment root := by
  have hruns := h.runs_node
  refine ⟨⟨?_, h.exists_fault⟩, ⟨?_, h.exists_node⟩, ?_⟩
  · rintro ⟨o, b, hrun⟩
    rw [Runs, hrun] at hruns
    exact hruns.1
  · rintro ⟨o, b, hrun⟩
    rw [Runs, hrun] at hruns
    exact hruns.good
  · intro names env span env' hrun
    have hkinds : ∀ n : Node, (!n.isName) = true → (!n.isSlot) = true ∨ n.isAssignment = true := by
      intro n hn
      cases hassign : n.isAssignment with
      | true => exact .inr rfl
      | false => exact .inl (by simpa [Node.isSlot, hassign] using hn)
    rw [Forest.evaluate] at hrun
    exact ((h.assignsTo_of_evaluateWithin hrun).or hkinds).imp_left h.exists_fault

/-- The nodes of an assignment to a sum, as the value of an assignment to a name. -/
def assignedSum : Forest :=
  ⟨#[(.name ⟨0⟩, .zero), (.literal (.integer 1), .zero), (.name ⟨0⟩, .zero),
    (.binary ⟨1⟩ (.arithmetic .add) ⟨2⟩, .zero), (.literal (.integer 3), .zero),
    (.binary ⟨3⟩ .assign ⟨4⟩, .zero), (.binary ⟨0⟩ .assign ⟨5⟩, .zero)]⟩

/-- The builder faults at the sum. -/
theorem builder_faults_iff_misassigns_sum : assignedSum.IsExpression ⟨6⟩ ∧
    ∃ o b, Builder.node assignedSum ⟨6⟩ .empty = .error (.notASlot o) b := by
  have hsum : assignedSum.IsExpression ⟨3⟩ := .binary rfl (by decide) (by decide) (.literal rfl) (.name rfl)
  have hassigned : assignedSum.IsExpression ⟨5⟩ := .binary rfl (by decide) (by decide) hsum (.literal rfl)
  have hroot : assignedSum.IsExpression ⟨6⟩ := .binary rfl (by decide) (by decide) (.name rfl) hassigned
  exact ⟨hroot, (builder_faults_iff_misassigns assignedSum ⟨6⟩ hroot).1.mpr (.right rfl (.here rfl rfl))⟩

/-- The nodes of an assignment to an assignment. -/
def assignedAssignment : Forest :=
  ⟨#[(.name ⟨0⟩, .zero), (.literal (.integer 1), .zero), (.binary ⟨0⟩ .assign ⟨1⟩, .zero),
    (.literal (.integer 2), .zero), (.binary ⟨2⟩ .assign ⟨3⟩, .zero)]⟩

/-- An assignment to an assignment is built, although its target is not a name and evaluation rejects it. -/
theorem builder_accepts_assigned_assignment : assignedAssignment.IsExpression ⟨4⟩ ∧
    assignedAssignment.AssignsTo (fun n => !n.isName) ⟨4⟩ ∧
    (∃ o b, Builder.node assignedAssignment ⟨4⟩ .empty = .ok o b) ∧
    ∀ names env, assignedAssignment.evaluate names ⟨4⟩ env =
      .error (.error (.invalidAssignTarget (assignedAssignment.span ⟨2⟩))) env := by
  have hinner : assignedAssignment.IsExpression ⟨2⟩ :=
    .binary rfl (by decide) (by decide) (.name rfl) (.literal rfl)
  have hroot : assignedAssignment.IsExpression ⟨4⟩ := .binary rfl (by decide) (by decide) hinner (.literal rfl)
  have hgood : ¬ assignedAssignment.Misassigns ⟨4⟩ := by
    have hleaf : ∀ id node, assignedAssignment.get? id = some node → node.children = [] →
        ¬ assignedAssignment.Misassigns id := fun _ _ => Forest.not_assignsTo
    have htarget : ¬ assignedAssignment.Misassigns ⟨2⟩ := by
      intro hbad
      rcases (Forest.assignsTo_binary rfl).mp hbad with ⟨-, hname⟩ | hleft | hright
      · cases hname
      · exact hleaf ⟨0⟩ _ rfl rfl hleft
      · exact hleaf ⟨1⟩ _ rfl rfl hright
    intro hbad
    rcases (Forest.assignsTo_binary rfl).mp hbad with ⟨-, hassign⟩ | hleft | hright
    · cases hassign
    · exact htarget hleft
    · exact hleaf ⟨3⟩ _ rfl rfl hright
  exact ⟨hroot, .here rfl rfl, hroot.exists_node hgood, fun _ _ => Forest.evaluate_rejects rfl rfl rfl⟩

end ArithJit
