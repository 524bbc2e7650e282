import ArithJit.Proofs.Evaluation
import ArithJit.Proofs.Levels
import ArithJit.Proofs.Outcomes

/-!
# Proofs: wrapping around is reducing at the end

Addition, subtraction and multiplication respect remainders, so a tree without divisions may as well be
evaluated with all the integers there are: what the 32-bit evaluation comes to is what the exact one comes to,
reduced to 32 bits, and so is every value that was assigned on the way. Neither evaluation can tell how
large a number is, so they also fail together (`Term.reduced_evaluateWithin`).
-/

namespace ArithJit

/-! ## Exact evaluation -/

/-- A value with an integer of any size. -/
inductive Whole where
  | void
  | integer (n : Int)
deriving DecidableEq, Repr

/-- The three operators that respect remainders. -/
inductive RingOperator where
  | add
  | sub
  | mul
deriving DecidableEq, Repr

namespace RingOperator

def operator : RingOperator → Arithmetic
  | add => .add
  | sub => .sub
  | mul => .mul

def apply : RingOperator → Int → Int → Int
  | add, a, b => a + b
  | sub, a, b => a - b
  | mul, a, b => a * b

def onWholes (op : RingOperator) : Whole → Whole → Except Error Whole
  | .integer a, .integer b => .ok (.integer (op.apply a b))
  | _, _ => .error (.nonIntegerOperand op.operator.text)

end RingOperator

/-- The values that names have. -/
abbrev Store := Symbol → Option Whole

namespace Store

def set (σ : Store) (x : Symbol) (v : Whole) : Store :=
  fun y => if y = x then some v else σ y

/-- The initial values; of those for one name the last one counts. -/
def ofBindings (bindings : List (Symbol × Int32)) : Store :=
  fun x => (Assoc.find? x bindings.reverse).map fun n => .integer n.toInt

end Store

/-- A tree without divisions. The target of an assignment may be any tree, and is blamed with its span if it
is not a name. -/
inductive Term where
  | literal (n : Int32)
  | name (x : Symbol)
  | assign (target : Term) (span : Span) (value : Term)
  | arithmetic (op : RingOperator) (left right : Term)
  | block (children : List Term)

namespace Term

def name? : Term → Option Symbol
  | name x => some x
  | _ => none

mutual

/-- The value of a tree, with integers of any size. -/
def compute (names : SymbolTable) : Term → EStateM Failure Store Whole
  | literal n => return .integer n.toInt
  | name x => do
    match (← get) x with
    | some v => return v
    | none => throw (.error (.undefinedVariable (names.nameOf x)))
  | assign target span value => do
    match target.name? with
    | none => throw (.error (.invalidAssignTarget span))
    | some x =>
      let v ← value.compute names
      modify (·.set x v)
      return v
  | arithmetic op left right => do
    let v ← left.compute names
    let w ← right.compute names
    match op.onWholes v w with
    | .ok u => return u
    | .error e => throw (.error e)
  | block children => computeAll names children .void

/-- The value of the last of some trees, and `last` if there are none. -/
def computeAll (names : SymbolTable) : List Term → Whole → EStateM Failure Store Whole
  | [], last => return last
  | child :: children, _ => do
    let v ← child.compute names
    computeAll names children v

end

end Term

/-! ## Trees in a forest -/

namespace Forest

mutual

/-- A tree stands at a node. -/
inductive Stores (f : Forest) : Term → NodeId → Prop where
  | literal {n : Int32} {id : NodeId} (node : f.get? id = some (.literal (.integer n))) :
      Stores f (.literal n) id
  | name {x : Symbol} {id : NodeId} (node : f.get? id = some (.name x)) : Stores f (.name x) id
  | assign {target value : Term} {id left right : NodeId}
      (node : f.get? id = some (.binary left .assign right)) (first : Stores f target left)
      (second : Stores f value right) : Stores f (.assign target (f.span left) value) id
  | arithmetic {op : RingOperator} {first second : Term} {id left right : NodeId}
      (node : f.get? id = some (.binary left (.arithmetic op.operator) right)) (hleft : Stores f first left)
      (hright : Stores f second right) : Stores f (.arithmetic op first second) id
  | block {terms : List Term} {id : NodeId} {children : List NodeId}
      (node : f.get? id = some (.block children)) (all : StoresAll f terms children) :
      Stores f (.block terms) id

inductive StoresAll (f : Forest) : List Term → List NodeId → Prop where
  | nil : StoresAll f [] []
  | cons {t : Term} {ts : List Term} {id : NodeId} {ids : List NodeId} (head : Stores f t id)
      (tail : StoresAll f ts ids) : StoresAll f (t :: ts) (id :: ids)

end

variable {f : Forest} {id : NodeId} {levels : Nat} {t : Term} {ts : List Term} {ids : List NodeId}

/-- There is a node, and `P` holds of the nodes that it names. -/
def Complete (f : Forest) (P : NodeId → Prop) (id : NodeId) : Prop :=
  ∃ node, f.get? id = some node ∧ ∀ c ∈ node.children, P c

theorem Complete.mono (P Q : NodeId → Prop) (id : NodeId) (h : f.Complete P id) (hPQ : ∀ c, P c → Q c) :
    f.Complete Q id := by
  obtain ⟨node, hnode, hchildren⟩ := h
  exact ⟨node, hnode, fun c hc => hPQ c (hchildren c hc)⟩

theorem Within.children {node : Node} (h : Within f.Complete (levels + 1) id) (hnode : f.get? id = some node) :
    ∀ c ∈ node.children, Within f.Complete levels c := by
  obtain ⟨node', hnode', hchildren⟩ := h
  obtain rfl := Option.some.inj (hnode.symm.trans hnode')
  exact hchildren

theorem Complete.exists_within (h : f.Complete (fun c => ∃ levels, Within f.Complete levels c) id) :
    ∃ levels, Within f.Complete levels id := by
  obtain ⟨node, hnode, hchildren⟩ := h
  obtain ⟨levels, hlevels⟩ := exists_common Complete.mono hchildren
  exact ⟨levels + 1, node, hnode, hlevels⟩

mutual

theorem Stores.exists_within {f : Forest} {t : Term} {id : NodeId} (h : f.Stores t id) :
    ∃ levels, Within f.Complete levels id := by
  cases h with
  | literal node => exact Complete.exists_within ⟨_, node, by simp [Node.children]⟩
  | name node => exact Complete.exists_within ⟨_, node, by simp [Node.children]⟩
  | assign node first second =>
    refine Complete.exists_within ⟨_, node, ?_⟩
    simp [Node.children, Stores.exists_within first, Stores.exists_within second]
  | arithmetic node first second =>
    refine Complete.exists_within ⟨_, node, ?_⟩
    simp [Node.children, Stores.exists_within first, Stores.exists_within second]
  | block node all => exact Complete.exists_within ⟨_, node, StoresAll.exists_within all⟩

theorem StoresAll.exists_within {f : Forest} {ts : List Term} {ids : List NodeId} (h : f.StoresAll ts ids) :
    ∀ c ∈ ids, ∃ levels, Within f.Complete levels c := by
  cases h with
  | nil => simp
  | cons head tail =>
    intro c hc
    rcases List.mem_cons.mp hc with rfl | hc
    · exact Stores.exists_within head
    · exact StoresAll.exists_within tail c hc

end

/-- A tree in a forest has no more levels than evaluation goes down. -/
theorem Stores.within_levels (h : f.Stores t id) : Within f.Complete f.levels id := by
  obtain ⟨levels, hlevels⟩ := h.exists_within
  have hsize : Within f.Complete f.size id := by
    refine hlevels.within_size Complete.mono fun P c hc => ?_
    obtain ⟨node, hnode, -⟩ := hc
    exact index_lt_size hnode
  refine hsize.mono Complete.mono ?_
  unfold Forest.levels
  omega

theorem Stores.target (h : f.Stores t id) : f.target id = match t.name? with
    | some x => .ok x
    | none => .error (.error (.invalidAssignTarget (f.span id))) := by
  unfold Forest.target
  cases h with
  | literal node => rw [node]; rfl
  | name node => rw [node]; rfl
  | assign node => rw [node]; rfl
  | arithmetic node => rw [node]; rfl
  | block node => rw [node]; rfl

end Forest

/-! ## Reduction to 32 bits -/

/-- An exact value and what it is with 32 bits: the integer in the signed range with the same remainder. -/
def Whole.Reduces : Whole → Value → Prop
  | void, .void => True
  | integer n, .integer m => m.toInt = n.bmod Int32.size
  | _, _ => False

theorem Whole.Reduces.eq_integer {n : Int} {m : Int32} {v : Value} (h : (integer n).Reduces v)
    (hm : m.toInt = n.bmod Int32.size) : .integer m = v := by
  cases v with
  | integer k => exact congrArg Value.integer (Int32.toInt_inj.mp (hm.trans h.symm))
  | void => exact h.elim
  | floating x => exact h.elim

/-- The same names have values, and each value is the exact one with 32 bits. -/
def Store.Reduces (σ : Store) (env : Environment) : Prop :=
  ∀ x, Option.Rel Whole.Reduces (σ x) (env.find? x)

/-- Two evaluations come to the same error, or to an exact value and what it is with 32 bits; so do the values
that names have at the end. -/
def Reduced : EStateM.Result Failure Environment Value → EStateM.Result Failure Store Whole → Prop :=
  Agree (fun v env w σ => w.Reduces v ∧ σ.Reduces env) (fun env σ => σ.Reduces env)

variable {σ : Store} {env : Environment}

theorem Store.Reduces.assign {v : Value} {w : Whole} (h : σ.Reduces env) (hv : w.Reduces v) (x : Symbol) :
    (σ.set x w).Reduces (env.assign x v) := by
  intro y
  rw [Environment.find?_assign, Store.set]
  by_cases hy : y = x
  · rw [if_pos hy, if_pos hy]
    exact .some hv
  · rw [if_neg hy, if_neg hy]
    exact h y

theorem Store.reduces_ofBindings (bindings : List (Symbol × Int32)) :
    (Store.ofBindings bindings).Reduces (.ofBindings (asValues bindings)) := by
  intro x
  have hmap : Assoc.find? x (asValues bindings).reverse = (Assoc.find? x bindings.reverse).map .integer := by
    rw [asValues, ← List.map_reverse]
    exact Assoc.find?_map Value.integer x bindings.reverse
  rw [Environment.find?_ofBindings, hmap, Store.ofBindings]
  cases Assoc.find? x bindings.reverse with
  | none => exact .none
  | some n => exact .some (Int32.toInt_bmod_size n).symm

/-- Addition, subtraction and multiplication respect remainders. -/
theorem RingOperator.toInt_apply? (op : RingOperator) {a b : Int} {m n : Int32}
    (hm : m.toInt = a.bmod Int32.size) (hn : n.toInt = b.bmod Int32.size) :
    ∃ k, op.operator.apply? m n = some k ∧ k.toInt = (op.apply a b).bmod Int32.size := by
  cases op with
  | add =>
    refine ⟨m + n, rfl, ?_⟩
    unfold apply
    rw [Int.add_bmod, ← hm, ← hn]
    exact Int32.toInt_add m n
  | sub =>
    refine ⟨m - n, rfl, ?_⟩
    unfold apply
    rw [Int.sub_bmod, ← hm, ← hn]
    exact Int32.toInt_sub m n
  | mul =>
    refine ⟨m * n, rfl, ?_⟩
    unfold apply
    rw [Int.mul_bmod, ← hm, ← hn]
    exact Int32.toInt_mul m n

theorem RingOperator.corresponds_onValues (op : RingOperator) {v v' : Value} {w w' : Whole} (h : w.Reduces v)
    (h' : w'.Reduces v') :
    Corresponds (fun u x => x.Reduces u) (op.operator.onValues v v') (op.onWholes w w') := by
  rcases w with _ | a <;> rcases v with _ | m | _ <;> try exact h.elim
  · exact .error _
  · rcases w' with _ | b <;> rcases v' with _ | n | _ <;> try exact h'.elim
    · exact .error _
    · obtain ⟨k, hk, hreduces⟩ := op.toInt_apply? h h'
      have hok : op.operator.onValues (.integer m) (.integer n) = .ok (.integer k) := by
        simp only [Arithmetic.onValues, Value.asInteger?, hk]
      rw [hok]
      exact .ok hreduces

namespace Term

variable {f : Forest} {id : NodeId} {levels : Nat} {t : Term}

/-- Children are evaluated one after the other on both sides. -/
theorem reduced_foldlM {names : SymbolTable} {g : NodeId → Evaluate Value} {ts : List Term} {ids : List NodeId}
    {v : Value} {w : Whole} (hall : f.StoresAll ts ids)
    (hg : ∀ c ∈ ids, ∀ t, f.Stores t c → ∀ env (σ : Store), σ.Reduces env → Reduced (g c env)
      (t.compute names σ))
    (hv : w.Reduces v) (h : σ.Reduces env) :
    Reduced (ids.foldlM (fun _ c => g c) v env) (computeAll names ts w σ) := by
  induction ids generalizing ts v w env σ with
  | nil =>
    cases hall
    exact ⟨hv, h⟩
  | cons c ids ih =>
    cases hall with
    | cons head tail =>
      rw [List.foldlM_cons, computeAll]
      refine Agree.bind (hg c (by simp) _ head env σ h) fun v' env' w' σ' h' => ?_
      exact ih tail (fun d hd => hg d (by simp [hd])) h'.1 h'.2

theorem reduced_evaluateWithin (names : SymbolTable) (hwithin : Forest.Within f.Complete levels id)
    (ht : f.Stores t id) (h : σ.Reduces env) :
    Reduced (f.evaluateWithin names levels id env) (t.compute names σ) := by
  -- the induction is on the levels that evaluation may go down; the tree says what is at each of them
  induction levels generalizing id t env σ with
  | zero => exact absurd hwithin not_false
  | succ levels ih =>
    unfold Forest.evaluateWithin
    cases ht with
    | literal node =>
      rw [node, compute]
      exact ⟨(Int32.toInt_bmod_size _).symm, h⟩
    | @name x _ node =>
      rw [node, compute]
      simp only [bind, EStateM.bind, get_apply]
      have hx := h x
      generalize env.find? x = found at hx ⊢
      generalize σ x = value at hx ⊢
      cases hx with
      | none => exact ⟨rfl, h⟩
      | some hv => exact ⟨hv, h⟩
    | @assign target value _ left right node first second =>
      rw [node, compute]
      dsimp only
      rw [first.target]
      cases target.name? with
      -- the target is checked first on both sides, so nothing was assigned
      | none => exact ⟨rfl, h⟩
      | some x =>
        have hright := hwithin.children node right (by simp [Node.children])
        refine Agree.bind (ih hright second h) fun v env' w σ' h' => ?_
        exact ⟨h'.1, h'.2.assign h'.1 x⟩
    | @arithmetic op _ _ _ left right node first second =>
      rw [node, compute]
      have hchildren := hwithin.children node
      refine Agree.bind (ih (hchildren left (by simp [Node.children])) first h) fun v env₁ w σ₁ h₁ => ?_
      refine Agree.bind (ih (hchildren right (by simp [Node.children])) second h₁.2) fun v' env₂ w' σ₂ h₂ => ?_
      have hop := op.corresponds_onValues h₁.1 h₂.1
      generalize op.operator.onValues v v' = result at hop ⊢
      generalize op.onWholes w w' = whole at hop ⊢
      cases hop with
      | ok hreduces => exact ⟨hreduces, h₂.2⟩
      | error e => exact ⟨rfl, h₂.2⟩
    | block node all =>
      rw [node, compute]
      exact reduced_foldlM all (fun c hc t ht env σ h => ih (hwithin.children node c hc) ht h) trivial h

/-- The evaluation of a tree without divisions is the exact evaluation reduced to 32 bits: they fail with the
same error, or the value and all values that names have at the end are the exact ones in the signed 32-bit
range. -/
theorem wrapping_reduces_exact {root : NodeId} (names : SymbolTable) (bindings : List (Symbol × Int32))
    (h : f.Stores t root) :
    Reduced (f.evaluate names root (.ofBindings (asValues bindings)))
      (t.compute names (Store.ofBindings bindings)) := by
  unfold Forest.evaluate
  exact reduced_evaluateWithin names h.within_levels h (Store.reduces_ofBindings bindings)

/-- The nodes of `{ {}; y = (x = x * x) + x }`, with one node for the name `x`. -/
def squareTwice : Forest :=
  ⟨#[(.block [⟨1⟩, ⟨2⟩], .zero), (.block [], .zero), (.binary ⟨3⟩ .assign ⟨4⟩, .zero),
    (.name ⟨1⟩, .zero), (.binary ⟨5⟩ (.arithmetic .add) ⟨6⟩, .zero),
    (.binary ⟨6⟩ .assign ⟨7⟩, .zero), (.name ⟨0⟩, .zero),
    (.binary ⟨6⟩ (.arithmetic .mul) ⟨6⟩, .zero)]⟩

def squareTwiceTerm : Term :=
  block [block [], assign (name ⟨1⟩) (squareTwice.span ⟨3⟩) (arithmetic .add
    (assign (name ⟨0⟩) (squareTwice.span ⟨6⟩) (arithmetic .mul (name ⟨0⟩) (name ⟨0⟩))) (name ⟨0⟩))]

/-- For 46341 the square and its double are both too large for 32 bits. -/
theorem wrapping_reduces_exact_square :
    squareTwice.Stores squareTwiceTerm ⟨0⟩ ∧
    (∃ σ, squareTwiceTerm.compute {} (Store.ofBindings [(⟨0⟩, 46341)]) = .ok (.integer 4294976562) σ ∧
      σ ⟨0⟩ = some (.integer 2147488281)) ∧
    ∃ env, squareTwice.evaluate {} ⟨0⟩ (.ofBindings (asValues [(⟨0⟩, 46341)])) = .ok (.integer 9266) env ∧
      env.find? ⟨0⟩ = some (.integer (-2147479015)) := by
  have hstores : squareTwice.Stores squareTwiceTerm ⟨0⟩ := by
    have hx : squareTwice.Stores (name ⟨0⟩) ⟨6⟩ := .name rfl
    have hsquare : squareTwice.Stores (arithmetic .mul (name ⟨0⟩) (name ⟨0⟩)) ⟨7⟩ := .arithmetic rfl hx hx
    have hsum : squareTwice.Stores (arithmetic .add _ (name ⟨0⟩)) ⟨4⟩ :=
      .arithmetic rfl (.assign rfl hx hsquare) hx
    exact .block rfl (.cons (.block rfl .nil) (.cons (.assign rfl (.name rfl) hsum) .nil))
  have hexact : ∃ σ, squareTwiceTerm.compute {} (Store.ofBindings [(⟨0⟩, 46341)]) =
      .ok (.integer 4294976562) σ ∧ σ ⟨0⟩ = some (.integer 2147488281) := ⟨_, rfl, rfl⟩
  refine ⟨hstores, hexact, ?_⟩
  obtain ⟨σ, hσ, hx⟩ := hexact
  have hreduced := wrapping_reduces_exact {} [(⟨0⟩, 46341)] hstores
  rw [hσ] at hreduced
  cases heval : squareTwice.evaluate {} ⟨0⟩ (.ofBindings (asValues [(⟨0⟩, 46341)])) with
  | error e env =>
    rw [heval] at hreduced
    exact hreduced.elim
  | ok v env =>
    rw [heval] at hreduced
    obtain ⟨hv, hstore⟩ := hreduced
    have hfind := hstore ⟨0⟩
    rw [hx] at hfind
    obtain ⟨u, hu, hreduces⟩ := exists_of_rel_some hfind
    obtain rfl : .integer 9266 = v := hv.eq_integer rfl
    obtain rfl : .integer (-2147479015) = u := hreduces.eq_integer rfl
    exact ⟨env, rfl, hu⟩

end Term

end ArithJit
