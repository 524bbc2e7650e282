import ArithJit.Proofs.History
import ArithJit.Proofs.Outcomes
import Mathlib.Data.List.Induction

/-!
# Proofs: which names have no value

Evaluation asks for the values of names and assigns to names in an order that the program alone decides. So
whether it asks for a name that has no value, and for which one first, can be read off the program and the
names that have initial values: the uses and assignments are listed in their order (`Tree.visits`), and the
list is gone through with the names that are known so far (`Visit.scan`). An evaluation does what this scan
says (`Detects`), one step after the other.
-/

namespace ArithJit

/-! ## Visits -/

/-- A name is asked for, or an assignment to it is completed. -/
inductive Visit (α : Type) where
  | use (name : α)
  | define (name : α)
deriving DecidableEq, Repr

namespace Visit

variable {α : Type} {bound : List α} {visits : List (Visit α)} {x : α}

/-- The name has an initial value, or was assigned to before. -/
def Known (bound : List α) (before : List (Visit α)) (x : α) : Prop :=
  x ∈ bound ∨ define x ∈ before

/-- Every name that is asked for is known by then. -/
def AllKnown (bound : List α) (visits : List (Visit α)) : Prop :=
  ∀ earlier y later, visits = earlier ++ use y :: later → Known bound earlier y

/-- The name is the first one that is asked for and not known by then. -/
def FirstUnknown (bound : List α) (visits : List (Visit α)) (x : α) : Prop :=
  ∃ before after, visits = before ++ use x :: after ∧ ¬ Known bound before x ∧ AllKnown bound before

theorem allKnown_concat (h : AllKnown bound visits) {v : Visit α} (hv : ∀ y, v = use y → Known bound visits y) :
    AllKnown bound (visits ++ [v]) := by
  intro earlier y later heq
  rcases List.eq_nil_or_concat later with rfl | ⟨later, w, rfl⟩
  · obtain ⟨rfl, hlast⟩ := List.append_inj' heq rfl
    exact hv y (List.singleton_inj.mp hlast)
  · have heq' : visits ++ [v] = (earlier ++ use y :: later) ++ [w] := by simpa using heq
    exact h earlier y later (List.append_inj' heq' rfl).1

theorem firstUnknown_congr {bound' : List α} (h : ∀ x, x ∈ bound ↔ x ∈ bound') :
    FirstUnknown bound visits x ↔ FirstUnknown bound' visits x := by
  simp only [FirstUnknown, AllKnown, Known, h]

section Scan

variable [DecidableEq α]

/-- The names that are known after a visit, or the name that is not known. -/
def step (known : List α) : Visit α → Except α (List α)
  | use x => if x ∈ known then .ok known else .error x
  | define x => .ok (x :: known)

def scan (known : List α) (visits : List (Visit α)) : Except α (List α) :=
  visits.foldlM step known

theorem scan_append (known : List α) (visits more : List (Visit α)) :
    scan known (visits ++ more) = scan known visits >>= fun later => scan later more :=
  List.foldlM_append

theorem scan_cons (known : List α) (v : Visit α) (visits : List (Visit α)) :
    scan known (v :: visits) = step known v >>= fun later => scan later visits :=
  List.foldlM_cons

theorem scan_singleton (known : List α) (v : Visit α) : scan known [v] = step known v := by
  rw [scan_cons]
  exact bind_pure (step known v)

/-- A scan finds the first name that is not known, or comes to the names that are known at the end. -/
theorem scan_cases (bound : List α) (visits : List (Visit α)) :
    (∃ known, scan bound visits = .ok known ∧ (∀ x, x ∈ known ↔ Known bound visits x) ∧
      AllKnown bound visits) ∨
    ∃ x, scan bound visits = .error x ∧ FirstUnknown bound visits x := by
  -- from the end, since what is known at a visit depends on those before it
  induction visits using List.reverseRecOn with
  | nil =>
    refine Or.inl ⟨bound, rfl, by simp [Known], ?_⟩
    intro earlier y later heq
    simp at heq
  | append_singleton visits v ih =>
    rcases ih with ⟨known, hscan, hknown, hall⟩ | ⟨x, hscan, before, after, heq, hunknown, hall⟩
    · have hnext : scan bound (visits ++ [v]) = step known v := by
        rw [scan_append, hscan]
        exact scan_singleton known v
      cases v with
      | use y =>
        by_cases hy : y ∈ known
        · have hvisit : ∀ z, use y = use z → Known bound visits z := by
            rintro z ⟨⟩
            exact (hknown y).mp hy
          refine Or.inl ⟨known, hnext.trans (if_pos hy), fun x => ?_, allKnown_concat hall hvisit⟩
          rw [hknown x]
          simp [Known]
        · refine Or.inr ⟨y, hnext.trans (if_neg hy), visits, [], rfl, ?_, hall⟩
          rwa [← hknown y]
      | define y =>
        refine Or.inl ⟨y :: known, hnext, fun x => ?_, allKnown_concat hall (by simp)⟩
        rw [List.mem_cons, hknown x]
        simp only [Known, List.mem_append, List.mem_singleton, define.injEq]
        tauto
    · refine Or.inr ⟨x, ?_, before, after ++ [v], by simp [heq], hunknown, hall⟩
      rw [scan_append, hscan]
      rfl

theorem scan_eq_error_iff : scan bound visits = .error x ↔ FirstUnknown bound visits x := by
  constructor
  · intro h
    rcases scan_cases bound visits with ⟨known, hok, -⟩ | ⟨y, herror, hfirst⟩
    · cases h.symm.trans hok
    · obtain rfl : x = y := Except.error.inj (h.symm.trans herror)
      exact hfirst
  · rintro ⟨before, after, rfl, hunknown, hall⟩
    rcases scan_cases bound before with ⟨known, hok, hknown, -⟩ | ⟨y, -, earlier, later, heq, hy, -⟩
    · have hx : x ∉ known := by rwa [hknown x]
      rw [scan_append, hok]
      show scan known (use x :: after) = .error x
      rw [scan_cons, step, if_neg hx]
      rfl
    · exact absurd (hall earlier y later heq) hy

end Scan

end Visit

/-! ## Trees -/

namespace Tree

/-- What completing an assignment to a tree defines. -/
def defines : Tree → List (Visit String)
  | name text => [.define text]
  | _ => []

/-- The names that a tree asks for and assigns to, in the order of evaluation. The target of an assignment is
not asked for, and has its value after the right side has been evaluated. -/
def visits : Tree → List (Visit String)
  | number _ => []
  | name text => [.use text]
  | binary left .assign right => right.visits ++ left.defines
  | binary left (.arithmetic _) right => left.visits ++ right.visits

/-- The tree with all numbers replaced by zero. -/
def shape : Tree → Tree
  | number _ => number 0
  | name text => name text
  | binary left op right => binary left.shape op right.shape

theorem visits_shape (tree : Tree) : tree.shape.visits = tree.visits := by
  induction tree with
  | number | name => rfl
  | binary left op right ihl ihr =>
    cases op with
    | assign =>
      rw [shape, visits, visits, ihr]
      cases left <;> rfl
    | arithmetic op => rw [shape, visits, visits, ihl, ihr]

theorem flatMap_visits_of_shape {trees trees' : List Tree} (h : trees.map shape = trees'.map shape) :
    trees.flatMap visits = trees'.flatMap visits := by
  have hvisits : ∀ ts : List Tree, ts.flatMap visits = (ts.map shape).flatMap visits := by
    intro ts
    rw [List.flatMap_map]
    congr 1
    funext tree
    exact tree.visits_shape.symm
  rw [hvisits, h, ← hvisits]

end Tree

/-! ## Evaluation -/

/-- The names with values are those that are known. -/
def Environment.Knows (env : Environment) (names : SymbolTable) (known : List String) : Prop :=
  ∀ x name, names.name? x = some name → ((env.find? x).isSome ↔ name ∈ known)

theorem Environment.Knows.assign {env : Environment} {names : SymbolTable} {known : List String} {x : Symbol}
    {name : String} (h : env.Knows names known) (hx : names.name? x = some name) (v : Value) :
    (env.assign x v).Knows names (name :: known) := by
  intro y other hy
  rw [Environment.find?_assign, List.mem_cons]
  by_cases hyx : y = x
  · subst hyx
    obtain rfl : name = other := Option.some.inj (hx.symm.trans hy)
    simp
  · have hother : other ≠ name := by
      rintro rfl
      exact hyx (SymbolTable.name?_inj hy hx)
    rw [if_neg hyx, h y other hy]
    simp [hother]

/-- With integers as values, an evaluation does what the scan of some visits says: it has an integer value and
the names that the scan comes to are known after it, or it fails at the name that the scan finds. -/
def Detects (names : SymbolTable) (visits : List (Visit String)) (x : Evaluate Value) : Prop :=
  ∀ known env, env.Integral → env.Knows names known →
    (∀ later, Visit.scan known visits = .ok later →
      ∃ n env', x env = .ok (.integer n) env' ∧ env'.Integral ∧ env'.Knows names later) ∧
    ∀ y, Visit.scan known visits = .error y → ∃ env', x env = .error (.error (.undefinedVariable y)) env'

section Detects

variable {names : SymbolTable} {visits more : List (Visit String)} {x : Symbol} {name : String}

theorem Detects.bind {y : Evaluate Value} {k : Value → Evaluate Value} (hy : Detects names visits y)
    (hk : ∀ n, Detects names more (k (.integer n))) : Detects names (visits ++ more) (y >>= k) := by
  intro known env henv hknows
  obtain ⟨hok, herror⟩ := hy known env henv hknows
  rw [Visit.scan_append]
  cases hscan : Visit.scan known visits with
  | error z =>
    obtain ⟨env', hz⟩ := herror z hscan
    constructor
    · intro later hlater
      cases hlater
    · intro z' hz'
      obtain rfl : z = z' := Except.error.inj hz'
      exact ⟨env', by simp only [Bind.bind, EStateM.bind, hz]⟩
  | ok later =>
    obtain ⟨n, env', hn, henv', hknows'⟩ := hok later hscan
    have hrest := hk n later env' henv' hknows'
    simp only [Bind.bind, EStateM.bind, hn]
    exact hrest

theorem detects_pure (n : Int32) : Detects names [] (pure (.integer n)) := by
  intro known env henv hknows
  constructor
  · intro later hlater
    obtain rfl : known = later := Except.ok.inj hlater
    exact ⟨n, env, rfl, henv, hknows⟩
  · intro y hy
    cases hy

theorem detects_name (hx : names.name? x = some name) :
    Detects names [.use name] ((Expr.name x).evaluate names) := by
  intro known env henv hknows
  rw [Visit.scan_singleton, Visit.step, Expr.evaluate_name]
  have hname : names.nameOf x = name := by
    rw [SymbolTable.nameOf, hx]
    rfl
  cases hfind : env.find? x with
  | none =>
    have hunknown : name ∉ known := by
      rw [← hknows x name hx, hfind]
      simp
    rw [if_neg hunknown]
    constructor
    · intro later hlater
      cases hlater
    · intro y hy
      exact ⟨env, by rw [hname, Except.error.inj hy]⟩
  | some v =>
    have hknown : name ∈ known := by
      rw [← hknows x name hx, hfind]
      rfl
    obtain ⟨n, rfl⟩ := henv x v hfind
    rw [if_pos hknown]
    constructor
    · intro later hlater
      rw [← Except.ok.inj hlater]
      exact ⟨n, env, rfl, henv, hknows⟩
    · intro y hy
      cases hy

theorem detects_assign (hx : names.name? x = some name) (n : Int32) :
    Detects names [.define name] (do modify (·.assign x (.integer n)); return .integer n) := by
  intro known env henv hknows
  rw [Visit.scan_singleton, Visit.step]
  constructor
  · intro later hlater
    rw [← Except.ok.inj hlater]
    exact ⟨n, _, rfl, henv.assign x n, hknows.assign hx (.integer n)⟩
  · intro y hy
    cases hy

theorem detects_onValues {op : Arithmetic} (hop : op ≠ .div) (a b : Int32) :
    Detects names [] (match op.onValues (.integer a) (.integer b) with
      | .ok value => return value
      | .error e => throw (.error e)) := by
  obtain ⟨n, hn⟩ := Arithmetic.onValues_integer hop a b
  rw [hn]
  exact detects_pure n

variable {f : Forest} {id : NodeId} {tree : Tree} {e : Expr}

theorem Forest.Shows.detects (ht : f.Shows names id tree) (h : f.Holds id e) (hd : e.divides = false) :
    Detects names tree.visits (e.evaluate names) := by
  induction ht generalizing e with
  | number node =>
    rw [h.eq_literal node]
    exact detects_pure _
  | name node named =>
    rw [h.eq_name node]
    exact detects_name named
  | @binary id left right op l r node first second ihl ihr =>
    cases op with
    | assign =>
      obtain ⟨x, value, rfl, target, source⟩ := h.eq_assign node
      obtain ⟨text, rfl, hx⟩ := first.eq_name target
      -- the target itself is not evaluated
      rw [Expr.evaluate]
      exact (ihr source hd).bind fun n => detects_assign hx n
    | arithmetic op =>
      obtain ⟨a, b, rfl, hl, hr⟩ := h.eq_arithmetic node
      simp only [Expr.divides, Bool.or_eq_false_iff, decide_eq_false_iff_not] at hd
      obtain ⟨⟨hop, hdl⟩, hdr⟩ := hd
      rw [Tree.visits, Expr.evaluate, ← List.append_nil r.visits]
      refine (ihl hl hdl).bind fun n => ?_
      exact (ihr hr hdr).bind fun m => detects_onValues hop n m

theorem detects_evaluateAll {ids : List NodeId} {trees : List Tree} {es : List Expr} {v : Value}
    (ht : List.Forall₂ (f.Shows names) ids trees) (h : List.Forall₂ f.Holds ids es)
    (hd : ∀ e ∈ es, e.divides = false) (hv : es ≠ [] ∨ ∃ n, v = .integer n) :
    Detects names (trees.flatMap Tree.visits) (Expr.evaluateAll names es v) := by
  induction ht generalizing es v with
  | nil =>
    cases h
    obtain ⟨n, rfl⟩ := hv.resolve_left (by simp)
    exact detects_pure n
  | @cons id tree ids trees hid _ ih =>
    cases h with
    | @cons _ e _ es he hes =>
      rw [List.flatMap_cons, Expr.evaluateAll, List.foldlM_cons]
      refine (hid.detects he (hd e (by simp))).bind fun n => ?_
      exact ih hes (fun e' he' => hd e' (by simp [he'])) (Or.inr ⟨n, rfl⟩)

end Detects

/-! ## Sessions -/

namespace Session

variable {s : Session} {source : String} {root : NodeId} {bindings : List (String × Int32)} {trees : List Tree}

/-- The names with initial values are known at first. -/
theorem Named.knows {t : SymbolTable} {bs : List (Symbol × Value)} {cs : List (String × Value)}
    (h : Named t bs cs) : (Environment.ofBindings bs).Knows t (cs.map Prod.fst) := by
  intro x name hx
  have hkeys : x ∈ bs.map Prod.fst ↔ name ∈ cs.map Prod.fst := by
    induction h with
    | nil => simp
    | @cons b c bs cs hbc _ ih =>
      have hhead : x = b.1 ↔ name = c.1 := by
        constructor
        · rintro rfl
          exact Option.some.inj (hx.symm.trans hbc.1)
        · rintro rfl
          exact SymbolTable.name?_inj hx hbc.1
      rw [List.map_cons, List.map_cons, List.mem_cons, List.mem_cons, hhead, ih]
  rw [Environment.find?_ofBindings, ← hkeys, ← Option.ne_none_iff_isSome, Ne, Assoc.find?_eq_none]
  simp

/-- In the session a program without divisions was read that is not empty, and integers were given to names
before or after that. -/
structure Loaded (s : Session) (source : String) (bindings : List (String × Int32)) (root : NodeId) : Prop where
  history : ∃ options host before after,
    s = (new options host).performAll (before ++ .parse source :: after) ∧
    (((new options host).performAll before).parse source).1 = .ok root ∧
    (before ++ after).filterMap Call.binding? = bindings.map fun b => (b.1, .integer b.2)
  nonempty : s.forest.get? root ≠ some (.block [])
  undivided : ¬ s.forest.Divides root

theorem Loaded.named (h : s.Loaded source bindings root) :
    Named s.symbols s.bindings (bindings.map fun b => (b.1, .integer b.2)) := by
  obtain ⟨options, host, before, after, rfl, -, hbindings⟩ := h.history
  have hnew : Named (new options host).symbols (new options host).bindings [] := .nil
  have hnamed := (named_performAll hnew (before ++ .parse source :: after)).2
  rw [List.nil_append, List.filterMap_append, List.filterMap_cons_none rfl, ← List.filterMap_append,
    hbindings] at hnamed
  exact hnamed

/-- What was read is still there. -/
theorem Loaded.program (h : s.Loaded source bindings root) :
    ∃ es trees, s.forest.HoldsAll root es ∧ s.forest.ShowsAll s.symbols root trees := by
  obtain ⟨options, host, before, after, rfl, hroot, -⟩ := h.history
  have hreads := ((new options host).performAll before).reads_parse source
  have hgrows := (((new options host).performAll before).parse source).2.grows_performAll after
  have hsession : (new options host).performAll (before ++ .parse source :: after) =
      (((new options host).performAll before).parse source).2.performAll after := by
    rw [performAll, List.foldl_append]
    rfl
  rw [hsession]
  rcases ((new options host).performAll before).parse_twice ((new options host).performAll before) source with
    ⟨f, hf, -⟩ | ⟨root', -, trees, hroot', -, ⟨ids, hids, htrees⟩, -⟩
  · cases hf.symm.trans hroot
  · obtain rfl : root' = root := Except.ok.inj (hroot'.symm.trans hroot)
    -- what the text was is of no importance from here on
    generalize ((new options host).performAll before).parse source = parsed at *
    obtain ⟨result, u⟩ := parsed
    cases hroot
    obtain ⟨es, ⟨ids', hids', hes⟩, -⟩ := hreads
    have hextends := hgrows.forest.extends
    refine ⟨es, trees, ⟨ids', hextends _ _ hids', ?_⟩, ids, hextends _ _ hids, ?_⟩
    · exact hes.imp fun _ _ he => he.mono hextends
    · exact htrees.imp fun _ _ ht => ht.mono hextends hgrows.symbols

/-- Evaluating a program does what the scan of its visits says. -/
theorem Loaded.interpret (h : s.Loaded source bindings root) (ht : s.forest.ShowsAll s.symbols root trees) :
    (∀ later, Visit.scan (bindings.map Prod.fst) (trees.flatMap Tree.visits) = .ok later →
      ∃ n, s.interpret root = .ok (.integer n)) ∧
    ∀ x, Visit.scan (bindings.map Prod.fst) (trees.flatMap Tree.visits) = .error x →
      s.interpret root = .error (.error (.undefinedVariable x)) := by
  obtain ⟨es, -, hes, -⟩ := h.program
  have hne : es ≠ [] := fun hnil => h.nonempty (hes.eq_nil_iff.mpr hnil)
  have hd : ∀ e ∈ es, e.divides = false := by
    intro e he
    rw [← Bool.not_eq_true]
    intro hdivides
    exact h.undivided (hes.divides_iff.mpr (List.any_eq_true.mpr ⟨e, he, hdivides⟩))
  obtain ⟨ns, hns⟩ := h.named.integers
  have henv : (Environment.ofBindings s.bindings).Integral := by
    rw [hns]
    exact integral_asValues ns
  have hknows := h.named.knows
  rw [List.map_map] at hknows
  have heval : s.evaluate root = Expr.evaluateAll s.symbols es .void (.ofBindings s.bindings) := by
    rw [evaluate_eq hes hns, hns]
  obtain ⟨ids, hids, htrees⟩ := ht
  obtain ⟨ids', hids', hall⟩ := hes
  obtain rfl : ids' = ids := by simpa [hids'] using hids
  have hdetects := detects_evaluateAll (v := .void) htrees hall hd (Or.inl hne) _ _ henv hknows
  rw [← heval] at hdetects
  constructor
  · intro later hlater
    obtain ⟨n, env, hn, -⟩ := hdetects.1 later hlater
    exact ⟨n, interpret_eq_ok hn⟩
  · intro x hx
    obtain ⟨env, herror⟩ := hdetects.2 x hx
    exact interpret_eq_error herror

/-- The result of a program depends on its visits and on the names with initial values alone: it fails at the
first name that is not known, and otherwise has an integer value. -/
theorem Loaded.interpret_iff (h : s.Loaded source bindings root)
    (ht : s.forest.ShowsAll s.symbols root trees) :
    (∀ x, s.interpret root = .error (.error (.undefinedVariable x)) ↔
      Visit.FirstUnknown (bindings.map Prod.fst) (trees.flatMap Tree.visits) x) ∧
    ((∃ n, s.interpret root = .ok (.integer n)) ↔
      ∀ x, ¬ Visit.FirstUnknown (bindings.map Prod.fst) (trees.flatMap Tree.visits) x) := by
  obtain ⟨hok, herror⟩ := h.interpret ht
  simp only [← Visit.scan_eq_error_iff]
  cases hscan : Visit.scan (bindings.map Prod.fst) (trees.flatMap Tree.visits) with
  | ok later =>
    obtain ⟨n, hn⟩ := hok later hscan
    simp [hn]
  | error y =>
    have hy := herror y hscan
    simp [hy]

/-- Whether a program without divisions asks for a name without a value can be read off the program and the
names with initial values: evaluation fails at the first name that is asked for, in the order of evaluation,
before it has an initial value or an assignment to it is completed, and has an integer value if there is no
such name. So programs that differ in numbers only, with other initial values for the same names, fail at the
same name or succeed alike. -/
theorem undefined_variable_is_static (h : s.Loaded source bindings root) :
    (∃ trees, s.forest.ShowsAll s.symbols root trees) ∧
    ∀ trees, s.forest.ShowsAll s.symbols root trees →
      (∀ x, s.interpret root = .error (.error (.undefinedVariable x)) ↔
        Visit.FirstUnknown (bindings.map Prod.fst) (trees.flatMap Tree.visits) x) ∧
      ((∃ n, s.interpret root = .ok (.integer n)) ↔
        ∀ x, ¬ Visit.FirstUnknown (bindings.map Prod.fst) (trees.flatMap Tree.visits) x) ∧
      ∀ (s' : Session) (source' : String) (bindings' : List (String × Int32)) (root' : NodeId)
        (trees' : List Tree), s'.Loaded source' bindings' root' →
        s'.forest.ShowsAll s'.symbols root' trees' → trees'.map Tree.shape = trees.map Tree.shape →
        (∀ x, x ∈ bindings'.map Prod.fst ↔ x ∈ bindings.map Prod.fst) →
        (∀ x, s'.interpret root' = .error (.error (.undefinedVariable x)) ↔
          s.interpret root = .error (.error (.undefinedVariable x))) ∧
        ((∃ n, s'.interpret root' = .ok (.integer n)) ↔ ∃ n, s.interpret root = .ok (.integer n)) := by
  refine ⟨?_, fun trees ht => ⟨(h.interpret_iff ht).1, (h.interpret_iff ht).2, ?_⟩⟩
  · obtain ⟨-, trees, -, ht⟩ := h.program
    exact ⟨trees, ht⟩
  · intro s' source' bindings' root' trees' h' ht' hshape hnames
    obtain ⟨hfails, hvalue⟩ := h.interpret_iff ht
    obtain ⟨hfails', hvalue'⟩ := h'.interpret_iff ht'
    have hfirst : ∀ x, Visit.FirstUnknown (bindings'.map Prod.fst) (trees'.flatMap Tree.visits) x ↔
        Visit.FirstUnknown (bindings.map Prod.fst) (trees.flatMap Tree.visits) x := by
      intro x
      rw [Tree.flatMap_visits_of_shape hshape]
      exact Visit.firstUnknown_congr hnames
    constructor
    · intro x
      rw [hfails', hfirst, ← hfails]
    · simp only [hvalue', hfirst, hvalue]

/-- A program is read, and `x` is 4. -/
def increment : Session :=
  (new {}).performAll [.parse "(y = x) + y * (z = z + 1)", .bind "x" (.integer 4)]

/-- `y` is assigned to in the left operand, and so known in the right one; `z` is asked for before the
assignment to it is completed. -/
theorem undefined_variable_is_static_increment :
    increment.Loaded "(y = x) + y * (z = z + 1)" [("x", 4)] ⟨11⟩ ∧
    increment.interpret ⟨11⟩ = .error (.error (.undefinedVariable "z")) := by
  have hnodes : increment.forest.nodes.toList.map Prod.fst =
      [.name ⟨0⟩, .name ⟨1⟩, .binary ⟨0⟩ .assign ⟨1⟩, .name ⟨0⟩, .name ⟨2⟩, .name ⟨2⟩,
        .literal (.integer 1), .binary ⟨5⟩ (.arithmetic .add) ⟨6⟩, .binary ⟨4⟩ .assign ⟨7⟩,
        .binary ⟨3⟩ (.arithmetic .mul) ⟨8⟩, .binary ⟨2⟩ (.arithmetic .add) ⟨9⟩, .block [⟨10⟩]] := by
    decide +kernel
  have hnames : increment.symbols.names = ["y", "x", "z"] := by decide +kernel
  have hget : ∀ id, increment.forest.get? id = (increment.forest.nodes.toList.map Prod.fst)[id.index]? := by
    intro id
    rw [Forest.get?, List.getElem?_map, Array.getElem?_toList]
  simp only [hnodes] at hget
  have hname : ∀ x, increment.symbols.name? x = ["y", "x", "z"][x.index]? := by
    intro x
    rw [SymbolTable.name?, hnames]
  have hundivided : ∀ id, ¬ increment.forest.Divides id := by
    intro id hdivides
    induction hdivides with
    | here node =>
      rw [hget] at node
      have hmem := List.mem_of_getElem? node
      simp at hmem
    | under _ _ _ ih => exact ih
  have hloaded : increment.Loaded "(y = x) + y * (z = z + 1)" [("x", 4)] ⟨11⟩ := by
    refine ⟨⟨{}, .system, [], [.bind "x" (.integer 4)], rfl, by decide +kernel, rfl⟩, ?_, hundivided ⟨11⟩⟩
    rw [hget]
    simp
  have hshows : increment.forest.ShowsAll increment.symbols ⟨11⟩
      [.binary (.binary (.name "y") .assign (.name "x"))
        (.arithmetic .add) (.binary (.name "y") (.arithmetic .mul)
          (.binary (.name "z") .assign (.binary (.name "z") (.arithmetic .add) (.number 1))))] := by
    refine ⟨[⟨10⟩], hget _, .cons ?_ .nil⟩
    exact .binary (hget _) (.binary (hget _) (.name (hget _) (hname _)) (.name (hget _) (hname _)))
      (.binary (hget _) (.name (hget _) (hname _)) (.binary (hget _) (.name (hget _) (hname _))
        (.binary (hget _) (.name (hget _) (hname _)) (.number (hget _)))))
  refine ⟨hloaded, ?_⟩
  obtain ⟨hfails, -⟩ := (undefined_variable_is_static hloaded).2 _ hshows
  exact (hfails "z").mpr (Visit.scan_eq_error_iff.mp (by decide))

end Session

end ArithJit
