import ArithJit.Proofs.CodeSize
import ArithJit.Proofs.Compilation
import ArithJit.Proofs.Hosts

/-!
# Proofs: compiling in a session

What becomes of a program that was read in a session. Compiling it fails for the first initial value that
is not an integer, else for a program without expressions, else for a division, else for a lack of registers
or of stack. If it succeeds, then the machine code returns the value of the program, from any state.
-/

namespace ArithJit

open Bytecode (Builder)
open Machine (withReturn)

/-- The result of a program and its code, without the return. -/
def Expr.program (ns : List (Symbol × Int32)) (es : List Expr) : Bytecode.Operand × Builder :=
  Expr.lowerAll es .none (Builder.bindAll ns .empty)

/-- The machine code of a compiled program is called from any state, runs to its last instruction, which is
its only return, and returns what the bytecode returns from all contents. -/
structure Compiled.Faithful (c : Compiled) : Prop where
  nonempty : c.code.bytes ≠ []
  length : c.code.bytes.length ≤ 12 * (2 * c.bytecode.length + 23)
  runs : ∀ u : Machine.State, ∃ t left, u.Reaches c.code.bytes t left ∧
    Machine.decode left = some (.nullary .ret, []) ∧ u.run? c.code.bytes = some t ∧
    ∀ n, (∀ s₀, ∃ s', Bytecode.State.run? c.bytecode s₀ = some (s', some n)) → t.result = n

/-- Expressions without divisions have an integer value, or one of their names has no value. -/
theorem Expr.evaluateAll_cases (names : SymbolTable) {es : List Expr} {env : Environment} {w : Value}
    (hd : ∀ e ∈ es, e.divides = false) (henv : env.Integral) (hw : es ≠ [] ∨ ∃ n, w = .integer n) :
    (∃ n env', evaluateAll names es w env = .ok (.integer n) env') ∨
    ∃ x env', evaluateAll names es w env = .error (.error (.undefinedVariable x)) env' := by
  induction es generalizing env w with
  | nil =>
    obtain ⟨n, rfl⟩ := hw.resolve_left (absurd rfl)
    exact Or.inl ⟨n, env, rfl⟩
  | cons e es ih =>
    rw [evaluateAll, List.foldlM_cons]
    rcases evaluate_cases names (hd e (by simp)) henv with ⟨n, env', he, henv'⟩ | ⟨x, env', he⟩
    · have hrest := ih (fun e' he' => hd e' (by simp [he'])) henv' (Or.inr ⟨n, rfl⟩)
      simp only [bind, EStateM.bind, he]
      exact hrest
    · exact Or.inr ⟨x, env', by simp only [bind, EStateM.bind, he]⟩

namespace Session

variable {s : Session} {root : NodeId} {es : List Expr} {ns : List (Symbol × Int32)}

/-! ## Initial values -/

theorem buildBindings_cons (names : SymbolTable) (x : Symbol) (n : Int32) (rest : List (Symbol × Value))
    (b : Builder) :
    buildBindings names ((x, .integer n) :: rest) b =
      buildBindings names rest (Builder.bindAll [(x, n)] b) := by
  have hbind : Builder.bind x n b = .ok (b.slot x).1 (Builder.bindAll [(x, n)] b) := by
    simp only [Builder.bind, Bind.bind, EStateM.bind, Builder.slotOf_apply]
    rfl
  rw [buildBindings]
  simp only [Value.asInteger?, Bind.bind, EStateM.bind, EStateM.adaptExcept, hbind]

/-- Integers are stored in order. -/
theorem buildBindings_append (names : SymbolTable) (ns : List (Symbol × Int32))
    (rest : List (Symbol × Value)) (b : Builder) :
    buildBindings names (asValues ns ++ rest) b = buildBindings names rest (Builder.bindAll ns b) := by
  induction ns generalizing b with
  | nil => rfl
  | cons binding ns ih =>
    have h := buildBindings_cons names binding.1 binding.2 (asValues ns ++ rest) b
    rw [ih] at h
    exact h

theorem buildBindings_asValues (names : SymbolTable) (ns : List (Symbol × Int32)) (b : Builder) :
    buildBindings names (asValues ns) b = .ok () (Builder.bindAll ns b) := by
  have h := buildBindings_append names ns [] b
  rw [List.append_nil] at h
  exact h

/-- A value that is not an integer is an error that names it. -/
theorem compile_nonIntegerBinding {x : Symbol} {v : Value} {rest : List (Symbol × Value)}
    (hb : s.bindings = asValues ns ++ (x, v) :: rest) (hv : v.asInteger? = none) :
    s.compile root = .error (.error (.nonIntegerBinding (s.symbols.nameOf x))) := by
  have hfirst : buildBindings s.symbols s.bindings .empty =
      .error (.error (.nonIntegerBinding (s.symbols.nameOf x))) (Builder.bindAll ns .empty) := by
    rw [hb, buildBindings_append, buildBindings, hv]
    rfl
  have hbytecode : s.bytecode root = .error (.error (.nonIntegerBinding (s.symbols.nameOf x))) := by
    simp only [bytecode, build, EStateM.run, Bind.bind, EStateM.bind, hfirst]
  rw [compile, hbytecode]
  rfl

/-! ## Bytecode -/

theorem build_of_node {b : Builder} {o : Bytecode.Operand} (hb : s.bindings = asValues ns)
    (h : Builder.node s.forest root (Builder.bindAll ns .empty) = .ok o b) : s.build root = .ok o b := by
  rw [build, EStateM.run, bind_eq_ok]
  exact ⟨(), _, by rw [hb, buildBindings_asValues], adaptExcept_ok h⟩

theorem bytecode_of_node {b : Builder} {o : Bytecode.Operand} (hb : s.bindings = asValues ns)
    (h : Builder.node s.forest root (Builder.bindAll ns .empty) = .ok o b) : s.bytecode root = .ok b := by
  rw [bytecode, build_of_node hb h]

theorem valid_bindAll (ns : List (Symbol × Int32)) : (Builder.bindAll ns .empty).Valid :=
  (Builder.preserved_true.bindAll ns Builder.valid_empty trivial).1

/-- A program without expressions is an error. -/
theorem compile_nil (h : s.forest.HoldsAll root []) (hb : s.bindings = asValues ns) :
    s.compile root = .error (.error .emptyProgram) := by
  have hnode := h.node (valid_bindAll ns)
  rw [if_pos rfl] at hnode
  obtain ⟨more, hcode, -, hret, -⟩ := (Builder.adds_bindAll ns .empty).code
  have hreturns : returns (Builder.bindAll ns .empty).instructions = false := by
    rw [hcode, returns, List.any_eq_false]
    intro i hi
    simpa using hret i hi
  rw [compile, bytecode_of_node hb hnode]
  simp only [Bind.bind, Except.bind, hreturns]
  rfl

theorem compile_of_ne_nil (h : s.forest.HoldsAll root es) (hb : s.bindings = asValues ns) (hne : es ≠ []) :
    s.compile root = (do
      let function ← Machine.Function.ofBytecode
        (withReturn (Expr.program ns es).2 (Expr.program ns es).1)
      let code ← Failure.ofFault function.encode
      return ⟨withReturn (Expr.program ns es).2 (Expr.program ns es).1, function, code⟩) := by
  have hnode := h.node (valid_bindAll ns)
  rw [if_neg hne] at hnode
  have hcode := Builder.instructions_append (Expr.program ns es).2
    ⟨.ret, .none, (Expr.program ns es).1, .none⟩
  have hreturns : returns (withReturn (Expr.program ns es).2 (Expr.program ns es).1) = true := by
    simp [returns, withReturn]
  rw [compile, bytecode_of_node hb hnode]
  simp only [Bind.bind, Except.bind]
  rw [← Expr.program, hcode, ← withReturn, hreturns]
  rfl

/-! ## Machine code -/

theorem program_known (ns : List (Symbol × Int32)) (hne : es ≠ []) :
    Machine.Processed (Expr.program ns es).2 ∧ (Expr.program ns es).2.Known (Expr.program ns es).1 := by
  obtain ⟨hv, hp⟩ := Machine.preserved_processed.bindAll ns Builder.valid_empty
    (Or.inl ⟨_, Machine.selected_empty⟩)
  obtain ⟨-, hp', hk⟩ := Machine.preserved_processed.lowerAll es .none hv hp
  exact ⟨hp', hk (Or.inl hne)⟩

theorem program_divides (ns : List (Symbol × Int32)) (es : List Expr) :
    (∃ i ∈ (Expr.program ns es).2.instructions, i.opcode = .arithmetic .div) ↔
      es.any Expr.divides = true := by
  have h := (Builder.adds_bindAll ns .empty).trans (Builder.adds_lowerAll es .none _)
  obtain ⟨more, hcode, -, -, hdiv⟩ := h.code
  rw [Bool.false_or] at hdiv
  rw [← hdiv, Expr.program, hcode, List.any_eq_true]
  simp [Builder.empty, Builder.instructions]

theorem program_locals (ns : List (Symbol × Int32)) (es : List Expr) :
    (Expr.program ns es).2.locals.length ≤ ns.length + Expr.sizeAll es := by
  have h := (Builder.adds_bindAll ns .empty).trans (Builder.adds_lowerAll es .none _)
  have hlocals := h.locals
  rw [Builder.empty, List.length_nil, Nat.zero_add] at hlocals
  exact hlocals

theorem program_length (ns : List (Symbol × Int32)) (es : List Expr) :
    (Expr.program ns es).2.instructions.length ≤ 2 * ns.length + 3 * Expr.sizeAll es := by
  have h := (Builder.adds_bindAll ns .empty).trans (Builder.adds_lowerAll es .none _)
  obtain ⟨more, hcode, hlen, -, -⟩ := h.code
  rw [Expr.program, hcode]
  simpa [Builder.empty, Builder.instructions] using hlen

/-- What becomes of a program that has an expression. -/
theorem compile_cases (h : s.forest.HoldsAll root es) (hb : s.bindings = asValues ns) (hne : es ≠ []) :
    (es.any Expr.divides = true ∧
      s.compile root = .error (.error (.unsupportedOperation Arithmetic.div.text))) ∨
    (es.any Expr.divides = false ∧ ∃ t, s.compile root = .error (.fault (.outOfRegisters t 6))) ∨
    (es.any Expr.divides = false ∧ ∃ c, s.compile root = .ok c ∧ c.Faithful ∧
      c.bytecode = withReturn (Expr.program ns es).2 (Expr.program ns es).1) ∨
    (Machine.stackLimit ≤ 4 * (ns.length + Expr.sizeAll es) + 15 ∧
      ∃ op, s.compile root = .error (.fault (.overflow op))) := by
  have hlocals := program_locals ns es
  have hdivides := program_divides ns es
  obtain ⟨hprocessed, hknown⟩ := program_known ns hne
  rw [compile_of_ne_nil h hb hne]
  rcases hprocessed with ⟨sel, hsel⟩ | ⟨hdiv, sel, hsteps⟩ | ⟨hlimit, sel, hsteps⟩
  · have hno : es.any Expr.divides = false := by
      rw [Bool.eq_false_iff]
      intro hyes
      obtain ⟨i, hi, hop⟩ := hdivides.mpr hyes
      exact (hsel.selectable i hi).2 hop
    rcases hsel.ofBytecode hknown with ⟨f, body, hf, hruns⟩ | ⟨t, ht⟩ | ⟨hlimit, op, hop⟩
    · obtain ⟨c, hc, hnonempty, hlen, hrun⟩ := hruns.encode
      refine Or.inr (Or.inr (Or.inl ⟨hno, ⟨_, f, c⟩, ?_, ⟨hnonempty, hlen, hrun⟩, rfl⟩))
      simp only [hf, hc, Bind.bind, Except.bind]
      rfl
    · exact Or.inr (Or.inl ⟨hno, t, by rw [ht]; rfl⟩)
    · exact Or.inr (Or.inr (Or.inr ⟨by omega, op, by rw [hop]; rfl⟩))
  · refine Or.inl ⟨hdivides.mp hdiv, ?_⟩
    have hselect : Machine.Selector.steps (withReturn (Expr.program ns es).2 (Expr.program ns es).1) .empty =
        .error _ sel := Machine.steps_append_error hsteps
    simp only [Machine.Function.ofBytecode, Machine.select, EStateM.run, hselect, Bind.bind, Except.bind]
  · refine Or.inr (Or.inr (Or.inr ⟨by omega, .sub, ?_⟩))
    have hselect : Machine.Selector.steps (withReturn (Expr.program ns es).2 (Expr.program ns es).1) .empty =
        .error _ sel := Machine.steps_append_error hsteps
    simp only [Machine.Function.ofBytecode, Machine.select, EStateM.run, hselect, Bind.bind, Except.bind]

/-! ## Evaluating -/

theorem integral_asValues (ns : List (Symbol × Int32)) : (Environment.ofBindings (asValues ns)).Integral := by
  apply Environment.integral_ofBindings
  intro b hb
  obtain ⟨c, -, rfl⟩ := List.mem_map.mp hb
  exact ⟨c.2, rfl⟩

theorem evaluate_eq (h : s.forest.HoldsAll root es) (hb : s.bindings = asValues ns) :
    s.evaluate root = Expr.evaluateAll s.symbols es .void (.ofBindings (asValues ns)) := by
  rw [evaluate, EStateM.run, h.evaluate, hb]

/-- The value of a program is that of its evaluation. -/
theorem interpret_of_evaluate (s : Session) (root : NodeId) :
    (∃ v env, s.evaluate root = .ok v env ∧ s.interpret root = .ok v) ∨
    ∃ f env, s.evaluate root = .error f env ∧ s.interpret root = .error f := by
  unfold interpret
  generalize s.evaluate root = result
  cases result with
  | ok v env => exact Or.inl ⟨v, env, rfl, rfl⟩
  | error f env => exact Or.inr ⟨f, env, rfl, rfl⟩

theorem interpret_eq_ok {v : Value} {env : Environment} (h : s.evaluate root = .ok v env) :
    s.interpret root = .ok v := by
  rcases s.interpret_of_evaluate root with ⟨w, env', hw, hvalue⟩ | ⟨f, env', hf, -⟩
  · obtain ⟨rfl, -⟩ := EStateM.Result.ok.inj (h.symm.trans hw)
    exact hvalue
  · cases h.symm.trans hf

theorem interpret_eq_error {f : Failure} {env : Environment} (h : s.evaluate root = .error f env) :
    s.interpret root = .error f := by
  rcases s.interpret_of_evaluate root with ⟨v, env', hv, -⟩ | ⟨f', env', hf, hfailure⟩
  · cases h.symm.trans hv
  · obtain ⟨rfl, -⟩ := EStateM.Result.error.inj (h.symm.trans hf)
    exact hfailure

/-- Where evaluating a program gives a value, its bytecode returns that value from all contents. -/
theorem run?_program {v : Value} (h : s.forest.HoldsAll root es) (hb : s.bindings = asValues ns)
    (hne : es ≠ []) (hv : s.interpret root = .ok v) :
    ∃ n, v = .integer n ∧ ∀ s₀, ∃ s', Bytecode.State.run?
      (withReturn (Expr.program ns es).2 (Expr.program ns es).1) s₀ = some (s', some n) := by
  obtain ⟨env, he⟩ : ∃ env, Expr.evaluateAll s.symbols es .void (.ofBindings (asValues ns)) = .ok v env := by
    rw [← evaluate_eq h hb]
    rcases s.interpret_of_evaluate root with ⟨w, env, he, hw⟩ | ⟨f, env, -, hf⟩
    · exact ⟨env, by rw [he, Except.ok.inj (hw.symm.trans hv)]⟩
    · cases hf.symm.trans hv
  have hleads : ∀ s₀, ∃ s' n, v = .integer n ∧ Bytecode.State.run?
      (withReturn (Expr.program ns es).2 (Expr.program ns es).1) s₀ = some (s', some n) := by
    intro s₀
    obtain ⟨s₁, h₁, ha₁⟩ := Builder.leads_bindAll ns s₀
    obtain ⟨s₂, n, h₂, rfl, hn⟩ := h₁.lowerAll (o := .none) (valid_bindAll ns) ha₁ (Or.inl hne) he
    refine ⟨s₂, n, rfl, ?_⟩
    rw [withReturn, Expr.program, Bytecode.State.run?_of_exec? h₂]
    simp [Bytecode.State.run?, hn]
  -- the value does not depend on the contents, so any contents tell it
  obtain ⟨-, n, rfl, -⟩ := hleads (.mk (fun _ => 0) (fun _ => 0))
  refine ⟨n, rfl, fun s₀ => ?_⟩
  obtain ⟨s', m, hm, hrun⟩ := hleads s₀
  rw [Value.integer.inj hm]
  exact ⟨s', hrun⟩

/-- A program without divisions has an integer value, or one of its names has no value. -/
theorem interpret_cases (h : s.forest.HoldsAll root es) (hb : s.bindings = asValues ns) (hne : es ≠ [])
    (hd : es.any Expr.divides = false) :
    (∃ n, s.interpret root = .ok (.integer n)) ∨
    ∃ x, s.interpret root = .error (.error (.undefinedVariable x)) := by
  have hdivides : ∀ e ∈ es, e.divides = false := by
    intro e he
    exact Bool.eq_false_iff.mpr (List.any_eq_false.mp hd e he)
  have hcases := Expr.evaluateAll_cases s.symbols (w := .void) hdivides (integral_asValues ns) (Or.inl hne)
  rw [← evaluate_eq h hb] at hcases
  rcases hcases with ⟨n, env, hn⟩ | ⟨x, env, hx⟩
  · exact Or.inl ⟨n, interpret_eq_ok hn⟩
  · exact Or.inr ⟨x, interpret_eq_error hx⟩

/-! ## Calling -/

/-- What is asked for is there, and nothing else is. -/
theorem asked_ok {α : Type} {b : Bool} {x : Except Failure α} {a : α} (h : b = true → x = .ok a) :
    (if b then some <$> x else pure none) = (.ok (if b then some a else none) : Except Failure (Option α)) := by
  cases b with
  | false => rfl
  | true =>
    rw [h rfl]
    rfl

/-- What is asked for is one value. -/
theorem asked_unique {α : Type} {b : Bool} {x : Except Failure α} {a a' : α} (h : b = true → x = .ok a)
    (h' : b = true → x = .ok a') : (if b then some a else none) = if b then some a' else none := by
  cases b with
  | false => rfl
  | true => rw [Except.ok.inj ((h rfl).symm.trans (h' rfl))]

theorem finish_eq (s : Session) (root : NodeId) (c : Compiled) :
    s.finish root c =
      (if s.options.crossCheck then some <$> s.interpret root else pure none) >>= fun i =>
      (if s.options.execute then some <$> s.host.execute c.code.bytes else pure none) >>= fun e =>
      match mismatch? i e with
      | some e => throw (.error e)
      | none => pure ⟨c, i, e⟩ := by
  cases hcheck : s.options.crossCheck <;> cases hexecute : s.options.execute <;>
    simp only [finish, hcheck, hexecute] <;> rfl

/-- What becomes of a compiled program, on a host that loads its code or refuses. -/
theorem finish_cases {c : Compiled} (h : s.forest.HoldsAll root es) (hb : s.bindings = asValues ns)
    (hne : es ≠ []) (hd : es.any Expr.divides = false) (hc : c.Faithful)
    (hcode : c.bytecode = withReturn (Expr.program ns es).2 (Expr.program ns es).1)
    (hhost : s.host.Answers c.code.bytes) :
    (s.options.crossCheck = true ∧ ∃ x, s.interpret root = .error (.error (.undefinedVariable x)) ∧
      s.finish root c = .error (.error (.undefinedVariable x))) ∨
    (∃ n m, s.finish root c = .ok ⟨c, if s.options.crossCheck then some (.integer n) else none,
        if s.options.execute then some m else none⟩ ∧
      (s.options.crossCheck = true → s.interpret root = .ok (.integer n)) ∧
      (s.options.execute = true → s.host.execute c.code.bytes = .ok m)) ∨
    ∃ f, s.host.load c.code.bytes = .error f ∧ Native.Refusal f ∧ s.finish root c = .error f := by
  obtain ⟨t, left, -, -, hrun, hresult⟩ := hc.runs s.host.entry
  -- what the evaluation gives, if it is asked for
  have hinterpreted : (s.options.crossCheck = true ∧
        ∃ x, s.interpret root = .error (.error (.undefinedVariable x))) ∨
      ∃ n, s.options.crossCheck = true → s.interpret root = .ok (.integer n) ∧ t.result = n := by
    rcases interpret_cases h hb hne hd with ⟨n, hn⟩ | ⟨x, hx⟩
    · obtain ⟨m, hm, hvalue⟩ := run?_program h hb hne hn
      obtain rfl := Value.integer.inj hm
      exact Or.inr ⟨n, fun _ => ⟨hn, hresult n (hcode ▸ hvalue)⟩⟩
    · by_cases hcheck : s.options.crossCheck = true
      · exact Or.inl ⟨hcheck, x, hx⟩
      · exact Or.inr ⟨0, fun hyes => absurd hyes hcheck⟩
  rcases hinterpreted with ⟨hcheck, x, hx⟩ | ⟨n, hn⟩
  · refine Or.inl ⟨hcheck, x, hx, ?_⟩
    rw [finish_eq, if_pos hcheck, hx]
    rfl
  · have hfirst := asked_ok fun hcheck => (hn hcheck).1
    have hagree : mismatch? (if s.options.crossCheck then some (.integer n) else none)
        (if s.options.execute then some t.result else none) = none := by
      by_cases hcheck : s.options.crossCheck = true
      · rw [if_pos hcheck, (hn hcheck).2]
        split <;> simp [mismatch?]
      · rw [if_neg hcheck]
        rfl
    by_cases hexecute : s.options.execute = true → s.host.execute c.code.bytes = .ok t.result
    · refine Or.inr (Or.inl ⟨n, t.result, ?_, fun hcheck => (hn hcheck).1, hexecute⟩)
      rw [finish_eq, hfirst, asked_ok hexecute]
      simp only [Bind.bind, Except.bind, hagree]
      rfl
    · obtain ⟨hasked, hfails⟩ := Classical.not_imp.mp hexecute
      rcases hhost with ⟨size, hload⟩ | ⟨f, hf, hrefused⟩
      · exact absurd (Native.Host.execute_of_load hload hrun) hfails
      · refine Or.inr (Or.inr ⟨f, hf, hrefused, ?_⟩)
        rw [finish_eq, hfirst, if_pos hasked, Native.Host.execute_of_refused hf]
        rfl

end Session

end ArithJit
