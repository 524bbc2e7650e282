import ArithJit.Proofs.Parsing
import ArithJit.Proofs.Sessions

/-!
# Proofs: machine code computes the value of its program

A session starts with initial values for names, reads a program and compiles it. The machine code that comes
out runs from any state to its last instruction, a return, with the value of the program in the accumulator.
So no run on an honest host finds the two results to differ.
-/

namespace ArithJit

/-! ## Initial values of names -/

namespace Session

/-- Gives some names initial values, one after the other. -/
def bindAll (s : Session) (bindings : List (String × Value)) : Session :=
  bindings.foldl (fun s b => s.bind b.1 b.2) s

/-- The symbols of a session stand for these names, with these values. -/
def Named (symbols : SymbolTable) : List (Symbol × Value) → List (String × Value) → Prop :=
  List.Forall₂ fun b c => symbols.name? b.1 = some c.1 ∧ b.2 = c.2

theorem Named.mono {t u : SymbolTable} {bs : List (Symbol × Value)} {cs : List (String × Value)}
    (h : Named t bs cs) (htu : t.names <+: u.names) : Named u bs cs :=
  List.Forall₂.imp (fun _ _ hb => ⟨SymbolTable.name?_mono htu hb.1, hb.2⟩) h

theorem bindAll_named (s : Session) (bindings : List (String × Value)) :
    (s.bindAll bindings).options = s.options ∧ (s.bindAll bindings).forest = s.forest ∧
    s.symbols.names <+: (s.bindAll bindings).symbols.names ∧
    ∃ more, (s.bindAll bindings).bindings = s.bindings ++ more ∧
      Named (s.bindAll bindings).symbols more bindings := by
  induction bindings generalizing s with
  | nil => exact ⟨rfl, rfl, List.prefix_refl _, [], (List.append_nil _).symm, .nil⟩
  | cons b bindings ih =>
    obtain ⟨hoptions, hforest, hsymbols, more, hmore, hnamed⟩ := ih (s.bind b.1 b.2)
    have hname := SymbolTable.name?_mono hsymbols (s.symbols.name?_intern b.1)
    refine ⟨hoptions, hforest, (s.symbols.names_intern b.1).trans hsymbols,
      ((s.symbols.intern b.1).1, b.2) :: more, ?_, .cons ⟨hname, rfl⟩ hnamed⟩
    rw [bindAll, List.foldl_cons, ← bindAll, hmore]
    simp [bind]

/-- The first value that is not an integer comes after integers; without one, all values are integers. -/
theorem Named.find? {t : SymbolTable} {bs : List (Symbol × Value)} {cs : List (String × Value)}
    (h : Named t bs cs) :
    match cs.find? fun c => c.2.asInteger?.isNone with
    | some c => ∃ ns x rest, bs = asValues ns ++ (x, c.2) :: rest ∧ c.2.asInteger? = none ∧
        t.nameOf x = c.1
    | none => ∃ ns, bs = asValues ns ∧ ns.length = cs.length := by
  induction h with
  | nil => exact ⟨[], rfl, rfl⟩
  | @cons b c bs cs hbc _ ih =>
    obtain ⟨hname, hvalue⟩ := hbc
    cases hc : c.2.asInteger? with
    | none =>
      rw [List.find?_cons_of_pos (by simp [hc])]
      refine ⟨[], b.1, bs, ?_, hc, ?_⟩
      · rw [← hvalue]
        rfl
      · rw [SymbolTable.nameOf, hname]
        rfl
    | some n =>
      have hinteger : c.2 = .integer n := by
        cases hc' : c.2 <;> simp_all [Value.asInteger?]
      have hb : b = (b.1, .integer n) := by rw [← hinteger, ← hvalue]
      rw [List.find?_cons_of_neg (by simp [hc])]
      split at ih
      · next c' _ =>
        obtain ⟨ns, x, rest, hbs, hrest⟩ := ih
        exact ⟨(b.1, n) :: ns, x, rest, by rw [hb, hbs]; rfl, hrest⟩
      · obtain ⟨ns, hbs, hlen⟩ := ih
        exact ⟨(b.1, n) :: ns, by rw [hb, hbs]; rfl, by simp [hlen]⟩

/-- Integers for names are integers for their symbols. -/
theorem Named.integers {t : SymbolTable} {bs : List (Symbol × Value)} {cs : List (String × Int32)}
    (h : Named t bs (cs.map fun c => (c.1, .integer c.2))) : ∃ ns, bs = asValues ns := by
  have hnone : (cs.map fun c => (c.1, Value.integer c.2)).find? (fun c => c.2.asInteger?.isNone) = none := by
    rw [List.find?_eq_none]
    intro c hc
    obtain ⟨b, -, rfl⟩ := List.mem_map.mp hc
    simp [Value.asInteger?]
  have hfind := h.find?
  rw [hnone] at hfind
  obtain ⟨ns, hns, -⟩ := hfind
  exact ⟨ns, hns⟩

theorem host_bindAll (s : Session) (bindings : List (String × Value)) : (s.bindAll bindings).host = s.host := by
  induction bindings generalizing s with
  | nil => rfl
  | cons b bindings ih => exact ih (s.bind b.1 b.2)

theorem host_parse (s : Session) (source : String) : (s.parse source).2.host = s.host := by
  rw [parse]
  cases tokenize source with
  | error e => rfl
  | ok tokens =>
    dsimp only
    cases Parser.program.run (.ofTokens tokens s.forest s.symbols) <;> rfl

section New

variable {options : Options} {host : Native.Host} {bindings : List (String × Value)} {source : String}
  {root : NodeId} {s : Session} (h : ((new options host).bindAll bindings).parse source = (.ok root, s))
include h

/-- What a program that was read in a new session is. -/
theorem parse_new : ∃ es : List Expr, s.forest.HoldsAll root es ∧ Expr.sizeAll es ≤ source.length ∧
    s.options = options ∧ Named s.symbols s.bindings bindings := by
  have hreads := ((new options host).bindAll bindings).reads_parse source
  rw [h] at hreads
  obtain ⟨es, hall, hsize, hoptions, hbindings, hsymbols⟩ := hreads
  obtain ⟨hoptions', -, -, more, hmore, hnamed⟩ := (new options host).bindAll_named bindings
  have hnew : (new options host).bindings ++ more = more := List.nil_append more
  refine ⟨es, hall, hsize, hoptions.trans hoptions', ?_⟩
  rw [hbindings, hmore, hnew]
  exact hnamed.mono hsymbols

theorem host_new : s.host = host := by
  have hparse := ((new options host).bindAll bindings).host_parse source
  rw [h, host_bindAll] at hparse
  exact hparse

end New

/-! ## Running a program -/

variable {s : Session} {root : NodeId} {es : List Expr} {ns : List (Symbol × Int32)}

/-- A compiled program has an expression, and its code is faithful. -/
theorem faithful_of_compile {c : Compiled} (h : s.forest.HoldsAll root es) (hb : s.bindings = asValues ns)
    (hc : s.compile root = .ok c) : es ≠ [] ∧ es.any Expr.divides = false ∧ c.Faithful ∧
      c.bytecode = Machine.withReturn (Expr.program ns es).2 (Expr.program ns es).1 := by
  have hne : es ≠ [] := by
    rintro rfl
    rw [compile_nil h hb] at hc
    cases hc
  rcases compile_cases h hb hne with ⟨-, he⟩ | ⟨-, t, he⟩ | ⟨hd, c', he, hfaithful, hcode⟩ | ⟨-, op, he⟩
  · rw [he] at hc
    cases hc
  · rw [he] at hc
    cases hc
  · obtain rfl : c' = c := Except.ok.inj (he.symm.trans hc)
    exact ⟨hne, hd, hfaithful, hcode⟩
  · rw [he] at hc
    cases hc

/-- The two results of a program are the same. -/
theorem runNode_ne_resultMismatch (h : s.forest.HoldsAll root es) (hb : s.bindings = asValues ns)
    (hhost : s.host.Honest) (a b : Int32) : s.runNode root ≠ .error (.error (.resultMismatch a b)) := by
  intro hrun
  rw [runNode] at hrun
  cases hc : s.compile root with
  | error f =>
    rw [hc] at hrun
    obtain rfl : f = .error (.resultMismatch a b) := Except.error.inj hrun
    by_cases hne : es = []
    · subst hne
      rw [compile_nil h hb] at hc
      cases hc
    · rcases compile_cases h hb hne with ⟨-, he⟩ | ⟨-, t, he⟩ | ⟨-, c', he, -⟩ | ⟨-, op, he⟩ <;>
        rw [he] at hc <;> cases hc
  | ok c =>
    rw [hc] at hrun
    have hfinish : s.finish root c = .error (.error (.resultMismatch a b)) := hrun
    obtain ⟨hne, hd, hfaithful, hcode⟩ := faithful_of_compile h hb hc
    rcases finish_cases h hb hne hd hfaithful hcode (hhost.answers _) with
      ⟨-, x, -, he⟩ | ⟨n, m, he, -⟩ | ⟨f, -, hrefused, he⟩
    · rw [he] at hfinish
      cases hfinish
    · rw [he] at hfinish
      cases hfinish
    · exact hrefused.ne_resultMismatch a b (Except.error.inj (he.symm.trans hfinish))

/-- A run never finds the results to differ. -/
theorem run_ne_resultMismatch {source : String} (hhost : s.host.Honest)
    (h : ∀ root s', s.parse source = (.ok root, s') → ∃ es ns,
      s'.forest.HoldsAll root es ∧ s'.bindings = asValues ns) (a b : Int32) :
    (s.run source).1 ≠ .error (.error (.resultMismatch a b)) := by
  have hreads := s.reads_parse source
  rw [run]
  cases hparse : s.parse source with
  | mk result s' =>
    cases result with
    | ok root =>
      obtain ⟨es, ns, hholds, hns⟩ := h root s' hparse
      have hkept := s.host_parse source
      rw [hparse] at hkept
      have hhost' : s'.host.Honest := by
        rw [hkept]
        exact hhost
      exact runNode_ne_resultMismatch hholds hns hhost' a b
    | error f =>
      rw [hparse] at hreads
      intro hmismatch
      obtain rfl : f = .error (.resultMismatch a b) := Except.error.inj hmismatch
      rcases hreads with ⟨e, he, hstage⟩ | ⟨-, x, hx⟩
      · obtain rfl := Failure.error.inj he
        simp [Error.stage] at hstage
      · cases hx

end Session

/-- Machine code of a program with integers as initial values returns the value of the program, from any
state of the processor, and no run on an honest host finds the results to differ. -/
theorem code_returns_value (options : Options) (host : Native.Host) (bindings : List (String × Int32))
    (source : String) :
    let start := (Session.new options host).bindAll (bindings.map fun b => (b.1, .integer b.2))
    (∀ root s v compiled, start.parse source = (.ok root, s) → s.interpret root = .ok (.integer v) →
      s.compile root = .ok compiled → ∀ u : Machine.State, ∃ t left,
        u.Reaches compiled.code.bytes t left ∧ Machine.decode left = some (.nullary .ret, []) ∧
        u.run? compiled.code.bytes = some t ∧ t.result = v) ∧
    (host.Honest → ∀ a b, (start.run source).1 ≠ .error (.error (.resultMismatch a b))) := by
  intro start
  have hall : ∀ root s, start.parse source = (.ok root, s) → ∃ es ns,
      s.forest.HoldsAll root es ∧ s.bindings = asValues ns := by
    intro root s hparse
    obtain ⟨es, hall, -, -, hnamed⟩ := Session.parse_new hparse
    obtain ⟨ns, hns⟩ := hnamed.integers
    exact ⟨es, ns, hall, hns⟩
  have hstart : start.host = host := Session.host_bindAll _ _
  refine ⟨fun root s v compiled hparse hv hcompile u => ?_,
    fun hhost => Session.run_ne_resultMismatch (hstart ▸ hhost) hall⟩
  obtain ⟨es, ns, hholds, hns⟩ := hall root s hparse
  obtain ⟨hne, -, hfaithful, hcode⟩ := Session.faithful_of_compile hholds hns hcompile
  obtain ⟨n, hn, hvalue⟩ := Session.run?_program hholds hns hne hv
  obtain rfl : v = n := Value.integer.inj hn
  obtain ⟨t, left, hreaches, hret, hrun, hresult⟩ := hfaithful.runs u
  exact ⟨t, left, hreaches, hret, hrun, hresult v (hcode ▸ hvalue)⟩

/-- The later of two values of a name counts, and it can be assigned to. -/
theorem code_returns_value_rebound : ∃ s compiled,
    ((Session.new {}).bindAll [("x", .integer 7), ("x", .integer 9)]).parse "x = x * 3; x - 2" =
      (.ok ⟨8⟩, s) ∧
    s.interpret ⟨8⟩ = .ok (.integer 25) ∧ s.compile ⟨8⟩ = .ok compiled ∧
    (∀ u : Machine.State, ∃ t, u.run? compiled.code.bytes = some t ∧ t.result = 25) ∧
    ∀ a b, (((Session.new {}).bindAll [("x", .integer 7), ("x", .integer 9)]).run "x = x * 3; x - 2").1 ≠
      .error (.error (.resultMismatch a b)) := by
  set start := (Session.new {}).bindAll [("x", .integer 7), ("x", .integer 9)]
  have hparse : start.parse "x = x * 3; x - 2" = (.ok ⟨8⟩, (start.parse "x = x * 3; x - 2").2) :=
    Prod.ext (by decide +kernel) rfl
  have hvalue : (start.parse "x = x * 3; x - 2").2.interpret ⟨8⟩ = .ok (.integer 25) := by decide +kernel
  obtain ⟨c, hc⟩ : ∃ c, (start.parse "x = x * 3; x - 2").2.compile ⟨8⟩ = .ok c := by
    have hok : ((start.parse "x = x * 3; x - 2").2.compile ⟨8⟩).isOk = true := by decide +kernel
    cases hc : (start.parse "x = x * 3; x - 2").2.compile ⟨8⟩ with
    | ok c => exact ⟨c, rfl⟩
    | error f =>
      rw [hc] at hok
      cases hok
  obtain ⟨hreturns, hagrees⟩ := code_returns_value {} .system [("x", 7), ("x", 9)] "x = x * 3; x - 2"
  refine ⟨_, c, hparse, hvalue, hc, fun u => ?_, hagrees Native.Host.honest_system⟩
  obtain ⟨t, -, -, -, hrun, hresult⟩ := hreturns _ _ _ _ hparse hvalue hc u
  exact ⟨t, hrun, hresult⟩

end ArithJit
