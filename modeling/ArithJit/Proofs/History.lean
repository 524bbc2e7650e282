import ArithJit.Proofs.EndToEnd
import ArithJit.Proofs.ParsingTwice
import ArithJit.Proofs.Renaming

/-!
# Proofs: runs do not depend on the past of their session

Every program that is read in a session leaves nodes in its forest and names in its symbol table, also if
reading it fails, and every program that is called leaves values on the stack of the host. So the nodes and the
symbols of a program have other numbers in another session. Yet a run comes to the same result in two sessions
with the same options and the same initial values for names: the programs are the same trees
(`Session.parse_twice`), and the numbers of nodes and symbols show neither in the code nor in values nor in
errors (`Session.runNode_same`).

What the code returns is the value of the program, whatever is on the stack, if the program has a value. A
program that has none, since it reads a name before anything was assigned to it, returns what earlier programs
have left there.
-/

namespace ArithJit

open Bytecode (Builder)

namespace Session

variable {s s' : Session} {root root' : NodeId} {es es' : List Expr} {cs : List (String × Value)}

/-! ## Reading a program in two sessions -/

/-- Reading a program keeps the names and the nodes, also if it fails. -/
theorem parse_keeps (s : Session) (source : String) :
    (s.parse source).2.options = s.options ∧ (s.parse source).2.bindings = s.bindings ∧
    s.symbols.names <+: (s.parse source).2.symbols.names ∧ s.forest.Keeps (s.parse source).2.forest := by
  rw [parse]
  cases tokenize source with
  | error e => exact ⟨rfl, rfl, List.prefix_refl _, List.prefix_refl _⟩
  | ok tokens =>
    -- the parser is compared with itself
    have hpairs := Parser.pairs_program (p := .ofTokens tokens s.forest s.symbols) ⟨rfl, rfl⟩
    rw [Parser.Pairs] at hpairs
    simp only [EStateM.run]
    cases hrun : Parser.program (.ofTokens tokens s.forest s.symbols) with
    | ok root p =>
      rw [hrun] at hpairs
      exact ⟨rfl, rfl, hpairs.1.symbols, hpairs.1.forest⟩
    | error f p =>
      rw [hrun] at hpairs
      exact ⟨rfl, rfl, hpairs.2.1.symbols, hpairs.2.1.forest⟩

/-- Two sessions read the same trees from a text, or reject it for the same reason. -/
theorem parse_twice (s s' : Session) (source : String) :
    (∃ f, (s.parse source).1 = .error f ∧ (s'.parse source).1 = .error f) ∨
    ∃ root root' trees, (s.parse source).1 = .ok root ∧ (s'.parse source).1 = .ok root' ∧
      (s.parse source).2.forest.ShowsAll (s.parse source).2.symbols root trees ∧
      (s'.parse source).2.forest.ShowsAll (s'.parse source).2.symbols root' trees := by
  rw [parse, parse]
  cases tokenize source with
  | error e => exact Or.inl ⟨_, rfl, rfl⟩
  | ok tokens =>
    have hpairs : Parser.Pairs Parser.program Parser.program (.ofTokens tokens s.forest s.symbols)
        (.ofTokens tokens s'.forest s'.symbols) _ := Parser.pairs_program ⟨rfl, rfl⟩
    rw [Parser.Pairs] at hpairs
    simp only [EStateM.run]
    cases hrun : Parser.program (.ofTokens tokens s.forest s.symbols) with
    | ok root p =>
      cases hrun' : Parser.program (.ofTokens tokens s'.forest s'.symbols) with
      | ok root' p' =>
        rw [hrun, hrun'] at hpairs
        obtain ⟨-, -, -, trees, hshows, hshows'⟩ := hpairs
        exact Or.inr ⟨root, root', trees, rfl, rfl, hshows, hshows'⟩
      | error f p' =>
        rw [hrun, hrun'] at hpairs
        exact hpairs.elim
    | error f p =>
      cases hrun' : Parser.program (.ofTokens tokens s'.forest s'.symbols) with
      | ok root' p' =>
        rw [hrun, hrun'] at hpairs
        exact hpairs.elim
      | error f' p' =>
        rw [hrun, hrun'] at hpairs
        obtain ⟨rfl, -⟩ := hpairs
        exact Or.inl ⟨f, rfl, rfl⟩

/-! ## Running a program in two sessions -/

variable {host : Native.Host} {u u' : Machine.State} {c : Compiled}

/-- What can be asked of a session. -/
inductive Call where
  | bind (name : String) (value : Value)
  | parse (source : String)
  | run (source : String)
  | interpret (root : NodeId)
  | bytecode (root : NodeId)
  | compile (root : NodeId)

/-- The initial value that a call gives to a name. -/
def Call.binding? : Call → Option (String × Value)
  | bind name value => some (name, value)
  | _ => none

/-- The session after a call. Evaluating and compiling a node only look at it. -/
def perform (s : Session) : Call → Session
  | .bind name value => s.bind name value
  | .parse source => (s.parse source).2
  | .run source => (s.run source).2
  | .interpret _ | .bytecode _ | .compile _ => s

/-- The session after some calls, one after the other. -/
def performAll (s : Session) (calls : List Call) : Session :=
  calls.foldl perform s

/-- The session when the processor of its host is in a state. -/
def inState (s : Session) (u : Machine.State) : Session :=
  { s with host := s.host.inState u }

/-- A run reads its text, and may change the state of the host. -/
theorem exists_run_session (s : Session) (source : String) :
    ∃ u, (s.run source).2 = (s.parse source).2.inState u := by
  rw [run]
  cases hparse : s.parse source with
  | mk r t =>
    cases r with
    | error f => exact ⟨t.host.entry, rfl⟩
    | ok root =>
      dsimp only
      rw [afterRun]
      split
      · exact ⟨t.host.entry, rfl⟩
      · next compiled _ =>
        obtain ⟨u, hu⟩ := t.host.exists_after compiled.code.bytes
        split
        · exact ⟨u, by rw [inState, hu]⟩
        · exact ⟨t.host.entry, rfl⟩

/-- A call keeps the options and the initial values, to which it may add one. -/
theorem named_perform (hn : Named s.symbols s.bindings cs) (call : Call) :
    (s.perform call).options = s.options ∧
    Named (s.perform call).symbols (s.perform call).bindings (cs ++ call.binding?.toList) := by
  have hstay : Named s.symbols s.bindings (cs ++ []) := by
    rw [List.append_nil]
    exact hn
  have hread : ∀ source, (s.parse source).2.options = s.options ∧
      Named (s.parse source).2.symbols (s.parse source).2.bindings (cs ++ []) := by
    intro source
    obtain ⟨hoptions, hbindings, hnames, -⟩ := s.parse_keeps source
    exact ⟨hoptions, hbindings ▸ hstay.mono hnames⟩
  cases call with
  | bind name value =>
    have hnew := s.symbols.name?_intern name
    exact ⟨rfl, List.rel_append (hn.mono (s.symbols.names_intern name)) (.cons ⟨hnew, rfl⟩ .nil)⟩
  | parse source => exact hread source
  | run source =>
    obtain ⟨u, hu⟩ := s.exists_run_session source
    rw [perform, hu]
    exact hread source
  | interpret | bytecode | compile => exact ⟨rfl, hstay⟩

theorem named_performAll (hn : Named s.symbols s.bindings cs) (calls : List Call) :
    (s.performAll calls).options = s.options ∧
    Named (s.performAll calls).symbols (s.performAll calls).bindings (cs ++ calls.filterMap Call.binding?) := by
  induction calls generalizing s cs with
  | nil =>
    rw [List.filterMap_nil, List.append_nil]
    exact ⟨rfl, hn⟩
  | cons call calls ih =>
    obtain ⟨hoptions, hnamed⟩ := named_perform hn call
    obtain ⟨hoptions', hnamed'⟩ := ih hnamed
    have hcalls : cs ++ (call :: calls).filterMap Call.binding? =
        cs ++ call.binding?.toList ++ calls.filterMap Call.binding? := by
      cases hcall : call.binding? with
      | none => simp [hcall]
      | some b => simp [hcall]
    rw [hcalls]
    exact ⟨hoptions'.trans hoptions, hnamed'⟩

/-- The nodes and the names of `s` are the first ones of `s'`. -/
structure Grows (s s' : Session) : Prop where
  forest : s.forest.Keeps s'.forest
  symbols : s.symbols.names <+: s'.symbols.names

theorem Grows.refl (s : Session) : Grows s s :=
  ⟨List.prefix_refl _, List.prefix_refl _⟩

theorem Grows.trans {s'' : Session} (h : Grows s s') (h' : Grows s' s'') : Grows s s'' :=
  ⟨List.IsPrefix.trans h.forest h'.forest, h.symbols.trans h'.symbols⟩

theorem grows_parse (s : Session) (source : String) : Grows s (s.parse source).2 :=
  ⟨(s.parse_keeps source).2.2.2, (s.parse_keeps source).2.2.1⟩

theorem grows_perform (s : Session) (call : Call) : Grows s (s.perform call) := by
  cases call with
  | bind name value => exact ⟨List.prefix_refl _, s.symbols.names_intern name⟩
  | parse source => exact s.grows_parse source
  | run source =>
    obtain ⟨u, hu⟩ := s.exists_run_session source
    obtain ⟨hforest, hsymbols⟩ := s.grows_parse source
    rw [perform, hu]
    exact ⟨hforest, hsymbols⟩
  | interpret | bytecode | compile => exact .refl s

theorem grows_performAll (s : Session) (calls : List Call) : Grows s (s.performAll calls) := by
  induction calls generalizing s with
  | nil => exact .refl s
  | cons call calls ih => exact (s.grows_perform call).trans (ih (s.perform call))

end Session

end ArithJit
