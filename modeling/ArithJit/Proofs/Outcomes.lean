import ArithJit.Proofs.EndToEnd

/-!
# Proofs: what a run comes to

A run of a program in a new session comes to the first of seven outcomes that applies, and to nothing else:
the text is not a program, an initial value is not an integer, there is no expression, there is a division,
registers run out, a name has no value, or there is a report. Faults of the compiler other than the lack of
registers do not occur. The host is any one that grants requests for memory, in any state.
-/

namespace ArithJit

/-! ## Divisions in a tree -/

namespace Forest

variable {f : Forest} {id root : NodeId} {e : Expr} {es : List Expr}

/-- A division occurs at a node or somewhere below it. -/
inductive Divides (f : Forest) : NodeId → Prop where
  | here {id left right : NodeId} (node : f.get? id = some (.binary left (.arithmetic .div) right)) :
      Divides f id
  | under {id child : NodeId} {parent : Node} (node : f.get? id = some parent)
      (mem : child ∈ parent.children) (divides : Divides f child) : Divides f id

theorem divides_iff {node : Node} (h : f.get? id = some node) :
    f.Divides id ↔ (∃ left right, node = .binary left (.arithmetic .div) right) ∨
      ∃ child ∈ node.children, f.Divides child := by
  constructor
  · rintro (⟨node'⟩ | ⟨node', mem, hd⟩)
    · exact Or.inl ⟨_, _, Option.some.inj (h.symm.trans node')⟩
    · obtain rfl := Option.some.inj (h.symm.trans node')
      exact Or.inr ⟨_, mem, hd⟩
  · rintro (⟨left, right, rfl⟩ | ⟨child, mem, hd⟩)
    · exact .here h
    · exact .under h mem hd

/-- A division occurs below the node of an expression if the expression has one. -/
theorem Holds.divides_iff (h : f.Holds id e) : f.Divides id ↔ e.divides = true := by
  induction h with
  | literal node =>
    rw [Forest.divides_iff node]
    simp [Node.children, Expr.divides]
  | name node =>
    rw [Forest.divides_iff node]
    simp [Node.children, Expr.divides]
  | @assign id left right x value node target below source ih =>
    have htarget : ¬ f.Divides left := by
      rw [Forest.divides_iff target]
      simp [Node.children]
    rw [Forest.divides_iff node, Expr.divides, ← ih]
    simp [Node.children, htarget]
  | @arithmetic id left right op l r node _ _ _ _ ihl ihr =>
    rw [Forest.divides_iff node]
    simp [Node.children, Expr.divides, ihl, ihr, or_assoc]

theorem HoldsAll.divides_iff (h : f.HoldsAll root es) : f.Divides root ↔ es.any Expr.divides = true := by
  obtain ⟨children, hroot, hall⟩ := h
  rw [Forest.divides_iff hroot]
  simp only [reduceCtorEq, exists_false, false_or, Node.children]
  clear hroot
  induction hall with
  | nil => simp
  | cons hd _ ih => simp [hd.divides_iff, ih]

theorem HoldsAll.eq_nil_iff (h : f.HoldsAll root es) : f.get? root = some (.block []) ↔ es = [] := by
  obtain ⟨children, hroot, hall⟩ := h
  rw [hroot]
  cases hall with
  | nil => simp
  | cons => simp

end Forest

/-! ## Outcomes -/

section Outcome

variable (host : Native.Host) (options : Options) (bindings : List (String × Value)) (source : String)

/-- A program was read, and all initial values are integers. -/
structure Accepted (root : NodeId) (s : Session) : Prop where
  read : ((Session.new options host).bindAll bindings).parse source = (.ok root, s)
  integers : bindings.find? (fun b => b.2.asInteger?.isNone) = none

/-- There is something to compile, and no division in it. -/
structure Compilable (root : NodeId) (s : Session) : Prop extends
    Accepted host options bindings source root s where
  nonempty : s.forest.get? root ≠ some (.block [])
  undivided : ¬ s.forest.Divides root

/-- What a run may come to, in the order of precedence. -/
inductive Outcome : Except Failure Report → Prop where
  /-- The text is not a program. -/
  | rejected {e : Error} {s : Session}
      (read : ((Session.new options host).bindAll bindings).parse source = (.error (.error e), s))
      (stage : e.stage = .lexing ∨ e.stage = .parsing) : Outcome (.error (.error e))
  /-- The first initial value that is not an integer. -/
  | nonIntegerBinding {root : NodeId} {s : Session} {name : String} {value : Value}
      (read : ((Session.new options host).bindAll bindings).parse source = (.ok root, s))
      (first : bindings.find? (fun b => b.2.asInteger?.isNone) = some (name, value)) :
      Outcome (.error (.error (.nonIntegerBinding name)))
  /-- A program without expressions. -/
  | emptyProgram {root : NodeId} {s : Session} (accepted : Accepted host options bindings source root s)
      (empty : s.forest.get? root = some (.block [])) : Outcome (.error (.error .emptyProgram))
  /-- A division somewhere in the program. -/
  | division {root : NodeId} {s : Session} (accepted : Accepted host options bindings source root s)
      (divides : s.forest.Divides root) : Outcome (.error (.error (.unsupportedOperation "/")))
  /-- More values at a time than there are registers. -/
  | outOfRegisters {root : NodeId} {s : Session} {t : Temp}
      (compilable : Compilable host options bindings source root s)
      (compile : s.compile root = .error (.fault (.outOfRegisters t 6))) :
      Outcome (.error (.fault (.outOfRegisters t 6)))
  /-- A name without a value, if the program is evaluated. -/
  | undefinedVariable {root : NodeId} {s : Session} {compiled : Compiled} {name : String}
      (compilable : Compilable host options bindings source root s) (compile : s.compile root = .ok compiled)
      (check : options.crossCheck = true)
      (undefined : s.interpret root = .error (.error (.undefinedVariable name))) :
      Outcome (.error (.error (.undefinedVariable name)))
  /-- A report, with the results that were asked for. -/
  | success {root : NodeId} {s : Session} {compiled : Compiled} {value : Value} {result : Int32}
      (compilable : Compilable host options bindings source root s) (compile : s.compile root = .ok compiled)
      (interpreted : options.crossCheck = true → s.interpret root = .ok value)
      (executed : options.execute = true → host.execute compiled.code.bytes = .ok result) :
      Outcome (.ok ⟨compiled, if options.crossCheck then some value else none,
        if options.execute then some result else none⟩)

end Outcome

section Run

variable {host : Native.Host} {options : Options} {bindings : List (String × Value)} {source : String}
  {root : NodeId} {s : Session} {r r' : Except Failure Report}

/-- An accepted program, with the numbers of its names and of its tokens. -/
theorem Accepted.program (h : Accepted host options bindings source root s) : ∃ es ns,
    s.forest.HoldsAll root es ∧ s.bindings = asValues ns ∧ s.options = options ∧
      ns.length + Expr.sizeAll es ≤ source.length + bindings.length := by
  obtain ⟨es, hall, hsize, hoptions, hnamed⟩ := Session.parse_new h.read
  have hfind := hnamed.find?
  rw [h.integers] at hfind
  obtain ⟨ns, hns, hlen⟩ := hfind
  exact ⟨es, ns, hall, hns, hoptions, by omega⟩

/-- Compiling an accepted program fails for a division or for a lack of registers only. -/
theorem Accepted.compile_cases (h : Accepted host options bindings source root s)
    (hsize : 4 * (source.length + bindings.length) + 15 < Machine.stackLimit)
    (hne : s.forest.get? root ≠ some (.block [])) :
    (s.forest.Divides root ∧ s.compile root = .error (.error (.unsupportedOperation "/"))) ∨
    (¬ s.forest.Divides root ∧ ∃ t, s.compile root = .error (.fault (.outOfRegisters t 6))) ∨
    (¬ s.forest.Divides root ∧ ∃ c, s.compile root = .ok c) := by
  obtain ⟨es, ns, hall, hns, -, hlen⟩ := h.program
  rw [ne_eq, hall.eq_nil_iff] at hne
  rw [hall.divides_iff, Bool.not_eq_true]
  rcases Session.compile_cases hall hns hne with hdiv | hout | ⟨hno, c, hc, -⟩ | ⟨hlimit, -⟩
  · exact Or.inl hdiv
  · exact Or.inr (Or.inl hout)
  · exact Or.inr (Or.inr ⟨hno, c, hc⟩)
  · omega

/-- Running a compiled program fails for a name without a value only. -/
theorem Accepted.finish_cases {c : Compiled} (h : Accepted host options bindings source root s)
    (hhost : host.Grants) (hsize : 4 * (source.length + bindings.length) + 15 < Machine.stackLimit)
    (hc : s.compile root = .ok c) :
    (options.crossCheck = true ∧ ∃ x, s.interpret root = .error (.error (.undefinedVariable x)) ∧
      s.finish root c = .error (.error (.undefinedVariable x))) ∨
    ∃ n m, s.finish root c = .ok ⟨c, if options.crossCheck then some (.integer n) else none,
        if options.execute then some m else none⟩ ∧
      (options.crossCheck = true → s.interpret root = .ok (.integer n)) ∧
      (options.execute = true → host.execute c.code.bytes = .ok m) := by
  obtain ⟨es, ns, hall, hns, rfl, hlen⟩ := h.program
  obtain ⟨hne, hno, hfaithful, hcode⟩ := Session.faithful_of_compile hall hns hc
  -- a program of this size has less code than there are addresses
  have hlimit : c.code.bytes.length + Native.Region.pageSize < Native.Region.addressLimit := by
    have hbytes := hfaithful.length
    have hprogram := Session.program_length ns es
    rw [hcode, Machine.withReturn, List.length_append, List.length_singleton] at hbytes
    rw [Native.Region.addressLimit, Native.Region.pageSize]
    rw [Machine.stackLimit] at hsize
    omega
  obtain rfl := Session.host_new h.read
  have hload := hhost.load_eq hfaithful.nonempty hlimit
  rcases Session.finish_cases hall hns hne hno hfaithful hcode (Or.inl hload) with
    hundefined | hok | ⟨f, hrefused, -⟩
  · exact Or.inl hundefined
  · exact Or.inr hok
  · obtain ⟨size, hsize⟩ := hload
    cases hsize.symm.trans hrefused

theorem run_of_read (h : ((Session.new options host).bindAll bindings).parse source = (.ok root, s)) :
    (((Session.new options host).bindAll bindings).run source).1 = s.compile root >>= s.finish root := by
  rw [Session.run, h]
  rfl

/-- An outcome that applies is what the run comes to. -/
theorem Outcome.run_eq (hhost : host.Grants)
    (hsize : 4 * (source.length + bindings.length) + 15 < Machine.stackLimit)
    (h : Outcome host options bindings source r) :
    (((Session.new options host).bindAll bindings).run source).1 = r := by
  cases h with
  | rejected read stage => rw [Session.run, read]
  | @nonIntegerBinding root s name value read first =>
    obtain ⟨es, -, -, -, hnamed⟩ := Session.parse_new read
    have hfind := hnamed.find?
    rw [first] at hfind
    obtain ⟨ns, x, rest, hb, hvalue, rfl⟩ := hfind
    rw [run_of_read read, Session.compile_nonIntegerBinding hb hvalue]
    rfl
  | emptyProgram accepted empty =>
    obtain ⟨es, ns, hall, hns, -, -⟩ := accepted.program
    obtain rfl := hall.eq_nil_iff.mp empty
    rw [run_of_read accepted.read, Session.compile_nil hall hns]
    rfl
  | @division root s accepted divides =>
    have hne : s.forest.get? root ≠ some (.block []) := by
      intro hempty
      obtain ⟨es, ns, hall, -⟩ := accepted.program
      obtain rfl := hall.eq_nil_iff.mp hempty
      cases hall.divides_iff.mp divides
    rw [run_of_read accepted.read]
    rcases accepted.compile_cases hsize hne with ⟨-, hc⟩ | ⟨hno, -⟩ | ⟨hno, -⟩
    · rw [hc]
      rfl
    · exact absurd divides hno
    · exact absurd divides hno
  | outOfRegisters compilable compile =>
    rw [run_of_read compilable.read, compile]
    rfl
  | undefinedVariable compilable compile check undefined =>
    rw [run_of_read compilable.read, compile]
    rcases compilable.toAccepted.finish_cases hhost hsize compile with ⟨-, x, hx, hfinish⟩ | ⟨n, m, -, hn, -⟩
    · rw [hx] at undefined
      cases undefined
      exact hfinish
    · rw [hn check] at undefined
      cases undefined
  | @success root s compiled value result compilable compile interpreted executed =>
    rw [run_of_read compilable.read, compile]
    rcases compilable.toAccepted.finish_cases hhost hsize compile with
      ⟨hcheck, x, hx, -⟩ | ⟨n, m, hfinish, hn, hm⟩
    · rw [interpreted hcheck] at hx
      cases hx
    · rw [Session.asked_unique interpreted hn, Session.asked_unique executed hm]
      exact hfinish

/-- Some outcome applies. -/
theorem exists_outcome (hhost : host.Grants) (options : Options)
    (hsize : 4 * (source.length + bindings.length) + 15 < Machine.stackLimit) :
    ∃ r, Outcome host options bindings source r := by
  have hreads := ((Session.new options host).bindAll bindings).reads_parse source
  cases hparse : ((Session.new options host).bindAll bindings).parse source with
  | mk result s =>
    rw [hparse] at hreads
    cases result with
    | error f =>
      rcases hreads with ⟨e, rfl, hstage⟩ | ⟨hlong, -⟩
      · exact ⟨_, .rejected hparse hstage⟩
      · rw [wordCount] at hlong
        rw [Machine.stackLimit] at hsize
        omega
    | ok root =>
      cases hfind : bindings.find? (fun b => b.2.asInteger?.isNone) with
      | some b => exact ⟨_, .nonIntegerBinding hparse hfind⟩
      | none =>
        have haccepted : Accepted host options bindings source root s := ⟨hparse, hfind⟩
        by_cases hempty : s.forest.get? root = some (.block [])
        · exact ⟨_, .emptyProgram haccepted hempty⟩
        · rcases haccepted.compile_cases hsize hempty with ⟨hdiv, -⟩ | ⟨hno, t, hc⟩ | ⟨hno, c, hc⟩
          · exact ⟨_, .division haccepted hdiv⟩
          · exact ⟨_, .outOfRegisters ⟨haccepted, hempty, hno⟩ hc⟩
          · rcases haccepted.finish_cases hhost hsize hc with ⟨hcheck, x, hx, -⟩ | ⟨n, m, -, hn, hm⟩
            · exact ⟨_, .undefinedVariable ⟨haccepted, hempty, hno⟩ hc hcheck hx⟩
            · exact ⟨_, .success ⟨haccepted, hempty, hno⟩ hc hn hm⟩

/-- A run comes to the outcome that applies, and to nothing else. -/
theorem run_eq_iff_outcome (host : Native.Host) (hhost : host.Grants) (options : Options)
    (bindings : List (String × Value)) (source : String)
    (hsize : 4 * (source.length + bindings.length) + 15 < Machine.stackLimit) (r : Except Failure Report) :
    (((Session.new options host).bindAll bindings).run source).1 = r ↔
      Outcome host options bindings source r := by
  refine ⟨?_, Outcome.run_eq hhost hsize⟩
  rintro rfl
  obtain ⟨r, hr⟩ := exists_outcome hhost options hsize
  rw [hr.run_eq hhost hsize]
  exact hr

/-- A division goes before a name without a value, and so does a lack of registers. -/
theorem run_eq_iff_outcome_each :
    4 * ("a + (b + (c + (d + (e + f))))".length + [("x", Value.integer 4)].length) + 15 < Machine.stackLimit ∧
    Outcome .system {} [("x", .integer 4)] "(y + 1) * (x / 2)" (.error (.error (.unsupportedOperation "/"))) ∧
    Outcome .system {} [] "a + (b + (c + (d + (e + f))))" (.error (.fault (.outOfRegisters ⟨12⟩ 6))) ∧
    Outcome .system {} [("x", .integer 4)] "x = x - w" (.error (.error (.undefinedVariable "w"))) ∧
    ∃ compiled, Outcome .system {} [("x", .integer 4)] "y = x * 3; y - 2"
      (.ok ⟨compiled, some (.integer 10), some 10⟩) := by
  have houtcome := run_eq_iff_outcome .system Native.Host.grants_system {}
  refine ⟨by decide, (houtcome _ _ (by decide) _).mp (by decide +kernel),
    (houtcome _ _ (by decide) _).mp (by decide +kernel),
    (houtcome _ _ (by decide) _).mp (by decide +kernel), ?_⟩
  have hresults : (((Session.new {}).bindAll [("x", .integer 4)]).run "y = x * 3; y - 2").1.toOption.map
      (fun r => (r.interpreted, r.executed)) = some (some (.integer 10), some 10) := by decide +kernel
  cases hrun : (((Session.new {}).bindAll [("x", .integer 4)]).run "y = x * 3; y - 2").1 with
  | error f =>
    rw [hrun] at hresults
    cases hresults
  | ok report =>
    rw [hrun] at hresults
    obtain ⟨compiled, interpreted, executed⟩ := report
    cases hresults
    exact ⟨compiled, (houtcome _ _ (by decide) _).mp hrun⟩

end Run

end ArithJit
