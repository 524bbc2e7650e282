import ArithJit.Proofs.Programs

/-!
# Proofs: compiling, from bytecode to bytes

What becomes of the bytecode of a program. Compiling it succeeds, or it fails because an operation has no
machine code, because registers run out, or because the frame is too large. If it succeeds, then the
machine code runs from any state to its last instruction, which is its only return, and leaves in the
accumulator the value that the bytecode returns.
-/

namespace ArithJit

open Assoc (find?)
open Bytecode (Builder)

namespace Machine

variable {b : Builder} {s : Selector} {o : Bytecode.Operand}

/-- The bytecode so far, followed by a return. -/
def withReturn (b : Builder) (o : Bytecode.Operand) : List Bytecode.Instruction :=
  b.instructions ++ [⟨.ret, .none, o, .none⟩]

/-- A return of an operand of the code so far is accepted. -/
theorem Selected.steps_withReturn (h : Selected b s) (ho : b.Known o) :
    ∃ p form, IsSource s.code.toList p ∧ Form.ofOperands? (.fixed .rax) p = some form ∧
      Selector.steps (withReturn b o) .empty =
        .ok () (s.append [⟨.mov, .fixed .rax, p, form⟩, .nullary .ret]) := by
  obtain ⟨p, hp, hsource, -⟩ := h.source ho
  obtain ⟨form, hform⟩ : ∃ form, Form.ofOperands? (.fixed .rax) p = some form := by
    cases hsource <;> exact ⟨_, rfl⟩
  have hpresent : o ≠ .none := by cases ho <;> simp
  refine ⟨p, form, hsource, hform, ?_⟩
  rw [withReturn, steps_append_singleton, bind_eq_ok]
  exact ⟨(), s, h.steps, Selector.step_of_emits (.result rfl hpresent hp hform)⟩

/-- What the selected code leaves in the accumulator is what the bytecode returns. -/
theorem Selected.exec?_returns {p : Operand} {form : Form} {v : Virtual} {n : Int32} (u : State)
    (h : Selected b s)
    (hsteps : Selector.steps (withReturn b o) .empty =
      .ok () (s.append [⟨.mov, .fixed .rax, p, form⟩, .nullary .ret]))
    (hv : Virtual.exec? (withResult s.code.toList p form ++ [.nullary .ret]) ⟨fun _ => 0, u⟩ = some v)
    (hn : ∀ s₀, ∃ s', Bytecode.State.run? (withReturn b o) s₀ = some (s', some n)) :
    Low n (v.state.get .rax) := by
  have hselectable : ∀ i ∈ withReturn b o, Selectable i := by
    intro i hi
    rcases List.mem_append.mp hi with hi | hi
    · exact (h.selectable i hi).1
    · obtain rfl := List.mem_singleton.mp hi
      exact ⟨by simp, by simp⟩
  obtain ⟨-, -, out, hout, hsim⟩ := Selector.steps_simulates hsteps Selector.laid_empty hselectable
  have hcode : out = withResult s.code.toList p form ++ [.nullary .ret] := by
    simpa [Selector.append, Selector.empty, withResult] using hout.symm
  -- whatever the registers and the stack hold stands for some contents to run the bytecode from
  obtain ⟨s₀, hs₀⟩ := exists_represents
    (s.append [⟨.mov, .fixed .rax, p, form⟩, .nullary .ret]).slots ⟨fun _ => 0, u⟩
  obtain ⟨s', hs'⟩ := hn s₀
  have hrel := hsim s₀ _ hs₀
  rw [hcode, hs', hv] at hrel
  cases hrel with
  | some hres => exact hres.2 n rfl

/-- The size of a frame is a number, if the reserved bytes leave room for rounding up. -/
theorem Selector.frameSize_cases (s : Selector) :
    (stackLimit ≤ s.reserved + 15 ∧ ∃ op, s.frameSize = .error (.overflow op)) ∨
    ∃ size, s.frameSize = .ok size := by
  rw [Selector.frameSize]
  split
  · exact Or.inl ⟨by omega, _, rfl⟩
  · split
    · next h => exact Or.inl ⟨h, _, rfl⟩
    · exact Or.inr ⟨_, rfl⟩

/-- The function `f` is called from any state and returns at its end, with the integer `n` if the bytecode
returns `n` from all contents. -/
structure Function.Runs (f : Function) (bytecode : List Bytecode.Instruction) (body : List Instruction) :
    Prop where
  code : f.code = body ++ [.nullary .ret]
  encodable : ∀ i ∈ body, i.opcode ≠ .ret ∧ i.Encodable
  length : body.length ≤ 2 * bytecode.length + 22
  exec : ∀ u : State, ∃ t, State.exec? body u = some t ∧
    ∀ n, (∀ s₀, ∃ s', Bytecode.State.run? bytecode s₀ = some (s', some n)) → t.result = n

/-- What becomes of the bytecode of a program that has machine code. -/
theorem Selected.ofBytecode (h : Selected b s) (ho : b.Known o) :
    (∃ f body, Function.ofBytecode (withReturn b o) = .ok f ∧ f.Runs (withReturn b o) body) ∨
    (∃ t, Function.ofBytecode (withReturn b o) = .error (.fault (.outOfRegisters t 6))) ∨
    (stackLimit ≤ 4 * b.locals.length + 15 ∧
      ∃ op, Function.ofBytecode (withReturn b o) = .error (.fault (.overflow op))) := by
  obtain ⟨p, form, hsource, hform, hsteps⟩ := h.steps_withReturn ho
  set sel := s.append [⟨.mov, .fixed .rax, p, form⟩, .nullary .ret] with hsel
  have hselect : select (withReturn b o) = .ok sel := by
    rw [select, EStateM.run, hsteps]
  have hcode : sel.code.toList = withResult s.code.toList p form ++ [.nullary .ret] := by
    simp [hsel, Selector.append, withResult]
  have hfunction : Function.ofBytecode (withReturn b o) = Failure.ofFault sel.toFunction := by
    simp [Function.ofBytecode, hselect, bind, Except.bind]
  rw [hfunction, Selector.toFunction, hcode]
  rcases sel.frameSize_cases with ⟨hlimit, op, hsize⟩ | ⟨size, hsize⟩
  · rw [hsize]
    exact Or.inr (Or.inr ⟨h.reserved ▸ hlimit, op, rfl⟩)
  · rw [hsize]
    cases halloc : Allocator.fresh.allocate (withResult s.code.toList p form ++ [.nullary .ret]) with
    | error f =>
      obtain ⟨t, rfl⟩ := Allocator.allocateFrom_outOfRegisters (h.ready.allocable hsource form)
        (List.nil_append _).symm Allocator.balanced_fresh (fun t ht => by simp at ht) halloc
      exact Or.inr (Or.inl ⟨t, rfl⟩)
    | ok x =>
      obtain ⟨out, a, n⟩ := x
      obtain ⟨body, hbody, hall, hlen, hexec⟩ :=
        h.ready.function hsource hform halloc (Int32.ofNat size)
      refine Or.inl ⟨_, body, rfl, hbody, hall, ?_, fun u => ?_⟩
      · have := h.length
        rw [withReturn, List.length_append, List.length_singleton]
        omega
      · obtain ⟨w, v, t, hv, ht, hrax⟩ := hexec u
        refine ⟨t, ht, fun n hn => ?_⟩
        have hlow := h.exec?_returns w hsteps hv hn
        rw [State.result, hrax, hlow]
        rfl

/-- The bytes of code that runs lead from any state to its return, which is all that is left then. -/
theorem Function.Runs.encode {f : Function} {bytecode : List Bytecode.Instruction}
    {body : List Instruction} (h : f.Runs bytecode body) :
    ∃ c, f.encode = .ok c ∧ c.bytes ≠ [] ∧ c.bytes.length ≤ 12 * (2 * bytecode.length + 23) ∧
      ∀ u : State, ∃ t left, u.Reaches c.bytes t left ∧ decode left = some (.nullary .ret, []) ∧
        u.run? c.bytes = some t ∧
        ∀ n, (∀ s₀, ∃ s', Bytecode.State.run? bytecode s₀ = some (s', some n)) → t.result = n := by
  have hall : ∀ i ∈ body ++ [.nullary .ret], i.Encodable := by
    intro i hi
    rcases List.mem_append.mp hi with hi | hi
    · exact (h.encodable i hi).2
    · rw [List.mem_singleton.mp hi]
      exact ⟨rfl, trivial, trivial, rfl⟩
  have hregular : ∀ i ∈ body ++ [.nullary .ret], i.Regular := fun i hi => (hall i hi).regular
  obtain ⟨bytes, hbytes, hlen⟩ := exists_encodeAll hall
  have hencode : f.encode = .ok ⟨bytes⟩ := by
    rw [Function.encode, Code.ofInstructions, h.code, hbytes]
    rfl
  refine ⟨⟨bytes⟩, hencode, ?_, ?_, fun u => ?_⟩
  · have hpos := length_le_of_encodeAll hregular hbytes
    intro hnil
    simp only at hnil
    simp [hnil] at hpos
  · have := h.length
    rw [List.length_append, List.length_singleton] at hlen
    exact Nat.le_trans hlen (by omega)
  · obtain ⟨t, ht, hresult⟩ := h.exec u
    obtain ⟨first, last, hfirst, hlast, rfl⟩ := encodeAll_append hbytes
    have hdecode : decode last = some (.nullary .ret, []) := by
      have hcode : encodeAll [.nullary .ret] = .ok [0xC3] := rfl
      obtain rfl : [0xC3] = last := Except.ok.inj (hcode.symm.trans hlast)
      rfl
    refine ⟨t, last, ?_, hdecode, ?_, hresult⟩
    · exact State.reaches_encodeAll (fun i hi => hregular i (by simp [hi]))
        (fun i hi => (h.encodable i hi).1) hfirst ht last
    · rw [State.run?_encodeAll hregular ⟨.nullary .ret, by simp, rfl⟩ hbytes,
        State.exec?_append fun i hi => (h.encodable i hi).1, ht]
      rfl

end Machine

end ArithJit
