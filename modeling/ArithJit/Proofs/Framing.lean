import ArithJit.Machine.Function
import ArithJit.Proofs.CodeRoundTrip
import ArithJit.Proofs.Stores

/-!
# Proofs: code in a frame

A frame changes no result. The prologue can be executed in any state; the epilogue can be executed after
any code and leaves the accumulator alone, since the accumulator is not among the registers that a
function restores.
-/

namespace ArithJit.Machine

variable {s t : State} {body : List Instruction} {size : Int32} {saved : List Register}
  {i : Instruction}

/-- Code whose instructions can be executed and keep a property is executed and keeps it. -/
theorem State.exists_exec? (code : List Instruction) {P : State → Prop}
    (h : ∀ i ∈ code, i.opcode ≠ .ret ∧ ∀ s, P s → ∃ t, s.step? i = some t ∧ P t) (hs : P s) :
    ∃ t, exec? code s = some t ∧ P t := by
  have hexecutes : ∀ i ∈ code, i.opcode ≠ .ret ∧ ∀ s, P s → True ∧ ∃ t, s.step? i = some t ∧ P t :=
    fun i hi => ⟨(h i hi).1, fun s hs => ⟨trivial, (h i hi).2 s hs⟩⟩
  obtain ⟨t, ht, hP⟩ := exists_executes (P := fun _ _ => True) hexecutes hs
  have hexec := ht.exec? []
  rw [List.append_nil] at hexec
  exact ⟨t, hexec, hP⟩

/-- The frame surrounds the code up to the first return. -/
theorem exists_insertFrame (size : Int32) (saved : List Register) (h : ∀ i ∈ body, i.opcode ≠ .ret)
    (hi : i.opcode = .ret) (more : List Instruction) :
    ∃ rest, insertFrame (body ++ i :: more) size saved =
      (prologue size saved ++ (body ++ epilogue saved)) ++ i :: rest ∧ (more = [] → rest = []) := by
  have hbody : (body.flatMap fun i => if i.opcode = .ret then epilogue saved ++ [i] else [i]) = body := by
    induction body with
    | nil => rfl
    | cons i body ih =>
      rw [List.flatMap_cons, ih fun j hj => h j (by simp [hj]), if_neg (h i (by simp))]
      rfl
  refine ⟨more.flatMap fun i => if i.opcode = .ret then epilogue saved ++ [i] else [i], ?_, ?_⟩
  · simp [insertFrame, List.flatMap_append, hbody, hi]
  · rintro rfl
    rfl

/-- In code that returns once, at its end, the frame surrounds the rest. -/
theorem insertFrame_append_ret (h : ∀ i ∈ body, i.opcode ≠ .ret) :
    insertFrame (body ++ [.nullary .ret]) size saved =
      (prologue size saved ++ (body ++ epilogue saved)) ++ [.nullary .ret] := by
  have hret : (Instruction.nullary .ret).opcode = .ret := rfl
  obtain ⟨rest, hframe, hrest⟩ := exists_insertFrame size saved h hret []
  rw [hframe, hrest rfl]

/-- Code in a frame consists of the code and of the parts of the frame. -/
theorem mem_insertFrame (h : i ∈ insertFrame body size saved) :
    i ∈ prologue size saved ∨ i ∈ epilogue saved ∨ i ∈ body := by
  rw [insertFrame, List.mem_append, List.mem_flatMap] at h
  rcases h with h | ⟨j, hj, h⟩
  · exact Or.inl h
  · split at h
    · rcases List.mem_append.mp h with h | h
      · exact Or.inr (Or.inl h)
      · exact Or.inr (Or.inr (List.mem_singleton.mp h ▸ hj))
    · exact Or.inr (Or.inr (List.mem_singleton.mp h ▸ hj))

theorem mem_prologue (h : i ∈ prologue size saved) :
    (∃ r, i = .unary .push r) ∨ i = ⟨.mov, .fixed .rbp, .fixed .rsp, .rr⟩ ∨
      i = ⟨.sub, .fixed .rsp, .imm size, .ri⟩ := by
  simp only [prologue, List.mem_append, List.mem_map, List.mem_cons, List.not_mem_nil, or_false] at h
  rcases h with (⟨r, -, rfl⟩ | rfl | rfl) | h
  · exact Or.inl ⟨r, rfl⟩
  · exact Or.inl ⟨.rbp, rfl⟩
  · exact Or.inr (Or.inl rfl)
  · split at h
    · exact Or.inr (Or.inr (List.mem_singleton.mp h))
    · simp at h

theorem mem_epilogue (h : i ∈ epilogue saved) :
    i = ⟨.mov, .fixed .rsp, .fixed .rbp, .rr⟩ ∨ i = .unary .pop .rbp ∨
      ∃ r ∈ saved, i = .unary .pop r := by
  simp only [epilogue, List.mem_append, List.mem_map, List.mem_reverse, List.mem_cons, List.not_mem_nil,
    or_false] at h
  rcases h with (rfl | rfl) | ⟨r, hr, rfl⟩
  · exact Or.inl rfl
  · exact Or.inr (Or.inl rfl)
  · exact Or.inr (Or.inr ⟨r, hr, rfl⟩)

theorem prologue_not_ret (h : i ∈ prologue size saved) : i.opcode ≠ .ret := by
  rcases mem_prologue h with ⟨r, rfl⟩ | rfl | rfl <;> exact Opcode.noConfusion

theorem epilogue_not_ret (h : i ∈ epilogue saved) : i.opcode ≠ .ret := by
  rcases mem_epilogue h with rfl | rfl | ⟨r, -, rfl⟩ <;> exact Opcode.noConfusion

/-- The prologue can be executed in any state. -/
theorem exec?_prologue (size : Int32) (saved : List Register) (s : State) :
    ∃ t, State.exec? (prologue size saved) s = some t := by
  obtain ⟨t, ht, -⟩ := State.exists_exec? (prologue size saved) (P := fun _ => True) (s := s)
    (fun i hi => ⟨prologue_not_ret hi, fun s _ => by
      rcases mem_prologue hi with ⟨r, rfl⟩ | rfl | rfl <;> exact ⟨_, rfl, trivial⟩⟩) trivial
  exact ⟨t, ht⟩

/-- The epilogue can be executed in any state, and keeps the accumulator if it does not restore it. -/
theorem exec?_epilogue (hsaved : .rax ∉ saved) (s : State) :
    ∃ t, State.exec? (epilogue saved) s = some t ∧ t.get .rax = s.get .rax := by
  refine State.exists_exec? (epilogue saved) (P := fun t => t.get .rax = s.get .rax)
    (fun i hi => ⟨epilogue_not_ret hi, fun u hu => ?_⟩) rfl
  -- a pop writes its register and the stack pointer
  have hpop : ∀ r, r ≠ .rax → ∃ t, u.step? (.unary .pop r) = some t ∧ t.get .rax = s.get .rax := by
    intro r hr
    refine ⟨_, rfl, ?_⟩
    rw [State.get_set_of_ne hr.symm]
    exact (State.get_set_of_ne (by decide)).trans hu
  rcases mem_epilogue hi with rfl | rfl | ⟨r, hr, rfl⟩
  · refine ⟨_, rfl, ?_⟩
    rw [State.get_set_of_ne (by decide), hu]
  · exact hpop .rbp (by decide)
  · exact hpop r fun h => hsaved (h ▸ hr)

theorem length_prologue_le (size : Int32) (saved : List Register) :
    (prologue size saved).length ≤ saved.length + 3 := by
  rw [prologue]
  split <;> simp

theorem length_epilogue (saved : List Register) : (epilogue saved).length = saved.length + 2 := by
  simp [epilogue]

theorem length_calleeSaved_le (a : Allocation) : a.calleeSaved.length ≤ 8 :=
  List.length_filter_le _ _

/-- The registers that a function restores do not include the accumulator. -/
theorem rax_not_mem_calleeSaved (a : Allocation) : .rax ∉ a.calleeSaved := by
  simp [Allocation.calleeSaved, Register.isCalleeSaved]

theorem encodable_prologue (h : i ∈ prologue size saved) : i.Encodable := by
  rcases mem_prologue h with ⟨r, rfl⟩ | rfl | rfl
  · exact ⟨rfl, rfl, trivial, rfl⟩
  · exact ⟨rfl, rfl, rfl, rfl⟩
  · exact ⟨rfl, rfl, trivial, rfl⟩

theorem encodable_epilogue (h : i ∈ epilogue saved) : i.Encodable := by
  rcases mem_epilogue h with rfl | rfl | ⟨r, -, rfl⟩
  · exact ⟨rfl, rfl, rfl, rfl⟩
  · exact ⟨rfl, rfl, trivial, rfl⟩
  · exact ⟨rfl, rfl, trivial, rfl⟩

end ArithJit.Machine
