import ArithJit.Proofs.Framing

/-!
# Proofs: saving and restoring registers

The prologue puts the saved registers on the stack, the frame pointer last, and lets the frame pointer
point to the end of them. If the cells between the frame pointer and the caller's stack pointer stay as
they are, then the epilogue gives each register its old content, in the opposite order.
-/

namespace ArithJit.Machine

namespace State

/-- An instruction writes nothing outside the addresses from `low` up to `high`. -/
def WritesWithin (low high : Nat) (s : State) (i : Instruction) : Prop :=
  ∀ a, s.Writes i a → low ≤ a.toNat ∧ a.toNat < high

variable {s : State} {i : Instruction} {r q : Register} {a v : Word}

theorem not_writes_of_register {x : RegisterOperand} (h : i.op0 = .reg x) (hop : i.opcode ≠ .push) :
    ¬ s.Writes i a := by
  rintro ⟨y, k, hwritten, -⟩
  cases hopcode : i.opcode <;> simp [written?, hopcode, h, cell?] at hwritten
  exact hop hopcode

/-! ## One push and one pop -/

theorem get_push_rsp (s : State) (v : Word) : (s.push v).get .rsp = below (s.get .rsp) 8 := by
  have htop : below (s.get .rsp) 8 = s.get .rsp - 8 := below_eq_sub _ 8
  rw [htop]
  exact get_set_self s .rsp (s.get .rsp - 8)

theorem get_push_of_ne (h : r ≠ .rsp) : (s.push v).get r = s.get r :=
  get_set_of_ne h

theorem memory_push (s : State) (v : Word) :
    (s.push v).memory = s.memory.store (below (s.get .rsp) 8) 8 v := by
  rw [below_eq_sub]
  rfl

theorem writesWithin_push (hroom : 8 ≤ (s.get .rsp).toNat) (r : Register) :
    WritesWithin ((s.get .rsp).toNat - 8) (s.get .rsp).toNat s (.unary .push r) := by
  rintro a ⟨x, k, hwritten, j, hj, hja⟩
  have hcell : (s.get .rsp - 8, 8) = (x, k) := Option.some.inj hwritten
  obtain ⟨rfl, rfl⟩ := Prod.mk.inj hcell
  have htop : (s.get .rsp - 8).toNat = (s.get .rsp).toNat - 8 := by
    have h := toNat_below hroom
    rw [below_eq_sub] at h
    exact h
  have hlt := (s.get .rsp).isLt
  have hbounds := toNat_cell hj (by omega) hja
  omega

theorem step?_pop (s : State) (r : Register) : s.step? (.unary .pop r) =
    some ((s.set .rsp (s.get .rsp + 8)).set r (BitVec.ofNat 64 (s.memory.load (s.get .rsp) 8))) :=
  rfl

end State

/-! ## Several pushes and pops -/

/-- The eight bytes below the address hold the first word, the eight bytes below these the second one,
and so on. -/
def Stacked (m : Memory) : Word → List Word → Prop
  | _, [] => True
  | top, w :: ws => m.load (below top 8) 8 = w.toNat ∧ Stacked m (below top 8) ws

theorem Stacked.congr {m m' : Memory} {top : Word} {ws : List Word} (h : Stacked m top ws)
    (hroom : 8 * ws.length ≤ top.toNat)
    (hm : ∀ a, top.toNat - 8 * ws.length ≤ a.toNat → a.toNat < top.toNat → m'.byteAt a = m.byteAt a) :
    Stacked m' top ws := by
  induction ws generalizing top with
  | nil => trivial
  | cons w ws ih =>
    rw [List.length_cons] at hroom hm
    have htop := top.isLt
    have hbelow : (below top 8).toNat = top.toNat - 8 := toNat_below (by omega)
    refine ⟨?_, ih h.2 (by omega) fun a h1 h2 => hm a (by omega) (by omega)⟩
    rw [← h.1]
    apply Memory.load_congr
    intro j hj
    have hbounds := toNat_cell hj (x := below top 8) (by omega) rfl
    exact hm _ (by omega) (by omega)

open State in
/-- Registers that are pushed lie on the stack in their order. -/
theorem executes_pushes {regs : List Register} (hrsp : .rsp ∉ regs) (s : State)
    (hroom : 8 * regs.length ≤ (s.get .rsp).toNat) :
    ∃ t, Executes (WritesWithin ((s.get .rsp).toNat - 8 * regs.length) (s.get .rsp).toNat)
        (regs.map (.unary .push ·)) s t ∧
      t.get .rsp = below (s.get .rsp) (8 * regs.length) ∧ (∀ r, r ≠ .rsp → t.get r = s.get r) ∧
      Stacked t.memory (s.get .rsp) (regs.map s.get) := by
  induction regs generalizing s with
  | nil =>
    refine ⟨s, .nil s, ?_, fun r _ => rfl, trivial⟩
    rw [below_eq_sub]
    exact (BitVec.sub_zero _).symm
  | cons r rest ih =>
    rw [List.length_cons] at hroom
    obtain ⟨hr, hrest⟩ := not_or.mp (mt List.mem_cons.mpr hrsp)
    set s₁ := s.push (s.get r) with hs₁
    have hsp : s₁.get .rsp = below (s.get .rsp) 8 := get_push_rsp s _
    have hspn : (s₁.get .rsp).toNat = (s.get .rsp).toNat - 8 := by
      rw [hsp]
      exact toNat_below (by omega)
    obtain ⟨t, hexec, htsp, hregs, hstack⟩ := ih hrest s₁ (by omega)
    have hkeep : rest.map s₁.get = rest.map s.get := by
      apply List.map_congr_left
      intro q hq
      exact get_push_of_ne fun h => hrest (h ▸ hq)
    refine ⟨t, ?_, ?_, fun q hq => ?_, ?_, ?_⟩
    · have hfirst := writesWithin_push (s := s) (by omega) r
      refine .cons Opcode.noConfusion (fun a ha => ?_) rfl (hexec.mono fun u i _ hi a ha => ?_)
      · have := hfirst a ha
        rw [List.length_cons]
        omega
      · have := hi a ha
        rw [List.length_cons]
        omega
    · rw [htsp, hsp, below_below, List.length_cons]
      congr 1
      omega
    · rw [hregs q hq]
      exact get_push_of_ne hq
    · -- the pushes that follow write below the cell of the first one
      have hcell : ∀ a, (s.get .rsp).toNat - 8 ≤ a.toNat →
          t.memory.byteAt a = s₁.memory.byteAt a := by
        intro a ha
        apply hexec.byteAt
        intro u i _ hi hw
        have := hi a hw
        omega
      have hlt := (s.get .rsp).isLt
      have hload : t.memory.load (below (s.get .rsp) 8) 8 = s₁.memory.load (below (s.get .rsp) 8) 8 := by
        apply Memory.load_congr
        intro j hj
        have hbounds := toNat_cell hj (x := below (s.get .rsp) 8) (by rw [← hsp]; omega) rfl
        rw [← hsp] at hbounds ⊢
        exact hcell _ (by omega)
      rw [hload, hs₁, memory_push, Memory.load_store_self (by omega)]
      exact Nat.mod_eq_of_lt (s.get r).isLt
    · rw [← hkeep, ← hsp]
      exact hstack

open State in
/-- Pops in the opposite order give the registers what lies on the stack. -/
theorem executes_pops {regs : List Register} (hnodup : regs.Nodup) (hrsp : .rsp ∉ regs)
    {value : Register → Word} {top : Word} {u : State} (hstack : Stacked u.memory top (regs.map value))
    (hsp : u.get .rsp = below top (8 * regs.length)) :
    ∃ t, Executes (fun s i => ∀ a, ¬ s.Writes i a) (regs.reverse.map (.unary .pop ·)) u t ∧
      t.get .rsp = top ∧ t.memory = u.memory ∧ (∀ r ∈ regs, t.get r = value r) ∧
      ∀ r ∉ regs, r ≠ .rsp → t.get r = u.get r := by
  induction regs generalizing top with
  | nil =>
    refine ⟨u, .nil u, ?_, rfl, by simp, fun r _ _ => rfl⟩
    rw [hsp, below_eq_sub]
    exact BitVec.sub_zero _
  | cons r rest ih =>
    obtain ⟨hr, hrest⟩ := not_or.mp (mt List.mem_cons.mpr hrsp)
    obtain ⟨hnew, hnodup⟩ := List.nodup_cons.mp hnodup
    have hsp' : u.get .rsp = below (below top 8) (8 * rest.length) := by
      rw [hsp, below_below, List.length_cons]
      congr 1
      omega
    obtain ⟨t₁, hexec, htsp, hmem, hvalues, hkeep⟩ := ih hnodup hrest hstack.2 hsp'
    have hloaded : BitVec.ofNat 64 (t₁.memory.load (t₁.get .rsp) 8) = value r := by
      rw [htsp, hmem, hstack.1, BitVec.ofNat_toNat, BitVec.setWidth_eq]
    have hback : t₁.get .rsp + 8 = top := by
      rw [htsp, below_eq_sub]
      exact BitVec.sub_add_cancel _ _
    have hstep := step?_pop t₁ r
    rw [hloaded, hback] at hstep
    refine ⟨(t₁.set .rsp top).set r (value r), ?_, ?_, hmem, ?_, ?_⟩
    · rw [List.reverse_cons, List.map_append]
      refine hexec.append (.cons Opcode.noConfusion (fun a => ?_) hstep (.nil _))
      exact not_writes_of_register rfl Opcode.noConfusion
    · rw [get_set_of_ne hr, get_set_self]
    · intro q hq
      rcases List.mem_cons.mp hq with rfl | hq
      · exact get_set_self _ _ _
      · have hqr : q ≠ r := fun h => hnew (h ▸ hq)
        have hqsp : q ≠ .rsp := fun h => hrest (h ▸ hq)
        rw [get_set_of_ne hqr, get_set_of_ne hqsp]
        exact hvalues q hq
    · intro q hq hqsp
      obtain ⟨hqr, hq⟩ := not_or.mp (mt List.mem_cons.mpr hq)
      rw [get_set_of_ne hqr, get_set_of_ne hqsp]
      exact hkeep q hq hqsp

/-! ## The prologue and the epilogue -/

/-- What the prologue pushes: the registers that are saved, and the frame pointer. -/
def pushed (saved : List Register) : List Register :=
  saved ++ [.rbp]

variable {saved : List Register}

theorem rsp_not_mem_pushed (h : .rsp ∉ saved) : .rsp ∉ pushed saved := by
  simp [pushed, h]

theorem prologue_eq (size : Int32) (saved : List Register) : prologue size saved =
    (pushed saved).map (.unary .push ·) ++ ([⟨.mov, .fixed .rbp, .fixed .rsp, .rr⟩] ++
      if 0 < size then [⟨.sub, .fixed .rsp, .imm size, .ri⟩] else []) := by
  simp [prologue, pushed]

theorem epilogue_eq (saved : List Register) : epilogue saved =
    ⟨.mov, .fixed .rsp, .fixed .rbp, .rr⟩ :: (pushed saved).reverse.map (.unary .pop ·) := by
  simp [epilogue, pushed]

open State in
/-- The prologue saves registers right below the stack pointer and lets the frame pointer point to the
last of them. -/
theorem executes_prologue (size : Int32) (hrsp : .rsp ∉ saved) (s : State)
    (hroom : 8 * (saved.length + 1) ≤ (s.get .rsp).toNat) :
    ∃ t, Executes (WritesWithin ((s.get .rsp).toNat - 8 * (saved.length + 1)) (s.get .rsp).toNat)
        (prologue size saved) s t ∧
      t.get .rbp = below (s.get .rsp) (8 * (saved.length + 1)) ∧
      (∀ r, r ≠ .rsp → r ≠ .rbp → t.get r = s.get r) ∧
      Stacked t.memory (s.get .rsp) ((pushed saved).map s.get) := by
  have hlen : (pushed saved).length = saved.length + 1 := by simp [pushed]
  obtain ⟨u, hexec, hsp, hregs, hstack⟩ := executes_pushes (rsp_not_mem_pushed hrsp) s (hlen ▸ hroom)
  rw [hlen] at hexec hsp
  -- the copy to the frame pointer, then the room for the slots
  set w := u.set .rbp (u.get .rsp) with hw
  have hmov : u.step? ⟨.mov, .fixed .rbp, .fixed .rsp, .rr⟩ = some w := rfl
  have hrbp : w.get .rbp = below (s.get .rsp) (8 * (saved.length + 1)) := by
    rw [hw, get_set_self, hsp]
  have hkeep : ∀ r, r ≠ .rsp → r ≠ .rbp → w.get r = s.get r := by
    intro r hr hr'
    rw [hw, get_set_of_ne hr', hregs r hr]
  have hnone : ∀ (v : State) (i : Instruction) (x : RegisterOperand), i.op0 = .reg x → i.opcode ≠ .push →
      WritesWithin ((s.get .rsp).toNat - 8 * (saved.length + 1)) (s.get .rsp).toNat v i :=
    fun v i x hx hop a ha => absurd ha (not_writes_of_register hx hop)
  rw [prologue_eq]
  by_cases hsize : 0 < size
  · rw [if_pos hsize]
    refine ⟨w.set .rsp (w.get .rsp - size.toBitVec.signExtend 64), hexec.append
      (.cons Opcode.noConfusion (hnone u _ _ rfl Opcode.noConfusion) hmov
        (.cons Opcode.noConfusion (hnone w _ _ rfl Opcode.noConfusion) rfl (.nil _))), ?_, ?_, hstack⟩
    · rw [get_set_of_ne (by decide), hrbp]
    · intro r hr hr'
      rw [get_set_of_ne hr]
      exact hkeep r hr hr'
  · rw [if_neg hsize]
    exact ⟨w, hexec.append (.cons Opcode.noConfusion (hnone u _ _ rfl Opcode.noConfusion) hmov (.nil _)),
      hrbp, hkeep, hstack⟩

open State in
/-- The epilogue restores the registers that lie on the stack above the frame pointer. -/
theorem executes_epilogue (hnodup : (pushed saved).Nodup) (hrsp : .rsp ∉ saved) {value : Register → Word}
    {top : Word} {u : State} (hrbp : u.get .rbp = below top (8 * (saved.length + 1)))
    (hstack : Stacked u.memory top ((pushed saved).map value)) :
    ∃ t, Executes (fun s i => ∀ a, ¬ s.Writes i a) (epilogue saved) u t ∧ t.get .rsp = top ∧
      (∀ r ∈ pushed saved, t.get r = value r) ∧
      ∀ r ∉ pushed saved, r ≠ .rsp → t.get r = u.get r := by
  have hlen : (pushed saved).length = saved.length + 1 := by simp [pushed]
  set w := u.set .rsp (u.get .rbp) with hw
  have hmov : u.step? ⟨.mov, .fixed .rsp, .fixed .rbp, .rr⟩ = some w := rfl
  have hsp : w.get .rsp = below top (8 * (pushed saved).length) := by
    rw [hw, get_set_self, hrbp, hlen]
  obtain ⟨t, hexec, htsp, -, hvalues, hkeep⟩ :=
    executes_pops hnodup (rsp_not_mem_pushed hrsp) (u := w) hstack hsp
  rw [epilogue_eq]
  refine ⟨t, .cons Opcode.noConfusion (fun a => ?_) hmov hexec, htsp, hvalues, fun r hr hr' => ?_⟩
  · exact not_writes_of_register rfl Opcode.noConfusion
  · rw [hkeep r hr hr', hw, get_set_of_ne hr']

end ArithJit.Machine
