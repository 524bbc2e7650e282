import ArithJit.Proofs.BytecodeMachine
import ArithJit.Proofs.Evaluation
import ArithJit.Proofs.Lowering

/-!
# Proofs: lowered code computes the value of an expression

The code of an expression is executed from any contents of temporaries and slots. Where the slots of the
names that have a value hold these values, and the expression can be evaluated, its code computes its
value, and the slots hold the values of the names afterwards. Words that were computed before stay.
-/

namespace ArithJit.Bytecode.Builder

open Assoc (find?)

variable {b b' : Builder} {x : Symbol} {o : Operand} {s s₀ s' : State} {env env' : Environment}
  {names : SymbolTable} {v : Value} {n : Int32}

/-- The values of names are integers, and their slots hold them. -/
def Agrees (b : Builder) (env : Environment) (s : State) : Prop :=
  ∀ x v, env.find? x = some v →
    ∃ t, find? x b.locals = some (.register t .slot) ∧ v = .integer (s.slots t)

theorem Agrees.grows (h : b.Agrees env s) (hg : Grows b b') (hslots : s'.slots = s.slots) :
    b'.Agrees env s' := by
  intro x v hx
  obtain ⟨t, ht, rfl⟩ := h x v hx
  exact ⟨t, hg.locals x _ ht, by rw [hslots]⟩

/-- Writing the slot of a name gives the name a value. -/
theorem Agrees.setSlot {t : Temp} (h : b.Agrees env s) (hb : b.Valid)
    (ht : find? x b.locals = some (.register t .slot))
    (henv : ∀ y, env'.find? y = if y = x then some (.integer n) else env.find? y) :
    b.Agrees env' (s.setSlot t n) := by
  intro y w hy
  rw [henv] at hy
  split at hy
  · next hyx =>
    obtain rfl : Value.integer n = w := Option.some.inj hy
    exact ⟨t, hyx ▸ ht, by simp [State.setSlot]⟩
  · next hyx =>
    obtain ⟨u, hu, rfl⟩ := h y w hy
    have hut : u ≠ t := by
      rintro rfl
      exact hyx (hb.injective y x _ hu ht)
    exact ⟨u, hu, by simp [State.setSlot, hut]⟩

/-- The code so far leads from the state `s₀` to the state `s`. -/
def Leads (b : Builder) (s₀ s : State) : Prop :=
  State.exec? b.instructions s₀ = some s

theorem Leads.append (h : b.Leads s₀ s) {i : Instruction} (hi : s.step? i = some s') :
    (b.append i).Leads s₀ s' := by
  rw [Leads, instructions_append, State.exec?_append_singleton, h]
  exact hi

theorem Leads.define (h : b.Leads s₀ s) {i : Instruction} (hi : s.step? i = some s') :
    (b.define i).Leads s₀ s' := by
  rw [Leads, instructions_define, State.exec?_append_singleton, h]
  exact hi

/-- A reservation computes nothing. -/
theorem Leads.slot (h : b.Leads s₀ s) (x : Symbol) : (b.slot x).2.Leads s₀ s := by
  rw [Builder.slot]
  split
  · exact h
  · exact h.define (i := ⟨.push, b.next .slot, .immediate Ty.word.size .slot, .none⟩) rfl

/-- Temporaries that were given out keep their words. -/
def Keeps (b : Builder) (s s' : State) : Prop :=
  ∀ t, t.index < b.temps → s'.words t = s.words t

theorem Keeps.trans {s'' : State} (h : b.Keeps s s') (h' : b'.Keeps s' s'') (hg : Grows b b') :
    b.Keeps s s'' :=
  fun t ht => (h' t (Nat.lt_of_lt_of_le ht hg.temps)).trans (h t ht)

theorem Keeps.of_grows (h : b'.Keeps s s') (hg : Grows b b') : b.Keeps s s' :=
  fun t ht => h t (Nat.lt_of_lt_of_le ht hg.temps)

/-- The next temporary is none of those that were given out. -/
theorem keeps_setWord (b : Builder) (s : State) (n : Int32) : b.Keeps s (s.setWord ⟨b.temps⟩ n) := by
  intro t ht
  have hne : t ≠ ⟨b.temps⟩ := fun e => absurd (e ▸ ht) (Nat.lt_irrefl _)
  simp [State.setWord, hne]

/-- A word keeps its value. -/
theorem Keeps.value (h : b.Keeps s s') (hb : b.Valid) (ho : b.IsWord o) : s'.value? o = s.value? o := by
  obtain ⟨hknown, hp⟩ := ho
  cases hknown with
  | immediate n => rfl
  | word mem dest => exact congrArg some (h _ (hb.defined _ mem _ _ dest))
  | slot => simp [Operand.isPointer, Operand.ty?] at hp

/-- Reading gives the value of the operand and changes no slot. -/
theorem Leads.read (h : b.Leads s₀ s) (ho : s.value? o = some n) :
    ∃ s', (b.read o).2.Leads s₀ s' ∧ s'.value? (b.read o).1 = some n ∧ s'.slots = s.slots ∧
      b.Keeps s s' := by
  rw [Builder.read]
  split
  · refine ⟨s.setWord ⟨b.temps⟩ n, h.define ?_, ?_, rfl, b.keeps_setWord s n⟩
    · simp [State.step?, ho, next, State.write?]
    · simp [next, State.value?, State.setWord]
  · exact ⟨s, h, ho, rfl, fun _ _ => rfl⟩

/-! ## Values of expressions -/

/-- The code from `b` to `b'` computes the integer `v` in the operand `o`, and the slots then hold the
values of `env`. -/
def Yields (b b' : Builder) (o : Operand) (s₀ s : State) (v : Value) (env : Environment) : Prop :=
  ∃ s' n, b'.Leads s₀ s' ∧ v = .integer n ∧ s'.value? o = some n ∧ b'.Agrees env s' ∧ b.Keeps s s'

variable {b₁ b₂ : Builder} {p q : Operand} {env₁ env₂ : Environment} {a c : Value}

theorem Yields.of_grows (h : b₁.Yields b' o s₀ s v env) (hg : Grows b b₁) : b.Yields b' o s₀ s v env := by
  obtain ⟨s', n, hleads, hv, hn, hagrees, hkeeps⟩ := h
  exact ⟨s', n, hleads, hv, hn, hagrees, hkeeps.of_grows hg⟩

theorem Yields.read (h : b.Yields b' o s₀ s v env) (hg : Grows b b') :
    b.Yields (b'.read o).2 (b'.read o).1 s₀ s v env := by
  obtain ⟨s₁, n, h₁, hv, hn₁, ha₁, hk₁⟩ := h
  obtain ⟨s₂, h₂, hn₂, hs₂, hk₂⟩ := h₁.read hn₁
  exact ⟨s₂, n, h₂, hv, hn₂, ha₁.grows (grows_read _ _) hs₂, hk₁.trans hk₂ hg⟩

/-- A value that is written to the slot of a name is the value of the name. -/
theorem Yields.write {t : Temp} (h : b.Yields b' o s₀ s v env) (hb' : b'.Valid)
    (ht : find? x b'.locals = some (.register t .slot)) :
    b.Yields (b'.write (.register t .slot) o) (.register t .slot) s₀ s v (env.assign x v) := by
  obtain ⟨s₁, n, h₁, rfl, hn₁, ha₁, hk₁⟩ := h
  refine ⟨s₁.setSlot t n, n, h₁.append ?_, rfl, ?_, ?_, hk₁⟩
  · simp [State.step?, hn₁, State.write?]
  · simp [State.value?, State.setSlot]
  · exact ha₁.setSlot hb' ht (Environment.find?_assign env x · (.integer n))

/-- The code of a right operand keeps the value of the left one, and the two are combined. -/
theorem Yields.compute {op : Arithmetic} (hl : b.Yields b₁ p s₀ s a env₁) (hb₁ : b₁.Valid)
    (hp : b₁.IsWord p) (hg : Grows b b₁) (hg' : Grows b₁ b₂)
    (hr : ∀ s₁, b₁.Leads s₀ s₁ → b₁.Agrees env₁ s₁ → b₁.Yields b₂ q s₀ s₁ c env₂)
    (hop : op.onValues a c = .ok v) :
    b.Yields (b₂.compute op p q).2 (b₂.compute op p q).1 s₀ s v env₂ := by
  obtain ⟨s₁, m, h₁, rfl, hm₁, ha₁, hk₁⟩ := hl
  obtain ⟨s₂, n, h₂, rfl, hn₂, ha₂, hk₂⟩ := hr s₁ h₁ ha₁
  obtain ⟨k, hk, rfl⟩ := Arithmetic.onValues_eq_ok hop
  have hm₂ : s₂.value? p = some m := (hk₂.value hb₁ hp).trans hm₁
  have hstep : s₂.step? ⟨.arithmetic op, b₂.next .word, p, q⟩ = some (s₂.setWord ⟨b₂.temps⟩ k) := by
    simp [State.step?, hm₂, hn₂, hk, next, State.write?]
  have hkeep := hk₂.trans (b₂.keeps_setWord s₂ k) hg'
  refine ⟨s₂.setWord ⟨b₂.temps⟩ k, k, h₂.define hstep, rfl, ?_, ?_, hk₁.trans hkeep hg⟩
  · simp [Builder.compute, next, State.value?, State.setWord]
  · exact ha₂.grows (grows_define _ _) rfl

theorem yields_name (h : b.Leads s₀ s) (ha : b.Agrees env s) (hx : env.find? x = some v) :
    b.Yields (b.slot x).2 (b.slot x).1 s₀ s v env := by
  obtain ⟨t, ht, rfl⟩ := ha x v hx
  refine ⟨s, s.slots t, h.slot x, rfl, ?_, ha.grows (b.grows_slot x) rfl, fun _ _ => rfl⟩
  simp [Builder.slot, ht, State.value?]

/-- The code of an expression computes its value. -/
theorem Leads.lower {e : Expr} (h : b.Leads s₀ s) (hb : b.Valid) (ha : b.Agrees env s)
    (he : e.evaluate names env = .ok v env') :
    b.Yields (e.lower b).2 (e.lower b).1 s₀ s v env' := by
  induction e generalizing b s env env' v with
  | literal value =>
    obtain ⟨rfl, rfl⟩ : Value.integer value = v ∧ env = env' := by
      simpa [Expr.evaluate, pure, EStateM.pure] using he
    exact ⟨s, value, h, rfl, rfl, ha, fun _ _ => rfl⟩
  | name x =>
    cases hx : env.find? x with
    | none => simp [Expr.evaluate_name, hx] at he
    | some w =>
      obtain ⟨rfl, rfl⟩ : w = v ∧ env = env' := by simpa [Expr.evaluate_name, hx] using he
      exact yields_name h ha hx
  | assign x value ih =>
    obtain ⟨env₁, hvalue, rfl⟩ := Expr.evaluate_assign_eq_ok he
    obtain ⟨hv, t, ht, hlocal⟩ := hb.slot x
    have hyields := ih (h.slot x) hv (ha.grows (b.grows_slot x) rfl) hvalue
    obtain ⟨hv₁, hknown⟩ := hv.lower value
    have hlocal₂ := (grows_lower_read value (b.slot x).2).locals x _ hlocal
    have hread := (hyields.read (grows_lower value _)).of_grows (b.grows_slot x)
    rw [Expr.lower, ht]
    exact hread.write (hv₁.read hknown).1 hlocal₂
  | arithmetic op l r ihl ihr =>
    obtain ⟨a, env₁, c, hl, hr, hop⟩ := Expr.evaluate_arithmetic_eq_ok he
    obtain ⟨hv₁, hknown⟩ := hb.lower l
    obtain ⟨hv₂, hw₂⟩ := hv₁.read hknown
    have hleft := (ihl h hb ha hl).read (grows_lower l b)
    refine hleft.compute hv₂ hw₂ (grows_lower_read l b) (grows_lower_read r _) (fun s₁ h₁ ha₁ => ?_) hop
    exact (ihr h₁ hv₂ ha₁ hr).read (grows_lower r _)

end ArithJit.Bytecode.Builder
