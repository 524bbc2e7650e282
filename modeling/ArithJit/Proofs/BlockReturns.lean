import ArithJit.Proofs.FirstBlock
import ArithJit.Proofs.Sessions

/-!
# Proofs: the bytecode of trees with blocks

The bytecode of a tree is run next to the watched evaluation of the tree. As long as no block is completed,
the bytecode computes what the evaluation computes. The first block that is completed ends both: the
bytecode returns its value there, and what follows does not count (`follows_nodeWithin`).
-/

namespace ArithJit

namespace Bytecode

theorem State.run?_append {code more : List Instruction} {s s' : State} {n : Int32}
    (h : run? code s = some (s', some n)) : run? (code ++ more) s = some (s', some n) := by
  induction code generalizing s with
  | nil => simp [run?] at h
  | cons i code ih =>
    rw [run?] at h
    rw [List.cons_append, run?]
    split at h
    · next hret => rw [if_pos hret, h]
    · next hret =>
      obtain ⟨u, hu, h⟩ := Option.bind_eq_some_iff.mp h
      rw [if_neg hret, hu]
      exact ih h

namespace Builder

open Assoc (find?)

variable {b b' b₁ : Builder} {x : Symbol} {o : Operand} {s s₀ : State} {v : Value} {env env' env₁ : Environment}

/-! ## Returns -/

/-- The code so far returns an integer. -/
def Returns (b : Builder) (s₀ : State) (v : Value) : Prop :=
  ∃ n s', v = .integer n ∧ State.run? b.instructions s₀ = some (s', some n)

theorem Returns.grows (h : b.Returns s₀ v) (hg : Grows b b') : b'.Returns s₀ v := by
  obtain ⟨n, s', hv, hrun⟩ := h
  obtain ⟨more, hcode⟩ := hg.code
  refine ⟨n, s', hv, ?_⟩
  rw [← hcode]
  exact State.run?_append hrun

theorem Yields.returns (h : b.Yields b' o s₀ s v env) :
    (b'.append ⟨.ret, .none, o, .none⟩).Returns s₀ v := by
  obtain ⟨s', n, hleads, hv, hn, -, -⟩ := h
  refine ⟨n, s', hv, ?_⟩
  rw [instructions_append, State.run?_of_exec? hleads, ← hn]
  rfl

/-! ## Names with slots are bound -/

/-- What was bound stays bound, and names that get a slot are bound at the end. -/
structure Binds (b b' : Builder) (env env' : Environment) : Prop where
  lasting : ∀ x, (env.find? x).isSome → (env'.find? x).isSome
  bound : ∀ x, (find? x b'.locals).isSome → (find? x b.locals).isSome ∨ (env'.find? x).isSome

theorem Binds.refl (b : Builder) (env : Environment) : Binds b b env env :=
  ⟨fun _ h => h, fun _ h => Or.inl h⟩

theorem Binds.trans (h : Binds b b₁ env env₁) (h' : Binds b₁ b' env₁ env') : Binds b b' env env' where
  lasting x hx := h'.lasting x (h.lasting x hx)
  bound x hx := by
    rcases h'.bound x hx with hx | hx
    · exact (h.bound x hx).imp_right (h'.lasting x)
    · exact Or.inr hx

theorem Binds.of_locals (h : Binds b b₁ env env') (hlocals : b'.locals = b₁.locals) :
    Binds b b' env env' := by
  refine ⟨h.lasting, fun x hx => h.bound x ?_⟩
  rw [← hlocals]
  exact hx

theorem locals_read (b : Builder) (o : Operand) : (b.read o).2.locals = b.locals := by
  rw [read]
  split <;> rfl

theorem find?_slot {y : Symbol} (h : (find? y (b.slot x).2.locals).isSome) :
    (find? y b.locals).isSome ∨ y = x := by
  rw [slot] at h
  split at h
  · exact Or.inl h
  · rw [find?_addSlot] at h
    split at h
    · next hy => exact Or.inr hy
    · exact Or.inl h

theorem Binds.slot (hx : (env.find? x).isSome) : Binds b (b.slot x).2 env env := by
  refine ⟨fun _ h => h, fun y hy => ?_⟩
  rcases find?_slot hy with hy | rfl
  · exact Or.inl hy
  · exact Or.inr hx

/-- The slot of a name may be reserved long before the name is assigned to. -/
theorem Binds.assign (h : Binds (b.slot x).2 b' env env₁)
    (henv : ∀ y, env'.find? y = if y = x then some v else env₁.find? y) : Binds b b' env env' := by
  have hlater : ∀ y, (env₁.find? y).isSome → (env'.find? y).isSome := by
    intro y hy
    rw [henv]
    split
    · rfl
    · exact hy
  refine ⟨fun y hy => hlater y (h.lasting y hy), fun y hy => ?_⟩
  rcases h.bound y hy with hy | hy
  · rcases find?_slot hy with hy | rfl
    · exact Or.inl hy
    · exact Or.inr (by rw [henv, if_pos rfl]; rfl)
  · exact Or.inr (hlater y hy)

theorem binds_bindAll (ns : List (Symbol × Int32)) (b : Builder) (scope : Scope) :
    Binds b (bindAll ns b) { current := scope }
      { current := (asValues ns).foldl (fun scope b => scope.declare b.1 b.2) scope } := by
  induction ns generalizing b scope with
  | nil => exact .refl b _
  | cons binding rest ih =>
    obtain ⟨x, n⟩ := binding
    have hfind : ∀ y, ({ current := scope.declare x (.integer n) } : Environment).find? y =
        if y = x then some (.integer n) else ({ current := scope } : Environment).find? y := by
      intro y
      rw [Environment.find?_current, Environment.find?_current, Scope.find?_declare]
    have hstore : Binds b ((b.slot x).2.write (b.slot x).1 (.immediate n .word)) { current := scope }
        { current := scope.declare x (.integer n) } :=
      ((Binds.refl (b.slot x).2 _).assign hfind).of_locals rfl
    exact hstore.trans (ih _ _)

/-! ## Following an evaluation -/

/-- The code from `b` to `b'` does what a watched evaluation did: it computes the value if no block was
completed, and returns the value of the first block that was. -/
structure Reflects (b b' : Builder) (o : Operand) (s₀ s : State) (env : Environment)
    (r : EStateM.Result Failure Watched Value) : Prop where
  value : ∀ v w, r = .ok v w → w.first = none →
    b.Yields b' o s₀ s v w.environment ∧ Binds b b' env w.environment
  returns : ∀ v, (finalState r).first = some v → b'.Returns s₀ v

section Reflects

variable {r : EStateM.Result Failure Watched Value} {w : Watched}

theorem Reflects.of_yields (hr : r = .ok v w) (hfirst : w.first = none)
    (hyields : b.Yields b' o s₀ s v w.environment) (hbinds : Binds b b' env w.environment) :
    Reflects b b' o s₀ s env r := by
  subst hr
  refine ⟨fun u w' hok _ => ?_, fun u hu => ?_⟩
  · cases hok
    exact ⟨hyields, hbinds⟩
  · rw [show (finalState (.ok v w)).first = none from hfirst] at hu
    cases hu

theorem Reflects.of_returns (hfirst : (finalState r).first = some v) (h : b'.Returns s₀ v) :
    Reflects b b' o s₀ s env r := by
  refine ⟨fun u w hok hnone => ?_, fun u hu => ?_⟩
  · rw [hok, show (finalState (.ok u w)).first = none from hnone] at hfirst
    cases hfirst
  · rw [hfirst] at hu
    cases hu
    exact h

theorem Reflects.of_error (hfirst : (finalState r).first = none) (hr : ∃ e w, r = .error e w) :
    Reflects b b' o s₀ s env r := by
  obtain ⟨e, w, rfl⟩ := hr
  refine ⟨fun u w' hok => ?_, fun u hu => ?_⟩
  · cases hok
  · rw [hfirst] at hu
    cases hu

end Reflects

/-- The step `y` of a builder succeeds, and its code does what `x` does. -/
def Follows (x : Watch Value) (y : Build Operand) : Prop :=
  ∀ b, b.Valid → ∃ o b', y b = .ok o b' ∧ b'.Valid ∧ b'.Known o ∧ Grows b b' ∧
    ∀ s₀ s env, b.Leads s₀ s → b.Agrees env s → Reflects b b' o s₀ s env (x ⟨env, none⟩)

section Nodes

variable {f : Forest} {names : SymbolTable} {levels : Nat} {id left right : NodeId}

theorem follows_literal {n : Int32} (node : f.get? id = some (.literal (.integer n))) :
    Follows (f.watchWithin names (levels + 1) id) (nodeWithin f (levels + 1) id) := by
  simp only [Forest.watchWithin, nodeWithin, node]
  intro b hb
  refine ⟨.immediate n .word, b, rfl, hb, .immediate n, .refl b, fun s₀ s env hleads hagrees => ?_⟩
  exact .of_yields rfl rfl ⟨s, n, hleads, rfl, rfl, hagrees, fun _ _ => rfl⟩ (.refl b env)

theorem follows_name (node : f.get? id = some (.name x)) :
    Follows (f.watchWithin names (levels + 1) id) (nodeWithin f (levels + 1) id) := by
  simp only [Forest.watchWithin, nodeWithin, node]
  intro b hb
  obtain ⟨hv, t, ht, hlocal⟩ := hb.slot x
  refine ⟨_, _, slotOf_apply b x, hv, ht ▸ .slot hlocal, b.grows_slot x, fun s₀ s env hleads hagrees => ?_⟩
  simp only [Bind.bind, EStateM.bind, get_apply]
  cases hx : env.find? x with
  | none => exact .of_error rfl ⟨_, _, rfl⟩
  | some v =>
    exact .of_yields rfl rfl (yields_name hleads hagrees hx) (.slot (by rw [hx]; rfl))

theorem follows_assign (node : f.get? id = some (.binary left .assign right))
    (target : f.get? left = some (.name x))
    (h : Follows (f.watchWithin names levels right) (nodeWithin f levels right)) :
    Follows (f.watchWithin names (levels + 1) id) (nodeWithin f (levels + 1) id) := by
  intro b hb
  obtain ⟨hv, t, ht, hlocal⟩ := hb.slot x
  obtain ⟨o, b₁, hbuild, hv₁, hknown, hgrows, hreflects⟩ := h _ hv
  obtain ⟨hv₂, hword⟩ := hv₁.read hknown
  have hgrows₂ : Grows (b.slot x).2 (b₁.read o).2 := hgrows.trans (grows_read _ _)
  have hlocal₂ := hgrows₂.locals x _ hlocal
  have hwrite : Grows b₁ ((b₁.read o).2.write (.register t .slot) (b₁.read o).1) :=
    (grows_read _ _).trans (grows_append _ _)
  have hnode := nodeWithin_assign node target hb hbuild
  rw [ht] at hnode
  refine ⟨_, _, hnode, hv₂.append rfl, (Known.slot hlocal₂).mono (grows_append _ _),
    (b.grows_slot x).trans (hgrows.trans hwrite), fun s₀ s env hleads hagrees => ?_⟩
  have hr := hreflects s₀ s env (hleads.slot x) (hagrees.grows (b.grows_slot x) rfl)
  simp only [Forest.watchWithin, node, Forest.target, target]
  rcases Watch.bind_cases (Watch.lasts_assign x) ⟨env, none⟩ with
    ⟨v, hfirst, hbind⟩ | ⟨v, w, hok, hfirst, hbind⟩ | ⟨hfirst, herror⟩
  · exact .of_returns hbind ((hr.returns v hfirst).grows hwrite)
  · obtain ⟨hyields, hbinds⟩ := hr.value v w hok hfirst
    refine .of_yields (w := w.assign x v) hbind hfirst ?_ ?_
    · exact ((hyields.read hgrows).of_grows (b.grows_slot x)).write hv₂ hlocal₂
    · exact (hbinds.assign (Environment.find?_assign w.environment x · v)).of_locals (locals_read b₁ o)
  · exact .of_error hfirst herror

theorem follows_arithmetic {op : Arithmetic} (node : f.get? id = some (.binary left (.arithmetic op) right))
    (hl : Follows (f.watchWithin names levels left) (nodeWithin f levels left))
    (hr : Follows (f.watchWithin names levels right) (nodeWithin f levels right)) :
    Follows (f.watchWithin names (levels + 1) id) (nodeWithin f (levels + 1) id) := by
  intro b hb
  obtain ⟨o₁, b₁, hbuild₁, hv₁, hknown₁, hgrows₁, hreflects₁⟩ := hl b hb
  obtain ⟨hv₂, hword₂⟩ := hv₁.read hknown₁
  obtain ⟨o₃, b₃, hbuild₃, hv₃, hknown₃, hgrows₃, hreflects₃⟩ := hr _ hv₂
  obtain ⟨hv₄, -⟩ := hv₃.read hknown₃
  have hgrows₂ : Grows b (b₁.read o₁).2 := hgrows₁.trans (grows_read _ _)
  have hgrows₄ : Grows (b₁.read o₁).2 (b₃.read o₃).2 := hgrows₃.trans (grows_read _ _)
  have hcompute : Grows b₃ ((b₃.read o₃).2.compute op (b₁.read o₁).1 (b₃.read o₃).1).2 :=
    (grows_read _ _).trans (grows_define _ _)
  have hright : Grows b₁ ((b₃.read o₃).2.compute op (b₁.read o₁).1 (b₃.read o₃).1).2 :=
    (grows_read _ _).trans (hgrows₃.trans hcompute)
  refine ⟨_, _, nodeWithin_arithmetic node hbuild₁ hbuild₃, hv₄.define rfl, known_compute _ _ _ _,
    hgrows₁.trans hright, fun s₀ s env hleads hagrees => ?_⟩
  have hr₁ := hreflects₁ s₀ s env hleads hagrees
  simp only [Forest.watchWithin, node]
  rcases Watch.bind_cases (fun a => (Watch.lasts_watchWithin f names levels right).bind fun c =>
      Watch.lasts_onValues op a c) ⟨env, none⟩ with
    ⟨a, hfirst, hbind⟩ | ⟨a, ⟨env₁, _⟩, hok, rfl, hbind⟩ | ⟨hfirst, herror⟩
  · exact .of_returns hbind ((hr₁.returns a hfirst).grows hright)
  · -- no block on the left: the right operand is evaluated where the left one ended
    rw [hbind]
    obtain ⟨hyields₁, hbinds₁⟩ := hr₁.value a ⟨env₁, none⟩ hok rfl
    obtain ⟨s₂, -, hleads₂, -, -, hagrees₂, -⟩ := hyields₁.read hgrows₁
    have hr₃ := hreflects₃ s₀ s₂ env₁ hleads₂ hagrees₂
    rcases Watch.bind_cases (fun c => Watch.lasts_onValues op a c) ⟨env₁, none⟩ with
      ⟨c, hfirst, hbind⟩ | ⟨c, ⟨env₂, _⟩, hok₂, rfl, hbind⟩ | ⟨hfirst, herror⟩
    · exact .of_returns hbind ((hr₃.returns c hfirst).grows hcompute)
    · rw [hbind]
      obtain ⟨-, hbinds₃⟩ := hr₃.value c ⟨env₂, none⟩ hok₂ rfl
      cases hop : op.onValues a c with
      | error e => exact .of_error rfl ⟨_, _, rfl⟩
      | ok v =>
        refine .of_yields rfl rfl ((hyields₁.read hgrows₁).compute hv₂ hword₂ hgrows₂ hgrows₄
          (fun s₁ h₁ ha₁ => ?_) hop) ?_
        · exact ((hreflects₃ s₀ s₁ env₁ h₁ ha₁).value c ⟨env₂, none⟩ hok₂ rfl).1.read hgrows₃
        · have hbinds₂ := hbinds₁.of_locals (locals_read b₁ o₁)
          exact hbinds₂.trans (hbinds₃.of_locals (locals_read b₃ o₃))
    · exact .of_error hfirst herror
  · exact .of_error hfirst herror

/-- One step after the other follows one step after the other, if the second one does not depend on the
value of the first. -/
theorem Follows.seq {x x' : Watch Value} {y y' : Build Operand} (h : Follows x y) (h' : Follows x' y')
    (hlasts : Watch.Lasts x') : Follows (x >>= fun _ => x') (y >>= fun _ => y') := by
  intro b hb
  obtain ⟨o₁, b₁, hbuild₁, hv₁, -, hgrows₁, hreflects₁⟩ := h b hb
  obtain ⟨o₂, b₂, hbuild₂, hv₂, hknown₂, hgrows₂, hreflects₂⟩ := h' b₁ hv₁
  refine ⟨o₂, b₂, bind_eq_ok.mpr ⟨o₁, b₁, hbuild₁, hbuild₂⟩, hv₂, hknown₂,
    hgrows₁.trans hgrows₂, fun s₀ s env hleads hagrees => ?_⟩
  have hr₁ := hreflects₁ s₀ s env hleads hagrees
  rcases Watch.bind_cases (x := x) (fun _ => hlasts) ⟨env, none⟩ with
    ⟨v, hfirst, hbind⟩ | ⟨v, ⟨env₁, _⟩, hok, rfl, hbind⟩ | ⟨hfirst, herror⟩
  · exact .of_returns hbind ((hr₁.returns v hfirst).grows hgrows₂)
  · rw [hbind]
    obtain ⟨⟨s₁, n, hleads₁, -, -, hagrees₁, hkeeps₁⟩, hbinds₁⟩ :=
      hr₁.value v ⟨env₁, none⟩ hok rfl
    have hr₂ := hreflects₂ s₀ s₁ env₁ hleads₁ hagrees₁
    refine ⟨fun u w hok₂ hfirst => ?_, hr₂.returns⟩
    obtain ⟨⟨s₂, m, hleads₂, hu, hm, hagrees₂, hkeeps₂⟩, hbinds₂⟩ := hr₂.value u w hok₂ hfirst
    exact ⟨⟨s₂, m, hleads₂, hu, hm, hagrees₂, hkeeps₁.trans hkeeps₂ hgrows₁⟩,
      hbinds₁.trans hbinds₂⟩
  · exact .of_error hfirst herror

theorem Follows.foldlM {g : NodeId → Watch Value} {g' : NodeId → Build Operand} {children : List NodeId}
    (hne : children ≠ []) (h : ∀ c ∈ children, Follows (g c) (g' c)) (hg : ∀ c, Watch.Lasts (g c))
    (v : Value) (o : Operand) :
    Follows (children.foldlM (fun _ c => g c) v) (children.foldlM (fun _ c => g' c) o) := by
  induction children generalizing v o with
  | nil => exact absurd rfl hne
  | cons c rest ih =>
    rw [List.foldlM_cons, List.foldlM_cons]
    have hc := h c (by simp)
    cases rest with
    | nil =>
      simp only [List.foldlM_nil, bind_pure]
      exact hc
    | cons d rest =>
      have hrest := ih (List.cons_ne_nil d rest) (fun e he => h e (by simp [he])) v o
      exact hc.seq hrest (Watch.Lasts.foldlM hg (d :: rest) v)

/-- The first block that is completed is returned from. -/
theorem follows_block {children : List NodeId} (node : f.get? id = some (.block children))
    (hne : children ≠ [])
    (h : ∀ c ∈ children, Follows (f.watchWithin names levels c) (nodeWithin f levels c)) :
    Follows (f.watchWithin names (levels + 1) id) (nodeWithin f (levels + 1) id) := by
  intro b hb
  obtain ⟨o, b₁, hbuild, hv₁, hknown, hgrows, hreflects⟩ :=
    Follows.foldlM hne h (Watch.lasts_watchWithin f names levels) .void .none b hb
  have hret := grows_append b₁ ⟨.ret, .none, o, .none⟩
  refine ⟨o, _, nodeWithin_block node hne hbuild, hv₁.append rfl, hknown.mono hret, hgrows.trans hret,
    fun s₀ s env hleads hagrees => ?_⟩
  have hr := hreflects s₀ s env hleads hagrees
  simp only [Forest.watchWithin, node]
  rcases Watch.bind_cases Watch.lasts_complete ⟨env, none⟩ with
    ⟨v, hfirst, hbind⟩ | ⟨v, w, hok, hfirst, hbind⟩ | ⟨hfirst, herror⟩
  · exact .of_returns hbind ((hr.returns v hfirst).grows hret)
  · have hcomplete : (w.complete v).first = some v := by simp [Watched.complete, hfirst]
    refine .of_returns (v := v) ?_ (hr.value v w hok hfirst).1.returns
    rw [hbind]
    exact hcomplete
  · exact .of_error hfirst herror

/-- The bytecode of a tree follows its evaluation. -/
theorem follows_nodeWithin (names : SymbolTable) (h : f.TreeWithin levels id) :
    Follows (f.watchWithin names levels id) (nodeWithin f levels id) := by
  induction levels generalizing id with
  | zero => exact absurd h not_false
  | succ levels ih =>
    cases h with
    | literal node => exact follows_literal node
    | name node => exact follows_name node
    | assign node target value => exact follows_assign node target (ih value)
    | arithmetic node first second => exact follows_arithmetic node (ih first) (ih second)
    | block node nonempty all => exact follows_block node nonempty fun c hc => ih (all c hc)

end Nodes

end Builder

end Bytecode

/-! ## Trees in a session -/

namespace Session

open Assoc (find?)
open Bytecode (Builder)
open Watched (forget)

/-- The watched evaluation of a node. -/
def watch (s : Session) (root : NodeId) : EStateM.Result Failure Watched Value :=
  s.forest.watch s.symbols root ⟨.ofBindings s.bindings, none⟩

variable {s : Session} {root : NodeId} {ns : List (Symbol × Int32)}

theorem evaluate_eq_forget (s : Session) (root : NodeId) : s.evaluate root = forget (s.watch root) := by
  rw [evaluate, EStateM.run, watch]
  exact Watch.erases_watch s.forest s.symbols root ⟨.ofBindings s.bindings, none⟩

/-- An evaluation that succeeds is a watched evaluation that succeeds. -/
theorem watch_of_evaluate {v : Value} {env : Environment} (h : s.evaluate root = .ok v env) :
    ∃ w, s.watch root = .ok v w ∧ w.environment = env := by
  rw [evaluate, EStateM.run] at h
  exact (Watch.erases_watch s.forest s.symbols root).exists_ok h

/-- A name has a slot if and only if it is bound, and the slot holds its value. -/
theorem locals_hold {b : Builder} {env : Environment} {t : Bytecode.State}
    (hbinds : (Builder.bindAll ns .empty).Binds b (.ofBindings (asValues ns)) env)
    (hagrees : b.Agrees env t) (x : Symbol) :
    (∀ p, find? x b.locals = some p →
      ∃ u, p = .register u .slot ∧ env.find? x = some (.integer (t.slots u))) ∧
    ∀ v, env.find? x = some v → (find? x b.locals).isSome := by
  constructor
  · intro p hp
    have hall := (Builder.binds_bindAll ns .empty .empty).trans hbinds
    have hbound : (env.find? x).isSome := by
      rcases hall.bound x (by rw [hp]; rfl) with hempty | hbound
      · simp [Builder.empty] at hempty
      · exact hbound
    obtain ⟨v, hx⟩ := Option.isSome_iff_exists.mp hbound
    obtain ⟨u, hu, rfl⟩ := hagrees x v hx
    exact ⟨u, Option.some.inj (hp.symm.trans hu), hx⟩
  · intro v hx
    obtain ⟨u, hu, -⟩ := hagrees x v hx
    rw [hu]
    rfl

/-- The bytecode of a tree, with integers as initial values, is run from any contents up to the first
return. It returns the value of the first block that the evaluation completes, whether or not the
evaluation fails after that; if the tree has a block and the evaluation does not fail, there is such a
block. If the tree has no block and the evaluation gives a value, then the bytecode runs to its end, the
operand of the tree has that value, and the slots hold the values of the names. -/
theorem bytecode_follows_evaluation (h : s.forest.IsTree root) (hb : s.bindings = asValues ns) :
    s.evaluate root = forget (s.watch root) ∧
    ∃ o b, s.build root = .ok o b ∧ ∀ s₀ : Bytecode.State,
      (∀ n, (finalState (s.watch root)).first = some (.integer n) →
        ∃ s', Bytecode.State.run? b.instructions s₀ = some (s', some n)) ∧
      (s.forest.HasBlock root → ∀ v env, s.evaluate root = .ok v env →
        ∃ n, (finalState (s.watch root)).first = some (.integer n)) ∧
      (¬ s.forest.HasBlock root → ∀ v env, s.evaluate root = .ok v env →
        ∃ n s', v = .integer n ∧ Bytecode.State.exec? b.instructions s₀ = some s' ∧
          s'.value? o = some n ∧ ∀ x,
            (∀ p, find? x b.locals = some p →
              ∃ t, p = .register t .slot ∧ env.find? x = some (.integer (s'.slots t))) ∧
            ∀ v, env.find? x = some v → (find? x b.locals).isSome) := by
  have hwithin := h.within_levels
  obtain ⟨o, b, hnode, -, -, -, hreflects⟩ := Builder.follows_nodeWithin s.symbols hwithin
    (Builder.bindAll ns .empty) (valid_bindAll ns)
  rw [← Builder.node] at hnode
  refine ⟨s.evaluate_eq_forget root, o, b, build_of_node hb hnode, fun s₀ => ?_⟩
  obtain ⟨s₁, hleads, hagrees⟩ := Builder.leads_bindAll ns s₀
  have hr := hreflects s₀ s₁ _ hleads hagrees
  have hwatch : s.forest.watchWithin s.symbols s.forest.levels root ⟨.ofBindings (asValues ns), none⟩ =
      s.watch root := by
    rw [watch, Forest.watch, hb]
  rw [hwatch] at hr
  refine ⟨fun n hfirst => ?_, fun hblock v env hok => ?_, fun hno v env hok => ?_⟩
  · obtain ⟨m, s', hm, hrun⟩ := hr.returns _ hfirst
    obtain rfl : n = m := Value.integer.inj hm
    exact ⟨s', hrun⟩
  · obtain ⟨w, hw, -⟩ := watch_of_evaluate hok
    obtain ⟨u, hu⟩ := Option.isSome_iff_exists.mp
      ((Watch.first_isSome_iff hwithin (hwatch.trans hw)).mpr hblock)
    have hfirst : (finalState (s.watch root)).first = some u := by rw [hw]; exact hu
    obtain ⟨n, -, rfl, -⟩ := hr.returns u hfirst
    exact ⟨n, hfirst⟩
  · obtain ⟨w, hw, rfl⟩ := watch_of_evaluate hok
    have hnone : w.first = none := by
      have hiff := Watch.first_isSome_iff hwithin (hwatch.trans hw)
      exact Option.not_isSome_iff_eq_none.mp fun hsome => hno (hiff.mp hsome)
    obtain ⟨⟨s', n, hexec, hn, hvalue, hagrees', -⟩, hbinds⟩ := hr.value v w hw hnone
    exact ⟨n, s', hn, hexec, hvalue, locals_hold hbinds hagrees'⟩

/-- The tree of `1 + { x = 5; x * 2 }`, with its root before its children and with a name that is shared,
where `x` is 3 at first. -/
def nested : Session where
  bindings := [(⟨0⟩, .integer 3)]
  forest := ⟨#[(.binary ⟨1⟩ (.arithmetic .add) ⟨2⟩, .zero), (.literal (.integer 1), .zero),
    (.block [⟨3⟩, ⟨6⟩], .zero), (.binary ⟨4⟩ .assign ⟨5⟩, .zero), (.name ⟨0⟩, .zero),
    (.literal (.integer 5), .zero), (.binary ⟨4⟩ (.arithmetic .mul) ⟨7⟩, .zero),
    (.literal (.integer 2), .zero)]⟩

/-- The bytecode returns from the block, and so does not add 1. The assignment alone ends with its value in
the slot of its name. -/
theorem bytecode_follows_evaluation_nested :
    (nested.forest.IsTree ⟨0⟩ ∧ nested.interpret ⟨0⟩ = .ok (.integer 11) ∧
      ∃ o b, nested.build ⟨0⟩ = .ok o b ∧
        ∀ s₀, ∃ s', Bytecode.State.run? b.instructions s₀ = some (s', some 10)) ∧
    nested.forest.IsTree ⟨3⟩ ∧ ∃ o b, nested.build ⟨3⟩ = .ok o b ∧
      ∀ s₀, ∃ s', Bytecode.State.exec? b.instructions s₀ = some s' ∧ s'.value? o = some 5 ∧
        ∃ t, find? ⟨0⟩ b.locals = some (.register t .slot) ∧ s'.slots t = 5 := by
  have hassign : nested.forest.TreeWithin 2 ⟨3⟩ := .assign rfl rfl (.literal rfl)
  have hproduct : nested.forest.TreeWithin 2 ⟨6⟩ := .arithmetic rfl (.name rfl) (.literal rfl)
  have hblock : nested.forest.TreeWithin 3 ⟨2⟩ := by
    refine .block rfl (by simp) fun c hc => ?_
    simp only [List.mem_cons, List.not_mem_nil, or_false] at hc
    rcases hc with rfl | rfl
    · exact hassign
    · exact hproduct
  have htree : nested.forest.IsTree ⟨0⟩ := ⟨4, .arithmetic rfl (.literal rfl) hblock⟩
  have hbindings : nested.bindings = asValues [(⟨0⟩, 3)] := rfl
  have hvalue : nested.interpret ⟨0⟩ = .ok (.integer 11) := by decide +kernel
  refine ⟨⟨htree, hvalue, ?_⟩, ⟨2, hassign⟩, ?_⟩
  · obtain ⟨-, o, b, hbuild, hrun⟩ := bytecode_follows_evaluation htree hbindings
    have hfirst : (finalState (nested.watch ⟨0⟩)).first = some (.integer 10) := by decide +kernel
    exact ⟨o, b, hbuild, fun s₀ => (hrun s₀).1 10 hfirst⟩
  · obtain ⟨-, o, b, hbuild, hrun⟩ := bytecode_follows_evaluation ⟨2, hassign⟩ hbindings
    have hno : ¬ nested.forest.HasBlock ⟨3⟩ := by
      have hname : ¬ nested.forest.HasBlock ⟨4⟩ := by
        rintro (node | node | node) <;> simp [nested, Forest.get?] at node
      have hliteral : ¬ nested.forest.HasBlock ⟨5⟩ := by
        rintro (node | node | node) <;> simp [nested, Forest.get?] at node
      rintro (node | ⟨node, inside⟩ | ⟨node, inside⟩) <;> simp [nested, Forest.get?] at node
      · exact hname (node.1 ▸ inside)
      · exact hliteral (node.2.2 ▸ inside)
    obtain ⟨v, env, hok, hv⟩ : ∃ v env, nested.evaluate ⟨3⟩ = .ok v env ∧ v = .integer 5 := by
      have hvalue : nested.interpret ⟨3⟩ = .ok (.integer 5) := by decide +kernel
      rcases nested.interpret_of_evaluate ⟨3⟩ with ⟨v, env, hok, hv⟩ | ⟨e, env, -, he⟩
      · exact ⟨v, env, hok, Except.ok.inj (hv.symm.trans hvalue)⟩
      · cases he.symm.trans hvalue
    have hfind : env.find? ⟨0⟩ = some (.integer 5) := by
      obtain ⟨w, hw, rfl⟩ := watch_of_evaluate hok
      have hafter : (finalState (nested.watch ⟨3⟩)).environment.find? ⟨0⟩ = some (.integer 5) := by
        decide +kernel
      rw [hw] at hafter
      exact hafter
    refine ⟨o, b, hbuild, fun s₀ => ?_⟩
    obtain ⟨n, s', rfl, hexec, hn, hlocals⟩ := (hrun s₀).2.2 hno v env hok
    obtain rfl : n = 5 := Value.integer.inj hv
    obtain ⟨p, hp⟩ := Option.isSome_iff_exists.mp ((hlocals ⟨0⟩).2 _ hfind)
    obtain ⟨t, rfl, ht⟩ := (hlocals ⟨0⟩).1 p hp
    refine ⟨s', hexec, hn, t, hp, ?_⟩
    exact Value.integer.inj (Option.some.inj (ht.symm.trans hfind))

end Session

end ArithJit
