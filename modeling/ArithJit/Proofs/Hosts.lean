import ArithJit.Native.Loader
import Mathlib.Tactic.Common

/-!
# Proofs: loading code on a host

A host may refuse to load code, and it may be in any state when the code is called. What is asked of it is
honesty (`Host.Honest`): the memory that it hands out is empty, and code that it lets be executed is the code
that was copied there. A host that grants requests (`Host.Grants`) loads all code that fits below the address
limit. The system is such a host (`Host.honest_system`, `Host.grants_system`). Calling code changes nothing of
a host but the state that it is in.
-/

namespace ArithJit.Native

/-- The failures by which a host refuses. -/
inductive Refusal : Failure → Prop where
  | loading (e : LoadError) : Refusal e.toFailure
  | fault (f : Fault) : Refusal (.fault f)

/-- A refusal says nothing about results. -/
theorem Refusal.ne_resultMismatch {f : Failure} (h : Refusal f) (a b : Int32) :
    f ≠ .error (.resultMismatch a b) := by
  cases h with
  | loading e => cases e <;> simp [LoadError.toFailure, LoadError.toError]
  | fault f => simp

/-- A request for memory is met, unless it is for all addresses there are. -/
theorem Region.allocate_cases (n : Nat) :
    (∃ size, allocate n = .ok ⟨size, []⟩ ∧ n ≤ size) ∨
    (addressLimit ≤ n + pageSize ∧ ∃ f, allocate n = .error f ∧ Refusal f) := by
  have hpages : n ≤ pagesFor n * pageSize ∧ pagesFor n * pageSize ≤ n + pageSize := by
    simp only [pagesFor, pageSize]
    omega
  have hlimit : addressLimit ≤ wordCount := by decide
  rw [allocate]
  split
  · exact Or.inr ⟨by omega, _, rfl, .fault _⟩
  · split
    · exact Or.inr ⟨by omega, _, rfl, .loading _⟩
    · exact Or.inl ⟨_, rfl, hpages.1⟩

namespace Host

variable {host : Host} {code : List UInt8} {size : Nat}

/-- A region that is handed out is empty, the right to execute it changes nothing in it, and all else is a
refusal. -/
structure Honest (host : Host) : Prop where
  allocate : ∀ n, (∃ size, host.allocate n = .ok ⟨size, []⟩) ∨ ∃ f, host.allocate n = .error f ∧ Refusal f
  protect : ∀ r, host.protect r = .ok r ∨ ∃ f, host.protect r = .error f ∧ Refusal f

/-- Memory is handed out below the address limit, and may be executed. -/
structure Grants (host : Host) : Prop where
  supported : host.supported = true
  allocate : ∀ n, n + Region.pageSize < Region.addressLimit →
    ∃ size, host.allocate n = .ok ⟨size, []⟩ ∧ n ≤ size
  protect : ∀ r, host.protect r = .ok r

theorem honest_system : system.Honest where
  allocate n := by
    rcases Region.allocate_cases n with ⟨size, hsize, -⟩ | ⟨-, hrefused⟩
    · exact Or.inl ⟨size, hsize⟩
    · exact Or.inr hrefused
  protect _ := Or.inl rfl

theorem grants_system : system.Grants where
  supported := rfl
  allocate n hn := (Region.allocate_cases n).resolve_right fun h => Nat.not_le_of_lt hn h.1
  protect _ := rfl

/-! ## Loading -/

/-- The host loads the code as it is, or it refuses. -/
def Answers (host : Host) (code : List UInt8) : Prop :=
  (∃ size, host.load code = .ok ⟨size, code⟩) ∨ ∃ f, host.load code = .error f ∧ Refusal f

theorem write_empty (size : Nat) (code : List UInt8) :
    Region.write ⟨size, []⟩ code =
      if size < code.length then .error (.codeTooLarge code.length size) else .ok ⟨size, code⟩ := by
  rw [Region.write]
  simp

theorem Honest.answers (h : host.Honest) (code : List UInt8) : host.Answers code := by
  cases hempty : code.isEmpty with
  | true => exact Or.inr ⟨_, by simp only [load, place, hempty]; rfl, .loading .emptyCode⟩
  | false =>
    cases hsupported : host.supported with
    | false =>
      exact Or.inr ⟨_, by simp only [load, place, hempty, hsupported]; rfl, .loading .unsupportedHost⟩
    | true =>
      rcases h.allocate code.length with ⟨size, hsize⟩ | ⟨f, hf, hrefused⟩
      · by_cases hlt : size < code.length
        · refine Or.inr ⟨_, ?_, .loading (.codeTooLarge code.length size)⟩
          simp only [load, place, hempty, hsupported, hsize, Bind.bind, Except.bind, write_empty, if_pos hlt]
          rfl
        · have hplace : host.load code = host.protect ⟨size, code⟩ := by
            simp only [load, place, hempty, hsupported, hsize, Bind.bind, Except.bind, write_empty, if_neg hlt]
            rfl
          rw [Answers, hplace]
          rcases h.protect ⟨size, code⟩ with hok | hrefused
          · exact Or.inl ⟨size, hok⟩
          · exact Or.inr hrefused
      · refine Or.inr ⟨f, ?_, hrefused⟩
        simp only [load, place, hempty, hsupported, hf, Bind.bind, Except.bind]
        rfl

/-- A host that grants requests loads code that has room below the address limit. -/
theorem Grants.load_eq (h : host.Grants) (hne : code ≠ [])
    (hlt : code.length + Region.pageSize < Region.addressLimit) :
    ∃ size, host.load code = .ok ⟨size, code⟩ := by
  have hempty : code.isEmpty = false := by simpa using hne
  obtain ⟨size, hsize, hle⟩ := h.allocate code.length hlt
  refine ⟨size, ?_⟩
  simp only [load, place, hempty, h.supported, hsize, Bind.bind, Except.bind, write_empty,
    if_neg (Nat.not_lt.mpr hle)]
  exact h.protect ⟨size, code⟩

/-! ## Calling -/

/-- Code that was loaded is called in the state that the host is in. -/
theorem execute_of_load {t : Machine.State} (hload : host.load code = .ok ⟨size, code⟩)
    (ht : host.entry.run? code = some t) : host.execute code = .ok t.result := by
  simp only [execute, hload, Bind.bind, Except.bind, Region.call, ht]

theorem execute_of_refused {f : Failure} (hload : host.load code = .error f) :
    host.execute code = .error f := by
  simp only [execute, hload, Bind.bind, Except.bind]

/-- The host when the processor is in a state. -/
def inState (host : Host) (u : Machine.State) : Host :=
  { host with entry := u }

/-- Code that is called changes the state of its host, and nothing else. -/
theorem exists_after (host : Host) (code : List UInt8) : ∃ u, host.after code = host.inState u := by
  rw [after]
  split
  · exact ⟨host.entry, rfl⟩
  · split
    · exact ⟨host.entry, rfl⟩
    · exact ⟨_, rfl⟩

end Host

end ArithJit.Native
