import ArithJit.Proofs.SelectionSteps
import Mathlib.Data.List.Induction

/-!
# Proofs: where the slots lie

Reservations go downwards from the frame pointer, without gaps and in their order, whatever instructions
stand between them. The displacement of a slot is minus the number of bytes that are reserved up to its own.
A selection keeps to this layout step by step, until the frame is too large; then the reservation fails.
-/

namespace ArithJit

/-- The temporary and the number of bytes of a reservation of some bytes. -/
def Bytecode.Instruction.reservation? (i : Bytecode.Instruction) : Option (Temp × Nat) :=
  match i.opcode, i.dest, i.src0 with
  | .push, .register t _, .immediate bytes _ => if 0 < bytes then some (t, bytes.toInt.toNat) else none
  | _, _, _ => none

/-- The reservations of a piece of bytecode, in their order. -/
def Bytecode.reservations (code : List Bytecode.Instruction) : List (Temp × Nat) :=
  code.filterMap Bytecode.Instruction.reservation?

namespace Machine

open Assoc (find?)
open Bytecode (reservations)

variable {i : Bytecode.Instruction} {t : Temp} {n base : Nat} {rs : List (Temp × Nat)}

theorem reservation?_eq_some (h : i.reservation? = some (t, n)) :
    i.opcode = .push ∧ i.dest.temp? = some t ∧
      ∃ bytes ty, i.src0 = .immediate bytes ty ∧ 0 < bytes ∧ n = bytes.toInt.toNat := by
  unfold Bytecode.Instruction.reservation? at h
  split at h
  · next u ty bytes ty' hop hdest hsize =>
    split at h
    · next hpos =>
      obtain ⟨rfl, rfl⟩ : u = t ∧ bytes.toInt.toNat = n := by simpa using h
      exact ⟨hop, by rw [hdest]; rfl, bytes, ty', hsize, hpos, rfl⟩
    · cases h
  · cases h

theorem reservation?_pos (h : i.reservation? = some (t, n)) : 0 < n := by
  obtain ⟨-, -, bytes, -, -, hpos, rfl⟩ := reservation?_eq_some h
  rw [Int32.lt_iff_toInt_lt] at hpos
  have hzero : (0 : Int32).toInt = 0 := rfl
  omega

theorem reservation?_of_ne (h : i.opcode ≠ .push) : i.reservation? = none := by
  cases hr : i.reservation? with
  | none => rfl
  | some r => exact absurd (reservation?_eq_some hr).1 h

theorem reservations_pos (code : List Bytecode.Instruction) : ∀ r ∈ reservations code, 0 < r.2 := by
  intro r hr
  obtain ⟨i, -, hi⟩ := List.mem_filterMap.mp hr
  exact reservation?_pos hi

/-! ## Cells -/

/-- The number of bytes of some reservations. -/
def total : List (Temp × Nat) → Nat
  | [] => 0
  | r :: rest => r.2 + total rest

theorem total_append (rs rs' : List (Temp × Nat)) : total (rs ++ rs') = total rs + total rs' := by
  induction rs with
  | nil => simp [total]
  | cons r rs ih =>
    simp only [List.cons_append, total, ih]
    omega

/-- The slots of some reservations, one below the other, where `base` bytes are reserved already. -/
def place : Nat → List (Temp × Nat) → List (Temp × Int32)
  | _, [] => []
  | base, r :: rest => (r.1, Int32.ofInt (-(base + r.2 : Nat))) :: place (base + r.2) rest

theorem place_concat (base : Nat) (rs : List (Temp × Nat)) (t : Temp) (n : Nat) :
    place base (rs ++ [(t, n)]) = place base rs ++ [(t, Int32.ofInt (-(base + total rs + n : Nat)))] := by
  induction rs generalizing base with
  | nil => rfl
  | cons r rs ih => simp only [List.cons_append, place, total, ih, Nat.add_assoc]

theorem map_fst_place (base : Nat) (rs : List (Temp × Nat)) :
    (place base rs).map Prod.fst = rs.map Prod.fst := by
  induction rs generalizing base with
  | nil => rfl
  | cons r rs ih => simp only [place, List.map_cons, ih]

/-- The displacement of a slot is minus the number of bytes up to its own. -/
theorem toInt_of_place {k : Nat} {d : Int32} (hlimit : base + total rs ≤ stackLimit)
    (h : (place base rs)[k]? = some (t, d)) : d.toInt = -(base + total (rs.take (k + 1)) : Nat) := by
  induction rs generalizing base k with
  | nil => simp [place] at h
  | cons r rs ih =>
    rw [total] at hlimit
    cases k with
    | zero =>
      obtain ⟨-, rfl⟩ : r.1 = t ∧ Int32.ofInt (-(base + r.2 : Nat)) = d := by simpa [place] using h
      rw [toInt_ofInt_neg (by omega)]
      simp [total]
    | succ k =>
      rw [place, List.getElem?_cons_succ] at h
      rw [ih (by omega) h, List.take_succ_cons, total, Nat.add_assoc]

/-- Some bytes from a displacement on. -/
structure Cell where
  disp : Int32
  bytes : Nat

/-- The address, relative to the frame pointer, is one of the cell. -/
def Cell.Covers (c : Cell) (x : Int) : Prop :=
  c.disp.toInt ≤ x ∧ x < c.disp.toInt + c.bytes

/-- The cells of the slots. -/
def cells (slots : List (Temp × Int32)) (rs : List (Temp × Nat)) : List Cell :=
  List.zipWith (fun slot r => ⟨slot.2, r.2⟩) slots rs

theorem cells_place_cons (base : Nat) (r : Temp × Nat) (rs : List (Temp × Nat)) :
    cells (place base (r :: rs)) (r :: rs) =
      ⟨Int32.ofInt (-(base + r.2 : Nat)), r.2⟩ :: cells (place (base + r.2) rs) rs :=
  rfl

/-- The cells lie in the bytes that are reserved for them. -/
theorem bounds_of_mem_cells {c : Cell} (hlimit : base + total rs ≤ stackLimit)
    (hc : c ∈ cells (place base rs) rs) :
    -(base + total rs : Nat) ≤ c.disp.toInt ∧ c.disp.toInt + c.bytes ≤ -(base : Int) := by
  induction rs generalizing base with
  | nil => simp [cells, place] at hc
  | cons r rs ih =>
    rw [total] at hlimit ⊢
    rw [cells_place_cons, List.mem_cons] at hc
    rcases hc with rfl | hc
    · simp only [toInt_ofInt_neg (show base + r.2 ≤ stackLimit by omega)]
      omega
    · obtain ⟨hlow, hhigh⟩ := ih (by omega) hc
      omega

theorem pos_of_mem_cells {c : Cell} (hpos : ∀ r ∈ rs, 0 < r.2) (hc : c ∈ cells (place base rs) rs) :
    0 < c.bytes := by
  induction rs generalizing base with
  | nil => simp [cells, place] at hc
  | cons r rs ih =>
    rw [cells_place_cons, List.mem_cons] at hc
    rcases hc with rfl | hc
    · exact hpos r List.mem_cons_self
    · exact ih (fun q hq => hpos q (List.mem_cons_of_mem r hq)) hc

/-- A later cell lies below an earlier one. -/
theorem pairwise_cells (hlimit : base + total rs ≤ stackLimit) (hpos : ∀ r ∈ rs, 0 < r.2) :
    (cells (place base rs) rs).Pairwise fun c c' => c'.disp < c.disp ∧ ∀ x, c.Covers x → ¬ c'.Covers x := by
  induction rs generalizing base with
  | nil => exact .nil
  | cons r rs ih =>
    rw [total] at hlimit
    have hpos' : ∀ q ∈ rs, 0 < q.2 := fun q hq => hpos q (List.mem_cons_of_mem r hq)
    rw [cells_place_cons]
    refine .cons (fun c hc => ?_) (ih (by omega) hpos')
    -- the later cell ends where the earlier one begins, or below
    have hbelow := (bounds_of_mem_cells (by omega) hc).2
    have hbytes := pos_of_mem_cells hpos' hc
    have hfirst := toInt_ofInt_neg (n := base + r.2) (by omega)
    constructor
    · rw [Int32.lt_iff_toInt_lt, hfirst]
      omega
    · intro x hx hx'
      have hle := hx.1
      have hlt := hx'.2
      rw [hfirst] at hle
      omega

namespace Selector

variable {s s' : Selector} {code before after : List Bytecode.Instruction}

/-! ## Steps -/

/-- The slots of the reservations are placed, and nothing else is reserved. -/
structure LaidOut (rs : List (Temp × Nat)) (s : Selector) : Prop where
  reserved : s.reserved = total rs
  limit : total rs ≤ stackLimit
  slots : s.slots = place 0 rs

theorem laidOut_empty : LaidOut [] empty :=
  ⟨rfl, Nat.zero_le _, rfl⟩

/-- A reservation of another temporary fails if and only if the frame would become too large. -/
theorem LaidOut.step_reservation (h : LaidOut rs s) (hi : i.reservation? = some (t, n))
    (hnew : t ∉ rs.map Prod.fst) :
    (stackLimit < total (rs ++ [(t, n)]) ∧ step i s = .error (.fault (.overflow .sub)) s) ∨
    ∃ s', step i s = .ok () s' ∧ LaidOut (rs ++ [(t, n)]) s' := by
  obtain ⟨hop, ht, bytes, ty, hsize, hpos, rfl⟩ := reservation?_eq_some hi
  have htotal : total (rs ++ [(t, bytes.toInt.toNat)]) = s.reserved + bytes.toInt.toNat := by
    rw [total_append, h.reserved]
    rfl
  have hfind : find? t s.slots = none := by
    rw [Assoc.find?_eq_none, h.slots, map_fst_place]
    exact hnew
  have hstep : step i s = reserve i.dest (.immediate bytes ty) s := by
    simp only [step, hop, hsize]
  rw [hstep, reserve_immediate i.dest t bytes ty ht hpos, htotal]
  by_cases hlimit : stackLimit < s.reserved + bytes.toInt.toNat
  · rw [if_pos hlimit]
    exact Or.inl ⟨hlimit, rfl⟩
  · rw [if_neg hlimit, if_neg (not_not.mpr hfind)]
    refine Or.inr ⟨_, rfl, htotal.symm, ?_, ?_⟩
    · rw [htotal]
      exact Nat.not_lt.mp hlimit
    · rw [place_concat, h.slots, h.reserved, Nat.zero_add]

/-- Other instructions reserve nothing. -/
theorem LaidOut.step_other (h : LaidOut rs s) (hop : i.opcode ≠ .push) (hs : step i s = .ok () s') :
    LaidOut rs s' := by
  rcases step_eq_ok hs with ⟨hpush, -⟩ | ⟨out, -, rfl⟩
  · exact absurd hpush hop
  · exact ⟨h.reserved, h.limit, h.slots⟩

/-- A selection succeeds, or one of its reservations makes the frame too large. -/
theorem steps_laidOut (hpush : ∀ i ∈ code, i.opcode = .push → i.reservation?.isSome)
    (hnodup : ((reservations code).map Prod.fst).Nodup)
    (hothers : ∀ before i after s, code = before ++ i :: after → i.opcode ≠ .push →
      steps before empty = .ok () s → ∃ s', step i s = .ok () s') :
    (∃ s, steps code empty = .ok () s ∧ LaidOut (reservations code) s) ∨
    (stackLimit < total (reservations code) ∧ ∃ s, steps code empty = .error (.fault (.overflow .sub)) s) := by
  -- the instructions before the last one meet the same conditions
  induction code using List.reverseRecOn with
  | nil => exact Or.inl ⟨empty, rfl, laidOut_empty⟩
  | append_singleton code i ih =>
    have hlast : reservations (code ++ [i]) = reservations code ++ i.reservation?.toList := by
      cases hr : i.reservation? <;> simp [reservations, hr]
    rw [hlast, List.map_append, List.nodup_append] at hnodup
    have hpush' : ∀ j ∈ code, j.opcode = .push → j.reservation?.isSome :=
      fun j hj => hpush j (List.mem_append_left _ hj)
    have hothers' : ∀ before j after s, code = before ++ j :: after → j.opcode ≠ .push →
        steps before empty = .ok () s → ∃ s', step j s = .ok () s' :=
      fun before j after s hcode => hothers before j (after ++ [i]) s (by simp [hcode])
    rw [hlast]
    rcases ih hpush' hnodup.1 hothers' with ⟨s, hs, h⟩ | ⟨hlimit, s, hs⟩
    · have hstep : steps (code ++ [i]) empty = step i s := by
        rw [steps_append_singleton]
        simp only [bind, EStateM.bind, hs]
      rw [hstep]
      by_cases hop : i.opcode = .push
      · obtain ⟨r, hr⟩ := Option.isSome_iff_exists.mp (hpush i (by simp) hop)
        have hnew : r.1 ∉ (reservations code).map Prod.fst := by
          intro hmem
          exact hnodup.2.2 _ hmem r.1 (by simp [hr]) rfl
        rw [hr, Option.toList_some]
        rcases h.step_reservation hr hnew with ⟨hlimit, herror⟩ | ⟨s', hok, h'⟩
        · exact Or.inr ⟨hlimit, s, herror⟩
        · exact Or.inl ⟨s', hok, h'⟩
      · obtain ⟨s', hok⟩ := hothers code i [] s rfl hop hs
        rw [reservation?_of_ne hop, Option.toList_none, List.append_nil]
        exact Or.inl ⟨s', hok, h.step_other hop hok⟩
    · refine Or.inr ⟨?_, s, steps_append_error hs⟩
      rw [total_append]
      exact Nat.lt_add_right _ hlimit

/-! ## The frame -/

theorem frameSize_eq (h : s.reserved ≤ 2147483632) : s.frameSize = .ok ((s.reserved + 15) / 16 * 16) := by
  rw [frameSize, stackLimit, if_neg (by omega), if_neg (by omega)]

theorem frameSize_error_iff (s : Selector) :
    (∃ op, s.frameSize = .error (.overflow op)) ↔ 2147483632 < s.reserved := by
  constructor
  · rintro ⟨op, herror⟩
    by_contra hle
    rw [frameSize_eq (Nat.not_lt.mp hle)] at herror
    cases herror
  · intro hlt
    rw [frameSize, stackLimit]
    by_cases hneg : 0x80000000 ≤ s.reserved
    · exact ⟨.neg, by rw [if_pos hneg]⟩
    · exact ⟨.add, by rw [if_neg hneg, if_pos (by omega)]⟩

/-- The frame is as small as it can be. -/
theorem frameSize_least (h : s.reserved ≤ 2147483632) : ∃ size, s.frameSize = .ok size ∧
    16 ∣ size ∧ s.reserved ≤ size ∧ ∀ m, 16 ∣ m → s.reserved ≤ m → size ≤ m := by
  refine ⟨_, frameSize_eq h, Nat.dvd_mul_left _ _, by omega, ?_⟩
  rintro m ⟨k, rfl⟩ hm
  omega

/-- Reservations of some bytes for different temporaries, with instructions between them that can be selected,
fail if and only if the bytes are too many. Otherwise the displacement of each slot is minus the number of bytes
up to its own; the cells lie one below the other, apart and within the frame. The size of the frame is the least
multiple of sixteen that has room for them, where it can be told. -/
theorem reservations_stacked (hpush : ∀ i ∈ code, i.opcode = .push → i.reservation?.isSome)
    (hnodup : ((reservations code).map Prod.fst).Nodup)
    (hothers : ∀ before i after s, code = before ++ i :: after → i.opcode ≠ .push →
      steps before empty = .ok () s → ∃ s', step i s = .ok () s') :
    ((∃ s, steps code empty = .error (.fault (.overflow .sub)) s) ↔ 2147483648 < total (reservations code)) ∧
    (total (reservations code) ≤ 2147483648 → ∃ s, steps code empty = .ok () s ∧
      s.slots.map Prod.fst = (reservations code).map Prod.fst ∧
      (∀ k t d, s.slots[k]? = some (t, d) → d.toInt = -(total ((reservations code).take (k + 1)) : Int)) ∧
      ((cells s.slots (reservations code)).Pairwise fun c c' =>
        c'.disp < c.disp ∧ ∀ x, c.Covers x → ¬ c'.Covers x) ∧
      (∀ size, s.frameSize = .ok size → ∀ c ∈ cells s.slots (reservations code), ∀ x, c.Covers x →
        -(size : Int) ≤ x ∧ x < 0) ∧
      ((∃ op, s.frameSize = .error (.overflow op)) ↔ 2147483632 < total (reservations code)) ∧
      (total (reservations code) ≤ 2147483632 → ∃ size, s.frameSize = .ok size ∧ 16 ∣ size ∧
        total (reservations code) ≤ size ∧
        ∀ m, 16 ∣ m → total (reservations code) ≤ m → size ≤ m)) := by
  have hlimit : stackLimit = 2147483648 := rfl
  rcases steps_laidOut hpush hnodup hothers with ⟨s, hs, h⟩ | ⟨htoo, s, hs⟩
  · have hle := h.limit
    have hzero : 0 + total (reservations code) ≤ stackLimit := by omega
    refine ⟨⟨fun ⟨u, hu⟩ => ?_, fun hlt => by omega⟩, fun _ => ⟨s, hs, ?_, ?_, ?_, ?_, ?_, ?_⟩⟩
    · rw [hs] at hu
      cases hu
    · rw [h.slots, map_fst_place]
    · intro k t d hk
      rw [h.slots] at hk
      rw [toInt_of_place hzero hk, Nat.zero_add]
    · rw [h.slots]
      exact pairwise_cells hzero (reservations_pos code)
    · intro size hsize c hc x hx
      rw [h.slots] at hc
      obtain ⟨hlow, hhigh⟩ := bounds_of_mem_cells hzero hc
      have hroom := reserved_le_frameSize hsize
      rw [h.reserved] at hroom
      unfold Cell.Covers at hx
      omega
    · rw [frameSize_error_iff, h.reserved]
    · intro hsmall
      rw [← h.reserved] at hsmall ⊢
      exact frameSize_least hsmall
  · exact ⟨⟨fun _ => hlimit ▸ htoo, fun _ => ⟨s, hs⟩⟩, fun hle => by omega⟩

/-- Three slots of different sizes, which are used in between. -/
def spread : List Bytecode.Instruction :=
  [⟨.push, .register ⟨0⟩ .slot, .immediate 4 .slot, .none⟩,
   ⟨.store, .none, .register ⟨0⟩ .slot, .immediate 7 .word⟩,
   ⟨.push, .register ⟨3⟩ .slot, .immediate 17 .slot, .none⟩,
   ⟨.load, .register ⟨4⟩ .word, .register ⟨3⟩ .slot, .none⟩,
   ⟨.push, .register ⟨1⟩ .slot, .immediate 1 .slot, .none⟩,
   ⟨.ret, .none, .register ⟨4⟩ .word, .none⟩]

/-- Two slots, of which the first one is as large as it can be. -/
def huge (bytes : Int32) : List Bytecode.Instruction :=
  [⟨.push, .register ⟨0⟩ .slot, .immediate 2147483647 .slot, .none⟩,
   ⟨.push, .register ⟨1⟩ .slot, .immediate bytes .slot, .none⟩]

/-- Instructions of a selection that succeeds can be selected. -/
theorem step_of_steps {u : Selector} (h : steps (before ++ i :: after) empty = .ok () u)
    (hs : steps before empty = .ok () s) : ∃ s', step i s = .ok () s' := by
  rw [steps_append] at h
  obtain ⟨⟨⟩, s₁, hbefore, h⟩ := bind_eq_ok.mp h
  obtain ⟨s₂, hstep, -⟩ := steps_cons_eq_ok h
  rw [hs] at hbefore
  cases hbefore
  exact ⟨s₂, hstep⟩

/-- The frame of three slots; a frame whose size cannot be told; and a frame that is too large. -/
theorem reservations_stacked_limits :
    (∃ s, steps spread empty = .ok () s ∧ s.frameSize = .ok 32 ∧
      (∀ k t d, s.slots[k]? = some (t, d) → d.toInt = -(total ((reservations spread).take (k + 1)) : Int)) ∧
      ∀ c ∈ cells s.slots (reservations spread), ∀ x, c.Covers x → -32 ≤ x ∧ x < 0) ∧
    (∃ s, steps (huge 1) empty = .ok () s ∧ ∃ op, s.frameSize = .error (.overflow op)) ∧
    ∃ s, steps (huge 2) empty = .error (.fault (.overflow .sub)) s := by
  have hhuge : ∀ bytes before i after s, huge bytes = before ++ i :: after → i.opcode ≠ .push →
      steps before empty = .ok () s → ∃ s', step i s = .ok () s' := by
    intro bytes before i after s hcode hop
    have hmem : i ∈ huge bytes := by simp [hcode]
    have hall : ∀ j ∈ huge bytes, j.opcode = .push := by simp [huge]
    exact absurd (hall i hmem) hop
  refine ⟨?_, ?_, ?_⟩
  · obtain ⟨u, hu⟩ : ∃ u, steps spread empty = .ok () u := ⟨_, rfl⟩
    obtain ⟨-, h⟩ := @reservations_stacked spread (by decide) (by decide)
      fun before i after s hcode _ hs => step_of_steps (hcode ▸ hu) hs
    obtain ⟨s, hs, -, hdisp, -, hwithin, -, hsize⟩ := h (by decide)
    obtain ⟨size, hok, hdvd, hroom, hleast⟩ := hsize (by decide)
    have htotal : total (reservations spread) = 22 := by decide
    obtain rfl : size = 32 := by
      have := hleast 32 (by decide) (by omega)
      omega
    exact ⟨s, hs, hok, hdisp, hwithin 32 hok⟩
  · obtain ⟨-, h⟩ := @reservations_stacked (huge 1) (by decide) (by decide) (hhuge 1)
    obtain ⟨s, hs, -, -, -, -, herror, -⟩ := h (by decide)
    exact ⟨s, hs, herror.mpr (by decide)⟩
  · obtain ⟨h, -⟩ := @reservations_stacked (huge 2) (by decide) (by decide) (hhuge 2)
    exact h.mpr (by decide)

end Selector

end Machine

end ArithJit
