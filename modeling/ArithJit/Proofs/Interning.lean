import ArithJit.Symbol
import ArithJit.Proofs.Association
import Mathlib.Data.List.Forall2
import Mathlib.Data.List.Induction

/-!
# Proofs: interning

Symbols and names determine each other. A table only grows, so a symbol keeps its name and a name keeps its
symbol. Names that are interned one after the other (`SymbolTable.internAll`) get the numbers from zero on, in the
order in which they come first (`SymbolTable.Numbers`).
-/

namespace ArithJit.SymbolTable

variable {t u : SymbolTable} {x y : Symbol} {name : String} {texts : List String} {xs : List Symbol}

/-! ## One table -/

theorem name?_inj (hx : t.name? x = some name) (hy : t.name? y = some name) : x = y :=
  Option.some.inj ((find?_eq_some_iff.mpr hx).symm.trans (find?_eq_some_iff.mpr hy))

theorem isSome_name? : (t.name? x).isSome ↔ x.index < t.size := by
  rw [name?, Option.isSome_iff_ne_none, ne_eq, List.getElem?_eq_none_iff, Nat.not_le, size]

/-- The names of a table are those that have a symbol. -/
theorem mem_names : name ∈ t.names ↔ ∃ x, t.find? name = some x := by
  rw [List.mem_iff_getElem?]
  constructor
  · rintro ⟨i, hi⟩
    exact ⟨⟨i⟩, find?_eq_some_iff.mpr hi⟩
  · rintro ⟨x, hx⟩
    exact ⟨x.index, find?_eq_some_iff.mp hx⟩

/-! ## Interning a name -/

/-- A name that has a symbol keeps it, and the table stays as it is. Any other name becomes the last one. -/
theorem intern_cases (t : SymbolTable) (name : String) :
    (t.find? name = some (t.intern name).1 ∧ (t.intern name).2 = t) ∨
    (t.find? name = none ∧ (t.intern name).1 = ⟨t.size⟩ ∧ (t.intern name).2.names = t.names ++ [name]) := by
  rw [intern]
  split
  · next x h => exact .inl ⟨h, rfl⟩
  · next h => exact .inr ⟨h, rfl, rfl⟩

theorem names_intern (t : SymbolTable) (name : String) : t.names <+: (t.intern name).2.names := by
  rcases t.intern_cases name with ⟨-, htable⟩ | ⟨-, -, hnames⟩
  · exact ⟨[], by rw [htable, List.append_nil]⟩
  · exact ⟨[name], hnames.symm⟩

theorem name?_intern (t : SymbolTable) (name : String) :
    (t.intern name).2.name? (t.intern name).1 = some name := by
  rcases t.intern_cases name with ⟨hfind, htable⟩ | ⟨-, hsymbol, hnames⟩
  · rw [htable]
    exact find?_eq_some_iff.mp hfind
  · rw [name?, hsymbol, hnames]
    exact List.getElem?_concat_length

theorem name?_mono (h : t.names <+: u.names) (hx : t.name? x = some name) : u.name? x = some name := by
  obtain ⟨more, hmore⟩ := h
  rw [name?] at hx ⊢
  rw [← hmore, List.getElem?_append_left (List.getElem?_eq_some_iff.mp hx).1, hx]

theorem find?_mono (h : t.names <+: u.names) (hx : t.find? name = some x) : u.find? name = some x :=
  find?_eq_some_iff.mpr (name?_mono h (find?_eq_some_iff.mp hx))

/-! ## Interning names one after the other -/

/-- The symbols of some names, asked for one after the other, and the table that then has them. -/
def internAll (t : SymbolTable) : List String → List Symbol × SymbolTable
  | [] => ([], t)
  | name :: rest =>
    ((t.intern name).1 :: ((t.intern name).2.internAll rest).1, ((t.intern name).2.internAll rest).2)

theorem internAll_append (t : SymbolTable) (texts more : List String) :
    t.internAll (texts ++ more) = ((t.internAll texts).1 ++ ((t.internAll texts).2.internAll more).1,
      ((t.internAll texts).2.internAll more).2) := by
  induction texts generalizing t with
  | nil => rfl
  | cons name texts ih => rw [List.cons_append, internAll, internAll, ih, List.cons_append]

theorem names_internAll (t : SymbolTable) (texts : List String) : t.names <+: (t.internAll texts).2.names := by
  induction texts generalizing t with
  | nil => exact List.prefix_refl _
  | cons name texts ih => exact (t.names_intern name).trans (ih _)

/-- The symbols `xs` were given for the names `texts`, in this order, and the table `t` has these names only. -/
structure Numbers (texts : List String) (xs : List Symbol) (t : SymbolTable) : Prop where
  named : List.Forall₂ (fun name x => t.name? x = some name) texts xs
  names : t.names = texts.eraseDups
  symbols : xs.eraseDups = (List.range t.size).map Symbol.mk

theorem Numbers.mem_texts (h : Numbers texts xs t) : name ∈ texts ↔ ∃ x, t.find? name = some x := by
  rw [← mem_names, h.names, List.mem_eraseDups]

theorem Numbers.mem_symbols (h : Numbers texts xs t) : x ∈ xs ↔ x.index < t.size := by
  rw [← List.mem_eraseDups, h.symbols, List.mem_map]
  constructor
  · rintro ⟨i, hi, rfl⟩
    exact List.mem_range.mp hi
  · intro hlt
    exact ⟨x.index, List.mem_range.mpr hlt, rfl⟩

/-- One more name is given its symbol: the one it has, or the next one. -/
theorem Numbers.intern (h : Numbers texts xs t) (name : String) :
    Numbers (texts ++ [name]) (xs ++ [(t.intern name).1]) (t.intern name).2 := by
  have hnamed : List.Forall₂ (fun s x => (t.intern name).2.name? x = some s) (texts ++ [name])
      (xs ++ [(t.intern name).1]) :=
    List.rel_append (h.named.imp fun _ _ hx => name?_mono (t.names_intern name) hx)
      (.cons (t.name?_intern name) .nil)
  rcases t.intern_cases name with ⟨hfind, htable⟩ | ⟨hfind, hsymbol, hnames⟩
  · -- the name came before, and so did its symbol
    have htext : name ∈ texts := h.mem_texts.mpr ⟨_, hfind⟩
    have hold : (t.intern name).1 ∈ xs := by
      rw [h.mem_symbols, ← isSome_name?, find?_eq_some_iff.mp hfind]
      rfl
    refine ⟨hnamed, ?_, ?_⟩
    · rw [htable, h.names, eraseDups_append_of_subset (by simpa using htext)]
    · rw [htable, ← h.symbols, eraseDups_append_of_subset (by simpa using hold)]
  · -- the name is new, and all symbols so far are below the size of the table
    have htext : name ∉ texts := by
      rw [h.mem_texts, hfind]
      simp
    have hnew : (⟨t.size⟩ : Symbol) ∉ xs := by
      rw [h.mem_symbols]
      exact Nat.lt_irrefl _
    have hsize : (t.intern name).2.size = t.size + 1 := by
      rw [size, hnames, List.length_append]
      rfl
    refine ⟨hnamed, ?_, ?_⟩
    · rw [hnames, h.names, eraseDups_concat htext]
    · rw [hsymbol, eraseDups_concat hnew, h.symbols, hsize, List.range_succ, List.map_append]
      rfl

/-- From the empty table on, the names are numbered in the order in which they come first. -/
theorem numbers_internAll (texts : List String) :
    Numbers texts (empty.internAll texts).1 (empty.internAll texts).2 := by
  -- a name is new or not with respect to those before it, so the last one is taken off
  induction texts using List.reverseRecOn with
  | nil => exact ⟨.nil, rfl, rfl⟩
  | append_singleton texts name ih =>
    rw [internAll_append]
    exact ih.intern name

/-- A name has the symbol that it was given, and only the names that were given a symbol have one. -/
theorem Numbers.find?_eq_some (h : Numbers texts xs t) : t.find? name = some x ↔ (name, x) ∈ texts.zip xs := by
  obtain ⟨hlength, hzip⟩ := List.forall₂_iff_zip.mp h.named
  constructor
  · intro hfind
    have htext : name ∈ (texts.zip xs).map Prod.fst := by
      rw [List.map_fst_zip (Nat.le_of_eq hlength)]
      exact h.mem_texts.mpr ⟨x, hfind⟩
    obtain ⟨⟨s, y⟩, hmem, rfl⟩ := List.mem_map.mp htext
    obtain rfl : x = y := name?_inj (find?_eq_some_iff.mp hfind) (hzip hmem)
    exact hmem
  · intro hmem
    exact find?_eq_some_iff.mpr (hzip hmem)

/-- Interning is a stable bijection. When the names `texts` are interned one after the other, each of them
gets a symbol; two symbols are equal exactly if their names are. A symbol that was given leads back to its
name. The names that were interned, and no others, have a symbol, and it is the one that was given. The
symbols are the numbers below the size of the table, in the order in which the names came first. Interning
more names changes no name and no symbol that is there. As long as there are fewer than `2 ^ 32` names, their
symbols fit in words of 32 bits. -/
theorem interning_is_stable_bijection (texts more : List String) {xs ys : List Symbol} {t later : SymbolTable}
    (hgiven : empty.internAll texts = (xs, t)) (hmore : t.internAll more = (ys, later))
    (hfew : (texts ++ more).eraseDups.length < 4294967296) :
    xs.length = texts.length ∧
    (∀ s x s' x', (s, x) ∈ texts.zip xs → (s', x') ∈ texts.zip xs → (x = x' ↔ s = s')) ∧
    (∀ s x, (s, x) ∈ texts.zip xs → t.name? x = some s) ∧
    (∀ s x, t.find? s = some x ↔ (s, x) ∈ texts.zip xs) ∧
    (∀ s, (t.find? s).isSome ↔ s ∈ texts) ∧
    (∀ x, (t.name? x).isSome ↔ x.index < t.size) ∧
    t.names = texts.eraseDups ∧ xs.eraseDups = (List.range t.size).map Symbol.mk ∧
    (∀ x s, t.name? x = some s → later.name? x = some s) ∧
    (∀ s x, t.find? s = some x → later.find? s = some x) ∧
    ∀ x ∈ xs ++ ys, (UInt32.ofNat x.index).toNat = x.index := by
  have h : Numbers texts xs t := by
    have hnumbers := numbers_internAll texts
    rw [hgiven] at hnumbers
    exact hnumbers
  have hlater : Numbers (texts ++ more) (xs ++ ys) later := by
    have hnumbers := numbers_internAll (texts ++ more)
    rw [internAll_append, hgiven, hmore] at hnumbers
    exact hnumbers
  have hgrows : t.names <+: later.names := by
    have hprefix := t.names_internAll more
    rw [hmore] at hprefix
    exact hprefix
  have hnamed : ∀ s x, (s, x) ∈ texts.zip xs → t.name? x = some s :=
    fun s x hmem => find?_eq_some_iff.mp (h.find?_eq_some.mpr hmem)
  refine ⟨h.named.length_eq.symm, ?_, hnamed, fun s x => h.find?_eq_some, ?_, fun x => isSome_name?, h.names,
    h.symbols, fun x s hx => name?_mono hgrows hx, fun s x hx => find?_mono hgrows hx, ?_⟩
  · intro s x s' x' hx hx'
    have hs := hnamed s x hx
    have hs' := hnamed s' x' hx'
    constructor
    · rintro rfl
      exact Option.some.inj (hs.symm.trans hs')
    · rintro rfl
      exact name?_inj hs hs'
  · intro s
    rw [h.mem_texts, Option.isSome_iff_exists]
  · intro x hx
    have hsize : later.size = (texts ++ more).eraseDups.length := congrArg List.length hlater.names
    have hlt : x.index < 4294967296 := Nat.lt_trans (hlater.mem_symbols.mp hx) (hsize ▸ hfew)
    exact UInt32.toNat_ofNat_of_lt hlt

/-- A name that comes again gets the symbol that it has, and it keeps it when another name gets one. -/
theorem interning_is_stable_bijection_repeated :
    (["x", "y", "x"] ++ ["z", "y"]).eraseDups.length < 4294967296 ∧ ∃ t later,
    empty.internAll ["x", "y", "x"] = ([⟨0⟩, ⟨1⟩, ⟨0⟩], t) ∧
    t.internAll ["z", "y"] = ([⟨2⟩, ⟨1⟩], later) ∧
    t.names = ["x", "y"] ∧ t.find? "y" = some ⟨1⟩ ∧ (t.find? "z").isSome = false ∧
    later.find? "y" = some ⟨1⟩ := by
  have hfew : (["x", "y", "x"] ++ ["z", "y"]).eraseDups.length < 4294967296 := by
    decide
  obtain ⟨-, -, -, hfind, hknown, -, hnames, -, -, hkept, -⟩ :=
    interning_is_stable_bijection ["x", "y", "x"] ["z", "y"] rfl rfl hfew
  have hy := (hfind "y" ⟨1⟩).mpr (by decide)
  refine ⟨hfew, _, _, rfl, rfl, hnames.trans (by decide), hy, ?_, hkept "y" ⟨1⟩ hy⟩
  rw [← Bool.not_eq_true, hknown]
  decide

end ArithJit.SymbolTable
