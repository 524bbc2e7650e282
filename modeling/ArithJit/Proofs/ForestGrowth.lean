import ArithJit.Proofs.Blame
import ArithJit.Proofs.Grounded
import ArithJit.Proofs.History
import ArithJit.Proofs.ParserMoves

/-!
# Proofs: how the forest of a session grows

The nodes of a session form trees (`Forest.Arranged`). Parsing adds nodes behind those that are there, operands
before operators, and leaves them when it fails. Each move of the parser takes the children of a node that it adds
from the stack, so no node is taken twice, and what is on the stack was added in the same call
(`Parser.Sprouts`).
-/

namespace ArithJit

open Bytecode (Builder)

/-! ## Trees of a forest -/

/-- Whether the node is a block. -/
def Node.isBlock : Node → Bool
  | block _ => true
  | _ => false

namespace Forest

variable {f : Forest} {node : Node} {span : Span} {id c : NodeId}

/-- The children of all nodes, one after the other. -/
def places (f : Forest) : List NodeId :=
  f.nodes.toList.flatMap fun x => x.1.children

/-- Each child has a smaller number than its parent and is no block, and no node is a child twice. -/
structure Arranged (f : Forest) : Prop where
  grounded : f.Grounded
  plain : ∀ c ∈ f.places, (f.get? c).any Node.isBlock = false
  once : f.places.Nodup

theorem arranged_empty : empty.Arranged where
  grounded := by
    intro id node hnode
    cases hnode
  plain := by
    intro c hc
    cases hc
  once := List.nodup_nil

theorem places_add (f : Forest) (node : Node) (span : Span) :
    (f.add node span).2.places = f.places ++ node.children := by
  rw [places, add, Array.toList_push, List.flatMap_append]
  simp [places]

theorem getElem?_nodes_add (f : Forest) (node : Node) (span : Span) (i : Nat) :
    (f.add node span).2.nodes[i]? = if i = f.size then some (node, span) else f.nodes[i]? :=
  Array.getElem?_push

theorem get?_add_of_ne (f : Forest) (node : Node) (span : Span) (h : id.index ≠ f.size) :
    (f.add node span).2.get? id = f.get? id := by
  rw [get?, getElem?_nodes_add, if_neg h]
  rfl

theorem mem_places : c ∈ f.places ↔ ∃ id node, f.get? id = some node ∧ c ∈ node.children := by
  rw [places, List.mem_flatMap]
  constructor
  · rintro ⟨x, hx, hc⟩
    obtain ⟨i, hi⟩ := List.mem_iff_getElem?.mp hx
    rw [Array.getElem?_toList] at hi
    exact ⟨⟨i⟩, x.1, by rw [get?, hi]; rfl, hc⟩
  · rintro ⟨id, node, hnode, hc⟩
    obtain ⟨x, hx, rfl⟩ := Option.map_eq_some_iff.mp hnode
    exact ⟨x, Array.mem_toList_iff.mpr (Array.mem_of_getElem? hx), hc⟩

theorem Grounded.place_lt (hf : f.Grounded) (hc : c ∈ f.places) : c.index < f.size := by
  obtain ⟨id, node, hnode, hmem⟩ := mem_places.mp hc
  exact Nat.lt_trans (hf id node hnode c hmem) (index_lt_size hnode)

/-- A node may be added over some that are not children yet. -/
theorem Arranged.add (hf : f.Arranged) (hlt : ∀ c ∈ node.children, c.index < f.size)
    (hplain : ∀ c ∈ node.children, (f.get? c).any Node.isBlock = false)
    (honce : (node.children ++ f.places).Nodup) : (f.add node span).2.Arranged where
  grounded := by
    intro id other hother c hc
    by_cases hid : id.index = f.size
    · rw [get?, getElem?_nodes_add, if_pos hid] at hother
      cases hother
      rw [hid]
      exact hlt c hc
    · rw [get?_add_of_ne f node span hid] at hother
      exact hf.grounded id other hother c hc
  plain := by
    intro c hc
    rw [places_add, List.mem_append] at hc
    have hold : c.index < f.size ∧ (f.get? c).any Node.isBlock = false :=
      hc.elim (fun h => ⟨hf.grounded.place_lt h, hf.plain c h⟩) fun h => ⟨hlt c h, hplain c h⟩
    rw [get?_add_of_ne f node span (Nat.ne_of_lt hold.1)]
    exact hold.2
  once := by
    rw [places_add]
    exact List.perm_append_comm.nodup_iff.mp honce

end Forest

/-! ## Moves -/

namespace Parser

variable {p q : Parser} {tokens us : List Token} {t : Token} {c d : Stacked} {base : Nat}
  {stack others : List NodeId} {node : Node} {span : Span} {symbols symbols' : SymbolTable}

/-- A node that is made of some tokens: it is no block, its children are numbered from `base` on, and a name is
that of a token with the same span. -/
structure Sprouted (tokens : List Token) (base : Nat) (symbols : SymbolTable) (node : Node)
    (span : Span) : Prop where
  plain : node.isBlock = false
  children : ∀ c ∈ node.children, base ≤ c.index
  named : ∀ x, node = .name x →
    ∃ t ∈ tokens, t.kind = .identifier ∧ t.span = .ok span ∧ symbols.name? x = some t.lexeme

theorem Sprouted.mono (h : Sprouted tokens base symbols node span) (hn : symbols.names <+: symbols'.names) :
    Sprouted tokens base symbols' node span where
  plain := h.plain
  children := h.children
  named := by
    intro x hx
    obtain ⟨t, ht, hkind, hspan, hname⟩ := h.named x hx
    exact ⟨t, ht, hkind, hspan, SymbolTable.name?_mono hn hname⟩

/-- The nodes form trees, those from `base` on are made of the tokens, and those on the stack are among them and
are no children yet. -/
structure Sprouts (tokens : List Token) (base : Nat) (c : Stacked) : Prop where
  rest : ∀ t ∈ c.1.rest, t ∈ tokens
  size : base ≤ c.1.forest.size
  arranged : c.1.forest.Arranged
  new : ∀ i node span, c.1.forest.nodes[i]? = some (node, span) → base ≤ i →
    Sprouted tokens base c.1.symbols node span
  waiting : ∀ id ∈ c.2, base ≤ id.index ∧ id.index < c.1.forest.size
  once : (c.2 ++ c.1.forest.places).Nodup

/-- The nodes on the stack are no blocks. -/
theorem Sprouts.plain (h : Sprouts tokens base c) {id : NodeId} (hid : id ∈ c.2) :
    (c.1.forest.get? id).any Node.isBlock = false := by
  obtain ⟨hbase, hlt⟩ := h.waiting id hid
  have hget : c.1.forest.nodes[id.index]? = some c.1.forest.nodes[id.index] := Array.getElem?_eq_getElem hlt
  rw [Forest.get?, hget]
  exact (h.new id.index _ _ hget hbase).plain

theorem Sprouts.take (h : Sprouts tokens base (p, stack)) (ht : p.rest = t :: us) :
    Sprouts tokens base ({ p with rest := us }, stack) where
  rest u hu := h.rest u (by rw [ht]; exact List.mem_cons_of_mem t hu)
  size := h.size
  arranged := h.arranged
  new := h.new
  waiting := h.waiting
  once := h.once

theorem Sprouts.intern (h : Sprouts tokens base (p, stack)) (name : String) :
    Sprouts tokens base ({ p with symbols := (p.symbols.intern name).2 }, stack) where
  rest := h.rest
  size := h.size
  arranged := h.arranged
  new i node span hi hbase := (h.new i node span hi hbase).mono (p.symbols.names_intern name)
  waiting := h.waiting
  once := h.once

/-- A node is added over some of those on the stack. -/
theorem Sprouts.arranged_add (h : Sprouts tokens base (p, stack))
    (hperm : stack.Perm (node.children ++ others)) :
    (p.withNode node span).forest.Arranged := by
  have hmem : ∀ c ∈ node.children, c ∈ stack := fun c hc => hperm.mem_iff.mpr (List.mem_append_left others hc)
  have honce : (node.children ++ others ++ p.forest.places).Nodup := (hperm.append_right _).nodup_iff.mp h.once
  refine h.arranged.add (fun c hc => (h.waiting c (hmem c hc)).2) (fun c hc => h.plain (hmem c hc)) ?_
  exact honce.sublist ((List.sublist_append_left _ others).append (.refl _))

/-- The new node takes the place of its children. -/
theorem Sprouts.add (h : Sprouts tokens base (p, stack)) (hperm : stack.Perm (node.children ++ others))
    (hnode : Sprouted tokens base p.symbols node span) :
    Sprouts tokens base (p.withNode node span, ⟨p.forest.size⟩ :: others) where
  rest := h.rest
  size := Nat.le_trans h.size (Nat.le_of_lt (Forest.index_lt_size (p.get?_withNode node span)))
  arranged := h.arranged_add hperm
  new := by
    intro i other span' hi hbase
    have hi : (p.forest.add node span).2.nodes[i]? = some (other, span') := hi
    rw [Forest.getElem?_nodes_add] at hi
    split at hi
    · cases hi
      exact hnode
    · exact h.new i other span' hi hbase
  waiting := by
    have hsize : p.forest.size < (p.withNode node span).forest.size :=
      Forest.index_lt_size (p.get?_withNode node span)
    refine List.forall_mem_cons.mpr ⟨⟨h.size, hsize⟩, fun id hid => ?_⟩
    obtain ⟨hbase, hlt⟩ := h.waiting id (hperm.mem_iff.mpr (List.mem_append_right _ hid))
    exact ⟨hbase, Nat.lt_trans hlt hsize⟩
  once := by
    change ((⟨p.forest.size⟩ :: others) ++ (p.forest.add node span).2.places).Nodup
    have hperm' : (stack ++ p.forest.places).Perm (others ++ (p.forest.places ++ node.children)) := by
      refine (hperm.append_right _).trans ?_
      rw [List.append_assoc, ← List.append_assoc others]
      exact List.perm_append_comm
    rw [Forest.places_add, List.cons_append, List.nodup_cons]
    refine ⟨fun hmem => ?_, hperm'.nodup_iff.mp h.once⟩
    -- the number is a new one
    have hlt : ∀ id ∈ stack ++ p.forest.places, id.index < p.forest.size := by
      intro id hid
      exact (List.mem_append.mp hid).elim (fun hid => (h.waiting id hid).2) h.arranged.grounded.place_lt
    exact Nat.lt_irrefl _ (hlt _ (hperm'.mem_iff.mpr hmem))

theorem Move.sprouts (h : Move c d) (hc : Sprouts tokens base c) : Sprouts tokens base d := by
  cases h with
  | sign next kind => exact hc.take next
  | number next kind small placed => exact (hc.take next).add (.refl _) ⟨rfl, nofun, nofun⟩
  | @name p t us stack span next kind placed =>
    refine ((hc.take next).intern t.lexeme).add (.refl _) ⟨rfl, nofun, ?_⟩
    intro x hx
    cases hx
    exact ⟨t, hc.rest t (by rw [next]; exact List.mem_cons_self), kind, placed, p.symbols.name?_intern t.lexeme⟩
  | join p left right op stack =>
    refine hc.add (List.Perm.swap left right stack) ⟨rfl, ?_, nofun⟩
    intro id hid
    have hmem : id ∈ right :: left :: stack := by
      rcases List.mem_pair.mp hid with rfl | rfl <;> simp
    exact (hc.waiting id hmem).1

theorem Moves.sprouts (h : Moves c d) (hc : Sprouts tokens base c) : Sprouts tokens base d :=
  h.preserve (fun _ _ => Move.sprouts) hc

theorem Quits.sprouts (h : Quits p q) (hp : Sprouts tokens base (p, stack)) :
    Sprouts tokens base (q, stack) := by
  cases h with
  | here => exact hp
  | token next kind => exact hp.take next
  | name next kind => exact (hp.take next).intern _

theorem sprouts_ofTokens {forest : Forest} (h : forest.Arranged) (tokens : List Token) (symbols : SymbolTable) :
    Sprouts tokens forest.size (ofTokens tokens forest symbols, []) where
  rest _ ht := ht
  size := Nat.le_refl _
  arranged := h
  new _ _ _ hi hbase := absurd (Array.getElem?_eq_some_iff.mp hi).1 (Nat.not_lt_of_le hbase)
  waiting := nofun
  once := h.once

end Parser

/-! ## Parsing in a session -/

/-- The tokens of a text have spans of their own. -/
theorem Orderly.eq_of_span {ts : List Token} (h : Orderly ts) {t u : Token} {span : Span} (ht : t ∈ ts)
    (hu : u ∈ ts) (hspan : t.span = .ok span) (hspan' : u.span = .ok span) : u = t := by
  have hpairs := List.pairwise_iff_getElem.mp h.ordered
  have hnot : ∀ v w : Token, v.span = .ok span → w.span = .ok span → ¬ v.Precedes w := by
    intro v w hv hw hprecedes
    have hlt := (hprecedes.span_lt hv hw).1
    exact Position.not_lt_of_lt hlt hlt
  obtain ⟨i, hi, rfl⟩ := List.getElem_of_mem ht
  obtain ⟨j, hj, rfl⟩ := List.getElem_of_mem hu
  rcases Nat.lt_trichotomy i j with hlt | rfl | hlt
  · exact absurd (hpairs i j hi hj hlt) (hnot _ _ hspan hspan')
  · rfl
  · exact absurd (hpairs j i hj hi hlt) (hnot _ _ hspan' hspan)

namespace Session

variable {s s' s'' : Session} {source : String} {tokens : List Token} {base i : Nat}
  {result : Except Failure NodeId} {node : Node} {span : Span}

/-- A node that parsing a text makes: its children were made by the same call, before it; a block is what the call
returns; a name has the symbol of the token with its span, and there is no other such token. -/
structure Makes (source : String) (base : Nat) (result : Except Failure NodeId) (symbols : SymbolTable)
    (i : Nat) (node : Node) (span : Span) : Prop where
  children : ∀ c ∈ node.children, base ≤ c.index ∧ c.index < i
  block : ∀ ids, node = .block ids → result = .ok ⟨i⟩
  name : ∀ x, node = .name x → ∃ tokens t, tokenize source = .ok tokens ∧ t ∈ tokens ∧
    t.kind = .identifier ∧
    t.span = .ok span ∧ (∀ u ∈ tokens, u.span = .ok span → u = t) ∧ symbols.name? x = some t.lexeme

theorem makes_of_sprouts {c : Parser.Stacked} (h : Parser.Sprouts tokens base c)
    (ht : tokenize source = .ok tokens)
    (hi : c.1.forest.nodes[i]? = some (node, span)) (hbase : base ≤ i) :
    Makes source base result c.1.symbols i node span := by
  have hsprouted := h.new i node span hi hbase
  have hnode : c.1.forest.get? ⟨i⟩ = some node := by
    rw [Forest.get?, hi]
    rfl
  refine ⟨fun id hid => ⟨hsprouted.children id hid, h.arranged.grounded ⟨i⟩ node hnode id hid⟩, ?_, ?_⟩
  · rintro ids rfl
    cases hsprouted.plain
  · intro x hx
    obtain ⟨t, hmem, hkind, hspan, hname⟩ := hsprouted.named x hx
    exact ⟨tokens, t, ht, hmem, hkind, hspan,
      fun u hu hspan' => (orderly_tokenize ht).eq_of_span hmem hu hspan hspan', hname⟩

/-- Parsing a text adds nodes that it makes, and the nodes form trees as before. -/
theorem parse_makes (hs : s.forest.Arranged) (source : String) : (s.parse source).2.forest.Arranged ∧
    ∀ i node span, (s.parse source).2.forest.nodes[i]? = some (node, span) → s.forest.size ≤ i →
      Makes source s.forest.size (s.parse source).1 (s.parse source).2.symbols i node span := by
  rw [parse]
  cases ht : tokenize source with
  | error e =>
    refine ⟨hs, fun i node span hi hbase => ?_⟩
    exact absurd (Array.getElem?_eq_some_iff.mp hi).1 (Nat.not_lt_of_le hbase)
  | ok tokens =>
    have hstart := Parser.sprouts_ofTokens hs tokens s.symbols
    have hruns := Parser.runs_program (.ofTokens tokens s.forest s.symbols)
    rw [Runs] at hruns
    simp only [EStateM.run]
    cases hrun : Parser.program (.ofTokens tokens s.forest s.symbols) with
    | error e q =>
      rw [hrun] at hruns
      obtain ⟨r, stack, hmoves, hquits, -⟩ := hruns
      have hq := hquits.sprouts (hmoves.sprouts hstart)
      exact ⟨hq.arranged, fun i node span hi hbase => makes_of_sprouts hq ht hi hbase⟩
    | ok root q =>
      rw [hrun] at hruns
      obtain ⟨ids, r, hmoves, rfl, first, vs, stop, us, start, last, -, -, -, -, -, rfl⟩ := hruns
      have hr := hmoves.sprouts hstart
      have hperm : ids.reverse.Perm ((Node.block ids).children ++ []) := by
        rw [List.append_nil]
        exact List.reverse_perm ids
      refine ⟨hr.arranged_add hperm, fun i node span hi hbase => ?_⟩
      have hi : (r.forest.add (.block ids) (start.merge last)).2.nodes[i]? = some (node, span) := hi
      rw [Forest.getElem?_nodes_add] at hi
      split at hi
      · next hsize =>
        cases hi
        subst hsize
        refine ⟨fun c hc => hr.waiting c (List.mem_reverse.mpr hc), fun _ _ => rfl, fun x hx => ?_⟩
        cases hx
      · exact makes_of_sprouts hr ht hi hbase

/-! ## Histories -/

/-- The nodes form trees, and their names have symbols. -/
structure Tended (s : Session) : Prop where
  arranged : s.forest.Arranged
  named : ∀ id x, s.forest.get? id = some (.name x) → ∃ text, s.symbols.name? x = some text

theorem Tended.parse (h : s.Tended) (source : String) : (s.parse source).2.Tended := by
  obtain ⟨harranged, hmakes⟩ := parse_makes h.arranged source
  refine ⟨harranged, fun id x hid => ?_⟩
  by_cases hnew : s.forest.size ≤ id.index
  · obtain ⟨y, hy, hname⟩ := Option.map_eq_some_iff.mp hid
    obtain ⟨tokens, t, -, -, -, -, -, hsymbol⟩ := (hmakes id.index y.1 y.2 hy hnew).name x hname
    exact ⟨t.lexeme, hsymbol⟩
  · -- an older node is as it was
    obtain ⟨node, hnode⟩ := Forest.exists_get? (Nat.lt_of_not_le hnew)
    have hkept := (s.grows_parse source).forest.extends id node hnode
    rw [hid] at hkept
    cases hkept
    obtain ⟨text, htext⟩ := h.named id x hnode
    exact ⟨text, SymbolTable.name?_mono (s.grows_parse source).symbols htext⟩

theorem Tended.perform (h : s.Tended) (call : Call) : (s.perform call).Tended := by
  cases call with
  | bind name value =>
    refine ⟨h.arranged, fun id x hid => ?_⟩
    obtain ⟨text, htext⟩ := h.named id x hid
    exact ⟨text, SymbolTable.name?_mono (s.symbols.names_intern name) htext⟩
  | parse source => exact h.parse source
  | run source =>
    obtain ⟨u, hu⟩ := s.exists_run_session source
    obtain ⟨harranged, hnamed⟩ := h.parse source
    rw [Session.perform, hu]
    exact ⟨harranged, hnamed⟩
  | interpret | bytecode | compile => exact h

theorem Tended.performAll (h : s.Tended) (calls : List Call) : (s.performAll calls).Tended := by
  induction calls generalizing s with
  | nil => exact h
  | cons call calls ih => exact ih (h.perform call)

theorem tended_new (options : Options) (host : Native.Host) : (Session.new options host).Tended :=
  ⟨Forest.arranged_empty, nofun⟩

/-! ## Evaluating and building later -/

variable {root : NodeId}

/-- Evaluating a node gives the same later on, and the same text for an unknown name. -/
theorem Tended.evaluate_eq (h : s.Tended) (hg : Grows s s') (hroot : root.index < s.forest.size) :
    s'.forest.evaluate s'.symbols root = s.forest.evaluate s.symbols root := by
  have hnames : ∀ id x, s.forest.get? id = some (.name x) → s'.symbols.nameOf x = s.symbols.nameOf x := by
    intro id x hid
    obtain ⟨text, htext⟩ := h.named id x hid
    rw [SymbolTable.nameOf, SymbolTable.nameOf, htext, SymbolTable.name?_mono hg.symbols htext]
  have hroot' : root.index < s'.forest.size := Nat.lt_of_lt_of_le hroot hg.forest.size_le
  exact h.arranged.grounded.evaluateWithin_eq hg.forest hnames hroot (Forest.lt_levels hroot)
    (Forest.lt_levels hroot')

theorem Tended.node_eq (h : s.Tended) (hg : Grows s s') (hroot : root.index < s.forest.size) :
    Builder.node s'.forest root = Builder.node s.forest root := by
  have hroot' : root.index < s'.forest.size := Nat.lt_of_lt_of_le hroot hg.forest.size_le
  exact h.arranged.grounded.nodeWithin_eq hg.forest hroot (Forest.lt_levels hroot) (Forest.lt_levels hroot')

end Session

/-- The forest of a session only grows, by trees. Whatever was asked of a session before and is asked of it
afterwards, parsing a text and all later calls keep the nodes with their spans and the names. Tokens that cannot be
read change nothing. Each new node is made as `Session.Makes` says. No node is the child of two places, and no block
is a child at all. As long as there are at most `2 ^ 32` nodes, their numbers fit in words of 32 bits. So a program
evaluates and is built as before after any later calls, and without a fault. -/
theorem forest_grows_by_trees (options : Options) (host : Native.Host) (before : List Session.Call)
    (source : String) (after : List Session.Call) :
    let u := (Session.new options host).performAll before
    let v := (u.parse source).2
    let w := v.performAll after
    u.Grows v ∧ v.Grows w ∧ (∀ e, tokenize source = .error e → v = u) ∧
    (∀ i node span, v.forest.nodes[i]? = some (node, span) → u.forest.size ≤ i →
      Session.Makes source u.forest.size (u.parse source).1 v.symbols i node span) ∧
    v.forest.places.Nodup ∧ (∀ c ∈ v.forest.places, ∀ ids, v.forest.get? c ≠ some (.block ids)) ∧
    (w.forest.size ≤ 4294967296 → ∀ id node, w.forest.get? id = some node →
      (UInt32.ofNat id.index).toNat = id.index) ∧
    ∀ root, (u.parse source).1 = .ok root →
      w.forest.evaluate w.symbols root = v.forest.evaluate v.symbols root ∧
      Faultless (v.forest.evaluate v.symbols root) ∧
      Builder.node w.forest root = Builder.node v.forest root ∧
      ∀ b : Builder, b.Valid → ∃ o b', Builder.node v.forest root b = .ok o b' := by
  intro u v w
  have hu : u.Tended := (Session.tended_new options host).performAll before
  have hv : v.Tended := hu.parse source
  have hw : v.Grows w := v.grows_performAll after
  obtain ⟨-, hmakes⟩ := Session.parse_makes hu.arranged source
  refine ⟨u.grows_parse source, hw, ?_, hmakes, hv.arranged.once, ?_, ?_, ?_⟩
  · intro e he
    change (u.parse source).2 = u
    rw [Session.parse, he]
  · intro c hc ids hblock
    have hplain := hv.arranged.plain c hc
    rw [hblock] at hplain
    cases hplain
  · intro hfew id node hnode
    exact UInt32.toNat_ofNat_of_lt (Nat.lt_of_lt_of_le (Forest.index_lt_size hnode) hfew)
  · intro root hroot
    have hreads := u.reads_parse source
    rw [← Prod.eta (u.parse source), hroot] at hreads
    obtain ⟨es, hes, -⟩ := hreads
    have hlt : root.index < v.forest.size := by
      obtain ⟨children, hnode, -⟩ := hes
      exact Forest.index_lt_size hnode
    have hfaultless := hv.arranged.grounded.faultless_evaluateWithin v.symbols hlt (Forest.lt_levels hlt)
    refine ⟨hv.evaluate_eq hw hlt, hfaultless, hv.node_eq hw hlt, fun b hb => ?_⟩
    rw [Forest.HoldsAll.node hes hb]
    by_cases hnil : es = []
    · rw [if_pos hnil]
      exact ⟨_, _, rfl⟩
    · rw [if_neg hnil]
      exact ⟨_, _, rfl⟩

/-- A text that was rejected has left two nodes. The program after it has nine, and its value and its code stay
the same when another text is rejected and another program gives `y` a value. -/
theorem forest_grows_by_trees_later :
    let u := (Session.new {}).performAll [.parse "a + (b", .bind "x" (.integer 4)]
    let v := (u.parse "y = x * 3; y - 1").2
    let w := v.performAll [.parse "z z", .run "y = 2"]
    (u.parse "y = x * 3; y - 1").1 = .ok ⟨10⟩ ∧
    (u.forest.size, v.forest.size, w.forest.size) = (2, 11, 16) ∧
    w.interpret ⟨10⟩ = .ok (.integer 11) ∧ ∃ o b, Builder.node w.forest ⟨10⟩ .empty = .ok o b := by
  intro u v w
  have hroot : (u.parse "y = x * 3; y - 1").1 = .ok ⟨10⟩ := by decide +kernel
  obtain ⟨-, -, -, -, -, -, -, hlater⟩ :=
    forest_grows_by_trees {} .system [.parse "a + (b", .bind "x" (.integer 4)] "y = x * 3; y - 1"
      [.parse "z z", .run "y = 2"]
  obtain ⟨hevaluate, -, hnode, hbuilds⟩ := hlater ⟨10⟩ hroot
  have hvalue : v.interpret ⟨10⟩ = .ok (.integer 11) := by decide +kernel
  have hbindings : w.bindings = v.bindings := by decide +kernel
  have hsame : w.evaluate ⟨10⟩ = v.evaluate ⟨10⟩ := by
    rw [Session.evaluate, Session.evaluate, hbindings]
    exact congrArg (EStateM.run · _) hevaluate
  refine ⟨hroot, by decide +kernel, ?_, ?_⟩
  · rw [Session.interpret, hsame]
    exact hvalue
  · obtain ⟨o, b, hb⟩ := hbuilds .empty Builder.valid_empty
    exact ⟨o, b, (congrFun hnode .empty).trans hb⟩

end ArithJit
