import Stencil.Assembly
import Stencil.Proofs.Forest
import Stencil.Proofs.Levels

/-!
# The flat form of a compilation

The state of a compilation into the flat form is the flat form of the state of the compilation: the
trees that are finished have their entries, and an open block has an empty slot in front of the
entries of what is inside it. Main statement: the compilation into the flat form gives the entries
of the forest (`assemble_eq`).
-/

namespace Stencil

open Procedure (Entry Draft Ledger numbers flatten flattenNode flattenBranch)

/-! ### The flat form of an open forest -/

/-- What is inside an open block whose number is `i`. -/
def OpenBlock.entries (o : OpenBlock) (i : Nat) : List Entry :=
  flatten (some i) (i + 1) o.body ++
    flattenBranch (some i) (i + 1 + Node.sizeAll o.body) o.otherwise

/-- An open block as it is in the flat form. -/
def OpenBlock.draft (o : OpenBlock) (parent : Option Nat) (i : Nat) : Draft :=
  { index := i, parent, head := o.head, outerScope := o.outerScope
    body := numbers (i + 1) o.body
    otherwise := o.otherwise.map (numbers (i + 1 + Node.sizeAll o.body)) }

namespace OpenBlock

theorem length_entries (o : OpenBlock) (i : Nat) :
    (o.entries i).length = Node.sizeAll o.body + Node.sizeBranch o.otherwise := by
  rw [entries, List.length_append, Procedure.length_flatten, Procedure.length_flattenBranch]

/-- A tree that is added to an open block has the numbers behind those inside the block. -/
theorem entries_append (o : OpenBlock) (i : Nat) (n : Node) :
    (o.append [n]).entries i =
      o.entries i ++ flattenNode (some i) (i + ((o.entries i).length + 1)) n := by
  rw [length_entries]
  rcases o with ⟨head, outer, body, otherwise⟩
  cases otherwise with
  | none =>
    have hi : i + 1 + Node.sizeAll body = i + (Node.sizeAll body + 0 + 1) := by omega
    simp only [append, entries, Procedure.flatten_append, Procedure.flatten_singleton,
      flattenBranch, List.append_nil, Node.sizeBranch, hi]
  | some es =>
    have hi : i + 1 + Node.sizeAll body + Node.sizeAll es =
        i + (Node.sizeAll body + Node.sizeAll es + 1) := by omega
    simp only [append, entries, Procedure.flatten_append, Procedure.flatten_singleton,
      flattenBranch, List.append_assoc, Node.sizeBranch, hi]

theorem draft_append (o : OpenBlock) (parent : Option Nat) (i : Nat) (n : Node) :
    (o.append [n]).draft parent i =
      (o.draft parent i).attach (i + ((o.entries i).length + 1)) := by
  rw [length_entries]
  rcases o with ⟨head, outer, body, otherwise⟩
  cases otherwise with
  | none =>
    have hi : i + 1 + Node.sizeAll body = i + (Node.sizeAll body + 0 + 1) := by omega
    simp only [append, draft, Draft.attach, Procedure.numbers_append, numbers, Option.map_none,
      Node.sizeBranch, hi]
  | some es =>
    have hi : i + 1 + Node.sizeAll body + Node.sizeAll es =
        i + (Node.sizeAll body + Node.sizeAll es + 1) := by omega
    simp only [append, draft, Draft.attach, Procedure.numbers_append, numbers, Option.map_some,
      Node.sizeBranch, hi]

/-- A block that is closed has the entries that it had while it was open. -/
theorem flattenNode_toNode (o : OpenBlock) (parent : Option Nat) (i : Nat) :
    flattenNode parent i o.toNode = (o.draft parent i).toEntry :: o.entries i := by
  simp only [toNode, flattenNode, draft, Draft.toEntry, entries]

end OpenBlock

namespace Builder

/-- The forest `top` and the blocks that are open behind it, in the flat form. -/
def ledgerOf (top : List Node) : List OpenBlock → Ledger
  | [] => { slots := (flatten none 0 top).map some, body := numbers 0 top }
  | o :: os =>
    let around := ledgerOf top os
    let i := around.slots.length
    let named := around.attach i
    { slots := around.slots ++ none :: (o.entries i).map some
      body := named.body
      pending := o.draft around.parent i :: named.pending }

def ledger (b : Builder) : Ledger := ledgerOf b.top b.pending

def assembly (b : Builder) : Assembly :=
  { count := b.binder.count
    scopes := b.binder.scopes
    bounds := b.binder.levels.map Level.bound
    ledger := b.ledger }

end Builder

namespace Procedure.Ledger

/-- A slot that is reserved at the end and filled at once. -/
theorem fill_reserve (l : Ledger) (e : Entry) :
    l.reserve.fill l.slots.length e = { l with slots := l.slots ++ [some e] } := by
  simp [reserve, fill]

theorem attach_with_slots (l : Ledger) (slots : List (Option Entry)) (i : Nat) :
    ({ l with slots := slots } : Ledger).attach i = { l.attach i with slots := slots } := by
  rcases l with ⟨_, body, pending⟩
  cases pending <;> rfl

end Procedure.Ledger

namespace Builder

/-- A tree that is added to an open forest has the next numbers. -/
theorem ledger_emit (b : Builder) (n : Node) :
    (b.emit [n]).ledger =
      { b.ledger.attach b.ledger.slots.length with
        slots := b.ledger.slots ++
          (flattenNode b.ledger.parent b.ledger.slots.length n).map some } := by
  rcases b with ⟨binder, top, pending⟩
  cases pending with
  | nil =>
    simp only [emit, ledger, ledgerOf, Procedure.flatten_append, Procedure.numbers_append,
      Procedure.flatten_singleton, numbers, Ledger.attach, Ledger.parent, List.head?_nil,
      Option.map_none, List.length_map, Procedure.length_flatten, List.map_append, Nat.zero_add]
  | cons o os =>
    simp only [emit, ledger, ledgerOf, OpenBlock.entries_append, OpenBlock.draft_append,
      Ledger.parent, List.head?_cons, Option.map_some, List.length_append, List.length_cons,
      List.length_map, List.map_append, List.append_assoc, List.cons_append]
    rfl

theorem ledger_emit_leaf (b : Builder) {n : Node}
    (hn : ∀ parent i, flattenNode parent i n = [.leaf parent n]) :
    (b.emit [n]).ledger = b.ledger.add n := by
  have hattach := Ledger.attach_with_slots b.ledger
    (b.ledger.slots ++ [some (.leaf b.ledger.parent n)]) b.ledger.slots.length
  rw [ledger_emit, hn]
  simp only [Ledger.add, Ledger.fill_reserve, hattach, List.map_cons, List.map_nil]

theorem ledger_emit_binds (b : Builder) (p : Position) (es : List Binding) :
    (b.emit (es.map (.bind p))).ledger = b.ledger.addAll (es.map (.bind p)) := by
  induction es generalizing b with
  | nil => rw [List.map_nil, emit_nil, Ledger.addAll, List.foldl_nil]
  | cons e es ih =>
    have hone : (b.emit [.bind p e]).ledger = b.ledger.add (.bind p e) :=
      b.ledger_emit_leaf fun _ _ => rfl
    have hcons : b.emit (.bind p e :: es.map (.bind p)) =
        (b.emit [.bind p e]).emit (es.map (.bind p)) :=
      (emit_emit b [.bind p e] (es.map (.bind p))).symm
    rw [List.map_cons, hcons, ih, hone]
    rfl

/-- A block that is closed has its entry in the slot that was reserved for it. -/
theorem ledger_close (b : Builder) (binder : Binder) {o : OpenBlock} {os : List OpenBlock}
    (ho : b.pending = o :: os) :
    (({ b with binder := binder, pending := os } : Builder).emit [o.toNode]).ledger =
      b.ledger.close := by
  rw [ledger_emit, OpenBlock.flattenNode_toNode]
  simp only [ledger, ho, ledgerOf, Ledger.close, Ledger.fill, OpenBlock.draft, List.map_cons,
    List.set_append_right, Nat.le_refl, Nat.sub_self, List.set_cons_zero]

theorem ledger_openBlock (b : Builder) (binder : Binder) (head : BlockHead) (outerScope : Ref) :
    ({ b with binder := binder, pending := { head, outerScope } :: b.pending } : Builder).ledger =
      b.ledger.openBlock head outerScope := by
  have hattach := Ledger.attach_with_slots b.ledger (b.ledger.slots ++ [none])
    b.ledger.slots.length
  simp only [Ledger.openBlock, Ledger.reserve, hattach]
  simp only [ledger, ledgerOf, OpenBlock.entries, OpenBlock.draft, flatten, flattenBranch,
    numbers, List.append_nil, List.map_nil, Option.map_none]

end Builder

/-! ### Markers and pieces -/

namespace Builder

variable {b : Builder} {p : Position}

@[simp] theorem binder_assembly (b : Builder) : b.assembly.binder = b.binder := by
  have hlevels : ∀ ls : List Level,
      (ls.map Level.scope).zipWith Level.mk (ls.map Level.bound) = ls := by
    intro ls
    induction ls with
    | nil => rfl
    | cons l ls ih => simp only [List.map_cons, List.zipWith_cons_cons, ih]
  unfold Assembly.binder assembly Binder.scopes
  simp only [hlevels]

@[simp] theorem scope_assembly (b : Builder) : b.assembly.scope = b.binder.scope := rfl

theorem pending_ledger_nil (ho : b.pending = []) : b.assembly.ledger.pending = [] := by
  simp only [assembly, ledger, ho, ledgerOf]

theorem pending_ledger_cons {o : OpenBlock} {os : List OpenBlock} (ho : b.pending = o :: os) :
    ∃ parent i ds, b.assembly.ledger.pending = o.draft parent i :: ds := by
  simp only [assembly, ledger, ho, ledgerOf]
  exact ⟨_, _, _, rfl⟩

theorem assembly_emit (b : Builder) {n : Node}
    (hn : ∀ parent i, flattenNode parent i n = [.leaf parent n]) :
    (b.emit [n]).assembly = { b.assembly with ledger := b.assembly.ledger.add n } := by
  have hbinder : (b.emit [n]).binder = b.binder := by
    rcases b with ⟨binder, top, pending⟩
    cases pending <;> rfl
  unfold assembly
  rw [hbinder, ledger_emit_leaf b hn]

theorem assembly_emitText (b : Builder) (source : List Char) (offset : Nat) (cs : List Char) :
    (b.emitText source offset cs).assembly = b.assembly.addText source offset cs := by
  unfold emitText Assembly.addText
  split
  · rfl
  · exact assembly_emit b fun _ _ => rfl

theorem assembly_bind (b : Builder) (p : Position) (paths : List String) :
    b.assembly.bind p paths =
      (b.bind p paths).map fun r => (r.1.assembly, r.2) := by
  unfold Assembly.bind bind
  rw [binder_assembly]
  rcases hbind : b.binder.bind paths with ⟨binder, e | bounds⟩
  · rfl
  · have hwithin := (Binder.bindsEach_of_bind hbind).within
    simp only [Except.map, Except.ok.injEq, Prod.mk.injEq, and_true]
    rw [emit_with_binder]
    unfold assembly
    rw [hwithin.scopes]
    congr 1
    exact (ledger_emit_binds b p _).symm

theorem assembly_close (b : Builder) (helper : String) :
    b.assembly.close helper = (b.close helper).map assembly := by
  unfold Assembly.close close
  cases ho : b.pending with
  | nil => simp only [pending_ledger_nil ho, Except.map]
  | cons o os =>
    obtain ⟨parent, i, ds, hd⟩ := pending_ledger_cons ho
    simp only [hd]
    change (if o.head.helper = helper then _ else _) = _
    split
    · simp only [Except.map, Except.ok.injEq]
      have hbinder : (({ b with binder := b.binder.pop, pending := os } : Builder).emit
          [o.toNode]).binder = b.binder.pop := by
        cases os <;> rfl
      unfold assembly
      rw [hbinder, ledger_close b b.binder.pop ho]
      simp only [Binder.pop, Binder.scopes, List.map_tail]
    · rfl

theorem assembly_branch (b : Builder) (helper : String) (hl : b.binder.levels ≠ []) :
    b.assembly.branch helper = (b.branch helper).map assembly := by
  unfold Assembly.branch branch
  cases ho : b.pending with
  | nil => simp only [pending_ledger_nil ho, Except.map]
  | cons o os =>
    obtain ⟨parent, i, ds, hd⟩ := pending_ledger_cons ho
    simp only [hd]
    rcases o with ⟨head, outer, body, otherwise⟩
    cases otherwise with
    | some es => rfl
    | none =>
      obtain ⟨l, ls, hls⟩ := List.exists_cons_of_ne_nil hl
      simp only [OpenBlock.draft, Option.map_none, Except.map, assembly, ledger,
        Binder.replace, Binder.modify, hls, Binder.scopes, List.map_cons, List.tail_cons,
        ho, ledgerOf, Ledger.branch, OpenBlock.entries, flattenBranch, flatten, Option.map_some,
        numbers]

theorem assembly_openBlock (b : Builder) (p : Position) (helper : String)
    (run : List Value → Passes) (scopePath : String) (paths : List String) :
    b.assembly.openBlock p helper run scopePath paths =
      (b.openBlock p helper run scopePath paths).map assembly := by
  simp only [Assembly.openBlock, openBlock, assembly_bind]
  cases hbind : b.bind p (paths ++ if (scopePath != "") = true then [scopePath] else []) with
  | error e => rfl
  | ok r =>
    obtain ⟨c, refs⟩ := r
    simp only [Except.map, binder_assembly, scope_assembly, Except.ok.injEq]
    generalize splitScope (scopePath != "") c.binder.scope refs = divided
    cases hname : nameFor c.binder scopePath divided.1 with
    | mk scopeName binder =>
      have hlevels : binder.levels = c.binder.levels := by
        have h := levels_nameFor c.binder scopePath divided.1
        rwa [hname] at h
      cases scopeName with
      | none =>
        simp only [assembly, ledger_openBlock, Binder.push, Binder.scopes, hlevels, List.map_cons]
      | some a =>
        simp only [assembly, ledger_openBlock, Binder.push, Binder.scopes, hlevels, List.map_cons]

theorem assembly_orStop (r : Except Fault Builder) :
    Marker.orStop (r.map assembly) = (Marker.orStop r).map assembly := by
  cases r <;> rfl

/-- A marker does to the flat form of a state what it does to the state. -/
theorem assembly_apply (b : Builder) (p : Position) (m : Marker) (hl : b.binder.levels ≠ []) :
    b.assembly.apply p m = (b.apply p m).map assembly := by
  cases hf : m.fragment with
  | opening helper run closed =>
    simp only [Assembly.apply, apply, hf, assembly_openBlock]
    cases b.openBlock p helper run m.scope m.paths with
    | error e => rfl
    | ok c =>
      cases closed with
      | true =>
        change Marker.orStop (c.assembly.close helper) = (Marker.orStop (c.close helper)).map _
        rw [assembly_close, assembly_orStop]
      | false => rfl
  | closing helper =>
    simp only [Assembly.apply, apply, hf, assembly_close, assembly_orStop]
  | branch helper =>
    simp only [Assembly.apply, apply, hf, assembly_branch b helper hl, assembly_orStop]
  | output escape constant =>
    cases constant with
    | some v =>
      simp only [Assembly.apply, apply, hf, Except.map]
      rw [assembly_emit b fun _ _ => rfl]
    | none =>
      simp only [Assembly.apply, apply, hf, assembly_bind]
      cases b.bind p m.paths with
      | error e => rfl
      | ok r =>
        simp only [Except.map]
        rw [assembly_emit r.1 fun _ _ => rfl]
  | call helper args escape =>
    simp only [Assembly.apply, apply, hf, assembly_bind]
    cases b.bind p m.paths with
    | error e => rfl
    | ok r =>
      simp only [Except.map]
      rw [assembly_emit r.1 fun _ _ => rfl]

end Builder

namespace Workshop

variable {w : Workshop} {name : Option String} {source : List Char} {b : Builder}

theorem assemblePiece_eq (h : b.Levelled) (q : Piece) :
    w.assemblePiece name source b.assembly q = (w.step name source b q).map Builder.assembly := by
  cases q with
  | unclosed offset => rfl
  | marker offset body trailing =>
    simp only [assemblePiece, step, assembleMarker, applyMarker, Builder.scope_assembly]
    cases hm : Marker.read w.registry w.config body b.binder.scope.text with
    | error e => rfl
    | ok m =>
      simp only [Builder.assembly_apply b _ m h.levels_ne_nil]
      cases b.apply (.ofOffset source offset) m with
      | error e => rfl
      | ok c => simp only [Except.map, Builder.assembly_emitText]

/-- Wherever a compilation gets to, the compilation into the flat form gets to the same state. -/
theorem assemblePieces_eq (h : b.Levelled) (ps : List Piece) :
    w.assemblePieces name source b.assembly ps =
      (w.steps name source b ps).map Builder.assembly := by
  induction ps generalizing b with
  | nil => rfl
  | cons q ps ih =>
    simp only [assemblePieces, steps, assemblePiece_eq h]
    cases hq : w.step name source b q with
    | error e => rfl
    | ok c => exact ih (levelled_step h hq)

theorem assembly_start (source : List Char) (cs : List Char) :
    ({} : Assembly).addText source 0 cs = (({} : Builder).emitText source 0 cs).assembly :=
  (Builder.assembly_emitText {} source 0 cs).symm

/-- A compilation into the flat form gives the entries of the forest, or stops at the same mistake:
a slot for every node, all of them filled, and the numbers of the trees. -/
theorem assemble_eq (w : Workshop) (source : String) (name : Option String) :
    w.assemble source name = (w.compile source name).map fun t =>
      { slots := (Procedure.entries t.nodes).map some, body := numbers 0 t.nodes } := by
  unfold assemble compile compileStripped
  have hstart := Builder.Levelled.initial.emitText (Text.strip source.toList) 0
    (Piece.scan w.config.startTag.toList w.config.endTag.toList (Text.strip source.toList)).1
  simp only [assembly_start, assemblePieces_eq hstart]
  cases hb : w.steps name (Text.strip source.toList) _ _ with
  | error e => rfl
  | ok b =>
    simp only [Except.map, assembled, finish]
    cases ho : b.pending with
    | nil =>
      simp only [Builder.pending_ledger_nil ho, Except.ok.injEq]
      simp only [Builder.assembly, Builder.ledger, ho, Builder.ledgerOf]
      rfl
    | cons o os =>
      obtain ⟨parent, i, ds, hd⟩ := Builder.pending_ledger_cons ho
      simp only [hd]
      rfl

end Workshop

end Stencil
