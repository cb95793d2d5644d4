import Stencil.Procedure.Listing
import Stencil.Proofs.Mirror

/-!
# Rows of a listing

The lines of a listing by the nodes that they are for. They are laid out by the blocks (`Layout`):
every node has one row for its statement, in the order of the numbers and indented by the blocks
around it, and the rows of what is inside a block stand between those that open, divide and close
it. The recursion over a forest lists such lines (`layout_entries`).
-/

namespace Stencil.Listing

open Procedure (Entry LiesAt BlockAt WellFormed Climbs Contains entries numbers flatten flattenNode
  flattenBranch enclosing lies_cons blockAt_of_lies)

variable {acc : String} {es : List Entry}

/-- A line of a listing: the number of the node that it is for, and its part in what is listed for
the node. -/
inductive Row
  | statement (i : Nat)
  | scopeName (i : Nat)
  | otherwise (i : Nat)
  | close (i : Nat)

namespace Row

def node : Row → Nat
  | .statement i => i
  | .scopeName i => i
  | .otherwise i => i
  | .close i => i

def statement? : Row → Option Nat
  | .statement i => some i
  | _ => none

end Row

/-- The number of blocks around a node. -/
def depth (es : List Entry) (i : Nat) : Nat := (enclosing es i).length

/-- The line of a row. -/
inductive Shows (acc : String) (es : List Entry) : Row → String → Prop
  | leaf {i : Nat} {q : Option Nat} {n : Node} (here : es[i]? = some (.leaf q n)) :
      Shows acc es (.statement i) (pad (depth es i) ++ statement acc n)
  | opening {i : Nat} {q : Option Nat} {h : BlockHead} {b : List Nat} {o : Option (List Nat)}
      (here : es[i]? = some (.block q h b o)) :
      Shows acc es (.statement i) (pad (depth es i) ++ openingText h)
  | scopeName {i : Nat} {q : Option Nat} {h : BlockHead} {b : List Nat} {o : Option (List Nat)}
      {a : String} (here : es[i]? = some (.block q h b o)) (named : h.scopeName = some a) :
      Shows acc es (.scopeName i)
        (pad (depth es i + 1) ++ "var " ++ a ++ " = " ++ h.scope.text ++ ";")
  | otherwise {i : Nat} {q : Option Nat} {h : BlockHead} {b o : List Nat}
      (here : es[i]? = some (.block q h b (some o))) :
      Shows acc es (.otherwise i) (elseLine (depth es i))
  | close {i : Nat} {q : Option Nat} {h : BlockHead} {b : List Nat} {o : Option (List Nat)}
      (here : es[i]? = some (.block q h b o)) : Shows acc es (.close i) (closeLine (depth es i))

def scopeNameRows (h : BlockHead) (i : Nat) : List Row :=
  match h.scopeName with
  | some _ => [.scopeName i]
  | none => []

/-- The row between the body of a block and its branch, if it has one. -/
def otherwiseRows {α : Type} (i : Nat) : Option α → List Row
  | some _ => [.otherwise i]
  | none => []

/-- The number is one of a list, or a block of the list contains the node that has it. -/
def Within (es : List Entry) (cs : List Nat) (i : Nat) : Prop := ∃ c ∈ cs, c = i ∨ Contains es c i

/-- Lines are laid out by the blocks of a flat form: they are those of rows of which every node has
one for its statement, in the order of the numbers. The rows of a block frame those of its body and
of its branch. -/
structure Layout (acc : String) (es : List Entry) (rows : List Row) (lines : List String) :
    Prop where
  shown : List.Forall₂ (Shows acc es) rows lines
  once : rows.Nodup
  statements : rows.filterMap Row.statement? = List.range es.length
  blocks : ∀ (p : Nat) q h b o, es[p]? = some (Entry.block q h b o) →
    ∃ before inBody inBranch after,
      rows = before ++ (.statement p :: scopeNameRows h p ++ inBody ++
        (otherwiseRows p o ++ inBranch) ++ [.close p]) ++ after ∧
      (∀ r, r ∈ inBody ↔ r ∈ rows ∧ Within es b r.node) ∧
      ∀ r, r ∈ inBranch ↔ r ∈ rows ∧ Within es (o.getD []) r.node

/-! ### Rows by recursion -/

mutual

def rowsNode (first : Nat) : Node → List Row
  | .block h body otherwise =>
    .statement first :: scopeNameRows h first ++ rowsOf (first + 1) body ++
      (otherwiseRows first otherwise ++ rowsBranch (first + 1 + Node.sizeAll body) otherwise) ++
      [.close first]
  | _ => [.statement first]

/-- The rows of a forest whose first tree has the number `first`. -/
def rowsOf (first : Nat) : List Node → List Row
  | [] => []
  | n :: ns => rowsNode first n ++ rowsOf (first + n.size) ns

def rowsBranch (first : Nat) : Option (List Node) → List Row
  | none => []
  | some ns => rowsOf first ns

end

theorem eq_of_mem_scopeNameRows {h : BlockHead} {i : Nat} {r : Row}
    (hr : r ∈ scopeNameRows h i) : r = .scopeName i := by
  unfold scopeNameRows at hr
  split at hr
  · exact List.mem_singleton.1 hr
  · cases hr

theorem eq_of_mem_otherwiseRows {α : Type} {o : Option α} {i : Nat} {r : Row}
    (hr : r ∈ otherwiseRows i o) : r = .otherwise i := by
  cases o with
  | none => cases hr
  | some ns => exact List.mem_singleton.1 hr

theorem filterMap_scopeNameRows (h : BlockHead) (i : Nat) :
    (scopeNameRows h i).filterMap Row.statement? = [] := by
  unfold scopeNameRows
  cases h.scopeName with
  | none => rfl
  | some a => rfl

theorem filterMap_otherwiseRows {α : Type} (o : Option α) (i : Nat) :
    (otherwiseRows i o).filterMap Row.statement? = [] := by
  cases o with
  | none => rfl
  | some ns => rfl

/-! ### Every statement once -/

mutual

theorem statements_rowsNode (first : Nat) (n : Node) :
    (rowsNode first n).filterMap Row.statement? = List.range' first n.size := by
  match n with
  | .block h body otherwise =>
    have hsize : (Node.block h body otherwise).size =
        Node.sizeAll body + Node.sizeBranch otherwise + 1 := by
      rw [Node.size]
      omega
    rw [hsize, List.range'_succ, ← List.range'_append_1, rowsNode]
    simp only [List.cons_append, List.filterMap_cons, List.filterMap_append, List.filterMap_nil,
      Row.statement?, filterMap_scopeNameRows, filterMap_otherwiseRows, statements_rowsOf,
      statements_rowsBranch, List.nil_append, List.append_nil]
  | .text .. => rfl
  | .bind .. => rfl
  | .output .. => rfl
  | .call .. => rfl

theorem statements_rowsOf (first : Nat) (ns : List Node) :
    (rowsOf first ns).filterMap Row.statement? = List.range' first (Node.sizeAll ns) := by
  match ns with
  | [] => rfl
  | n :: ns =>
    rw [rowsOf, Node.sizeAll, List.filterMap_append, statements_rowsNode, statements_rowsOf,
      List.range'_append_1]

theorem statements_rowsBranch (first : Nat) (o : Option (List Node)) :
    (rowsBranch first o).filterMap Row.statement? = List.range' first (Node.sizeBranch o) := by
  match o with
  | none => rfl
  | some ns => exact statements_rowsOf first ns

end

/-! ### Rows of different nodes -/

theorem cases_of_mem_rowsNode {first : Nat} {h : BlockHead} {body : List Node}
    {other : Option (List Node)} {r : Row} (hr : r ∈ rowsNode first (.block h body other)) :
    r.node = first ∨ r ∈ rowsOf (first + 1) body ∨
      r ∈ rowsBranch (first + 1 + Node.sizeAll body) other := by
  simp only [rowsNode, List.cons_append, List.mem_cons, List.mem_append, List.not_mem_nil,
    or_false] at hr
  rcases hr with hr | ((hr | hr) | hr | hr) | hr
  · exact .inl (congrArg Row.node hr)
  · exact .inl (congrArg Row.node (eq_of_mem_scopeNameRows hr))
  · exact .inr (.inl hr)
  · exact .inl (congrArg Row.node (eq_of_mem_otherwiseRows hr))
  · exact .inr (.inr hr)
  · exact .inl (congrArg Row.node hr)

mutual

theorem node_of_mem_rowsNode {first : Nat} {r : Row} (n : Node) (hr : r ∈ rowsNode first n) :
    first ≤ r.node ∧ r.node < first + n.size := by
  match n with
  | .block h body otherwise =>
    rw [Node.size]
    rcases cases_of_mem_rowsNode hr with hr | hr | hr
    · omega
    · have := node_of_mem_rowsOf body hr
      omega
    · have := node_of_mem_rowsBranch otherwise hr
      omega
  | .text .. | .bind .. | .output .. | .call .. =>
    change r ∈ [Row.statement first] at hr
    rw [List.mem_singleton.1 hr]
    exact ⟨Nat.le_refl first, Nat.lt_succ_self first⟩

theorem node_of_mem_rowsOf {first : Nat} {r : Row} (ns : List Node) (hr : r ∈ rowsOf first ns) :
    first ≤ r.node ∧ r.node < first + Node.sizeAll ns := by
  match ns with
  | [] => cases hr
  | n :: ns =>
    rw [Node.sizeAll]
    rcases List.mem_append.1 hr with hr | hr
    · have := node_of_mem_rowsNode n hr
      omega
    · have := node_of_mem_rowsOf ns hr
      omega

theorem node_of_mem_rowsBranch {first : Nat} {r : Row} (o : Option (List Node))
    (hr : r ∈ rowsBranch first o) : first ≤ r.node ∧ r.node < first + Node.sizeBranch o := by
  match o with
  | none => cases hr
  | some ns => exact node_of_mem_rowsOf ns hr

end

mutual

theorem nodup_rowsNode (first : Nat) (n : Node) : (rowsNode first n).Nodup := by
  match n with
  | .block h body otherwise =>
    have hname : ∀ r ∈ scopeNameRows h first, r = .scopeName first :=
      fun r hr => eq_of_mem_scopeNameRows hr
    have hother : ∀ r ∈ otherwiseRows first otherwise, r = .otherwise first :=
      fun r hr => eq_of_mem_otherwiseRows hr
    have hbody : ∀ r ∈ rowsOf (first + 1) body,
        first < r.node ∧ r.node < first + 1 + Node.sizeAll body := by
      intro r hr
      have := node_of_mem_rowsOf body hr
      omega
    have hbranch : ∀ r ∈ rowsBranch (first + 1 + Node.sizeAll body) otherwise,
        first + 1 + Node.sizeAll body ≤ r.node := by
      intro r hr
      have := node_of_mem_rowsBranch otherwise hr
      omega
    have hnodup := nodup_rowsOf (first + 1) body
    have hnodup' := nodup_rowsBranch (first + 1 + Node.sizeAll body) otherwise
    have hnames : (scopeNameRows h first).Nodup := by
      unfold scopeNameRows
      split <;> simp
    have hothers : (otherwiseRows first otherwise).Nodup := by
      cases otherwise <;> simp [otherwiseRows]
    rw [rowsNode]
    simp only [List.cons_append, List.nodup_cons, List.nodup_append, List.mem_append]
    grind [Row.node]
  | .text .. | .bind .. | .output .. | .call .. =>
    show [Row.statement first].Nodup
    simp

theorem nodup_rowsOf (first : Nat) (ns : List Node) : (rowsOf first ns).Nodup := by
  match ns with
  | [] => exact List.nodup_nil
  | n :: ns =>
    rw [rowsOf, List.nodup_append]
    refine ⟨nodup_rowsNode first n, nodup_rowsOf (first + n.size) ns, fun r hr r' hr' heq => ?_⟩
    have hlt := node_of_mem_rowsNode n hr
    have hge := node_of_mem_rowsOf ns (heq ▸ hr')
    omega

theorem nodup_rowsBranch (first : Nat) (o : Option (List Node)) : (rowsBranch first o).Nodup := by
  match o with
  | none => exact List.nodup_nil
  | some ns => exact nodup_rowsOf first ns

end

/-! ### What a block frames -/

/-- Rows up to a number in which those of a block and what is inside it stand together, with the
rows of other nodes around them. -/
def Frames (es : List Entry) (p : Nat) (q : Option Nat) (h : BlockHead) (last : Nat)
    (rows : List Row) : Prop :=
  ∃ body other before after, BlockAt es p q h body other ∧
    rows = before ++ rowsNode p (.block h body other) ++ after ∧
    p + (Node.block h body other).size ≤ last ∧
    ∀ r ∈ before ++ after, r.node < p ∨ p + (Node.block h body other).size ≤ r.node

theorem Frames.around {p last last' : Nat} {q : Option Nat} {h : BlockHead}
    {rows before after : List Row} (hf : Frames es p q h last rows) (hle : last ≤ last')
    (hbefore : ∀ r ∈ before, r.node < p) (hafter : ∀ r ∈ after, r.node < p ∨ last ≤ r.node) :
    Frames es p q h last' (before ++ rows ++ after) := by
  obtain ⟨body, other, before', after', hblock, hrows, hend, hother⟩ := hf
  refine ⟨body, other, before ++ before', after' ++ after, hblock, ?_, by omega, ?_⟩
  · rw [hrows]
    simp only [List.append_assoc]
  · intro r hr
    simp only [List.mem_append] at hr hother
    rcases hr with (hr | hr) | hr | hr
    · exact .inl (hbefore r hr)
    · exact hother r (.inl hr)
    · exact hother r (.inr hr)
    · have := hafter r hr
      omega

mutual

theorem frames_rowsNode {parent : Option Nat} {first p : Nat} (n : Node)
    (lies : LiesAt es first (flattenNode parent first n)) (hf : first ≤ p)
    (hp : p < first + n.size) {q : Option Nat} {h : BlockHead} {b : List Nat}
    {o : Option (List Nat)} (he : es[p]? = some (.block q h b o)) :
    Frames es p q h (first + n.size) (rowsNode first n) := by
  match n with
  | .block h' body other =>
    have hblock := blockAt_of_lies lies
    rcases Nat.eq_or_lt_of_le hf with heq | hgt
    · subst heq
      cases he.symm.trans hblock.here
      exact ⟨body, other, [], [], hblock, by simp, Nat.le_refl _, fun r hr => nomatch hr⟩
    · rw [Node.size] at hp ⊢
      have hname : ∀ r ∈ scopeNameRows h' first, r.node < p := by
        intro r hr
        rw [eq_of_mem_scopeNameRows hr]
        exact hgt
      have hother : ∀ r ∈ otherwiseRows first other, r.node < p := by
        intro r hr
        rw [eq_of_mem_otherwiseRows hr]
        exact hgt
      rcases Nat.lt_or_ge p (first + 1 + Node.sizeAll body) with hlt | hge
      · have hbody := frames_rowsOf body hblock.inBody hgt hlt he
        rw [rowsNode, List.append_assoc]
        refine hbody.around (by omega) ?_ ?_
        · intro r hr
          rcases List.mem_cons.1 hr with hr | hr
          · rw [hr]
            exact hgt
          · exact hname r hr
        · intro r hr
          simp only [List.mem_append, List.mem_singleton] at hr
          rcases hr with (hr | hr) | hr
          · exact .inl (hother r hr)
          · exact .inr (node_of_mem_rowsBranch other hr).1
          · rw [hr]
            exact .inl hgt
      · have hbranch := frames_rowsBranch other hblock.inBranch hge (by omega) he
        rw [rowsNode, ← List.append_assoc]
        refine hbranch.around (by omega) ?_ ?_
        · intro r hr
          simp only [List.mem_append, List.mem_cons] at hr
          rcases hr with ((hr | hr) | hr) | hr
          · rw [hr]
            exact hgt
          · exact hname r hr
          · have := node_of_mem_rowsOf body hr
            omega
          · exact hother r hr
        · intro r hr
          rw [List.mem_singleton.1 hr]
          exact .inl hgt
  | .text .. | .bind .. | .output .. | .call .. =>
    simp only [Node.size] at hp
    have heq : p = first := by omega
    subst heq
    cases lies.head.symm.trans he

theorem frames_rowsOf {parent : Option Nat} {first p : Nat} (ns : List Node)
    (lies : LiesAt es first (flatten parent first ns)) (hf : first ≤ p)
    (hp : p < first + Node.sizeAll ns) {q : Option Nat} {h : BlockHead} {b : List Nat}
    {o : Option (List Nat)} (he : es[p]? = some (.block q h b o)) :
    Frames es p q h (first + Node.sizeAll ns) (rowsOf first ns) := by
  match ns with
  | [] =>
    rw [Node.sizeAll] at hp
    omega
  | n :: ns =>
    obtain ⟨hnode, hlater⟩ := lies_cons lies
    rw [Node.sizeAll] at hp ⊢
    rcases Nat.lt_or_ge p (first + n.size) with hlt | hge
    · have hfirst := frames_rowsNode n hnode hf hlt he
      show Frames es p q h _ ([] ++ rowsNode first n ++ rowsOf (first + n.size) ns)
      exact hfirst.around (by omega) (fun r hr => nomatch hr)
        fun r hr => .inr (node_of_mem_rowsOf ns hr).1
    · have hrest := frames_rowsOf ns hlater hge (by omega) he
      have hearlier : ∀ r ∈ rowsNode first n, r.node < p :=
        fun r hr => Nat.lt_of_lt_of_le (node_of_mem_rowsNode n hr).2 hge
      rw [← Nat.add_assoc, ← List.append_nil (rowsOf first (n :: ns))]
      exact hrest.around (Nat.le_refl _) hearlier fun r hr => nomatch hr

theorem frames_rowsBranch {parent : Option Nat} {first p : Nat} (os : Option (List Node))
    (lies : LiesAt es first (flattenBranch parent first os)) (hf : first ≤ p)
    (hp : p < first + Node.sizeBranch os) {q : Option Nat} {h : BlockHead} {b : List Nat}
    {o : Option (List Nat)} (he : es[p]? = some (.block q h b o)) :
    Frames es p q h (first + Node.sizeBranch os) (rowsBranch first os) := by
  match os with
  | none =>
    rw [Node.sizeBranch] at hp
    omega
  | some ns => exact frames_rowsOf ns lies hf hp he

end

/-! ### Rows and lines -/

theorem shows_scopeNameRows {i : Nat} {q : Option Nat} {h : BlockHead} {b : List Nat}
    {o : Option (List Nat)} (here : es[i]? = some (.block q h b o)) :
    List.Forall₂ (Shows acc es) (scopeNameRows h i) (scopeNameLines h (depth es i)) := by
  unfold scopeNameRows scopeNameLines
  cases hname : h.scopeName with
  | none => exact .nil
  | some a => exact .cons (.scopeName here hname) .nil

variable {top : List Nat}

theorem depth_eq (hw : WellFormed es top) {i : Nat} {e : Entry} {hs : List BlockHead}
    (here : es[i]? = some e) (around : Climbs es e.parent hs) : depth es i = hs.length := by
  rw [depth, Render.Flat.climbs_unique (hw.climbs here) around]

mutual

theorem shows_rowsNode (hw : WellFormed es top) {parent : Option Nat} {first : Nat}
    {hs : List BlockHead} (n : Node) (lies : LiesAt es first (flattenNode parent first n))
    (around : Climbs es parent hs) :
    List.Forall₂ (Shows acc es) (rowsNode first n) (nodeLines acc hs.length n) := by
  match n with
  | .block h body otherwise =>
    have hblock := blockAt_of_lies lies
    have hdepth : depth es first = hs.length := depth_eq hw hblock.here around
    have hbody := shows_rowsOf hw body hblock.inBody (.block hblock.here around)
    have hbranch := shows_rowsBranch hw otherwise hblock around
    rw [List.length_append, List.length_singleton] at hbody
    rw [← hdepth] at hbody hbranch ⊢
    have hopening := List.Forall₂.cons (@Shows.opening acc es _ _ _ _ _ hblock.here)
      (shows_scopeNameRows hblock.here)
    have hinside := List.rel_append (List.rel_append hopening hbody) hbranch
    exact List.rel_append hinside (.cons (.close hblock.here) .nil)
  | .text .. | .bind .. | .output .. | .call .. =>
    have hdepth : depth es first = hs.length := depth_eq hw lies.head around
    rw [← hdepth]
    exact .cons (.leaf lies.head) .nil

theorem shows_rowsOf (hw : WellFormed es top) {parent : Option Nat} {first : Nat}
    {hs : List BlockHead} (ns : List Node) (lies : LiesAt es first (flatten parent first ns))
    (around : Climbs es parent hs) :
    List.Forall₂ (Shows acc es) (rowsOf first ns) (linesOf acc hs.length ns) := by
  match ns with
  | [] => exact .nil
  | n :: ns =>
    obtain ⟨hnode, hlater⟩ := lies_cons lies
    exact List.rel_append (shows_rowsNode hw n hnode around) (shows_rowsOf hw ns hlater around)

theorem shows_rowsBranch (hw : WellFormed es top) {p : Nat} {q : Option Nat} {h : BlockHead}
    {body : List Node} {hs : List BlockHead} (o : Option (List Node))
    (block : BlockAt es p q h body o) (around : Climbs es q hs) :
    List.Forall₂ (Shows acc es)
      (otherwiseRows p o ++ rowsBranch (p + 1 + Node.sizeAll body) o)
      (branchLines acc hs.length o) := by
  match o with
  | none => exact .nil
  | some ns =>
    have hdepth : depth es p = hs.length := depth_eq hw block.here around
    have hlines := shows_rowsOf hw ns block.inBranch (.block block.here around)
    rw [List.length_append, List.length_singleton] at hlines
    rw [← hdepth] at hlines ⊢
    exact .cons (.otherwise block.here) hlines

end

/-! ### The layout of a forest -/

theorem otherwiseRows_map {α β : Type} (f : α → β) (i : Nat) (o : Option α) :
    otherwiseRows i (o.map f) = otherwiseRows i o := by
  cases o with
  | none => rfl
  | some a => rfl

theorem layout_entries (acc : String) (nodes : List Node) :
    Layout acc (entries nodes) (rowsOf 0 nodes) (linesOf acc 0 nodes) where
  shown := shows_rowsOf (Procedure.wellFormed_entries nodes) nodes (Procedure.lies_entries nodes)
    .done
  once := nodup_rowsOf 0 nodes
  statements := by
    rw [statements_rowsOf, Procedure.length_entries, List.range_eq_range']
  blocks := by
    intro p q h b o he
    obtain ⟨body, other, before, after, hblock, hrows, -, hother⟩ :=
      frames_rowsOf nodes (Procedure.lies_entries nodes) (Nat.zero_le p)
        (Procedure.lt_sizeAll_of_getElem? he) he
    cases hblock.here.symm.trans he
    have hbody := Procedure.mem_or_contains_iff Procedure.parentOf_iff_lists hblock.inBody
    have hbranch := Procedure.branch_contains_iff Procedure.parentOf_iff_lists hblock.inBranch
    have hinside : ∀ r ∈ rowsOf 0 nodes,
        p < r.node → r.node < p + (Node.block h body other).size →
          r ∈ rowsOf (p + 1) body ∨ r ∈ rowsBranch (p + 1 + Node.sizeAll body) other := by
      intro r hr hlt hgt
      rw [hrows] at hr
      simp only [List.mem_append] at hr hother
      rcases hr with (hr | hr) | hr
      · have := hother r (.inl hr)
        omega
      · rcases cases_of_mem_rowsNode hr with hr | hr
        · omega
        · exact hr
      · have := hother r (.inr hr)
        omega
    rw [Node.size] at hinside
    refine ⟨before, rowsOf (p + 1) body, rowsBranch (p + 1 + Node.sizeAll body) other, after, ?_,
      fun r => ?_, fun r => ?_⟩
    · rw [hrows, rowsNode, otherwiseRows_map]
    · rw [Within, hbody]
      constructor
      · intro hr
        refine ⟨?_, node_of_mem_rowsOf body hr⟩
        rw [hrows, rowsNode]
        simp [hr]
      · intro ⟨hr, hge, hlt⟩
        rcases hinside r hr (by omega) (by omega) with hr | hr
        · exact hr
        · have := node_of_mem_rowsBranch other hr
          omega
    · have hbranch : Within (entries nodes)
          ((other.map (numbers (p + 1 + Node.sizeAll body))).getD []) r.node ↔ _ :=
        hbranch r.node
      rw [hbranch]
      constructor
      · intro hr
        refine ⟨?_, node_of_mem_rowsBranch other hr⟩
        rw [hrows, rowsNode]
        simp [hr]
      · intro ⟨hr, hge, hlt⟩
        rcases hinside r hr (by omega) (by omega) with hr | hr
        · have := node_of_mem_rowsOf body hr
          omega
        · exact hr

end Stencil.Listing
