import Stencil.Procedure.Listing.Flat
import Stencil.Proofs.Assembly
import Stencil.Proofs.Rows
import Stencil.Proofs.Statements

/-!
# The layout of a listing

The loop over numbers lists what the recursion over the forest lists (`Listing.Flat.lists_iff`), and
its lines are laid out by the blocks (`listing_laid_out`).
-/

namespace Stencil.Listing

open Procedure (Entry LiesAt BlockAt entries numbers flatten flattenNode lies_cons)

variable {acc : String} {es : List Entry}

theorem nodeLines_leaf {n : Node} (hleaf : ∀ head body other, n ≠ .block head body other)
    (depth : Nat) : nodeLines acc depth n = [pad depth ++ statement acc n] := by
  cases n with
  | block h body otherwise => exact absurd rfl (hleaf h body otherwise)
  | text p s => rfl
  | bind p b => rfl
  | output p o e => rfl
  | call p h as e => rfl

/-! ### The loop over numbers -/

namespace Flat

/-- An item of the flat form stands for an item of the forest. -/
inductive Stands (es : List Entry) : Item → Listing.Item → Prop
  | index {i : Nat} {parent : Option Nat} {n : Node}
      (lies : LiesAt es i (flattenNode parent i n)) : Stands es (.index i) (.node n)
  | line {s : String} : Stands es (.line s) (.line s)

/-- A stack over the flat form mirrors a stack over the forest: what is left at every depth stands
for what is left there. -/
abbrev Mirrors (es : List Entry) :
    List (List Item × Nat) → List (List Listing.Item × Nat) → Prop :=
  List.Forall₂ fun p q => List.Forall₂ (Stands es) p.1 q.1 ∧ p.2 = q.2

theorem stands_numbers {parent : Option Nat} {first : Nat} {ns : List Node}
    (lies : LiesAt es first (flatten parent first ns)) :
    List.Forall₂ (Stands es) ((numbers first ns).map .index) (ns.map .node) := by
  induction ns generalizing first with
  | nil => exact .nil
  | cons n ns ih =>
    obtain ⟨hnode, hlater⟩ := lies_cons lies
    exact .cons (.index hnode) (ih hlater)

theorem stands_itemsOf {p : Nat} {q : Option Nat} {h : BlockHead} {body : List Node}
    {other : Option (List Node)} (block : BlockAt es p q h body other) (depth : Nat) :
    List.Forall₂ (Stands es)
      (itemsOf depth (numbers (p + 1) body) (other.map (numbers (p + 1 + Node.sizeAll body))))
      (Listing.itemsOf depth body other) := by
  have hbranch : List.Forall₂ (Stands es)
      (branchItems depth (other.map (numbers (p + 1 + Node.sizeAll body))))
      (Listing.branchItems depth other) := by
    cases other with
    | none => exact .nil
    | some ns => exact .cons .line (stands_numbers block.inBranch)
  exact List.rel_append (List.rel_append (stands_numbers block.inBody) hbranch) (.cons .line .nil)

/-- Where a stack over the forest is mirrored, a turn of the loop goes on to a state that mirrors a
lighter one. What the turn lists is what is missing from there. -/
theorem turn_of_mirrors {s : State} {stack : List (List Listing.Item × Nat)}
    (h : Mirrors es s.stack stack) (hne : stack ≠ []) :
    ∃ s' stack', turn acc es s = .next s' ∧ Mirrors es s'.stack stack' ∧
      stackWeight stack' < stackWeight stack ∧
      s'.lines ++ stackLines acc stack' = s.lines ++ stackLines acc stack := by
  obtain ⟨lines, flat⟩ := s
  cases h with
  | nil => exact absurd rfl hne
  | @cons top top' rest rest' htop hrest =>
    obtain ⟨items, depth⟩ := top
    obtain ⟨items', depth'⟩ := top'
    obtain ⟨hitems, hdepth⟩ := htop
    dsimp only at hitems hdepth
    subst hdepth
    cases hitems with
    | nil =>
      refine ⟨⟨lines, rest⟩, rest', rfl, hrest, ?_, rfl⟩
      simp only [stackWeight, weightOf]
      omega
    | @cons a b items items' ha hitems =>
      have hlater : Mirrors es ((items, depth) :: rest) ((items', depth) :: rest') :=
        .cons ⟨hitems, rfl⟩ hrest
      cases ha with
      | @line l =>
        refine ⟨⟨lines ++ [l], _⟩, _, rfl, hlater, ?_, List.append_assoc _ _ _⟩
        simp only [stackWeight, weightOf, Item.weight]
        omega
      | @index i parent n lies =>
        rcases Render.Flat.leaf_or_block lies with
          ⟨head, body, other, hn, hblock⟩ | ⟨here, hsize, hleaf⟩
        · subst hn
          have hturn : turn acc es ⟨lines, (.index i :: items, depth) :: rest⟩ =
              .next ⟨lines ++ (pad depth ++ openingText head) :: scopeNameLines head depth,
                (itemsOf depth (numbers (i + 1) body)
                  (other.map (numbers (i + 1 + Node.sizeAll body))), depth + 1) ::
                    (items, depth) :: rest⟩ := by
            simp only [turn, hblock.here]
          have hweight := weightOf_itemsOf depth head body other
          refine ⟨_, (Listing.itemsOf depth body other, depth + 1) :: (items', depth) :: rest',
            hturn, .cons ⟨stands_itemsOf hblock depth, rfl⟩ hlater, ?_, ?_⟩
          · simp only [stackWeight, weightOf, Item.weight]
            omega
          · simp only [stackLines, itemLines, itemLines_itemsOf, nodeLines]
            simp
        · have hturn : turn acc es ⟨lines, (.index i :: items, depth) :: rest⟩ =
              .next ⟨lines ++ [pad depth ++ statement acc n], (items, depth) :: rest⟩ := by
            simp only [turn, here]
          refine ⟨_, _, hturn, hlater, ?_, ?_⟩
          · simp only [stackWeight, weightOf, Item.weight, hsize]
            omega
          · simp only [stackLines, itemLines, nodeLines_leaf hleaf, List.append_assoc]

/-- The loop ends, and it has listed by then what the stack over the forest comes to. -/
theorem ends_of_mirrors {s : State} {stack : List (List Listing.Item × Nat)}
    (h : Mirrors es s.stack stack) :
    Ends acc es s (.ok (s.lines ++ stackLines acc stack)) := by
  induction hw : stackWeight stack using Nat.strong_induction_on generalizing s stack with
  | _ w ih =>
    by_cases hne : stack = []
    · subst hne
      obtain ⟨lines, flat⟩ := s
      cases h
      rw [stackLines, List.append_nil]
      exact .stop rfl
    · obtain ⟨s', stack', hturn, hs', hlt, hlines⟩ := @turn_of_mirrors acc es s stack h hne
      rw [← hlines]
      exact .next hturn (ih _ (hw ▸ hlt) hs' rfl)

theorem Ends.unique {s : State} {r r' : Except Failure (List String)} (h : Ends acc es s r)
    (h' : Ends acc es s r') : r = r' := by
  induction h with
  | stop h =>
    cases h' with
    | stop h' =>
      cases h.symm.trans h'
      rfl
    | next h' => cases h.symm.trans h'
  | next h _ ih =>
    cases h' with
    | stop h' => cases h.symm.trans h'
    | next h' rest' =>
      cases h.symm.trans h'
      exact ih rest'

theorem header_entries (acc : String) (nodes : List Node) :
    header acc (entries nodes) = ("var " ++ acc ++ " = \"\";") ::
      if Node.escapesAny nodes then ["var $escape = $helper[\"$escape\"];"] else [] := by
  have hescapes : (entries nodes).any Entry.escapes = Node.escapesAny nodes :=
    Render.Flat.escapes_flatten none 0 nodes
  rw [header, hescapes]

/-- The text of a listing by recursion over the forest. -/
theorem finish_eq_render (acc : String) (nodes : List Node) :
    finish acc (header acc (entries nodes) ++ linesOf acc 0 nodes) = render acc nodes := by
  have hlines : lines acc nodes =
      (header acc (entries nodes) ++ linesOf acc 0 nodes ++ ["return " ++ acc ++ ";"]) ++ [""] := by
    rw [header_entries]
    simp [lines]
  rw [render_eq, hlines, Text.join_concat (by simp)]
  rfl

/-- The loop over the flat form of a forest ends, and only with the listing of the forest. -/
theorem lists_iff (acc : String) (nodes : List Node) (r : Except Failure String) :
    Lists acc (entries nodes) (numbers 0 nodes) r ↔ r = .ok (render acc nodes) := by
  have hstart : Mirrors (entries nodes) (start acc (entries nodes) (numbers 0 nodes)).stack
      [(nodes.map .node, 0)] :=
    .cons ⟨stands_numbers (Procedure.lies_entries nodes), rfl⟩ .nil
  have hends : Ends acc (entries nodes) (start acc (entries nodes) (numbers 0 nodes)) _ :=
    ends_of_mirrors hstart
  have hlines : stackLines acc [(nodes.map .node, 0)] = linesOf acc 0 nodes := by
    rw [stackLines, stackLines, itemLines_map_node, List.append_nil]
  rw [hlines] at hends
  rw [← finish_eq_render]
  constructor
  · intro h
    obtain ⟨ls, hls, hr⟩ := h
    rw [hr, hls.unique hends]
    rfl
  · intro hr
    exact ⟨_, hends, hr⟩

end Flat

end Stencil.Listing

namespace Stencil

open Procedure (entries numbers)

/-- The listing of a compiled template is what the loop over its numbered nodes comes to, which
ends, and what the recursion over its forest lists. The lines of the nodes are laid out by the
blocks. -/
theorem listing_laid_out {w : Workshop} {source : String} {name : Option String} {t : Template}
    (h : w.compile source name = .ok t) :
    w.assemble source name =
        .ok { slots := (entries t.nodes).map some, body := numbers 0 t.nodes } ∧
      (∀ r, Listing.Flat.Lists w.config.resultName (entries t.nodes) (numbers 0 t.nodes) r ↔
        r = .ok t.listing) ∧
      t.listing = Listing.Flat.finish w.config.resultName
        (Listing.Flat.header w.config.resultName (entries t.nodes) ++
          Listing.linesOf w.config.resultName 0 t.nodes) ∧
      ∃ rows, Listing.Layout w.config.resultName (entries t.nodes) rows
        (Listing.linesOf w.config.resultName 0 t.nodes) := by
  have hlisting := listing_of_compile h
  refine ⟨?_, fun r => ?_, ?_, _, Listing.layout_entries w.config.resultName t.nodes⟩
  · rw [Workshop.assemble_eq, h]
    rfl
  · rw [hlisting]
    exact Listing.Flat.lists_iff w.config.resultName t.nodes r
  · rw [hlisting, Listing.Flat.finish_eq_render]

theorem listing_laid_out_of_loop :
    ∃ t, (⟨.builtin, {}⟩ : Workshop).compile loopOfScopes none = .ok t ∧
      Listing.Flat.Lists "$html" (entries t.nodes) (numbers 0 t.nodes) (.ok t.listing) ∧
      Listing.linesOf "$html" 0 t.nodes =
        ["var a = $data[\"a\"];", "#for(a) \x7b", "    var $value@1 = $value;",
          "    #with($value) \x7b", "        var $value@2 = $value;",
          "        $html += \"x\\ny\";", "        var b = $value@2[\"b\"];",
          "        $html += $escape(b);", "    \x7d", "\x7d else \x7b", "    $html += \"s\";",
          "\x7d"] ∧
      ∃ rows, Listing.Layout "$html" (entries t.nodes) rows (Listing.linesOf "$html" 0 t.nodes) ∧
        rows.length = 12 := by
  have hcompile : ((⟨.builtin, {}⟩ : Workshop).compile loopOfScopes none).toOption.any
      (fun t => decide (Listing.linesOf "$html" 0 t.nodes =
        ["var a = $data[\"a\"];", "#for(a) \x7b", "    var $value@1 = $value;",
          "    #with($value) \x7b", "        var $value@2 = $value;",
          "        $html += \"x\\ny\";", "        var b = $value@2[\"b\"];",
          "        $html += $escape(b);", "    \x7d", "\x7d else \x7b", "    $html += \"s\";",
          "\x7d"])) = true := by
    decide +kernel
  obtain ⟨t, ht, hlines⟩ := exists_ok_of_any hcompile
  have hlines := of_decide_eq_true hlines
  obtain ⟨-, hlists, -, rows, hrows⟩ := listing_laid_out ht
  have hlength : rows.length = 12 := by
    rw [hrows.shown.length_eq]
    exact congrArg List.length hlines
  exact ⟨t, ht, (hlists _).2 rfl, hlines, rows, hrows, hlength⟩

end Stencil
