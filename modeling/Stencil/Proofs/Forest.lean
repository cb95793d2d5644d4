import Stencil.Procedure.Flat
import Mathlib.Data.List.Range
import Mathlib.Data.List.Perm.Basic
import Mathlib.Logic.Relation

/-!
# The flat form as a forest

In the flat form every number stands in exactly one list, a block is in front of what is inside it,
and what is inside it is a range of numbers, the body in front of the branch (`wellFormed_entries`).
So the walk from a node to the blocks around it ends, and it meets exactly those
(`WellFormed.climbs`, `WellFormed.isEnclosing`).
-/

namespace Stencil.Procedure

/-- The numbers that an entry lists. -/
def Entry.children : Entry → List Nat
  | .leaf _ _ => []
  | .block _ _ body otherwise => body ++ otherwise.getD []

def ParentOf (es : List Entry) (p i : Nat) : Prop := ∃ e, es[i]? = some e ∧ e.parent = some p

/-- The block with the number `p` contains the node with the number `i`, at any depth. -/
def Contains (es : List Entry) : Nat → Nat → Prop := Relation.TransGen (ParentOf es)

/-- The block with the number `p` lists the number `i`. -/
def Lists (es : List Entry) (p i : Nat) : Prop :=
  ∃ q h b o, es[p]? = some (.block q h b o) ∧ i ∈ b ++ o.getD []

/-- The walk from a number to the blocks around it meets blocks only, and it ends. -/
inductive Climbs (es : List Entry) : Option Nat → List BlockHead → Prop
  | done : Climbs es none []
  | block {p : Nat} {q : Option Nat} {h : BlockHead} {b : List Nat} {o : Option (List Nat)}
      {hs : List BlockHead} (here : es[p]? = some (.block q h b o)) (rest : Climbs es q hs) :
      Climbs es (some p) (hs ++ [h])

/-- The blocks that contain the node with the number `i`, outermost first. -/
def IsEnclosing (es : List Entry) (i : Nat) (heads : List BlockHead) : Prop :=
  ∃ ps : List Nat, ps.Pairwise (Contains es) ∧ (∀ p, p ∈ ps ↔ Contains es p i) ∧
    List.Forall₂ (fun p head => ∃ q b o, es[p]? = some (Entry.block q head b o)) ps heads

/-- Entries, and the numbers of those outside all blocks, are an ordered forest. -/
structure WellFormed (es : List Entry) (top : List Nat) : Prop where
  once : (top ++ es.flatMap Entry.children).Perm (List.range es.length)
  ascending : top.Pairwise (· < ·)
  ascending_inside : ∀ (p : Nat) q h b o, es[p]? = some (Entry.block q h b o) →
    b.Pairwise (· < ·) ∧ (o.getD []).Pairwise (· < ·)
  outside : ∀ (i : Nat) e, es[i]? = some e → (e.parent = none ↔ i ∈ top)
  inside : ∀ (i : Nat) e p, es[i]? = some e → (e.parent = some p ↔ Lists es p i)
  parent_lt : ∀ p i, ParentOf es p i → p < i
  /-- What is inside a block are the numbers from the next one up to some `n`, those before some
  `m` in the body and those behind it in the branch. -/
  span : ∀ (p : Nat) q h b o, es[p]? = some (Entry.block q h b o) →
    ∃ m n, p < m ∧ m ≤ n ∧ n ≤ es.length ∧
    (∀ i, Contains es p i ↔ p < i ∧ i < n) ∧
    (∀ i, (∃ c ∈ b, c = i ∨ Contains es c i) ↔ p < i ∧ i < m) ∧
    (∀ i, (∃ c ∈ o.getD [], c = i ∨ Contains es c i) ↔ m ≤ i ∧ i < n)

/-! ### Parts of the flat form -/

/-- The entries of `part` stand in `es` from the number `i` on. -/
def LiesAt (es : List Entry) (i : Nat) (part : List Entry) : Prop :=
  ∀ j, j < part.length → es[i + j]? = part[j]?

namespace LiesAt

variable {es part rest : List Entry} {i : Nat} {e : Entry}

theorem self (es : List Entry) : LiesAt es 0 es := by
  intro j _
  rw [Nat.zero_add]

theorem left (h : LiesAt es i (part ++ rest)) : LiesAt es i part := by
  intro j hj
  rw [h j (by rw [List.length_append]; omega), List.getElem?_append_left hj]

theorem right (h : LiesAt es i (part ++ rest)) : LiesAt es (i + part.length) rest := by
  intro j hj
  have hp := h (part.length + j) (by rw [List.length_append]; omega)
  rw [Nat.add_assoc, hp, List.getElem?_append_right (by omega), Nat.add_sub_cancel_left]

theorem head (h : LiesAt es i (e :: rest)) : es[i]? = some e := h 0 (by simp)

theorem tail (h : LiesAt es i (e :: rest)) : LiesAt es (i + 1) rest := by
  have happend : LiesAt es i ([e] ++ rest) := h
  exact happend.right

end LiesAt

/-! ### Sizes -/

theorem numbers_append (first : Nat) (ns ms : List Node) :
    numbers first (ns ++ ms) = numbers first ns ++ numbers (first + Node.sizeAll ns) ms := by
  induction ns generalizing first with
  | nil => simp [numbers, Node.sizeAll]
  | cons n ns ih =>
    simp only [List.cons_append, numbers, Node.sizeAll, ih]
    rw [Nat.add_assoc]

theorem flatten_append (parent : Option Nat) (first : Nat) (ns ms : List Node) :
    flatten parent first (ns ++ ms) =
      flatten parent first ns ++ flatten parent (first + Node.sizeAll ns) ms := by
  induction ns generalizing first with
  | nil => simp [flatten, Node.sizeAll]
  | cons n ns ih =>
    simp only [List.cons_append, flatten, Node.sizeAll, ih, List.append_assoc]
    rw [Nat.add_assoc]

theorem flatten_singleton (parent : Option Nat) (first : Nat) (n : Node) :
    flatten parent first [n] = flattenNode parent first n := by
  simp only [flatten, List.append_nil]

mutual

theorem length_flattenNode (parent : Option Nat) (first : Nat) (n : Node) :
    (flattenNode parent first n).length = n.size := by
  match n with
  | .block h body otherwise =>
    simp only [flattenNode, Node.size, List.length_cons, List.length_append, length_flatten,
      length_flattenBranch]
    omega
  | .text .. => rfl
  | .bind .. => rfl
  | .output .. => rfl
  | .call .. => rfl

theorem length_flatten (parent : Option Nat) (first : Nat) (ns : List Node) :
    (flatten parent first ns).length = Node.sizeAll ns := by
  match ns with
  | [] => rfl
  | n :: ns =>
    simp only [flatten, Node.sizeAll, List.length_append, length_flattenNode, length_flatten]

theorem length_flattenBranch (parent : Option Nat) (first : Nat) (o : Option (List Node)) :
    (flattenBranch parent first o).length = Node.sizeBranch o := by
  match o with
  | none => rfl
  | some ns => exact length_flatten parent first ns

end

/-- The numbers of a branch that may be missing. -/
def branchNumbers (first : Nat) (o : Option (List Node)) : List Nat :=
  (o.map (numbers first)).getD []

theorem lt_of_mem_numbers {first i : Nat} {ns : List Node} (h : i ∈ numbers first ns) :
    first ≤ i ∧ i < first + Node.sizeAll ns := by
  induction ns generalizing first with
  | nil => cases h
  | cons n ns ih =>
    have hn := n.size_pos
    rw [Node.sizeAll]
    rcases List.mem_cons.1 h with rfl | h
    · omega
    · have := ih h
      omega

theorem numbers_ascending (first : Nat) (ns : List Node) :
    (numbers first ns).Pairwise (· < ·) := by
  induction ns generalizing first with
  | nil => exact .nil
  | cons n ns ih =>
    refine .cons (fun i hi => ?_) (ih _)
    have hn := n.size_pos
    have := lt_of_mem_numbers hi
    omega

theorem lt_of_mem_branchNumbers {first i : Nat} {o : Option (List Node)}
    (h : i ∈ branchNumbers first o) : first ≤ i ∧ i < first + Node.sizeBranch o := by
  cases o with
  | none => cases h
  | some ns => exact lt_of_mem_numbers h

theorem branchNumbers_ascending (first : Nat) (o : Option (List Node)) :
    (branchNumbers first o).Pairwise (· < ·) := by
  cases o with
  | none => exact .nil
  | some ns => exact numbers_ascending first ns

/-! ### Every number is listed once -/

mutual

theorem perm_flattenNode (parent : Option Nat) (first : Nat) (n : Node) :
    (first :: (flattenNode parent first n).flatMap Entry.children).Perm
      (List.range' first n.size) := by
  match n with
  | .block h body otherwise =>
    have hbody := perm_flatten (some first) (first + 1) body
    have hbranch := perm_flattenBranch (some first) (first + 1 + Node.sizeAll body) otherwise
    have hsize : (Node.block h body otherwise).size =
        Node.sizeAll body + Node.sizeBranch otherwise + 1 := by
      rw [Node.size]
      omega
    rw [hsize, List.range'_succ, List.perm_cons, ← List.range'_append_1]
    refine .trans ?_ (hbody.append hbranch)
    rw [List.perm_iff_count]
    intro i
    simp only [flattenNode, List.flatMap_cons, List.flatMap_append, Entry.children,
      List.count_append, branchNumbers]
    omega
  | .text .. => exact .refl _
  | .bind .. => exact .refl _
  | .output .. => exact .refl _
  | .call .. => exact .refl _

theorem perm_flatten (parent : Option Nat) (first : Nat) (ns : List Node) :
    (numbers first ns ++ (flatten parent first ns).flatMap Entry.children).Perm
      (List.range' first (Node.sizeAll ns)) := by
  match ns with
  | [] => exact .refl _
  | n :: ns =>
    have hnode := perm_flattenNode parent first n
    have hrest := perm_flatten parent (first + n.size) ns
    rw [Node.sizeAll, ← List.range'_append_1]
    refine .trans ?_ (hnode.append hrest)
    rw [List.perm_iff_count]
    intro i
    simp only [flatten, numbers, List.flatMap_append, List.cons_append, List.count_cons,
      List.count_append]
    omega

theorem perm_flattenBranch (parent : Option Nat) (first : Nat) (o : Option (List Node)) :
    (branchNumbers first o ++ (flattenBranch parent first o).flatMap Entry.children).Perm
      (List.range' first (Node.sizeBranch o)) := by
  match o with
  | none => exact .refl _
  | some ns => exact perm_flatten parent first ns

end

/-! ### Parents and lists -/

/-- The entry with the number `p` is a block, and the trees inside it follow it. -/
structure BlockAt (es : List Entry) (p : Nat) (q : Option Nat) (h : BlockHead) (body : List Node)
    (other : Option (List Node)) : Prop where
  here : es[p]? = some (.block q h (numbers (p + 1) body)
    (other.map (numbers (p + 1 + Node.sizeAll body))))
  inBody : LiesAt es (p + 1) (flatten (some p) (p + 1) body)
  inBranch : LiesAt es (p + 1 + Node.sizeAll body)
    (flattenBranch (some p) (p + 1 + Node.sizeAll body) other)

section

variable {es : List Entry} {parent : Option Nat} {first : Nat}

theorem blockAt_of_lies {h : BlockHead} {body : List Node} {other : Option (List Node)}
    (hl : LiesAt es first (flattenNode parent first (.block h body other))) :
    BlockAt es first parent h body other := by
  rw [flattenNode] at hl
  have hright := hl.tail.right
  rw [length_flatten] at hright
  exact ⟨hl.head, hl.tail.left, hright⟩

theorem BlockAt.lists_iff {p i : Nat} {q : Option Nat} {h : BlockHead} {body : List Node}
    {other : Option (List Node)} (hb : BlockAt es p q h body other) :
    Lists es p i ↔ i ∈ numbers (p + 1) body ∨
      i ∈ branchNumbers (p + 1 + Node.sizeAll body) other := by
  constructor
  · rintro ⟨_, _, _, _, he, hi⟩
    rw [hb.here] at he
    cases he
    exact List.mem_append.1 hi
  · intro hi
    exact ⟨_, _, _, _, hb.here, List.mem_append.2 hi⟩

theorem lies_cons {n : Node} {ns : List Node}
    (hl : LiesAt es first (flatten parent first (n :: ns))) :
    LiesAt es first (flattenNode parent first n) ∧
      LiesAt es (first + n.size) (flatten parent (first + n.size) ns) := by
  rw [flatten] at hl
  have hright := hl.right
  rw [length_flattenNode] at hright
  exact ⟨hl.left, hright⟩

theorem exists_head_of_lies {n : Node} (hl : LiesAt es first (flattenNode parent first n)) :
    ∃ e, es[first]? = some e ∧ e.parent = parent := by
  cases n with
  | block h body other => exact ⟨_, (blockAt_of_lies hl).here, rfl⟩
  | text p s => exact ⟨_, hl.head, rfl⟩
  | bind p b => exact ⟨_, hl.head, rfl⟩
  | output p o e => exact ⟨_, hl.head, rfl⟩
  | call p h as e => exact ⟨_, hl.head, rfl⟩

/-- The trees of a forest have the parent that the forest was given. -/
theorem parent_of_mem_numbers {ns : List Node} {i : Nat}
    (hl : LiesAt es first (flatten parent first ns)) (hi : i ∈ numbers first ns) :
    ∃ e, es[i]? = some e ∧ e.parent = parent := by
  induction ns generalizing first with
  | nil => cases hi
  | cons n ns ih =>
    obtain ⟨hnode, hrest⟩ := lies_cons hl
    rcases List.mem_cons.1 hi with rfl | hi
    · exact exists_head_of_lies hnode
    · exact ih hrest hi

theorem parent_of_mem_branchNumbers {o : Option (List Node)} {i : Nat}
    (hl : LiesAt es first (flattenBranch parent first o)) (hi : i ∈ branchNumbers first o) :
    ∃ e, es[i]? = some e ∧ e.parent = parent := by
  cases o with
  | none => cases hi
  | some ns => exact parent_of_mem_numbers hl hi

end

/-- The entry with the number `i` has `parent` around it and is one of `roots`, or it is listed by
a block from the number `first` on. -/
def Rooted (es : List Entry) (parent : Option Nat) (first : Nat) (roots : List Nat) (i : Nat) :
    Prop :=
  ∃ e, es[i]? = some e ∧ ((e.parent = parent ∧ i ∈ roots) ∨
    ∃ p, first ≤ p ∧ p < i ∧ e.parent = some p ∧ Lists es p i)

theorem Rooted.mono {es : List Entry} {parent : Option Nat} {first first' i : Nat}
    {roots roots' : List Nat} (h : Rooted es parent first roots i) (hf : first' ≤ first)
    (hr : ∀ j ∈ roots, j ∈ roots') : Rooted es parent first' roots' i := by
  obtain ⟨e, he, ⟨hp, hi⟩ | ⟨p, hfp, hpi, hp, hl⟩⟩ := h
  · exact ⟨e, he, .inl ⟨hp, hr i hi⟩⟩
  · exact ⟨e, he, .inr ⟨p, by omega, hpi, hp, hl⟩⟩

/-- What is rooted in a list of a block is listed by that block or by one inside it. -/
theorem Rooted.listed {es : List Entry} {p first i : Nat} {roots roots' : List Nat}
    {parent : Option Nat} (h : Rooted es (some p) first roots i) (hf : p < first) (hi : first ≤ i)
    (hr : ∀ j ∈ roots, Lists es p j) : Rooted es parent p roots' i := by
  obtain ⟨e, he, ⟨hp, hmem⟩ | ⟨p', hfp, hpi, hp, hl⟩⟩ := h
  · exact ⟨e, he, .inr ⟨p, Nat.le_refl p, by omega, hp, hr i hmem⟩⟩
  · exact ⟨e, he, .inr ⟨p', by omega, hpi, hp, hl⟩⟩

mutual

theorem rooted_node {es : List Entry} {parent : Option Nat} {first : Nat} (n : Node)
    (hl : LiesAt es first (flattenNode parent first n)) {i : Nat} (hf : first ≤ i)
    (hi : i < first + n.size) : Rooted es parent first [first] i := by
  rcases Nat.eq_or_lt_of_le hf with rfl | hgt
  · obtain ⟨e, he, hp⟩ := exists_head_of_lies hl
    exact ⟨e, he, .inl ⟨hp, List.mem_singleton.2 rfl⟩⟩
  · match n with
    | .block h body other =>
      have hb := blockAt_of_lies hl
      rw [Node.size] at hi
      rcases Nat.lt_or_ge i (first + 1 + Node.sizeAll body) with hlt | hge
      · have hbody := rooted_forest body hb.inBody hgt hlt
        exact hbody.listed (by omega) hgt fun j hj => hb.lists_iff.2 (.inl hj)
      · have hbranch := rooted_branch other hb.inBranch hge (by omega)
        exact hbranch.listed (by omega) hge fun j hj => hb.lists_iff.2 (.inr hj)
    -- no number of a leaf is behind its first one
    | .text .. | .bind .. | .output .. | .call .. =>
      simp only [Node.size] at hi
      omega

/-- Every number of a forest is that of a tree of the forest, or it is listed by a block of it. -/
theorem rooted_forest {es : List Entry} {parent : Option Nat} {first : Nat} (ns : List Node)
    (hl : LiesAt es first (flatten parent first ns)) {i : Nat} (hf : first ≤ i)
    (hi : i < first + Node.sizeAll ns) : Rooted es parent first (numbers first ns) i := by
  match ns with
  | [] =>
    rw [Node.sizeAll] at hi
    omega
  | n :: ns =>
    obtain ⟨hnode, hrest⟩ := lies_cons hl
    rw [Node.sizeAll] at hi
    rcases Nat.lt_or_ge i (first + n.size) with hlt | hge
    · refine (rooted_node n hnode hf hlt).mono (Nat.le_refl _) fun j hj => ?_
      rw [List.mem_singleton.1 hj]
      exact List.mem_cons_self
    · exact (rooted_forest ns hrest hge (by omega)).mono (by omega)
        fun j hj => List.mem_cons_of_mem _ hj

theorem rooted_branch {es : List Entry} {parent : Option Nat} {first : Nat}
    (o : Option (List Node)) (hl : LiesAt es first (flattenBranch parent first o)) {i : Nat}
    (hf : first ≤ i) (hi : i < first + Node.sizeBranch o) :
    Rooted es parent first (branchNumbers first o) i := by
  match o with
  | none =>
    rw [Node.sizeBranch] at hi
    omega
  | some ns => exact rooted_forest ns hl hf hi

end

mutual

theorem blockAt_node {es : List Entry} {parent : Option Nat} {first : Nat} (n : Node)
    (hl : LiesAt es first (flattenNode parent first n)) {p : Nat} (hf : first ≤ p)
    (hp : p < first + n.size) {q : Option Nat} {h : BlockHead} {b : List Nat}
    {o : Option (List Nat)} (he : es[p]? = some (.block q h b o)) :
    ∃ body other, BlockAt es p q h body other ∧
      p + 1 + Node.sizeAll body + Node.sizeBranch other ≤ first + n.size := by
  match n with
  | .block h' body other =>
    have hb := blockAt_of_lies hl
    rw [Node.size] at hp ⊢
    rcases Nat.lt_trichotomy p first with hlt | rfl | hgt
    · omega
    · have hhere := hb.here
      rw [he] at hhere
      cases hhere
      exact ⟨body, other, hb, by omega⟩
    · rcases Nat.lt_or_ge p (first + 1 + Node.sizeAll body) with hlt | hge
      · obtain ⟨body', other', hb', hend⟩ := blockAt_forest body hb.inBody (by omega) hlt he
        exact ⟨body', other', hb', by omega⟩
      · obtain ⟨body', other', hb', hend⟩ := blockAt_branch other hb.inBranch hge (by omega) he
        exact ⟨body', other', hb', by omega⟩
  | .text .. | .bind .. | .output .. | .call .. =>
    simp only [Node.size] at hp
    obtain rfl : p = first := by omega
    cases hl.head.symm.trans he

/-- Every block of a forest is followed by what is inside it, which ends within the forest. -/
theorem blockAt_forest {es : List Entry} {parent : Option Nat} {first : Nat} (ns : List Node)
    (hl : LiesAt es first (flatten parent first ns)) {p : Nat} (hf : first ≤ p)
    (hp : p < first + Node.sizeAll ns) {q : Option Nat} {h : BlockHead} {b : List Nat}
    {o : Option (List Nat)} (he : es[p]? = some (.block q h b o)) :
    ∃ body other, BlockAt es p q h body other ∧
      p + 1 + Node.sizeAll body + Node.sizeBranch other ≤ first + Node.sizeAll ns := by
  match ns with
  | [] =>
    rw [Node.sizeAll] at hp
    omega
  | n :: ns =>
    obtain ⟨hnode, hrest⟩ := lies_cons hl
    rw [Node.sizeAll] at hp ⊢
    rcases Nat.lt_or_ge p (first + n.size) with hlt | hge
    · obtain ⟨body, other, hb, hend⟩ := blockAt_node n hnode hf hlt he
      exact ⟨body, other, hb, by omega⟩
    · obtain ⟨body, other, hb, hend⟩ := blockAt_forest ns hrest hge (by omega) he
      exact ⟨body, other, hb, by omega⟩

theorem blockAt_branch {es : List Entry} {parent : Option Nat} {first : Nat}
    (os : Option (List Node)) (hl : LiesAt es first (flattenBranch parent first os)) {p : Nat}
    (hf : first ≤ p) (hp : p < first + Node.sizeBranch os) {q : Option Nat} {h : BlockHead}
    {b : List Nat} {o : Option (List Nat)} (he : es[p]? = some (.block q h b o)) :
    ∃ body other, BlockAt es p q h body other ∧
      p + 1 + Node.sizeAll body + Node.sizeBranch other ≤ first + Node.sizeBranch os := by
  match os with
  | none =>
    rw [Node.sizeBranch] at hp
    omega
  | some ns => exact blockAt_forest ns hl hf hp he

end

/-! ### What is inside a block -/

theorem contains_iff {es : List Entry} {p i : Nat} :
    Contains es p i ↔ ∃ c, ParentOf es p c ∧ (c = i ∨ Contains es c i) := by
  constructor
  · intro h
    obtain ⟨c, hc, hi⟩ := Relation.TransGen.head'_iff.1 h
    rcases Relation.reflTransGen_iff_eq_or_transGen.1 hi with rfl | hi
    · exact ⟨i, hc, .inl rfl⟩
    · exact ⟨c, hc, .inr hi⟩
  · rintro ⟨c, hc, rfl | hi⟩
    · exact .single hc
    · exact .head hc hi

section

variable {es : List Entry} {parent : Option Nat} {first : Nat} {ns : List Node}

theorem lists_lt (hl : LiesAt es first (flatten parent first ns)) {p i : Nat} (hf : first ≤ p)
    (hp : p < first + Node.sizeAll ns) (hi : Lists es p i) :
    p < i ∧ i < first + Node.sizeAll ns := by
  obtain ⟨q, h, b, o, he, hmem⟩ := hi
  obtain ⟨body, other, hb, hend⟩ := blockAt_forest ns hl hf hp he
  rcases hb.lists_iff.1 ⟨q, h, b, o, he, hmem⟩ with hbody | hbranch
  · have := lt_of_mem_numbers hbody
    omega
  · have := lt_of_mem_branchNumbers hbranch
    omega

/-- The numbers of a forest are those of its trees and of what is inside them. -/
theorem mem_or_contains_iff (hparent : ∀ p i, ParentOf es p i ↔ Lists es p i)
    (hl : LiesAt es first (flatten parent first ns)) (i : Nat) :
    (∃ c ∈ numbers first ns, c = i ∨ Contains es c i) ↔
      first ≤ i ∧ i < first + Node.sizeAll ns := by
  constructor
  · rintro ⟨c, hc, hi⟩
    have hrange := lt_of_mem_numbers hc
    rcases hi with rfl | hi
    · exact hrange
    · induction hi with
      | single h =>
        have := lists_lt hl hrange.1 hrange.2 ((hparent _ _).1 h)
        omega
      | tail _ h ih =>
        have := lists_lt hl ih.1 ih.2 ((hparent _ _).1 h)
        omega
  · rintro ⟨hf, hi⟩
    induction i using Nat.strong_induction_on with
    | _ i ih =>
      obtain ⟨e, he, ⟨_, hmem⟩ | ⟨p, hfp, hpi, hp, _⟩⟩ := rooted_forest ns hl hf hi
      · exact ⟨i, hmem, .inl rfl⟩
      · obtain ⟨c, hc, hcp⟩ := ih p hpi hfp (by omega)
        have hstep : ParentOf es p i := ⟨e, he, hp⟩
        rcases hcp with rfl | hcp
        · exact ⟨c, hc, .inr (.single hstep)⟩
        · exact ⟨c, hc, .inr (hcp.tail hstep)⟩

theorem branch_contains_iff (hparent : ∀ p i, ParentOf es p i ↔ Lists es p i)
    {o : Option (List Node)} (hl : LiesAt es first (flattenBranch parent first o)) (i : Nat) :
    (∃ c ∈ branchNumbers first o, c = i ∨ Contains es c i) ↔
      first ≤ i ∧ i < first + Node.sizeBranch o := by
  cases o with
  | none =>
    constructor
    · rintro ⟨c, hc, _⟩
      cases hc
    · rintro ⟨hf, hi⟩
      rw [Node.sizeBranch] at hi
      omega
  | some ns => exact mem_or_contains_iff hparent hl i

end

/-! ### The entries of a procedure -/

section

variable (nodes : List Node)

theorem lies_entries : LiesAt (entries nodes) 0 (flatten none 0 nodes) := LiesAt.self _

theorem length_entries : (entries nodes).length = Node.sizeAll nodes := length_flatten none 0 nodes

variable {nodes}

theorem lt_sizeAll_of_getElem? {i : Nat} {e : Entry} (he : (entries nodes)[i]? = some e) :
    i < 0 + Node.sizeAll nodes := by
  obtain ⟨hi, _⟩ := List.getElem?_eq_some_iff.1 he
  rw [length_entries] at hi
  omega

theorem blockAt_entries {p : Nat} {q : Option Nat} {h : BlockHead} {b : List Nat}
    {o : Option (List Nat)} (he : (entries nodes)[p]? = some (.block q h b o)) :
    ∃ body other, BlockAt (entries nodes) p q h body other ∧
      p + 1 + Node.sizeAll body + Node.sizeBranch other ≤ (entries nodes).length := by
  obtain ⟨body, other, hb, hend⟩ :=
    blockAt_forest nodes (lies_entries nodes) (Nat.zero_le p) (lt_sizeAll_of_getElem? he) he
  rw [length_entries]
  exact ⟨body, other, hb, by omega⟩

/-- A node has a block as its parent exactly if the block lists it. -/
theorem parentOf_iff_lists (p i : Nat) :
    ParentOf (entries nodes) p i ↔ Lists (entries nodes) p i := by
  constructor
  · rintro ⟨e, he, hp⟩
    obtain ⟨e', he', ⟨hnone, _⟩ | ⟨p', _, _, hp', hl⟩⟩ :=
      rooted_forest nodes (lies_entries nodes) (Nat.zero_le i) (lt_sizeAll_of_getElem? he)
    · cases he.symm.trans he'
      rw [hp] at hnone
      cases hnone
    · cases he.symm.trans he'
      cases hp.symm.trans hp'
      exact hl
  · intro hl
    obtain ⟨q, h, b, o, he, _⟩ := id hl
    obtain ⟨body, other, hb, _⟩ := blockAt_entries he
    rcases hb.lists_iff.1 hl with hbody | hbranch
    · exact parent_of_mem_numbers hb.inBody hbody
    · exact parent_of_mem_branchNumbers hb.inBranch hbranch

theorem lt_of_lists {p i : Nat} (h : Lists (entries nodes) p i) : p < i := by
  obtain ⟨q, head, b, o, he, hi⟩ := h
  exact (lists_lt (lies_entries nodes) (Nat.zero_le p) (lt_sizeAll_of_getElem? he)
    ⟨q, head, b, o, he, hi⟩).1

theorem parent_eq_none_iff {i : Nat} {e : Entry} (he : (entries nodes)[i]? = some e) :
    e.parent = none ↔ i ∈ numbers 0 nodes := by
  constructor
  · intro hnone
    obtain ⟨e', he', ⟨_, hmem⟩ | ⟨p', _, _, hp', _⟩⟩ :=
      rooted_forest nodes (lies_entries nodes) (Nat.zero_le i) (lt_sizeAll_of_getElem? he)
    · exact hmem
    · cases he.symm.trans he'
      rw [hnone] at hp'
      cases hp'
  · intro hmem
    obtain ⟨e', he', hnone⟩ := parent_of_mem_numbers (lies_entries nodes) hmem
    cases he.symm.trans he'
    exact hnone

variable (nodes)

theorem wellFormed_entries : WellFormed (entries nodes) (numbers 0 nodes) where
  once := by
    rw [length_entries, List.range_eq_range']
    exact perm_flatten none 0 nodes
  ascending := numbers_ascending 0 nodes
  ascending_inside := by
    intro p q h b o he
    obtain ⟨body, other, hb, _⟩ := blockAt_entries he
    cases hb.here.symm.trans he
    exact ⟨numbers_ascending _ body, branchNumbers_ascending _ other⟩
  outside := fun i e he => parent_eq_none_iff he
  inside := by
    intro i e p he
    constructor
    · intro hp
      exact (parentOf_iff_lists p i).1 ⟨e, he, hp⟩
    · intro hl
      obtain ⟨e', he', hp⟩ := (parentOf_iff_lists p i).2 hl
      cases he.symm.trans he'
      exact hp
  parent_lt := fun p i h => lt_of_lists ((parentOf_iff_lists p i).1 h)
  span := by
    intro p q h b o he
    obtain ⟨body, other, hb, hend⟩ := blockAt_entries he
    cases hb.here.symm.trans he
    have hbody := mem_or_contains_iff parentOf_iff_lists hb.inBody
    have hbranch := branch_contains_iff parentOf_iff_lists hb.inBranch
    refine ⟨p + 1 + Node.sizeAll body, p + 1 + Node.sizeAll body + Node.sizeBranch other,
      by omega, by omega, hend, fun i => ?_, fun i => ?_, fun i => ?_⟩
    · rw [contains_iff]
      simp only [parentOf_iff_lists, hb.lists_iff, or_and_right, exists_or, hbody i, hbranch i]
      omega
    · rw [hbody i]
      omega
    · rw [← hbranch i]
      rfl

end

/-! ### The walk to the blocks around a node -/

theorem IsEnclosing.exists_block {es : List Entry} {i : Nat} {heads : List BlockHead}
    (h : IsEnclosing es i heads) {head : BlockHead} (hm : head ∈ heads) :
    ∃ q b o, Entry.block q head b o ∈ es := by
  obtain ⟨ps, hpair, hmem, hblocks⟩ := h
  clear hpair hmem
  induction hblocks with
  | nil => cases hm
  | cons hb _ ih =>
    rcases List.mem_cons.1 hm with rfl | hm
    · obtain ⟨q, b, o, hp⟩ := hb
      exact ⟨q, b, o, List.mem_of_getElem? hp⟩
    · exact ih hm

section

variable {es : List Entry} {i p : Nat} {e : Entry}

theorem enclosing_of_none (he : es[i]? = none) : enclosing es i = [] := by
  rw [enclosing, he]

theorem enclosing_of_outside (he : es[i]? = some e) (hp : e.parent = none) :
    enclosing es i = [] := by
  rw [enclosing, he]
  simp only [hp]

theorem enclosing_of_inside {q : Option Nat} {h : BlockHead} {b : List Nat}
    {o : Option (List Nat)} (he : es[i]? = some e) (hp : e.parent = some p) (hlt : p < i)
    (hb : es[p]? = some (.block q h b o)) : enclosing es i = enclosing es p ++ [h] := by
  rw [enclosing, he]
  simp only [hp, hlt, if_true, hb]

end

namespace WellFormed

variable {es : List Entry} {top : List Nat}

/-- The walk meets blocks only, and it ends. -/
theorem climbs (h : WellFormed es top) {i : Nat} {e : Entry} (he : es[i]? = some e) :
    Climbs es e.parent (enclosing es i) := by
  induction i using Nat.strong_induction_on generalizing e with
  | _ i ih =>
    cases hp : e.parent with
    | none =>
      rw [enclosing_of_outside he hp]
      exact .done
    | some p =>
      have hlt := h.parent_lt p i ⟨e, he, hp⟩
      obtain ⟨q, head, b, o, hb, _⟩ := (h.inside i e p he).1 hp
      rw [enclosing_of_inside he hp hlt hb]
      exact .block hb (ih p hlt hb)

/-- The blocks that the walk meets are those that contain the node, outermost first. -/
theorem isEnclosing (h : WellFormed es top) (i : Nat) : IsEnclosing es i (enclosing es i) := by
  induction i using Nat.strong_induction_on with
  | _ i ih =>
    cases he : es[i]? with
    | none =>
      rw [enclosing_of_none he]
      refine ⟨[], .nil, fun p => ⟨fun hp => (List.not_mem_nil hp).elim, fun hp => ?_⟩, .nil⟩
      obtain ⟨_, _, e, he', _⟩ := Relation.TransGen.tail'_iff.1 hp
      rw [he] at he'
      cases he'
    | some e =>
      cases hp : e.parent with
      | none =>
        rw [enclosing_of_outside he hp]
        refine ⟨[], .nil, fun p => ⟨fun hp => (List.not_mem_nil hp).elim, fun hc => ?_⟩, .nil⟩
        obtain ⟨_, _, e', he', hp'⟩ := Relation.TransGen.tail'_iff.1 hc
        cases he.symm.trans he'
        rw [hp] at hp'
        cases hp'
      | some p =>
        have hparent : ParentOf es p i := ⟨e, he, hp⟩
        have hlt := h.parent_lt p i hparent
        obtain ⟨q, head, b, o, hb, _⟩ := (h.inside i e p he).1 hp
        obtain ⟨ps, hpair, hmem, hheads⟩ := ih p hlt
        rw [enclosing_of_inside he hp hlt hb]
        refine ⟨ps ++ [p], ?_, fun c => ?_, List.rel_append hheads (.cons ⟨q, b, o, hb⟩ .nil)⟩
        · refine List.pairwise_append.2 ⟨hpair, List.pairwise_singleton _ _, ?_⟩
          intro c hc d hd
          rw [List.mem_singleton.1 hd]
          exact (hmem c).1 hc
        · rw [List.mem_append, List.mem_singleton, hmem c]
          constructor
          · rintro (hc | rfl)
            · exact hc.tail hparent
            · exact .single hparent
          · intro hc
            obtain ⟨d, hcd, e', he', hp'⟩ := Relation.TransGen.tail'_iff.1 hc
            cases he.symm.trans he'
            cases hp.symm.trans hp'
            rcases Relation.reflTransGen_iff_eq_or_transGen.1 hcd with rfl | hcd
            · exact .inr rfl
            · exact .inl hcd

end WellFormed

end Stencil.Procedure
