import Stencil.Proofs.Forest

/-!
# The forest behind a flat form

Entries that are an ordered forest are the flat form of a forest of nodes
(`WellFormed.exists_nodes`). It is put together from ranges of numbers: a list of numbers that,
with what is inside them, makes up a range without a gap (`Covers`) is the list of the trees of a
forest.
-/

namespace Stencil.Procedure

/-- An entry that is said to be no block is none. -/
def Entry.IsProper : Entry → Prop
  | .leaf _ (.block _ _ _) => False
  | _ => True

/-! ### Parts side by side -/

namespace LiesAt

variable {es part rest : List Entry} {i : Nat} {e : Entry}

theorem nil : LiesAt es i [] := fun _ h => absurd h (Nat.not_lt_zero _)

theorem append (h : LiesAt es i part) (k : LiesAt es (i + part.length) rest) :
    LiesAt es i (part ++ rest) := by
  intro j hj
  rw [List.length_append] at hj
  rcases Nat.lt_or_ge j part.length with hlt | hge
  · rw [h j hlt, List.getElem?_append_left hlt]
  · have hk := k (j - part.length) (by omega)
    have hi : i + part.length + (j - part.length) = i + j := by omega
    rw [hi] at hk
    rw [hk, List.getElem?_append_right hge]

theorem single (h : es[i]? = some e) : LiesAt es i [e] := by
  intro j hj
  obtain rfl : j = 0 := by simpa using hj
  exact h

theorem eq_of_length (h : LiesAt es 0 part) (hl : part.length = es.length) : es = part := by
  apply List.ext_getElem? fun j => ?_
  rcases Nat.lt_or_ge j part.length with hlt | hge
  · have hj := h j hlt
    rwa [Nat.zero_add] at hj
  · rw [List.getElem?_eq_none (by omega), List.getElem?_eq_none (by omega)]

end LiesAt

/-! ### Ranges of numbers -/

/-- The numbers `roots` have the same parent, and they and what is inside them are the numbers from
`a` up to `b`. -/
structure Covers (es : List Entry) (parent : Option Nat) (a b : Nat) (roots : List Nat) :
    Prop where
  le : a ≤ b
  le_length : b ≤ es.length
  ascending : roots.Pairwise (· < ·)
  parents : ∀ c ∈ roots, ∀ e, es[c]? = some e → e.parent = parent
  range : ∀ i, (∃ c ∈ roots, c = i ∨ Contains es c i) ↔ a ≤ i ∧ i < b

section

variable {es : List Entry} {top : List Nat}

theorem WellFormed.lt_of_contains (h : WellFormed es top) {p i : Nat} (hc : Contains es p i) :
    p < i := by
  induction hc with
  | single hs => exact h.parent_lt _ _ hs
  | tail _ hs ih => exact Nat.lt_trans ih (h.parent_lt _ _ hs)

theorem exists_of_contains {p i : Nat} (hc : Contains es p i) : ∃ e, es[i]? = some e := by
  obtain ⟨_, _, e, he, _⟩ := Relation.TransGen.tail'_iff.1 hc
  exact ⟨e, he⟩

theorem WellFormed.lists_of_contains (h : WellFormed es top) {p i : Nat} (hc : Contains es p i) :
    ∃ c, Lists es p c := by
  obtain ⟨c, ⟨e, he, hp⟩, _⟩ := Relation.TransGen.head'_iff.1 hc
  exact ⟨c, (h.inside c e p he).1 hp⟩

namespace Covers

variable {parent : Option Nat} {a b c : Nat} {cs : List Nat}

theorem eq_of_nil (h : Covers es parent a b []) : a = b := by
  have hle := h.le
  rcases Nat.lt_or_ge a b with hlt | hge
  · obtain ⟨c, hc, _⟩ := (h.range a).2 ⟨Nat.le_refl a, hlt⟩
    cases hc
  · omega

theorem head_eq (hw : WellFormed es top) (h : Covers es parent a b (c :: cs)) : c = a := by
  have hc := (h.range c).1 ⟨c, List.mem_cons_self, .inl rfl⟩
  obtain ⟨d, hd, hda⟩ := (h.range a).2 ⟨Nat.le_refl a, by omega⟩
  have had := (h.range d).1 ⟨d, hd, .inl rfl⟩
  rcases hda with rfl | hda
  · rcases List.mem_cons.1 hd with rfl | hd
    · rfl
    · have hlt := (List.pairwise_cons.1 h.ascending).1 d hd
      omega
  · have hlt := hw.lt_of_contains hda
    omega

/-- Without its first number and what is inside that, the rest of the range is covered. -/
theorem tail (hw : WellFormed es top) (h : Covers es parent a b (a :: cs)) {x : Nat}
    (hx : ∀ i, (a = i ∨ Contains es a i) ↔ a ≤ i ∧ i < x) (hxb : x ≤ b) :
    Covers es parent x b cs where
  le := hxb
  le_length := h.le_length
  ascending := (List.pairwise_cons.1 h.ascending).2
  parents c hc := h.parents c (List.mem_cons_of_mem _ hc)
  range i := by
    constructor
    · rintro ⟨c, hc, hci⟩
      have hi := (h.range i).1 ⟨c, List.mem_cons_of_mem _ hc, hci⟩
      have hac := (List.pairwise_cons.1 h.ascending).1 c hc
      refine ⟨?_, hi.2⟩
      rcases Nat.lt_or_ge i x with hlt | hge
      · -- otherwise the number would be inside its sibling, which is behind their parent
        have hle : c ≤ i := by
          rcases hci with rfl | hci
          · exact Nat.le_refl c
          · exact Nat.le_of_lt (hw.lt_of_contains hci)
        rcases (hx c).2 ⟨by omega, by omega⟩ with rfl | hinside
        · omega
        · obtain ⟨d, had, e, he, hd⟩ := Relation.TransGen.tail'_iff.1 hinside
          have hparent := h.parents c (List.mem_cons_of_mem _ hc) e he
          rw [hd] at hparent
          obtain ⟨ha, _⟩ := (hx a).1 (.inl rfl)
          have hlength := h.le_length
          have hlt : a < es.length := by
            have := (h.range a).1 ⟨a, List.mem_cons_self, .inl rfl⟩
            omega
          have hself := h.parents a List.mem_cons_self es[a] (List.getElem?_eq_getElem hlt)
          have hda := hw.parent_lt d a
            ⟨es[a], List.getElem?_eq_getElem hlt, by rw [hself, ← hparent]⟩
          rcases Relation.reflTransGen_iff_eq_or_transGen.1 had with rfl | had
          · omega
          · have := hw.lt_of_contains had
            omega
      · exact hge
    · rintro ⟨hxi, hib⟩
      have ha := (hx a).1 (.inl rfl)
      obtain ⟨c, hc, hci⟩ := (h.range i).2 ⟨by omega, hib⟩
      rcases List.mem_cons.1 hc with rfl | hc
      · have := (hx i).1 hci
        omega
      · exact ⟨c, hc, hci⟩

end Covers

namespace WellFormed

/-- The numbers outside all blocks cover all numbers. -/
theorem covers_top (h : WellFormed es top) : Covers es none 0 es.length top where
  le := Nat.zero_le _
  le_length := Nat.le_refl _
  ascending := h.ascending
  parents c hc e he := (h.outside c e he).2 hc
  range i := by
    constructor
    · rintro ⟨c, hc, rfl | hci⟩
      · have hmem := h.once.mem_iff.1 (List.mem_append_left _ hc)
        exact ⟨Nat.zero_le _, List.mem_range.1 hmem⟩
      · obtain ⟨e, he⟩ := exists_of_contains hci
        exact ⟨Nat.zero_le _, (List.getElem?_eq_some_iff.1 he).1⟩
    · rintro ⟨-, hi⟩
      induction i using Nat.strong_induction_on with
      | _ i ih =>
        have he : es[i]? = some es[i] := List.getElem?_eq_getElem hi
        cases hp : es[i].parent with
        | none => exact ⟨i, (h.outside i es[i] he).1 hp, .inl rfl⟩
        | some p =>
          have hstep : ParentOf es p i := ⟨es[i], he, hp⟩
          have hlt := h.parent_lt p i hstep
          obtain ⟨c, hc, hcp⟩ := ih p hlt (by omega)
          rcases hcp with rfl | hcp
          · exact ⟨c, hc, .inr (.single hstep)⟩
          · exact ⟨c, hc, .inr (hcp.tail hstep)⟩

/-- What a block lists first covers the range of its body. -/
theorem covers_listed (h : WellFormed es top) {p a b : Nat} {roots : List Nat}
    (hl : ∀ c ∈ roots, Lists es p c) (ha : roots.Pairwise (· < ·)) (hab : a ≤ b)
    (hb : b ≤ es.length)
    (hr : ∀ i, (∃ c ∈ roots, c = i ∨ Contains es c i) ↔ a ≤ i ∧ i < b) :
    Covers es (some p) a b roots where
  le := hab
  le_length := hb
  ascending := ha
  parents c hc e he := (h.inside c e p he).2 (hl c hc)
  range := hr

/-- What is inside a block is covered by its body and then by its branch. -/
theorem covers_block (h : WellFormed es top) {p : Nat} {q : Option Nat} {head : BlockHead}
    {body : List Nat} {o : Option (List Nat)} (he : es[p]? = some (.block q head body o)) :
    ∃ m n, Covers es (some p) (p + 1) m body ∧ Covers es (some p) m n (o.getD []) ∧
      ∀ i, (p = i ∨ Contains es p i) ↔ p ≤ i ∧ i < n := by
  obtain ⟨m, n, hpm, hmn, hn, hinside, hbody, hbranch⟩ := h.span p q head body o he
  have hascending := h.ascending_inside p q head body o he
  have hlists : ∀ i, i ∈ body ++ o.getD [] → Lists es p i :=
    fun i hi => ⟨q, head, body, o, he, hi⟩
  refine ⟨m, n, ?_, ?_, fun i => ?_⟩
  · exact h.covers_listed (fun i hi => hlists i (List.mem_append_left _ hi)) hascending.1 hpm
      (by omega) hbody
  · exact h.covers_listed (fun i hi => hlists i (List.mem_append_right _ hi)) hascending.2 hmn hn
      hbranch
  · rw [hinside i]
    omega

end WellFormed

/-! ### Putting trees together -/

/-- The numbers `roots` are those of the trees of a forest that lies from `a` up to `b`. -/
def IsForest (es : List Entry) (parent : Option Nat) (a b : Nat) (roots : List Nat) : Prop :=
  ∃ ns, numbers a ns = roots ∧ LiesAt es a (flatten parent a ns) ∧ a + Node.sizeAll ns = b

theorem isForest_nil {parent : Option Nat} {a : Nat} : IsForest es parent a a [] :=
  ⟨[], rfl, .nil, rfl⟩

theorem IsForest.cons {parent : Option Nat} {a x b : Nat} {cs : List Nat} {n : Node}
    (h : IsForest es parent x b cs) (hn : LiesAt es a (flattenNode parent a n))
    (hx : a + n.size = x) : IsForest es parent a b (a :: cs) := by
  obtain ⟨ns, hnumbers, hlies, hsize⟩ := h
  subst hx
  refine ⟨n :: ns, ?_, ?_, ?_⟩
  · rw [numbers, hnumbers]
  · rw [flatten]
    refine hn.append ?_
    rw [length_flattenNode]
    exact hlies
  · rw [Node.sizeAll]
    omega

theorem IsForest.branch {parent : Option Nat} {a b : Nat} {o : Option (List Nat)}
    (h : IsForest es parent a b (o.getD [])) :
    ∃ other : Option (List Node), other.map (numbers a) = o ∧
      LiesAt es a (flattenBranch parent a other) ∧ a + Node.sizeBranch other = b := by
  obtain ⟨ns, hnumbers, hlies, hsize⟩ := h
  cases o with
  | none =>
    refine ⟨none, rfl, .nil, ?_⟩
    cases ns with
    | nil => exact hsize
    | cons n ns => cases hnumbers
  | some is => exact ⟨some ns, congrArg some hnumbers, hlies, hsize⟩

/-- A block and what is inside it make up a tree. -/
theorem lies_block {p m n : Nat} {q : Option Nat} {head : BlockHead} {body : List Nat}
    {o : Option (List Nat)} (he : es[p]? = some (.block q head body o))
    (hbody : IsForest es (some p) (p + 1) m body)
    (hbranch : IsForest es (some p) m n (o.getD [])) :
    ∃ node : Node, LiesAt es p (flattenNode q p node) ∧ p + node.size = n := by
  obtain ⟨inner, hin, hlin, rfl⟩ := hbody
  obtain ⟨other, hother, hlother, hsize⟩ := hbranch.branch
  refine ⟨.block head inner other, ?_, ?_⟩
  · simp only [flattenNode, hin, hother]
    refine (LiesAt.single he).append (hlin.append ?_)
    rw [length_flatten]
    exact hlother
  · rw [Node.size]
    omega

theorem lies_leaf {i : Nat} {q : Option Nat} {n : Node} (he : es[i]? = some (.leaf q n))
    (hn : (Entry.leaf q n).IsProper) : LiesAt es i (flattenNode q i n) ∧ n.size = 1 := by
  cases n with
  | block head body other => exact hn.elim
  | text p s => exact ⟨.single he, rfl⟩
  | bind p b => exact ⟨.single he, rfl⟩
  | output p o e => exact ⟨.single he, rfl⟩
  | call p helper args e => exact ⟨.single he, rfl⟩

namespace WellFormed

/-- The numbers that cover a range are those of the trees of a forest that lies there. -/
theorem isForest (h : WellFormed es top) (hp : ∀ e ∈ es, e.IsProper) {parent : Option Nat}
    {a b : Nat} {roots : List Nat} (hc : Covers es parent a b roots) :
    IsForest es parent a b roots := by
  induction hk : b - a using Nat.strong_induction_on generalizing parent a b roots with
  | _ k ih =>
    cases roots with
    | nil =>
      obtain rfl := hc.eq_of_nil
      exact isForest_nil
    | cons c cs =>
      obtain rfl := hc.head_eq h
      have hcb := (hc.range c).1 ⟨c, List.mem_cons_self, .inl rfl⟩
      have hlength := hc.le_length
      have he : es[c]? = some es[c] := List.getElem?_eq_getElem (by omega)
      have hparent := hc.parents c List.mem_cons_self es[c] he
      have hproper := hp es[c] (List.getElem_mem _)
      cases hentry : es[c] with
      | leaf q n =>
        rw [hentry] at he hparent hproper
        cases hparent
        have hleaf : ∀ i, ¬ Contains es c i := by
          intro i hi
          obtain ⟨d, _, _, _, _, hb, _⟩ := h.lists_of_contains hi
          cases he.symm.trans hb
        have hcs := hc.tail h (x := c + 1)
          (fun i => by simp only [hleaf i, or_false]; omega) (by omega)
        obtain ⟨hlies, hsize⟩ := lies_leaf he hproper
        exact (ih (b - (c + 1)) (by omega) hcs rfl).cons hlies (by rw [hsize])
      | block q head body o =>
        rw [hentry] at he hparent
        cases hparent
        obtain ⟨m, n, hcbody, hcbranch, hinside⟩ := h.covers_block he
        have hcm := hcbody.le
        have hmn := hcbranch.le
        -- the last number inside the block is in the range, so the block ends within it
        have hlast := (hinside (n - 1)).2 (by omega)
        have hnb := (hc.range (n - 1)).1 ⟨c, List.mem_cons_self, hlast⟩
        have hcs := hc.tail h hinside (by omega)
        have hbody := ih (m - (c + 1)) (by omega) hcbody rfl
        have hbranch := ih (n - m) (by omega) hcbranch rfl
        obtain ⟨node, hnode, hsize⟩ := lies_block he hbody hbranch
        exact (ih (b - n) (by omega) hcs rfl).cons hnode hsize

/-- Entries that are an ordered forest are the flat form of a forest of nodes. -/
theorem exists_nodes (h : WellFormed es top) (hp : ∀ e ∈ es, e.IsProper) :
    ∃ nodes, entries nodes = es ∧ numbers 0 nodes = top := by
  obtain ⟨nodes, hnumbers, hlies, hsize⟩ := h.isForest hp h.covers_top
  rw [Nat.zero_add] at hsize
  exact ⟨nodes, (hlies.eq_of_length ((length_flatten none 0 nodes).trans hsize)).symm, hnumbers⟩

end WellFormed

end

end Stencil.Procedure
