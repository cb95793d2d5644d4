import Stencil.Proofs.Lines
import Stencil.Proofs.Quotation
import Stencil.Proofs.Sources

/-!
# Line feeds in a listing

The loop over a stack lists what a recursion over the nodes lists (`Listing.walk_eq`), and every
printer of the listing says which line feeds it lets through. Together: a listing is cut into its
lines at the line feeds if and only if no node shows one (`Listing.splitOn_render_iff`).
-/

namespace Stencil

namespace Text

variable {s t : String}

def OneLine (s : String) : Prop := '\n' ∉ s.toList

instance : DecidablePred OneLine := fun s => inferInstanceAs (Decidable (¬ '\n' ∈ s.toList))

theorem oneLine_append : OneLine (s ++ t) ↔ OneLine s ∧ OneLine t := by
  rw [OneLine, String.toList_append, List.mem_append, not_or]
  rfl

theorem oneLine_ofList {cs : List Char} : OneLine (String.ofList cs) ↔ '\n' ∉ cs := by
  rw [OneLine, String.toList_ofList]

theorem oneLine_join {sep : String} (h : OneLine sep) {ts : List String} :
    OneLine (join sep ts) ↔ ∀ t ∈ ts, OneLine t := by
  rw [OneLine, join, String.toList_intercalate, mem_intercalate h]
  simp [OneLine]

theorem join_concat {sep : String} {ts : List String} (hne : ts ≠ []) :
    join sep (ts ++ [""]) = join sep ts ++ sep := by
  apply String.toList_injective
  rw [String.toList_append, join, join, String.toList_intercalate, String.toList_intercalate,
    List.map_append, List.map_singleton, intercalate_concat (by simpa using hne)]
  simp

/-- Lines put together are cut into these lines if and only if no line has the separator. -/
theorem splitOn_join_iff {ts : List String} (hne : ts ≠ []) :
    List.splitOn '\n' (join "\n" ts).toList = ts.map String.toList ↔ ∀ t ∈ ts, OneLine t := by
  rw [join, String.toList_intercalate]
  constructor
  · intro h t ht
    have hmem : t.toList ∈ ts.map String.toList := List.mem_map_of_mem ht
    rw [← h] at hmem
    exact not_mem_of_mem_splitOn hmem
  · intro h
    refine List.splitOn_intercalate '\n' ?_ ?_
    · intro l hl
      obtain ⟨t, ht, rfl⟩ := List.mem_map.1 hl
      exact h t ht
    · simpa using hne

/-! ### Numbers -/

theorem feed_not_mem_toDigits {b : Nat} (hb : 1 < b) (hle : b ≤ 16) (n : Nat) :
    '\n' ∉ Nat.toDigits b n := by
  have hdigit : ∀ k < 16, '\n' ≠ Nat.digitChar k := by decide
  induction n using Nat.strongRecOn with
  | ind n ih =>
    by_cases hn : n < b
    · rw [Nat.toDigits_of_lt_base hn, List.mem_singleton]
      exact hdigit n (Nat.lt_of_lt_of_le hn hle)
    · have hmod := Nat.mod_lt n (Nat.lt_trans Nat.zero_lt_one hb)
      rw [Nat.toDigits_of_base_le hb (Nat.le_of_not_lt hn), List.mem_append, not_or,
        List.mem_singleton]
      exact ⟨ih _ (Nat.div_lt_self (by omega) hb), hdigit _ (Nat.lt_of_lt_of_le hmod hle)⟩

theorem oneLine_toString (n : Int) : OneLine (toString n) := by
  cases n with
  | ofNat n => exact oneLine_ofList.2 (feed_not_mem_toDigits (by decide) (by decide) n)
  | negSucc n =>
    have htext : toString (Int.negSucc n) = "-" ++ String.ofList (Nat.toDigits 10 (n + 1)) := rfl
    rw [htext, oneLine_append]
    exact ⟨by decide, oneLine_ofList.2 (feed_not_mem_toDigits (by decide) (by decide) _)⟩

theorem feed_not_mem_hexDigits (width n : Nat) : '\n' ∉ hexDigits width n := by
  rw [hexDigits, List.mem_append, not_or]
  exact ⟨fun h => absurd (List.eq_of_mem_replicate h) (by decide),
    feed_not_mem_toDigits (by decide) (by decide) n⟩

/-! ### Quotations -/

theorem feed_not_mem_quoteChar {mark : Char} (hmark : mark ≠ '\n') (c : Char) :
    '\n' ∉ quoteChar mark c := by
  unfold quoteChar
  split_ifs with hmarked hfeed
  · have hc : c ≠ '\n' := by
      rintro rfl
      simp [hmark.symm] at hmarked
    simp [hc.symm]
  · decide
  · decide
  · decide
  · simp [Ne.symm hfeed]
  · simp [feed_not_mem_hexDigits]
  · simp [feed_not_mem_hexDigits]
  · simp [feed_not_mem_hexDigits]

theorem markFor_ne (cs : List Char) : markFor cs ≠ '\n' := by
  unfold markFor
  split <;> decide

theorem oneLine_quotedBytes (bs : List UInt8) : OneLine (quotedBytes bs) := by
  have hmark := markFor_ne (bs.map fun b => Char.ofNat b.toNat)
  have hbyte : ∀ b, '\n' ∉ quoteByte (markFor (bs.map fun b => Char.ofNat b.toNat)) b := by
    intro b
    unfold quoteByte
    split
    · exact feed_not_mem_quoteChar hmark _
    · simp [feed_not_mem_hexDigits]
  rw [quotedBytes, oneLine_ofList]
  simp only [List.mem_cons, List.mem_append, List.mem_flatMap, List.not_mem_nil, or_false, not_or,
    not_exists, not_and]
  exact ⟨⟨by decide, hmark.symm, fun b _ => hbyte b⟩, hmark.symm⟩

end Text

/-! ### Constants -/

namespace Binary64

theorem feed_not_mem_layout {ds : List Char} (h : '\n' ∉ ds) (place : Int) :
    '\n' ∉ layout ds place := by
  have htake : ∀ n, '\n' ∉ ds.take n := fun n hm => h (List.mem_of_mem_take hm)
  have hdrop : ∀ n, '\n' ∉ ds.drop n := fun n hm => h (List.mem_of_mem_drop hm)
  have hzeros : ∀ n, '\n' ∉ List.replicate n '0' := fun n hm =>
    absurd (List.eq_of_mem_replicate hm) (by decide)
  have hexponent : ∀ e, '\n' ∉ exponentText e := by
    intro e
    have hdigits := Text.feed_not_mem_toDigits (b := 10) (by decide) (by decide) e.natAbs
    unfold exponentText
    split <;> simp [hzeros, hdigits]
  unfold layout
  split
  · split
    · simp only [List.mem_append, not_or]
      exact ⟨⟨by decide, hzeros _⟩, h⟩
    · simp only [List.mem_append, List.mem_cons, not_or]
      refine ⟨⟨htake _, hzeros _⟩, by decide, ?_⟩
      split
      · decide
      · exact hdrop _
  · simp only [List.mem_append, List.mem_cons, not_or]
    refine ⟨⟨htake _, ?_⟩, by decide, hexponent _⟩
    split
    · exact List.not_mem_nil
    · rw [List.mem_cons, not_or]
      exact ⟨by decide, hdrop 1⟩

theorem oneLine_text (x : Binary64) : Text.OneLine x.text := by
  cases x with
  | finite s m e =>
    have hbody : ∀ body, '\n' ∉ body →
        Text.OneLine (String.ofList (if s then '-' :: body else body)) := by
      intro body h
      rw [Text.oneLine_ofList]
      split
      · simp [h]
      · exact h
    refine hbody _ ?_
    split
    · decide
    · refine feed_not_mem_layout (fun h => ?_) _
      have hmem := List.mem_reverse.1 ((List.dropWhile_sublist _).subset (List.mem_reverse.1 h))
      exact Text.feed_not_mem_toDigits (by decide) (by decide) _ hmem
  | infinite s => cases s <;> decide
  | nan n => exact (by decide : Text.OneLine "nan")

end Binary64

namespace Value

open Text (oneLine_append oneLine_ofList)

/-- The text that a constant is listed with as it is: that of a text, and the diagnostic text of a
value that no literal spells. -/
def shown : Value → List String
  | .str s => [s]
  | .null => []
  | .bool _ => []
  | .int _ => []
  | .float _ => []
  | .bytes _ => []
  | v => [v.inspect]

/-- Whether a constant is listed on one line. -/
def OneLine (v : Value) : Prop := ∀ s ∈ v.shown, Text.OneLine s

theorem oneLine_literalText (v : Value) : Text.OneLine v.literalText ↔ v.OneLine := by
  cases v with
  | str s =>
    -- a backslash in front of a character leaves a line feed as it is
    have hchar : ∀ c, '\n' ∈ literalChar c ↔ c = '\n' := by
      intro c
      unfold literalChar
      split
      · rename_i h
        simp only [List.mem_cons, List.not_mem_nil, or_false]
        constructor
        · rintro (h' | h')
          · exact absurd h' (by decide)
          · exact h'.symm
        · rintro rfl
          exact .inr rfl
      · simp [eq_comm]
    have htext : Text.OneLine (String.ofList (s.toList.flatMap literalChar)) ↔ Text.OneLine s := by
      rw [oneLine_ofList, Text.OneLine, List.mem_flatMap]
      exact not_congr
        ⟨fun ⟨c, hc, he⟩ => (hchar c).1 he ▸ hc, fun h => ⟨_, h, (hchar _).2 rfl⟩⟩
    rw [literalText, oneLine_append, oneLine_append, htext]
    rw [OneLine, shown, List.forall_mem_singleton]
    exact ⟨fun h => h.1.2, fun h => ⟨⟨by decide, h⟩, by decide⟩⟩
  | null => exact iff_of_true (by decide) nofun
  | bool b => exact iff_of_true (by cases b <;> decide) nofun
  | int n => exact iff_of_true (Text.oneLine_toString n) nofun
  | float x => exact iff_of_true x.oneLine_text nofun
  | bytes bs => exact iff_of_true (Text.oneLine_quotedBytes bs) nofun
  | _ => simp [OneLine, shown, literalText]

end Value

/-! ### References -/

def Segment.OneLine : Segment → Prop
  | .name s => Text.OneLine s
  | .index _ => True

structure Ref.OneLine (r : Ref) : Prop where
  root : Text.OneLine r.root
  path : ∀ s ∈ r.path, s.OneLine

theorem Segment.oneLine_text (s : Segment) : Text.OneLine s.text ↔ s.OneLine := by
  cases s with
  | name s =>
    rw [text, Text.oneLine_append]
    exact and_iff_right (by decide)
  | index n =>
    rw [text, Text.oneLine_append, Text.oneLine_append]
    exact iff_of_true ⟨⟨by decide, Text.oneLine_toString n⟩, by decide⟩ trivial

theorem Ref.oneLine_text (r : Ref) : Text.OneLine r.text ↔ r.OneLine := by
  have hjoin : Text.OneLine (String.join (r.path.map Segment.text)) ↔ ∀ s ∈ r.path, s.OneLine := by
    simp only [← Segment.oneLine_text, Text.OneLine, String.toList_join, List.mem_flatMap,
      List.mem_map, not_exists, not_and]
    exact ⟨fun h s hs => h _ ⟨s, hs, rfl⟩, fun h _ ⟨s, hs, ht⟩ => ht ▸ h s hs⟩
  rw [text, Text.oneLine_append, hjoin]
  exact ⟨fun h => ⟨h.1, h.2⟩, fun h => ⟨h.root, h.path⟩⟩

def Operand.OneLine : Operand → Prop
  | .ref r => r.OneLine
  | .constant v => v.OneLine

theorem Operand.oneLine_text (o : Operand) : Text.OneLine o.text ↔ o.OneLine := by
  cases o with
  | ref r => exact r.oneLine_text
  | constant v => exact v.oneLine_literalText

/-! ### Nodes -/

namespace Node

variable {P : Node → Prop}

theorem forall_in_cons {n : Node} {ns : List Node} :
    (∀ m : Node, m.In (n :: ns) → P m) ↔
      (∀ m : Node, m.In [n] → P m) ∧ ∀ m : Node, m.In ns → P m := by
  have hcons : ∀ m : Node, m.In (n :: ns) ↔ m.In [n] ∨ m.In ns := by
    intro m
    rw [← List.singleton_append]
    refine ⟨in_append, ?_⟩
    rintro (hm | hm)
    · exact hm.append_left
    · exact .later hm
  simp only [hcons, or_imp, forall_and]

theorem forall_in_leaf {n : Node} (hleaf : ∀ head body other, n ≠ .block head body other) :
    (∀ m : Node, m.In [n] → P m) ↔ P n := by
  constructor
  · exact fun h => h n .here
  · intro h m hm
    rcases eq_of_in_leaf hleaf hm with rfl | hm
    · exact h
    · cases hm

theorem forall_in_block {head : BlockHead} {body : List Node} {other : Option (List Node)} :
    (∀ m : Node, m.In [.block head body other] → P m) ↔
      P (.block head body other) ∧ (∀ m : Node, m.In body → P m) ∧
        ∀ ns, other = some ns → ∀ m : Node, m.In ns → P m := by
  constructor
  · intro h
    refine ⟨h _ .here, fun m hm => h m (.body hm), ?_⟩
    rintro ns rfl m hm
    exact h m (.branch hm)
  · rintro ⟨hblock, hbody, hbranch⟩ m hm
    cases hm with
    | here => exact hblock
    | later hm => cases hm
    | body hm => exact hbody m hm
    | branch hm => exact hbranch _ rfl m hm

end Node

/-- Whether nothing that a node shows as it is has a line feed. Texts, keys and the names of inline
helpers are quoted. -/
def Node.OneLine : Node → Prop
  | .text _ _ => True
  | .bind _ b => Text.OneLine b.target ∧ b.source.OneLine
  | .output _ o _ => o.OneLine
  | .call _ _ args _ => ∀ a ∈ args, a.OneLine
  | .block h _ _ =>
    (Text.OneLine h.helper ∧ ∀ o ∈ h.operands, o.OneLine) ∧
      ∀ a, h.scopeName = some a → Text.OneLine a ∧ h.scope.OneLine

namespace Listing

open Text (OneLine oneLine_append oneLine_join oneLine_ofList)

variable {acc : String}

theorem oneLine_quote (s : String) : OneLine (quote s) :=
  fun h => (raw_not_mem_quote h).2.2 rfl

theorem oneLine_keyText (k : Segment) : OneLine (keyText k) := by
  cases k with
  | name s =>
    rw [keyText, oneLine_append, oneLine_append]
    exact ⟨⟨by decide, oneLine_quote s⟩, by decide⟩
  | index n =>
    rw [keyText, oneLine_append, oneLine_append]
    exact ⟨⟨by decide, Text.oneLine_toString n⟩, by decide⟩

theorem oneLine_escaped (escape : Bool) (s : String) : OneLine (escaped escape s) ↔ OneLine s := by
  cases escape with
  | false => rfl
  | true =>
    rw [escaped, if_pos rfl, oneLine_append, oneLine_append]
    exact ⟨fun h => h.1.2, fun h => ⟨⟨by decide, h⟩, by decide⟩⟩

theorem oneLine_operands (os : List Operand) :
    OneLine (Text.join ", " (os.map Operand.text)) ↔ ∀ o ∈ os, o.OneLine := by
  rw [oneLine_join (by decide), List.forall_mem_map]
  exact forall₂_congr fun o _ => o.oneLine_text

theorem oneLine_callText (helper : String) (args : List Operand) :
    OneLine (callText helper args) ↔ ∀ a ∈ args, a.OneLine := by
  rw [callText, oneLine_append, oneLine_append, oneLine_append, oneLine_append, oneLine_operands]
  exact ⟨fun h => h.1.2, fun h => ⟨⟨⟨⟨by decide, oneLine_quote helper⟩, by decide⟩, h⟩, by decide⟩⟩

theorem oneLine_openingText (h : BlockHead) :
    OneLine (openingText h) ↔ OneLine h.helper ∧ ∀ o ∈ h.operands, o.OneLine := by
  rw [openingText, oneLine_append, oneLine_append, oneLine_append, oneLine_append, oneLine_operands]
  exact ⟨fun h => ⟨h.1.1.1.2, h.1.2⟩,
    fun h => ⟨⟨⟨⟨by decide, h.1⟩, by decide⟩, h.2⟩, by decide⟩⟩

theorem oneLine_pad (depth : Nat) : OneLine (pad depth) := by
  rw [pad, oneLine_ofList]
  exact fun h => absurd (List.eq_of_mem_replicate h) (by decide)

theorem oneLine_scopeNameLines (h : BlockHead) (depth : Nat) :
    (∀ l ∈ scopeNameLines h depth, OneLine l) ↔
      ∀ a, h.scopeName = some a → OneLine a ∧ h.scope.OneLine := by
  unfold scopeNameLines
  cases h.scopeName with
  | none => exact iff_of_true (fun l hl => absurd hl List.not_mem_nil) nofun
  | some a =>
    rw [List.forall_mem_singleton, oneLine_append, oneLine_append, oneLine_append, oneLine_append,
      oneLine_append, h.scope.oneLine_text]
    constructor
    · rintro ⟨⟨⟨⟨_, ha⟩, _⟩, hs⟩, _⟩ b ⟨⟩
      exact ⟨ha, hs⟩
    · intro hs
      obtain ⟨ha, hr⟩ := hs a rfl
      exact ⟨⟨⟨⟨⟨oneLine_pad _, by decide⟩, ha⟩, by decide⟩, hr⟩, by decide⟩

/-! ### Lines -/

theorem oneLine_statement (hacc : OneLine acc) {n : Node}
    (hleaf : ∀ head body other, n ≠ .block head body other) :
    OneLine (statement acc n) ↔ n.OneLine := by
  cases n with
  | text p s =>
    rw [statement, oneLine_append, oneLine_append, oneLine_append]
    exact iff_of_true ⟨⟨⟨hacc, by decide⟩, oneLine_quote s⟩, by decide⟩ trivial
  | bind p b =>
    rw [statement, oneLine_append, oneLine_append, oneLine_append, oneLine_append, oneLine_append,
      b.source.oneLine_text]
    exact ⟨fun h => ⟨h.1.1.1.1.2, h.1.1.2⟩,
      fun h => ⟨⟨⟨⟨⟨by decide, h.1⟩, by decide⟩, h.2⟩, oneLine_keyText b.key⟩, by decide⟩⟩
  | output p o escape =>
    rw [statement, oneLine_append, oneLine_append, oneLine_append, oneLine_escaped, o.oneLine_text]
    exact ⟨fun h => h.1.2, fun h => ⟨⟨⟨hacc, by decide⟩, h⟩, by decide⟩⟩
  | call p helper args escape =>
    rw [statement, oneLine_append, oneLine_append, oneLine_append, oneLine_escaped,
      oneLine_callText]
    exact ⟨fun h => h.1.2, fun h => ⟨⟨⟨hacc, by decide⟩, h⟩, by decide⟩⟩
  | block head body other => exact absurd rfl (hleaf head body other)

theorem oneLine_leaf (hacc : OneLine acc) (depth : Nat) {n : Node}
    (hleaf : ∀ head body other, n ≠ .block head body other) :
    (∀ l ∈ [pad depth ++ statement acc n], OneLine l) ↔ ∀ m : Node, m.In [n] → m.OneLine := by
  rw [Node.forall_in_leaf hleaf, List.forall_mem_singleton, oneLine_append,
    oneLine_statement hacc hleaf]
  exact and_iff_right (oneLine_pad depth)

mutual

theorem oneLine_nodeLines (hacc : OneLine acc) (depth : Nat) (n : Node) :
    (∀ l ∈ nodeLines acc depth n, OneLine l) ↔ ∀ m : Node, m.In [n] → m.OneLine := by
  match n with
  | .block h body otherwise =>
    have hopening : OneLine (pad depth ++ openingText h) ↔
        OneLine h.helper ∧ ∀ o ∈ h.operands, o.OneLine := by
      rw [oneLine_append, oneLine_openingText]
      exact and_iff_right (oneLine_pad depth)
    have hclose : OneLine (closeLine depth) := oneLine_append.2 ⟨oneLine_pad depth, by decide⟩
    rw [Node.forall_in_block, nodeLines, List.forall_mem_append, List.forall_mem_append,
      List.forall_mem_append, List.forall_mem_cons, List.forall_mem_singleton, hopening,
      oneLine_scopeNameLines, oneLine_linesOf hacc (depth + 1) body,
      oneLine_branchLines hacc depth otherwise]
    exact ⟨fun h => ⟨h.1.1.1, h.1.1.2, h.1.2⟩, fun h => ⟨⟨⟨h.1, h.2.1⟩, h.2.2⟩, hclose⟩⟩
  | .text p s => exact oneLine_leaf hacc depth nofun
  | .bind p b => exact oneLine_leaf hacc depth nofun
  | .output p o e => exact oneLine_leaf hacc depth nofun
  | .call p h as e => exact oneLine_leaf hacc depth nofun

theorem oneLine_linesOf (hacc : OneLine acc) (depth : Nat) (ns : List Node) :
    (∀ l ∈ linesOf acc depth ns, OneLine l) ↔ ∀ m : Node, m.In ns → m.OneLine := by
  match ns with
  | [] => exact iff_of_true (fun l h => absurd h List.not_mem_nil) nofun
  | n :: ns =>
    rw [linesOf, List.forall_mem_append, oneLine_nodeLines hacc depth n,
      oneLine_linesOf hacc depth ns, ← Node.forall_in_cons]

theorem oneLine_branchLines (hacc : OneLine acc) (depth : Nat) (otherwise : Option (List Node)) :
    (∀ l ∈ branchLines acc depth otherwise, OneLine l) ↔
      ∀ ns, otherwise = some ns → ∀ m : Node, m.In ns → m.OneLine := by
  match otherwise with
  | none => exact iff_of_true (fun l h => absurd h List.not_mem_nil) nofun
  | some ns =>
    have helse : OneLine (elseLine depth) := oneLine_append.2 ⟨oneLine_pad depth, by decide⟩
    rw [branchLines, List.forall_mem_cons, oneLine_linesOf hacc (depth + 1) ns]
    constructor
    · rintro ⟨_, h⟩ _ ⟨⟩
      exact h
    · exact fun h => ⟨helse, h ns rfl⟩

end

/-! ### The walk -/

/-- The lines of what is still to be listed at a depth. -/
def itemLines (acc : String) (depth : Nat) : List Item → List String
  | [] => []
  | .node n :: items => nodeLines acc depth n ++ itemLines acc depth items
  | .line s :: items => s :: itemLines acc depth items

def stackLines (acc : String) : List (List Item × Nat) → List String
  | [] => []
  | (items, depth) :: stack => itemLines acc depth items ++ stackLines acc stack

theorem itemLines_append (depth : Nat) (is js : List Item) :
    itemLines acc depth (is ++ js) = itemLines acc depth is ++ itemLines acc depth js := by
  fun_induction itemLines acc depth is with
  | case1 => rfl
  | case2 n is ih => rw [List.cons_append, itemLines, ih, List.append_assoc]
  | case3 s is ih => rw [List.cons_append, itemLines, ih, List.cons_append]

theorem itemLines_map_node (depth : Nat) (ns : List Node) :
    itemLines acc depth (ns.map .node) = linesOf acc depth ns := by
  induction ns with
  | nil => rfl
  | cons n ns ih => rw [List.map_cons, itemLines, ih, linesOf]

theorem itemLines_itemsOf (depth : Nat) (body : List Node) (otherwise : Option (List Node)) :
    itemLines acc (depth + 1) (itemsOf depth body otherwise) =
      linesOf acc (depth + 1) body ++ branchLines acc depth otherwise ++ [closeLine depth] := by
  rw [itemsOf, itemLines_append, itemLines_append, itemLines_map_node]
  cases otherwise with
  | none => rfl
  | some ns => rw [branchItems, itemLines, itemLines_map_node, branchLines]; rfl

/-- The loop lists what the recursion lists. -/
theorem walk_eq (stack : List (List Item × Nat)) (done : List String) :
    walk acc stack done = done.reverse ++ stackLines acc stack := by
  -- `done` is the listing so far, its last line first; only a block makes the stack longer
  fun_induction walk acc stack done with
  | case1 done => rw [stackLines, List.append_nil]
  | case2 done depth stack ih => rw [ih]; rfl
  | case3 done s items depth stack ih =>
    rw [ih, List.reverse_cons, List.append_assoc]
    rfl
  | case4 done h body otherwise items depth stack ih =>
    rw [ih, stackLines, itemLines_itemsOf, stackLines, stackLines, itemLines, nodeLines]
    simp
  | case5 done p s items depth stack ih =>
    rw [ih, List.reverse_cons, List.append_assoc]
    rfl
  | case6 done p b items depth stack ih =>
    rw [ih, List.reverse_cons, List.append_assoc]
    rfl
  | case7 done p o e items depth stack ih =>
    rw [ih, List.reverse_cons, List.append_assoc]
    rfl
  | case8 done p h as e items depth stack ih =>
    rw [ih, List.reverse_cons, List.append_assoc]
    rfl

/-! ### The listing -/

/-- The lines of a listing: the output is declared, the escape helper is if some node needs it, the
statements follow, and the output is returned. Behind the last line feed there is nothing. -/
def lines (acc : String) (nodes : List Node) : List String :=
  ("var " ++ acc ++ " = \"\";") ::
    (if Node.escapesAny nodes then ["var $escape = $helper[\"$escape\"];"] else []) ++
    linesOf acc 0 nodes ++ ["return " ++ acc ++ ";", ""]

theorem render_eq (nodes : List Node) : render acc nodes = Text.join "\n" (lines acc nodes) := by
  have hwalk : walk acc [(nodes.map .node, 0)] [] = linesOf acc 0 nodes := by
    rw [walk_eq, stackLines, itemLines_map_node, stackLines, List.append_nil]
    rfl
  have hlines : lines acc nodes =
      (("var " ++ acc ++ " = \"\";") ::
        (if Node.escapesAny nodes then ["var $escape = $helper[\"$escape\"];"] else []) ++
        linesOf acc 0 nodes ++ ["return " ++ acc ++ ";"]) ++ [""] := by
    simp [lines]
  rw [hlines, Text.join_concat (by simp), ← hwalk]
  rfl

/-- A listing is cut into its lines at the line feeds if and only if no node shows one. -/
theorem splitOn_render_iff (hacc : OneLine acc) (nodes : List Node) :
    List.splitOn '\n' (render acc nodes).toList = (lines acc nodes).map String.toList ↔
      ∀ n : Node, n.In nodes → n.OneLine := by
  have hheader : OneLine ("var " ++ acc ++ " = \"\";") :=
    oneLine_append.2 ⟨oneLine_append.2 ⟨by decide, hacc⟩, by decide⟩
  have hescape : ∀ l ∈
      if Node.escapesAny nodes then ["var $escape = $helper[\"$escape\"];"] else [], OneLine l := by
    split
    · rw [List.forall_mem_singleton]
      decide
    · exact fun l h => absurd h List.not_mem_nil
  have hreturn : ∀ l ∈ ["return " ++ acc ++ ";", ""], OneLine l := by
    rw [List.forall_mem_cons, List.forall_mem_singleton]
    exact ⟨oneLine_append.2 ⟨oneLine_append.2 ⟨by decide, hacc⟩, by decide⟩, by decide⟩
  have hne : lines acc nodes ≠ [] := by simp [lines]
  rw [render_eq, Text.splitOn_join_iff hne, lines, List.forall_mem_append, List.forall_mem_append,
    List.forall_mem_cons, oneLine_linesOf hacc]
  exact ⟨fun h => h.1.2, fun h => ⟨⟨⟨hheader, hescape⟩, h⟩, hreturn⟩⟩

end Listing

end Stencil
