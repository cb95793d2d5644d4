import Stencil.Proofs.Tidiness

/-!
# Places in a procedure

What can be seen at a place in a forest: the bindings in front of it or of a block around it, and
the other names of the scopes of those blocks whose body it is in. Main statement: a node only uses
locals that can be seen where it is, and no two bindings that can see each other share their name or
their property (`bound_before_use`).
-/

namespace Stencil

open Binder (Tidy Plain Denotes BindsPath BindsEach Bound)

structure Around where
  /-- The bindings in front of the place or of a block around it. -/
  bound : List Binding := []
  /-- The other names of the scopes of the blocks whose body the place is in. -/
  names : List String := []

namespace Around

def past (a : Around) : Node → Around
  | .bind _ e => { a with bound := e :: a.bound }
  | _ => a

def inside (a : Around) (h : BlockHead) : Around :=
  { a with names := h.scopeName.toList ++ a.names }

end Around

/-- `Placed a ns a' n`: where `a` can be seen in front of the forest `ns`, the node `n` is in the
forest, and `a'` can be seen at `n`. A branch sees what its block sees. -/
inductive Placed : Around → List Node → Around → Node → Prop
  | here {a : Around} {n : Node} {ns : List Node} : Placed a (n :: ns) a n
  | later {a a' : Around} {n m : Node} {ns : List Node} (h : Placed (a.past n) ns a' m) :
      Placed a (n :: ns) a' m
  | body {a a' : Around} {head : BlockHead} {body ns : List Node} {m : Node}
      {otherwise : Option (List Node)} (h : Placed (a.inside head) body a' m) :
      Placed a (.block head body otherwise :: ns) a' m
  | branch {a a' : Around} {head : BlockHead} {body other ns : List Node} {m : Node}
      (h : Placed a other a' m) : Placed a (.block head body (some other) :: ns) a' m

def Operand.roots : Operand → List String
  | .ref r => [r.root]
  | .constant _ => []

def Node.roots : Node → List String
  | .text _ _ => []
  | .bind _ e => [e.source.root]
  | .output _ o _ => o.roots
  | .call _ _ args _ => args.flatMap Operand.roots
  | .block h _ _ => h.operands.flatMap Operand.roots ++ [h.scope.root]

/-! ### What is known at a place -/

section

variable {R : Reading → Prop} {a a' : Around} {b b₁ b' : Binder}

/-- A local that can be seen: the render context, a local of block helpers that some path names, the
other name of a scope, or the target of a binding. -/
def Known (R : Reading → Prop) (a : Around) (x : String) : Prop :=
  x = rootName ∨
    (x.toList.head? = some '$' ∧ ∃ r, R r ∧ ∃ q ∈ r.marker.asked, Path.local? q = some x) ∨
    x ∈ a.names ∨ x ∈ a.bound.map Binding.target

/-- Two bindings have neither their targets nor their properties in common. -/
def Binding.Differs (d e : Binding) : Prop :=
  d.target ≠ e.target ∧ (d.source, d.key) ≠ (e.source, e.key)

/-- A node fits its place: it uses what can be seen, and what it binds differs from what is
bound. -/
structure Fits (R : Reading → Prop) (a : Around) (n : Node) : Prop where
  known : ∀ x ∈ n.roots, Known R a x
  differs : ∀ p e, n = .bind p e → ∀ d ∈ a.bound, d.Differs e

/-- The binder has what can be seen at a place. -/
structure Mirrors (R : Reading → Prop) (b : Binder) (a : Around) : Prop where
  bound : ∀ e, e ∈ a.bound ↔ e ∈ b.entries
  roots : ∀ x ∈ b.roots, Known R a x

theorem Known.mono {x : String} (h : Known R a x) (hn : ∀ y ∈ a.names, y ∈ a'.names)
    (hb : ∀ e ∈ a.bound, e ∈ a'.bound) : Known R a' x := by
  rcases h with h | h | h | h
  · exact .inl h
  · exact .inr (.inl h)
  · exact .inr (.inr (.inl (hn x h)))
  · obtain ⟨e, he, hx⟩ := List.mem_map.1 h
    exact .inr (.inr (.inr (List.mem_map.2 ⟨e, hb e he, hx⟩)))

theorem mirrors_initial : Mirrors R .initial {} := by
  constructor
  · intro e
    simp [Binder.initial, Binder.entries, Binder.entriesOf]
  · intro x hx
    simp only [Binder.initial, Binder.roots, Binder.scopes, List.map_cons, List.map_nil,
      List.mem_singleton] at hx
    exact .inl hx

theorem Mirrors.target (h : Mirrors R b a) {x : String} (hx : x ∈ b.targets) : Known R a x := by
  obtain ⟨e, he, ht⟩ := List.mem_map.1 hx
  exact .inr (.inr (.inr (List.mem_map.2 ⟨e, (h.bound e).2 he, ht⟩)))

theorem Mirrors.denotes (h : Mirrors R b a) {r : Reading} {q : String} {ref : Ref} (hr : R r)
    (hq : q ∈ r.marker.asked) (hd : Denotes b q ref) : Known R a ref.root := by
  rcases hd.root with hx | hx | hx
  · exact h.target hx
  · exact h.roots _ hx
  · exact .inr (.inl ⟨Path.head_local? hx, r, hr, q, hq, hx⟩)

theorem Mirrors.of_levels (h : Mirrors R b a) (hl : b'.levels = b.levels) : Mirrors R b' a := by
  have he : b'.entries = b.entries := by rw [Binder.entries, hl]; rfl
  have hs : b'.roots = b.roots := by rw [Binder.roots, Binder.scopes, hl]; rfl
  exact ⟨fun e => by rw [he]; exact h.bound e, fun x hx => h.roots x (hs ▸ hx)⟩

theorem Mirrors.of_cons (h : Mirrors R b a) {s : Ref} (hl : b'.levels = ⟨s, []⟩ :: b.levels)
    (ha : a'.bound = a.bound) (hn : ∀ y ∈ a.names, y ∈ a'.names) (hs : Known R a' s.root) :
    Mirrors R b' a' := by
  constructor
  · intro e
    rw [ha, Binder.entries_of_cons hl]
    exact h.bound e
  · intro x hx
    rw [Binder.roots, Binder.scopes_of_cons hl, List.map_cons, List.mem_cons] at hx
    rcases hx with rfl | hx
    · exact hs
    · exact (h.roots x hx).mono hn fun e he => ha ▸ he

/-! ### Bindings in front of a node -/

theorem bindNodes_cons (p : Position) (bound : Bound) (bounds : List Bound) :
    bindNodes p (bound :: bounds) =
      (bound.made.map (Node.bind p)).toList ++ bindNodes p bounds := by
  unfold bindNodes
  cases hm : bound.made with
  | none => simp [hm]
  | some e => simp [hm]

/-- A binding fits where it is made, and behind it the binder has what can be seen. -/
theorem Mirrors.bind {p : Position} {q : String} {bound : Bound} {e : Binding}
    (h : Mirrors R b a) (hb : Tidy b) (hp : Plain q) (hbind : BindsPath b q b₁ bound)
    (he : bound.made = some e) :
    Fits R a (.bind p e) ∧ Mirrors R b₁ (a.past (.bind p e)) := by
  have hb₁ := hbind.tidy hb hp
  have hmem := hbind.mem_entries hb.levels hb.targets_counted
  obtain ⟨htarget, hkey⟩ := hbind.made_new hb.targets_counted he
  have hsource : e.source ∈ b.scopes := by
    rw [← hbind.within.scopes]
    exact hb₁.sources e ((hmem e).2 (.inr he))
  refine ⟨⟨?_, ?_⟩, ⟨?_, ?_⟩⟩
  · intro x hx
    rcases List.mem_singleton.1 hx with rfl
    exact h.roots _ (Binder.mem_roots hsource)
  · intro p' e' hn d hd
    cases hn
    have hd := (h.bound d).1 hd
    refine ⟨fun ht => htarget (ht ▸ Binder.mem_targets hd), fun hs => ?_⟩
    obtain ⟨hs, hk⟩ := Prod.mk.inj hs
    exact hkey d hd hs hk
  · intro d
    rw [hmem d, he, Option.some.injEq, ← h.bound d]
    simp only [Around.past, List.mem_cons]
    exact or_comm.trans (or_congr Iff.rfl eq_comm)
  · intro x hx
    rw [hbind.within.roots] at hx
    exact (h.roots x hx).mono (fun _ hy => hy) fun d hd => List.mem_cons_of_mem _ hd

/-- What stands in the bindings of a marker fits its place, and behind them the binder has what can
be seen. -/
theorem fits_binds {p : Position} {qs : List String} {bounds : List Bound} {ns : List Node}
    {n : Node} (hbind : BindsEach b qs b₁ bounds) (h : Mirrors R b a) (hb : Tidy b)
    (hp : ∀ q ∈ qs, Plain q) (hn : Placed a (bindNodes p bounds ++ ns) a' n) :
    Fits R a' n ∨ ∃ a₁, Mirrors R b₁ a₁ ∧ Placed a₁ ns a' n := by
  induction hbind generalizing a with
  | nil => exact .inr ⟨a, h, hn⟩
  | @cons b b₁ b' q bound qs bounds head tail ih =>
    have hq := hp q List.mem_cons_self
    have hqs := fun q h => hp q (List.mem_cons_of_mem _ h)
    have hb₁ := head.tidy hb hq
    have hmem := head.mem_entries hb.levels hb.targets_counted
    rw [bindNodes_cons] at hn
    cases hm : bound.made with
    | none =>
      rw [hm] at hn
      have h₁ : Mirrors R b₁ a := by
        constructor
        · intro e
          rw [hmem e, hm, h.bound e]
          simp
        · rw [head.within.roots]
          exact h.roots
      exact ih h₁ hb₁ hqs hn
    | some e =>
      rw [hm] at hn
      obtain ⟨hfits, h₁⟩ := h.bind (p := p) hb hq head hm
      cases hn with
      | here => exact .inl hfits
      | later hn => exact ih h₁ hb₁ hqs hn

/-! ### Everything fits -/

theorem known_operands {r : Reading} (h : Mirrors R b a) (hr : R r) {qs : List String}
    {refs : List Ref} (hq : ∀ q ∈ qs, q ∈ r.marker.asked)
    (hd : List.Forall₂ (Denotes b) qs refs) : ∀ ref ∈ refs, Known R a ref.root := by
  induction hd with
  | nil => simp
  | cons hd _ ih =>
    intro ref href
    rcases List.mem_cons.1 href with rfl | href
    · exact h.denotes hr (hq _ List.mem_cons_self) hd
    · exact ih (fun q hm => hq q (List.mem_cons_of_mem _ hm)) ref href

theorem known_context : Known R a Ref.context.root := .inl rfl

theorem fits_leaf {p : Position} {m : Marker} {refs : List Ref} {n : Node}
    (h : ∀ ref ∈ refs, Known R a ref.root) (hn : m.node? p refs = some n) : Fits R a n := by
  unfold Marker.node? at hn
  split at hn
  · cases hn
    exact ⟨by simp [Node.roots, Operand.roots], by simp⟩
  · cases hn
    refine ⟨?_, by simp⟩
    intro x hx
    rcases List.mem_singleton.1 hx with rfl
    cases refs with
    | nil => exact known_context
    | cons ref refs => exact h ref List.mem_cons_self
  · cases hn
    refine ⟨?_, by simp⟩
    intro x hx
    obtain ⟨o, ho, hx⟩ := List.mem_flatMap.1 hx
    obtain ⟨arg, _, rfl⟩ := List.mem_map.1 ho
    cases arg with
    | constant v => cases hx
    | «variable» i =>
      rcases List.mem_singleton.1 hx with rfl
      rw [List.getD_eq_getElem?_getD]
      cases hi : refs[i]? with
      | none => exact known_context
      | some ref => exact h ref (List.mem_of_getElem? hi)
  · cases hn

/-- There is nothing inside such a node, and it binds nothing. -/
theorem placed_leaf {p : Position} {m : Marker} {refs : List Ref} {l n : Node} {ns : List Node}
    (hl : m.node? p refs = some l) (hn : Placed a (l :: ns) a' n) :
    a = a' ∧ l = n ∨ Placed a ns a' n := by
  unfold Marker.node? at hl
  split at hl
  · cases hl
    cases hn with
    | here => exact .inl ⟨rfl, rfl⟩
    | later hn => exact .inr hn
  · cases hl
    cases hn with
    | here => exact .inl ⟨rfl, rfl⟩
    | later hn => exact .inr hn
  · cases hl
    cases hn with
    | here => exact .inl ⟨rfl, rfl⟩
    | later hn => exact .inr hn
  · cases hl

section

variable {b₂ : Binder} {p : Position} {m : Marker} {bounds : List Bound} {head : BlockHead}
  {helper : String} {run : List Value → Passes} {closed : Bool}

theorem known_scope (h : Mirrors R b₁ a) (hr : R ⟨b, p, m⟩)
    (opens : Opens b p m bounds b₁ head b₂) (hf : m.fragment = .opening helper run closed)
    (hb : Tidy b) (hp : ∀ q ∈ m.asked, Plain q) : Known R a head.scope.root := by
  rcases opens.scope_root hf hb hp with hx | hx | ⟨hm, hx⟩
  · exact h.target hx
  · exact h.roots _ hx
  · exact .inr (.inl ⟨Path.head_local? hx, _, hr, _, hm, hx⟩)

theorem fits_block (h : Mirrors R b₁ a) (hr : R ⟨b, p, m⟩)
    (opens : Opens b p m bounds b₁ head b₂) (hf : m.fragment = .opening helper run closed)
    (hb : Tidy b) (hp : ∀ q ∈ m.asked, Plain q) (body : List Node)
    (otherwise : Option (List Node)) : Fits R a (.block head body otherwise) := by
  refine ⟨?_, by simp⟩
  obtain ⟨⟨refs, hops, hd⟩, _⟩ := opens.denotes hf hb hp
  intro x hx
  rcases List.mem_append.1 hx with hx | hx
  · rw [hops, List.flatMap_map] at hx
    obtain ⟨ref, href, hx⟩ := List.mem_flatMap.1 hx
    rcases List.mem_singleton.1 hx with rfl
    exact known_operands h hr (Marker.path_mem_asked hf) hd ref href
  · rcases List.mem_singleton.1 hx with rfl
    exact known_scope h hr opens hf hb hp

theorem Mirrors.inside (h : Mirrors R b₁ a) (hr : R ⟨b, p, m⟩)
    (opens : Opens b p m bounds b₁ head b₂) (hf : m.fragment = .opening helper run closed)
    (hb : Tidy b) (hp : ∀ q ∈ m.asked, Plain q) :
    Mirrors R (b₂.push head.inner) (a.inside head) := by
  have hnames : ∀ y ∈ a.names, y ∈ (a.inside head).names :=
    fun y hy => List.mem_append_right _ hy
  refine h.of_cons (opens.push_levels _) rfl hnames ?_
  rcases opens.inner_cases with ⟨hname, hi, _⟩ | ⟨_, hi, _⟩
  · rw [hi]
    refine .inr (.inr (.inl (List.mem_append_left _ ?_)))
    rw [hname]
    exact List.mem_cons_self
  · rw [hi]
    exact (known_scope h hr opens hf hb hp).mono hnames fun _ he => he

end

theorem Hoists.fits {ds : List Passage} {ns : List Node} {n : Node} (h : Hoists R b ds b' ns)
    (hb : Tidy b) (hp : ∀ r, R r → ∀ q ∈ r.marker.asked, Plain q) (ha : Mirrors R b a)
    (hn : Placed a ns a' n) : Fits R a' n := by
  -- by induction on what is hoisted; the binder has what can be seen all along
  induction h generalizing a with
  | nil => cases hn
  | text _ ih =>
    cases hn with
    | here => exact ⟨by simp [Node.roots], by simp⟩
    | later hn => exact ih hb ha hn
  | @leaf b b₁ b' p m bounds d n' ds ns mem bound passage node rest ih =>
    have hbind := Binder.bindsEach_of_bind bound
    obtain ⟨hb₁, _, hd⟩ := hbind.tidy hb (hp _ mem)
    rcases fits_binds hbind ha hb (hp _ mem) hn with hfits | ⟨a₁, ha₁, hn⟩
    · exact hfits
    · rcases placed_leaf node hn with ⟨rfl, rfl⟩ | hn
      · exact fits_leaf (known_operands ha₁ mem (fun q hq => hq) hd) node
      · exact ih hb₁ ha₁ hn
  | @block b b₁ b₂ b₃ b' p m bounds helper run closed head body ds inner ns mem fragment opens
      helper_eq bodyPart rest ihb ih =>
    have hm := hp _ mem
    rcases fits_binds (Binder.bindsEach_of_bind opens.bound) ha hb hm hn with hfits | ⟨a₁, ha₁, hn⟩
    · exact hfits
    · cases hn with
      | here => exact fits_block ha₁ mem opens fragment hb hm inner none
      | later hn =>
        exact ih (opens.tidy_pop hb hm bodyPart.within)
          (ha₁.of_levels (opens.pop_levels bodyPart.within)) hn
      | body hn =>
        exact ihb (opens.tidy_push fragment hb hm) (ha₁.inside mem opens fragment hb hm) hn
  | @branched b b₁ b₂ b₃ b₄ b' p m bounds helper run closed head body other ds inner alt ns mem
      fragment opens helper_eq bodyPart branchPart rest ihb iho ih =>
    have hm := hp _ mem
    rcases fits_binds (Binder.bindsEach_of_bind opens.bound) ha hb hm hn with hfits | ⟨a₁, ha₁, hn⟩
    · exact hfits
    · cases hn with
      | here => exact fits_block ha₁ mem opens fragment hb hm inner (some alt)
      | later hn =>
        exact ih (opens.tidy_pop_branch hb hm bodyPart.within branchPart.within)
          (ha₁.of_levels (opens.pop_levels_branch bodyPart.within branchPart.within)) hn
      | body hn =>
        exact ihb (opens.tidy_push fragment hb hm) (ha₁.inside mem opens fragment hb hm) hn
      | branch hn =>
        have hscope := ha₁.roots _
          (Binder.mem_roots (Binder.scope_mem (opens.tidy hb hm).levels))
        exact iho (opens.tidy_replace hb hm bodyPart.within)
          (ha₁.of_cons (opens.replace_levels bodyPart.within) rfl (fun _ hy => hy) hscope) hn

/-- Bound before use, and bound once: where the paths of all markers are paths, a node only uses
the render context, locals of block helpers that paths name, the other names of the scopes of the
blocks whose body it is in, and targets of bindings that can be seen from it; and a binding differs
from every binding that can be seen from it. -/
theorem bound_before_use {w : Workshop} {source : String} {name : Option String} {t : Template}
    (h : w.compile source name = .ok t)
    (hp : ∀ r ∈ w.readings source name, ∀ q ∈ r.marker.asked, Token.isPath q = true)
    {a : Around} {n : Node} (hn : Placed {} t.nodes a n) :
    (∀ x ∈ n.roots, Known (· ∈ w.readings source name) a x) ∧
      ∀ p e, n = .bind p e → ∀ d ∈ a.bound, d.Differs e := by
  obtain ⟨b, hb⟩ := hoists_of_compile h
  have hfits := hb.fits Binder.tidy_initial
    (fun r hr q hq => Binder.plain_of_isPath (hp r hr q hq)) mirrors_initial hn
  exact ⟨hfits.known, hfits.differs⟩

end

def loopSource : String :=
  marked "#for xs" ++ marked "a" ++ marked "#else" ++ marked "a" ++ marked "/for"

/-- The property in the body of a loop is read from the other name of the scope. -/
theorem bound_before_use_in_loop :
    ∃ (t : Template) (a : Around) (n : Node),
      (⟨.builtin, {}⟩ : Workshop).compile loopSource none = .ok t ∧
      (∀ r ∈ (⟨.builtin, {}⟩ : Workshop).readings loopSource none,
        ∀ q ∈ r.marker.asked, Token.isPath q = true) ∧
      Placed {} t.nodes a n ∧ n.roots = ["$value@1"] ∧
      (∀ x ∈ n.roots, Known (· ∈ (⟨.builtin, {}⟩ : Workshop).readings loopSource none) a x) ∧
      ∀ p e, n = .bind p e → ∀ d ∈ a.bound, d.Differs e := by
  have hc : (⟨.builtin, {}⟩ : Workshop).compile loopSource none = .ok
      { name := none
        source := loopSource
        resultName := "$html"
        nodes :=
          [.bind ⟨1, 0⟩ ⟨"xs", ⟨"$data", []⟩, .name "xs"⟩,
           .block ⟨⟨1, 0⟩, "for", [.ref ⟨"xs", []⟩], Builtin.itemPasses, ⟨"$value", []⟩,
              some "$value@1"⟩
            [.bind ⟨1, 11⟩ ⟨"a", ⟨"$value@1", []⟩, .name "a"⟩,
             .output ⟨1, 11⟩ (.ref ⟨"a", []⟩) true]
            (some [.bind ⟨1, 25⟩ ⟨"a", ⟨"$data", []⟩, .name "a"⟩,
              .output ⟨1, 25⟩ (.ref ⟨"a", []⟩) true])] } := by
    with_unfolding_all rfl
  have hall : ((⟨.builtin, {}⟩ : Workshop).readings loopSource none).all
      (fun r => r.marker.asked.all Token.isPath) = true := by
    decide +kernel
  have hp : ∀ r ∈ (⟨.builtin, {}⟩ : Workshop).readings loopSource none,
      ∀ q ∈ r.marker.asked, Token.isPath q = true := by
    intro r hr q hq
    exact List.all_eq_true.1 (List.all_eq_true.1 hall r hr) q hq
  exact ⟨_, _, _, hc, hp, .later (.body .here), rfl,
    bound_before_use hc hp (.later (.body .here))⟩

end Stencil
