import Stencil.Procedure.Flat
import Stencil.Proofs.Stretches

/-!
# Where nodes come from

A compilation adds nodes in the order of their numbers: for every marker the bindings that are made
for it and then its own node, and the text behind it. Main statement: every node of a template
knows the position of the text or of the marker that it comes from, and the positions of the nodes
are in order (`positions_exact`).
-/

namespace Stencil

open Procedure (Entry flatten flattenNode flattenBranch)

/-! ### Nodes in the order of their numbers -/

/-- The node of an entry, with nothing inside it. -/
def Procedure.Entry.node : Entry → Node
  | .leaf _ n => n
  | .block _ h _ _ => .block h [] none

namespace Node

mutual

/-- The nodes of a tree in the order of their numbers, with nothing inside them. -/
def parts : Node → List Node
  | .block h body otherwise => .block h [] none :: (partsAll body ++ partsBranch otherwise)
  | n => [n]

/-- The nodes of a forest in the order of their numbers. -/
def partsAll : List Node → List Node
  | [] => []
  | n :: ns => parts n ++ partsAll ns

/-- The nodes of a branch that may be missing. -/
def partsBranch : Option (List Node) → List Node
  | none => []
  | some ns => partsAll ns

end

/-- The text of a node that is one. -/
def text? : Node → Option String
  | .text _ s => some s
  | _ => none

theorem partsAll_append (ns ms : List Node) : partsAll (ns ++ ms) = partsAll ns ++ partsAll ms := by
  induction ns with
  | nil => rfl
  | cons n ns ih => simp only [List.cons_append, partsAll, ih, List.append_assoc]

theorem partsAll_singleton (n : Node) : partsAll [n] = n.parts := by
  simp only [partsAll, List.append_nil]

end Node

mutual

theorem map_node_flattenNode (parent : Option Nat) (first : Nat) (n : Node) :
    (flattenNode parent first n).map Entry.node = n.parts := by
  match n with
  | .block h body otherwise =>
    simp only [flattenNode, List.map_cons, List.map_append, Node.parts, Entry.node,
      map_node_flatten, map_node_flattenBranch]
  | .text .. | .bind .. | .output .. | .call .. => rfl

theorem map_node_flatten (parent : Option Nat) (first : Nat) (ns : List Node) :
    (flatten parent first ns).map Entry.node = Node.partsAll ns := by
  match ns with
  | [] => rfl
  | n :: ns =>
    simp only [flatten, List.map_append, Node.partsAll, map_node_flattenNode, map_node_flatten]

theorem map_node_flattenBranch (parent : Option Nat) (first : Nat) (o : Option (List Node)) :
    (flattenBranch parent first o).map Entry.node = Node.partsBranch o := by
  match o with
  | none => rfl
  | some ns => exact map_node_flatten parent first ns

end

/-! ### The nodes of a compilation that goes on -/

/-- The nodes of an open block, in front of which its own one has been reserved. -/
def OpenBlock.parts (o : OpenBlock) : List Node :=
  .block o.head [] none :: (Node.partsAll o.body ++ Node.partsBranch o.otherwise)

theorem OpenBlock.parts_append (o : OpenBlock) (ns : List Node) :
    (o.append ns).parts = o.parts ++ Node.partsAll ns := by
  rcases o with ⟨head, outer, body, otherwise⟩
  cases otherwise with
  | none =>
    simp only [append, parts, Node.partsAll_append, Node.partsBranch, List.append_nil,
      List.cons_append]
  | some es =>
    simp only [append, parts, Node.partsAll_append, Node.partsBranch, List.append_assoc,
      List.cons_append]

/-- The node of a text, unless the text is empty. -/
def textNodes (p : Position) (cs : List Char) : List Node :=
  if cs.isEmpty then [] else [.text p (String.ofList cs)]

namespace Builder

variable {b c : Builder} {p : Position}

/-- The nodes of the forest `top` and of the blocks that are open behind it. -/
def partsOf (top : List Node) : List OpenBlock → List Node
  | [] => Node.partsAll top
  | o :: os => partsOf top os ++ o.parts

/-- The nodes so far. -/
def parts (b : Builder) : List Node := partsOf b.top b.pending

theorem parts_emit (b : Builder) (ns : List Node) :
    (b.emit ns).parts = b.parts ++ Node.partsAll ns := by
  rcases b with ⟨binder, top, pending⟩
  cases pending with
  | nil => simp only [emit, parts, partsOf, Node.partsAll_append]
  | cons o os => simp only [emit, parts, partsOf, OpenBlock.parts_append, List.append_assoc]

/-- A block that is closed has the nodes that it had while it was open. -/
theorem parts_close {helper : String} (h : b.close helper = .ok c) : c.parts = b.parts := by
  unfold close at h
  split at h
  · cases h
  · rename_i o os ho
    split at h
    · cases h
      rw [parts_emit, Node.partsAll_singleton]
      simp only [parts, ho, partsOf, OpenBlock.toNode, Node.parts, OpenBlock.parts]
    · cases h

theorem parts_branch {helper : String} (h : b.branch helper = .ok c) : c.parts = b.parts := by
  unfold branch at h
  split at h
  · cases h
  · rename_i o os ho
    split at h
    · cases h
    · rename_i hn
      cases h
      simp only [parts, ho, partsOf, OpenBlock.parts, hn, Node.partsBranch, Node.partsAll]

theorem parts_emitText (b : Builder) (source : List Char) (offset : Nat) (cs : List Char) :
    (b.emitText source offset cs).parts = b.parts ++ textNodes (.ofOffset source offset) cs := by
  unfold emitText textNodes
  split
  · rw [List.append_nil]
  · exact parts_emit b _

end Builder

theorem partsAll_bindNodes (p : Position) (bounds : List Binder.Bound) :
    Node.partsAll (bindNodes p bounds) = bindNodes p bounds := by
  unfold bindNodes
  generalize bounds.filterMap Binder.Bound.made = es
  induction es with
  | nil => rfl
  | cons e es ih => simp only [List.map_cons, Node.partsAll, Node.parts, ih, List.cons_append,
      List.nil_append]

/-! ### The nodes of a marker -/

/-- The node that a marker at `p` stands for behind the bindings made for it, where binding its
paths in `b` gives `bounds` and leads to `b₁`. A marker that closes a block or starts a branch has
none. -/
inductive Marker.Yields (b : Binder) (p : Position) (m : Marker) (bounds : List Binder.Bound)
    (b₁ : Binder) : List Node → Prop
  | block {b₂ : Binder} {head : BlockHead} {helper : String} {run : List Value → Passes}
      {closed : Bool} (fragment : m.fragment = .opening helper run closed)
      (opens : Opens b p m bounds b₁ head b₂) (helper_eq : head.helper = helper) :
      Yields b p m bounds b₁ [.block head [] none]
  | leaf {n : Node} (node : m.node? p (bounds.map Binder.Bound.ref) = some n) :
      Yields b p m bounds b₁ [n]
  | closing {helper : String} (fragment : m.fragment = .closing helper) :
      Yields b p m bounds b₁ []
  | branch {helper : String} (fragment : m.fragment = .branch helper) :
      Yields b p m bounds b₁ []

namespace Builder

variable {b c : Builder} {p : Position} {m : Marker}

theorem parts_openBlock {helper : String} {run : List Value → Passes} {closed : Bool}
    (hf : m.fragment = .opening helper run closed)
    (h : b.openBlock p helper run m.scope m.paths = .ok c) :
    ∃ bounds b₁ own, b.binder.bind m.asked = (b₁, .ok bounds) ∧
      m.Yields b.binder p bounds b₁ own ∧ c.parts = b.parts ++ (bindNodes p bounds ++ own) := by
  simp only [openBlock] at h
  split at h
  · cases h
  · rename_i d refs hd
    obtain ⟨bounds, b₁, hbind, rfl, rfl⟩ := bind_eq_ok hd
    have hpasses : m.passes = run := by simp only [Marker.passes, hf]
    rw [← Marker.asked_of_opening hf] at hbind
    have hparts := parts_emit ({ b with binder := b₁ } : Builder) (bindNodes p bounds)
    rw [partsAll_bindNodes] at hparts
    simp only [emit_with_binder, Except.ok.injEq] at h hparts
    subst h
    refine ⟨bounds, b₁, ?own, hbind, ?yields, ?parts⟩
    case parts =>
      simp only [parts, partsOf] at hparts ⊢
      rw [hparts, List.append_assoc]
    case yields => exact .block hf ⟨hbind, rfl, hpasses.symm, ⟨_, rfl, rfl⟩, rfl⟩ rfl

theorem parts_leaf {n : Node} {refs : List Ref} (hn : n.parts = [n])
    (node : m.node? p refs = some n) (h : b.bind p m.asked = .ok (c, refs)) :
    ∃ bounds b₁ own, b.binder.bind m.asked = (b₁, .ok bounds) ∧
      m.Yields b.binder p bounds b₁ own ∧
      (c.emit [n]).parts = b.parts ++ (bindNodes p bounds ++ own) := by
  obtain ⟨bounds, b₁, hbind, rfl, rfl⟩ := bind_eq_ok h
  refine ⟨bounds, b₁, [n], hbind, .leaf node, ?_⟩
  rw [parts_emit, parts_emit, partsAll_bindNodes, Node.partsAll_singleton, hn, List.append_assoc]
  rfl

/-- A marker adds the bindings that are made for it and its own node. -/
theorem parts_apply (hl : b.binder.levels ≠ []) (h : b.apply p m = .ok c) :
    ∃ bounds b₁ own, b.binder.bind m.asked = (b₁, .ok bounds) ∧
      m.Yields b.binder p bounds b₁ own ∧ c.parts = b.parts ++ (bindNodes p bounds ++ own) := by
  have hnone : m.asked = [] → b.binder.bind m.asked = (b.binder, .ok []) := by
    intro hask
    rw [hask, Binder.bind, if_neg (by simpa using hl)]
    rfl
  cases hf : m.fragment with
  | opening helper run closed =>
    simp only [apply, hf] at h
    split at h
    · cases h
    · rename_i d hd
      obtain ⟨bounds, b₁, own, hbind, hown, hparts⟩ := parts_openBlock hf hd
      refine ⟨bounds, b₁, own, hbind, hown, ?_⟩
      cases closed with
      | true => rw [parts_close (Follows.of_orStop h), hparts]
      | false =>
        cases h
        exact hparts
  | closing helper =>
    have hask : m.asked = [] := by simp only [Marker.asked, hf]
    simp only [apply, hf] at h
    refine ⟨[], b.binder, [], hnone hask, .closing hf, ?_⟩
    rw [parts_close (Follows.of_orStop h)]
    exact (List.append_nil _).symm
  | branch helper =>
    have hask : m.asked = [] := by simp only [Marker.asked, hf]
    simp only [apply, hf] at h
    refine ⟨[], b.binder, [], hnone hask, .branch hf, ?_⟩
    rw [parts_branch (Follows.of_orStop h)]
    exact (List.append_nil _).symm
  | output escape constant =>
    cases constant with
    | some v =>
      have hask : m.asked = [] := by simp only [Marker.asked, hf]
      simp only [apply, hf, Except.ok.injEq] at h
      subst h
      have hbind : b.bind p m.asked = .ok (b, []) := by rw [hask, bind_nil hl]
      exact parts_leaf rfl (by simp only [Marker.node?, hf]) hbind
    | none =>
      have hask : m.asked = m.paths := by simp only [Marker.asked, hf]
      simp only [apply, hf] at h
      obtain ⟨⟨d, refs⟩, hbind, rfl⟩ := exists_of_map_eq_ok h
      rw [← hask] at hbind
      exact parts_leaf rfl (by simp only [Marker.node?, hf]) hbind
  | call helper args escape =>
    have hask : m.asked = m.paths := by simp only [Marker.asked, hf]
    simp only [apply, hf] at h
    obtain ⟨⟨d, refs⟩, hbind, rfl⟩ := exists_of_map_eq_ok h
    rw [← hask] at hbind
    exact parts_leaf rfl (by simp only [Marker.node?, hf]) hbind

end Builder

theorem Marker.Yields.position {b b₁ : Binder} {p : Position} {m : Marker}
    {bounds : List Binder.Bound} {own : List Node} (h : m.Yields b p bounds b₁ own) :
    ∀ n ∈ own, n.position = p ∧ n.text? = none := by
  intro n hn
  cases h with
  | block _ opens _ =>
    obtain rfl := List.mem_singleton.1 hn
    exact ⟨opens.position, rfl⟩
  | leaf node =>
    obtain rfl := List.mem_singleton.1 hn
    unfold Marker.node? at node
    split at node <;> cases node <;> exact ⟨rfl, rfl⟩
  | closing _ => cases hn
  | branch _ => cases hn

theorem position_bindNodes {p : Position} {bounds : List Binder.Bound} :
    ∀ n ∈ bindNodes p bounds, n.position = p ∧ n.text? = none := by
  intro n hn
  obtain ⟨e, _, rfl⟩ := List.mem_map.1 hn
  exact ⟨rfl, rfl⟩

theorem position_textNodes {p : Position} {cs : List Char} :
    ∀ n ∈ textNodes p cs, n.position = p := by
  intro n hn
  unfold textNodes at hn
  split at hn
  · cases hn
  · rw [List.mem_singleton.1 hn]
    rfl

/-- The positions of nodes are in order, from `p` on. -/
structure Node.Ordered (p : Position) (ns : List Node) : Prop where
  from_on : ∀ n ∈ ns, p ≤ n.position
  pairwise : ns.Pairwise fun n m => n.position ≤ m.position

theorem Node.Ordered.append {p q : Position} {ms ns : List Node} (h : Ordered q ns) (hpq : p ≤ q)
    (hms : ∀ n ∈ ms, n.position = p) : Ordered p (ms ++ ns) := by
  have hns : ∀ n ∈ ns, p ≤ n.position := fun n hn => Position.le_trans hpq (h.from_on n hn)
  constructor
  · intro n hn
    rcases List.mem_append.1 hn with hn | hn
    · rw [hms n hn]
      exact Position.le_refl p
    · exact hns n hn
  · refine List.pairwise_append.2 ⟨?_, h.pairwise, ?_⟩
    · refine List.pairwise_of_forall_mem_list fun n hn m hm => ?_
      rw [hms n hn, hms m hm]
      exact Position.le_refl p
    · intro n hn m hm
      rw [hms n hn]
      exact hns m hm

theorem text?_textNodes (p : Position) (cs : List Char) :
    (textNodes p cs).filterMap Node.text? =
      ([cs].filter fun cs => !cs.isEmpty).map String.ofList := by
  unfold textNodes
  cases cs with
  | nil => rfl
  | cons c cs => rfl

/-! ### The nodes of stretches -/

namespace Workshop

/-- The nodes that stretches add to a compilation that stands at `b`, where `before` is the source
in front of them. At every marker those come first that bind what its paths read for the first
time, then its own node, both at the position of its start tag; the text behind it follows, at the
position of its first character. -/
inductive Makes (w : Workshop) (name : Option String) (source : List Char) :
    List Char → Builder → List Stretch → List Node → Prop
  | nil {before : List Char} {b : Builder} : Makes w name source before b [] []
  | next {before : List Char} {b c : Builder} {s : Stretch} {ss : List Stretch} {m : Marker}
      {bounds : List Binder.Bound} {b₁ : Binder} {ms ns : List Node}
      (read : Marker.read w.registry w.config s.body b.binder.scope.text = .ok m)
      (bound : Binder.BindsEach b.binder m.asked b₁ bounds)
      (own : m.Yields b.binder (.behind before) bounds b₁ ms)
      (step : w.step name source b (.marker before.length s.body s.trailing) = .ok c)
      (rest : Makes w name source (before ++ s.spell w.config) c ss ns) :
      Makes w name source before b (s :: ss)
        (bindNodes (.behind before) bounds ++ ms ++
          textNodes (.behind (before ++ s.tagged w.config)) s.trailing ++ ns)

variable {w : Workshop} {name : Option String} {source : List Char} {b c : Builder}
  {before : List Char} {ss : List Stretch} {ns : List Node}

theorem exists_of_marker_step {offset : Nat} {body trailing : List Char}
    (h : w.step name source b (.marker offset body trailing) = .ok c) :
    ∃ m d, Marker.read w.registry w.config body b.binder.scope.text = .ok m ∧
      b.apply (.ofOffset source offset) m = .ok d ∧
      c = d.emitText source
        (offset + w.config.startTag.length + body.length + w.config.endTag.length) trailing := by
  simp only [step, applyMarker] at h
  cases hm : Marker.read w.registry w.config body b.binder.scope.text with
  | error e => simp [hm] at h
  | ok m =>
    cases hd : b.apply (.ofOffset source offset) m with
    | error e => simp [hm, hd] at h
    | ok d =>
      simp only [hm, hd, Except.ok.injEq] at h
      exact ⟨m, d, rfl, hd, h.symm⟩

theorem position_trailing (c : Config) (before : List Char) (s : Stretch) (later : List Char) :
    Position.ofOffset (before ++ s.spell c ++ later)
      (before.length + c.startTag.length + s.body.length + c.endTag.length) =
      .behind (before ++ s.tagged c) := by
  have hsplit : before ++ s.spell c ++ later = before ++ s.tagged c ++ (s.trailing ++ later) := by
    rw [Stretch.spell]
    simp only [List.append_assoc]
  rw [hsplit, ← Position.ofOffset_length]
  congr 1
  simp only [Stretch.tagged, List.length_append, String.length_toList]
  omega

/-- What a compilation adds for stretches is behind the nodes that it has. -/
theorem exists_makes (hb : b.Levelled)
    (hs : source = before ++ ss.flatMap (Stretch.spell w.config))
    (h : w.steps name source b (Stretch.pieces w.config before ss) = .ok c) :
    ∃ ns, w.Makes name source before b ss ns ∧ c.parts = b.parts ++ ns := by
  -- by induction on the stretches; what is in front of them grows by one of them at a time
  induction ss generalizing b before with
  | nil =>
    cases h
    exact ⟨[], .nil, (List.append_nil _).symm⟩
  | cons s ss ih =>
    rw [Stretch.pieces, steps] at h
    split at h
    · cases h
    · rename_i d hstep
      have hspell : source = before ++ s.spell w.config ++ ss.flatMap (Stretch.spell w.config) := by
        rw [hs, List.flatMap_cons, List.append_assoc]
      have hmarker : Position.ofOffset source before.length = .behind before := by
        rw [hs, Position.ofOffset_length]
      have htext := position_trailing w.config before s (ss.flatMap (Stretch.spell w.config))
      rw [← hspell] at htext
      obtain ⟨ns, hns, hparts⟩ := ih (levelled_step hb hstep) hspell h
      obtain ⟨m, a, hm, ha, rfl⟩ := exists_of_marker_step hstep
      obtain ⟨bounds, b₁, own, hbind, hown, happly⟩ := Builder.parts_apply hb.levels_ne_nil ha
      rw [hmarker] at hown happly
      refine ⟨_, .next hm (Binder.bindsEach_of_bind hbind) hown hstep hns, ?_⟩
      rw [hparts, Builder.parts_emitText, htext, happly]
      simp only [List.append_assoc]

/-- No node of stretches is in front of them, and none is in front of an earlier one. -/
theorem Makes.ordered (h : w.Makes name source before b ss ns) :
    Node.Ordered (.behind before) ns := by
  induction h with
  | nil => exact ⟨nofun, .nil⟩
  | @next before b c s ss m bounds b₁ ms ns read bound own step rest ih =>
    have htagged := Position.behind_le before (s.tagged w.config)
    have hspell := Position.behind_le (before ++ s.tagged w.config) s.trailing
    rw [List.append_assoc, ← Stretch.spell] at hspell
    rw [List.append_assoc]
    refine .append (.append ih hspell position_textNodes) htagged fun n hn => ?_
    rcases List.mem_append.1 hn with hn | hn
    · exact (position_bindNodes n hn).1
    · exact (own.position n hn).1

/-- The texts of stretches that are not empty are the texts of their nodes. -/
theorem Makes.texts (h : w.Makes name source before b ss ns) :
    ns.filterMap Node.text? =
      ((ss.map Stretch.trailing).filter fun cs => !cs.isEmpty).map String.ofList := by
  induction h with
  | nil => rfl
  | @next before b c s ss m bounds b₁ ms ns read bound own step rest ih =>
    have hmarker : (bindNodes (.behind before) bounds ++ ms).filterMap Node.text? = [] := by
      refine List.filterMap_eq_nil_iff.2 fun n hn => ?_
      rcases List.mem_append.1 hn with hn | hn
      · exact (position_bindNodes n hn).2
      · exact (own.position n hn).2
    rw [List.filterMap_append, List.filterMap_append, hmarker, text?_textNodes, ih, List.nil_append,
      ← List.map_append, ← List.filter_append]
    rfl

end Workshop

open Procedure (entries)

/-- A scan loses nothing: a source is the text in front of its markers and then every marker between
its tags with the text behind it, and no tag stands where it could be taken for another one. The
nodes of the template are the text in front, if it is not empty, and what the stretches make, each
of them at the position of the text or of the start tag that it comes from. So the texts among the
nodes are the texts of the source, and no node is in front of one with a smaller number. -/
theorem positions_exact {w : Workshop} {source : String} {name : Option String} {t : Template}
    (hw : w.config.Valid) (h : w.compile source name = .ok t) :
    ∃ first ss ns,
      w.scan source = (first, Stretch.pieces w.config first ss) ∧
      Text.strip source.toList = first ++ ss.flatMap (Stretch.spell w.config) ∧
      ¬ w.config.startTag.toList <:+: first ∧ (∀ s ∈ ss, s.Clear w.config) ∧
      (entries t.nodes).map Entry.node = textNodes (.behind []) first ++ ns ∧
      w.Makes name (Text.strip source.toList) first (w.started source) ss ns ∧
      (entries t.nodes).filterMap (fun e => e.node.text?) =
        ((first :: ss.map Stretch.trailing).filter fun cs => !cs.isEmpty).map String.ofList ∧
      (entries t.nodes).Pairwise fun d e => d.node.position ≤ e.node.position := by
  have hscan : Piece.scan w.config.startTag.toList w.config.endTag.toList
      (Text.strip source.toList) = ((w.scan source).1, (w.scan source).2) := rfl
  obtain ⟨b, hsteps, hpending, _, _⟩ := steps_of_compile h hscan
  have hlevelled : (w.started source).Levelled := Builder.Levelled.initial.emitText _ _ _
  obtain ⟨hclosed, _⟩ := Workshop.of_steps hlevelled hsteps
  obtain ⟨ss, hpieces, hspell, hfirst, hclear⟩ := Workshop.exists_stretches hw hclosed
  obtain ⟨ns, hmakes, hparts⟩ := Workshop.exists_makes hlevelled hspell (hpieces ▸ hsteps)
  have hnodes : t.nodes = b.top := by
    rw [Workshop.compile_of_steps_ok hsteps] at h
    simp only [Workshop.finish, hpending, Except.map, Except.ok.injEq] at h
    rw [← h]
  have hstarted : (w.started source).parts = textNodes (.behind []) (w.scan source).1 := by
    have hzero := Position.ofOffset_length [] (Text.strip source.toList)
    rw [Workshop.started, Builder.parts_emitText, ← hzero]
    rfl
  have hentries : (entries t.nodes).map Entry.node =
      textNodes (.behind []) (w.scan source).1 ++ ns := by
    rw [← hstarted, ← hparts, Builder.parts, hpending, Builder.partsOf, hnodes]
    exact map_node_flatten none 0 b.top
  refine ⟨(w.scan source).1, ss, ns, Prod.ext rfl hpieces, hspell, hfirst, hclear, hentries,
    hmakes, ?texts, ?ordered⟩
  case texts =>
    have htexts := congrArg (List.filterMap Node.text?) hentries
    rw [List.filterMap_append, hmakes.texts, text?_textNodes, ← List.map_append,
      ← List.filter_append, List.filterMap_map] at htexts
    exact htexts
  case ordered =>
    have hfirst : ∀ n ∈ textNodes (.behind []) (w.scan source).1, n.position = .behind [] :=
      position_textNodes
    have hordered := hmakes.ordered.append (Position.behind_le [] (w.scan source).1) hfirst
    have hpairwise := hordered.pairwise
    rw [← hentries, List.pairwise_map] at hpairwise
    exact hpairwise

/-- A start tag that half stands in a text, a marker over two lines and a text inside a block. -/
def raggedSource : String := "a\n <<#if\n b>c\n<d<</if> >"

def ragged : Workshop := ⟨.builtin, { startTag := "<<", endTag := ">" }⟩

theorem positions_exact_of_ragged :
    ∃ t first ss ns, ragged.config.Valid ∧ ragged.compile raggedSource none = .ok t ∧
      (entries t.nodes).map (fun e => e.node.position) =
        [⟨1, 0⟩, ⟨2, 1⟩, ⟨2, 1⟩, ⟨3, 3⟩, ⟨4, 8⟩] ∧
      Text.strip raggedSource.toList = first ++ ss.flatMap (Stretch.spell ragged.config) ∧
      (entries t.nodes).map Entry.node = textNodes (.behind []) first ++ ns ∧
      ragged.Makes none (Text.strip raggedSource.toList) first (ragged.started raggedSource) ss ns ∧
      (entries t.nodes).Pairwise fun d e => d.node.position ≤ e.node.position := by
  have hok : (ragged.compile raggedSource none).toOption.any (fun t =>
      (entries t.nodes).map (fun e => e.node.position) ==
        [⟨1, 0⟩, ⟨2, 1⟩, ⟨2, 1⟩, ⟨3, 3⟩, ⟨4, 8⟩]) = true := by
    decide +kernel
  obtain ⟨t, ht, hpositions⟩ := exists_ok_of_any hok
  have hvalid : ragged.config.Valid := by decide
  obtain ⟨first, ss, ns, _, hspell, _, _, hnodes, hmakes, _, hordered⟩ := positions_exact hvalid ht
  exact ⟨t, first, ss, ns, hvalid, ht, beq_iff_eq.1 hpositions, hspell, hnodes, hmakes, hordered⟩

end Stencil
