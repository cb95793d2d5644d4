import Stencil.Proofs.Meaning
import Stencil.Proofs.Printing

/-!
# One statement a line

A line feed comes into a listing only as it is shown by a marker: where no marker has one in its
paths, its constants and the name of its block, no node has one (`Hoists.oneLine`), and the listing
has one statement a line (`one_statement_a_line`).
-/

namespace Stencil

/-! ### Markers -/

def Argument.shown : Argument → List String
  | .constant v => v.shown
  | .variable _ => []

namespace Marker

/-- What a marker brings into the listing as it is: its paths, its constants that are texts, and the
name of the block that it opens. -/
def shown (m : Marker) : List String :=
  m.asked ++
    match m.fragment with
    | .opening helper _ _ => [helper]
    | .output _ (some v) => v.shown
    | .call _ args _ => args.flatMap Argument.shown
    | _ => []

def OneLine (m : Marker) : Prop := ∀ s ∈ m.shown, Text.OneLine s

instance : DecidablePred OneLine := fun m =>
  inferInstanceAs (Decidable (∀ s ∈ m.shown, Text.OneLine s))

namespace OneLine

variable {m : Marker} (h : m.OneLine)

include h

theorem paths : ∀ q ∈ m.asked, Text.OneLine q := fun q hq => h q (List.mem_append_left _ hq)

theorem constant {escape : Bool} {v : Value} (hf : m.fragment = .output escape (some v)) :
    v.OneLine := by
  refine fun s hs => h s (List.mem_append_right _ ?_)
  rw [hf]
  exact hs

theorem arg {helper : String} {args : List Argument} {escape : Bool} {v : Value}
    (hf : m.fragment = .call helper args escape) (hv : .constant v ∈ args) : v.OneLine := by
  refine fun s hs => h s (List.mem_append_right _ ?_)
  rw [hf]
  exact List.mem_flatMap.2 ⟨.constant v, hv, hs⟩

theorem helper {helper : String} {run : List Value → Passes} {closed : Bool}
    (hf : m.fragment = .opening helper run closed) : Text.OneLine helper := by
  refine h helper (List.mem_append_right _ ?_)
  rw [hf]
  exact List.mem_singleton_self helper

end OneLine

end Marker

theorem Path.oneLine_wordStep {w : List Char} (h : '\n' ∉ w) : (wordStep w).OneLine := by
  unfold wordStep
  split
  · trivial
  · exact Text.oneLine_ofList.2 h

/-- A path without a line feed resolves to names without one. -/
theorem Path.oneLine_of_resolve {q : String} {scopes : List Ref} {r : Resolved}
    (hq : Text.OneLine q) (hscopes : ∀ s ∈ scopes, s.OneLine) (h : resolve q scopes = .ok r) :
    r.base.OneLine ∧ (∀ x, r.name = some x → Text.OneLine x) ∧ ∀ s ∈ r.rest, s.OneLine := by
  have hsteps : ∀ ws : List (List Char), (∀ w ∈ ws, '\n' ∉ w) →
      ∀ s ∈ ws.tail.map wordStep, s.OneLine := by
    intro ws hws s hs
    obtain ⟨w, hw, rfl⟩ := List.mem_map.1 hs
    exact oneLine_wordStep (hws w (List.mem_of_mem_tail hw))
  rcases resolve_cases h with ⟨cs, hcs, rfl⟩ | ⟨_, hbase, hname, hrest⟩
  · have hfeed : '\n' ∉ cs := by
      unfold localText? at hcs
      split at hcs
      · rename_i heq
        rw [← Option.some.inj hcs, ← heq]
        exact hq
      · rename_i heq
        rw [← Option.some.inj hcs]
        exact fun hm => hq (heq ▸ List.mem_cons_of_mem _ (List.mem_cons_of_mem _ hm))
      · cases hcs
    have hwords := Binder.not_mem_dotted hfeed
    refine ⟨⟨?_, fun s hs => absurd hs List.not_mem_nil⟩, nofun, hsteps _ hwords⟩
    obtain ⟨w, ws, hd⟩ := List.exists_cons_of_ne_nil (Token.dotted_ne_nil cs)
    rw [hd] at hwords ⊢
    exact Text.oneLine_ofList.2 (hwords w List.mem_cons_self)
  · have hwords := Binder.not_mem_steps hq
    refine ⟨hscopes _ (List.mem_of_getElem? hbase), fun x hx => ?_, hrest ▸ hsteps _ hwords⟩
    rw [hname] at hx
    obtain ⟨w, hw, rfl⟩ := Option.map_eq_some_iff.1 hx
    exact Text.oneLine_ofList.2 (hwords w (List.mem_of_mem_head? hw))

structure Level.OneLine (l : Level) : Prop where
  scope : l.scope.OneLine
  targets : ∀ e ∈ l.bound, Text.OneLine e.target

theorem Level.OneLine.add {l : Level} {e : Binding} (hl : l.OneLine) (he : Text.OneLine e.target) :
    (l.add e).OneLine := by
  have hput : ∀ es : List Binding, (∀ d ∈ es, Text.OneLine d.target) →
      ∀ d ∈ e.put es, Text.OneLine d.target := by
    intro es hes
    induction es with
    | nil => exact fun d hd => List.mem_singleton.1 hd ▸ he
    | cons c es ih =>
      obtain ⟨hc, hes⟩ := List.forall_mem_cons.1 hes
      unfold Binding.put
      split
      · exact List.forall_mem_cons.2 ⟨he, hes⟩
      · exact List.forall_mem_cons.2 ⟨hc, ih hes⟩
  exact ⟨hl.scope, hput l.bound hl.targets⟩

namespace Binder

/-- No open scope and no local that can be seen has a line feed in its name. -/
def OneLine (b : Binder) : Prop := ∀ l ∈ b.levels, l.OneLine

structure Bound.OneLine (c : Bound) : Prop where
  ref : c.ref.OneLine
  made : ∀ e, c.made = some e → Text.OneLine e.target ∧ e.source.OneLine

variable {b b₁ b₂ : Binder}

theorem oneLine_context : Ref.context.OneLine := ⟨by decide, fun s hs => absurd hs List.not_mem_nil⟩

theorem oneLine_initial : initial.OneLine := by
  intro l hl
  rw [List.mem_singleton.1 hl]
  exact ⟨oneLine_context, fun e he => absurd he List.not_mem_nil⟩

namespace OneLine

theorem scopes (h : b.OneLine) : ∀ s ∈ b.scopes, s.OneLine := by
  intro s hs
  obtain ⟨l, hl, rfl⟩ := List.mem_map.1 hs
  exact (h l hl).scope

theorem scope (h : b.OneLine) : b.scope.OneLine := by
  unfold Binder.scope
  cases hs : b.scopes with
  | nil => exact oneLine_context
  | cons s ss => exact h.scopes s (hs ▸ List.mem_cons_self)

theorem target (h : b.OneLine) {e : Binding} (he : e ∈ b.entries) : Text.OneLine e.target := by
  obtain ⟨l, hl, hel⟩ := List.mem_flatMap.1 he
  exact (h l hl).targets e hel

theorem of_levels (h : b.OneLine) (hl : b₁.levels = b.levels) : b₁.OneLine := by
  intro l hm
  exact h l (hl ▸ hm)

theorem push (h : b.OneLine) {s : Ref} (hs : s.OneLine) : (b.push s).OneLine :=
  List.forall_mem_cons.2 ⟨⟨hs, fun _ he => absurd he List.not_mem_nil⟩, h⟩

theorem pop (h : b.OneLine) : b.pop.OneLine := fun l hl => h l (List.mem_of_mem_tail hl)

theorem replace (h : b.OneLine) {s : Ref} (hs : s.OneLine) : (b.replace s).OneLine := by
  unfold Binder.replace modify
  split
  · exact h
  · rename_i l ls heq
    intro m hm
    rcases List.mem_cons.1 hm with rfl | hm
    · exact ⟨hs, fun e he => absurd he List.not_mem_nil⟩
    · exact h m (heq ▸ List.mem_cons_of_mem _ hm)

theorem add (h : b.OneLine) {e : Binding} (he : Text.OneLine e.target) : (b.add e).OneLine := by
  unfold Binder.add modify
  split
  · exact h
  · rename_i l ls heq
    intro m hm
    rcases List.mem_cons.1 hm with rfl | hm
    · exact (h l (heq ▸ List.mem_cons_self)).add he
    · exact h m (heq ▸ List.mem_cons_of_mem _ hm)

end OneLine

theorem oneLine_numbered {x : String} (h : Text.OneLine x) (k : Nat) :
    Text.OneLine (numbered x k) := by
  rw [Text.OneLine, toList_numbered, List.mem_append, List.mem_cons, not_or, not_or]
  exact ⟨h, by decide, Text.feed_not_mem_toDigits (by decide) (by decide) k⟩

theorem BindsPath.oneLine {q : String} {c : Bound} (h : BindsPath b q b₁ c)
    (hq : Text.OneLine q) (hb : b.OneLine) : b₁.OneLine ∧ c.OneLine := by
  cases h with
  | direct resolved _ =>
    obtain ⟨hbase, _, hrest⟩ := Path.oneLine_of_resolve hq hb.scopes resolved
    refine ⟨hb, ⟨hbase.root, fun s hs => ?_⟩, nofun⟩
    exact (List.mem_append.1 hs).elim (hbase.path s) (hrest s)
  | held resolved _ _ _ mem =>
    obtain ⟨_, _, hrest⟩ := Path.oneLine_of_resolve hq hb.scopes resolved
    exact ⟨hb, ⟨hb.target mem, hrest⟩, nofun⟩
  | @made r name e count resolved named _ source _ target =>
    have hcount : OneLine { b with count := count } := hb.of_levels rfl
    obtain ⟨hbase, hname, hrest⟩ := Path.oneLine_of_resolve hq hb.scopes resolved
    have hid : Text.OneLine (Path.placeholder name) :=
      not_mem_placeholder (by decide) (hname name named)
    have htarget : Text.OneLine e.target := by
      rcases target with ⟨ht, _, _⟩ | ⟨ht, _⟩
      · exact ht ▸ hid
      · exact ht ▸ oneLine_numbered hid _
    refine ⟨hcount.add htarget, ⟨htarget, hrest⟩, ?_⟩
    rintro _ ⟨⟩
    exact ⟨htarget, source ▸ hbase⟩

theorem BindsEach.oneLine {qs : List String} {cs : List Bound} (h : BindsEach b qs b₁ cs)
    (hqs : ∀ q ∈ qs, Text.OneLine q) (hb : b.OneLine) : b₁.OneLine ∧ ∀ c ∈ cs, c.OneLine := by
  induction h with
  | nil => exact ⟨hb, fun c hc => absurd hc List.not_mem_nil⟩
  | cons head _ ih =>
    obtain ⟨hq, hqs⟩ := List.forall_mem_cons.1 hqs
    obtain ⟨hb₁, hc⟩ := head.oneLine hq hb
    obtain ⟨hb', hcs⟩ := ih hqs hb₁
    exact ⟨hb', List.forall_mem_cons.2 ⟨hc, hcs⟩⟩

end Binder

/-! ### What is put out and opened -/

section

variable {b b₁ b₂ : Binder} {p : Position} {m : Marker} {bounds : List Binder.Bound}

theorem Binder.oneLine_refs (h : ∀ c ∈ bounds, c.OneLine) :
    ∀ r ∈ bounds.map Bound.ref, r.OneLine :=
  List.forall_mem_map.2 fun c hc => (h c hc).ref

theorem oneLine_bindNodes (h : ∀ c ∈ bounds, c.OneLine) :
    ∀ n : Node, n.In (bindNodes p bounds) → n.OneLine := by
  intro n hn
  unfold bindNodes at hn
  have hmade : ∀ e ∈ bounds.filterMap Binder.Bound.made,
      Text.OneLine e.target ∧ e.source.OneLine := by
    intro e he
    obtain ⟨c, hc, hce⟩ := List.mem_filterMap.1 he
    exact (h c hc).made e hce
  generalize bounds.filterMap Binder.Bound.made = es at hn hmade
  induction es with
  | nil => cases hn
  | cons e es ih =>
    obtain ⟨he, hes⟩ := List.forall_mem_cons.1 hmade
    rcases Node.eq_of_in_leaf (by rintro _ _ _ ⟨⟩) hn with rfl | hn
    · exact he
    · exact ih hn hes

theorem Marker.oneLine_node? {n : Node} (hm : m.OneLine) (h : ∀ c ∈ bounds, c.OneLine)
    (hn : m.node? p (bounds.map Binder.Bound.ref) = some n) : n.OneLine := by
  have hrefs := Binder.oneLine_refs h
  unfold node? at hn
  split at hn
  · rename_i escape v hf
    cases hn
    exact hm.constant hf
  · cases hn
    cases hb : bounds.map Binder.Bound.ref with
    | nil => exact Binder.oneLine_context
    | cons r rs => exact hrefs r (hb ▸ List.mem_cons_self)
  · rename_i helper args escape hf
    cases hn
    intro a ha
    obtain ⟨arg, harg, rfl⟩ := List.mem_map.1 ha
    cases arg with
    | constant v => exact hm.arg hf harg
    | «variable» i =>
      change Ref.OneLine ((bounds.map Binder.Bound.ref).getD i Ref.context)
      rw [List.getD_eq_getElem?_getD]
      cases hi : (bounds.map Binder.Bound.ref)[i]? with
      | none => exact Binder.oneLine_context
      | some r => exact hrefs r (List.mem_of_getElem? hi)
  · cases hn

theorem Opens.oneLine {head : BlockHead} (h : Opens b p m bounds b₁ head b₂) (hm : m.OneLine)
    (hb : b.OneLine) :
    b₁.OneLine ∧ b₂.OneLine ∧ head.inner.OneLine ∧ (∀ c ∈ bounds, c.OneLine) ∧
      (∀ o ∈ head.operands, o.OneLine) ∧
      ∀ a, head.scopeName = some a → Text.OneLine a ∧ head.scope.OneLine := by
  obtain ⟨hb₁, hbounds⟩ := (Binder.bindsEach_of_bind h.bound).oneLine hm.paths hb
  have hrefs := Binder.oneLine_refs hbounds
  obtain ⟨refs, hoperands, hsplit⟩ := h.operands
  have hscope : head.scope.OneLine ∧ ∀ r ∈ refs, r.OneLine := by
    unfold Builder.splitScope at hsplit
    split at hsplit
    · obtain ⟨hscope, hoperands⟩ := Prod.mk.inj hsplit
      rw [← hscope, ← hoperands, List.getLastD_eq_getLast?]
      refine ⟨?_, fun r hr => hrefs r (List.dropLast_subset _ hr)⟩
      cases hl : (bounds.map Binder.Bound.ref).getLast? with
      | none => exact hb₁.scope
      | some r => exact hrefs r (List.mem_of_getLast? hl)
    · obtain ⟨hscope, hoperands⟩ := Prod.mk.inj hsplit
      rw [← hscope, ← hoperands]
      exact ⟨hb₁.scope, hrefs⟩
  have hname : ∀ a, head.scopeName = some a → Text.OneLine a := by
    intro a ha
    have hnamed := congrArg Prod.fst h.named
    unfold Builder.nameFor at hnamed
    split at hnamed
    · rw [ha] at hnamed
      rw [← Option.some.inj hnamed, Binder.fresh_eq]
      exact Binder.oneLine_numbered hscope.1.root _
    · rw [ha] at hnamed
      cases hnamed
  refine ⟨hb₁, hb₁.of_levels h.named_levels.1, ?_, hbounds, ?_, fun a ha => ⟨hname a ha, hscope.1⟩⟩
  · unfold BlockHead.inner
    split
    · rename_i a ha
      exact ⟨hname a ha, fun s hs => absurd hs List.not_mem_nil⟩
    · exact hscope.1
  · rw [hoperands]
    exact List.forall_mem_map.2 hscope.2

end

/-- Markers without a line feed in what they show are compiled to nodes without one. -/
theorem Hoists.oneLine {R : Reading → Prop} {b b' : Binder} {ds : List Passage} {ns : List Node}
    (h : Hoists R b ds b' ns) (hR : ∀ r, R r → r.marker.OneLine) (hb : b.OneLine) :
    b'.OneLine ∧ ∀ n : Node, n.In ns → n.OneLine := by
  -- the binder carries it: a path that is bound later may be read from what is bound here
  induction h with
  | nil => exact ⟨hb, fun n hn => nomatch hn⟩
  | text _ ih =>
    obtain ⟨hb', hns⟩ := ih hb
    exact ⟨hb', Node.forall_in_cons.2 ⟨(Node.forall_in_leaf (by rintro _ _ _ ⟨⟩)).2 trivial, hns⟩⟩
  | leaf mem bound _ node _ ih =>
    have hm := hR _ mem
    obtain ⟨hb₁, hbounds⟩ := (Binder.bindsEach_of_bind bound).oneLine hm.paths hb
    obtain ⟨hb', hns⟩ := ih hb₁
    have hnode := Marker.oneLine_node? hm hbounds node
    refine ⟨hb', fun n hn => ?_⟩
    rcases Node.in_append hn with hn | hn
    · exact oneLine_bindNodes hbounds n hn
    · exact Node.forall_in_cons.2
        ⟨(Node.forall_in_leaf (Marker.ne_block_of_node? node)).2 hnode, hns⟩ n hn
  | block mem fragment opens helper_eq _ _ ihb ih =>
    have hm := hR _ mem
    obtain ⟨_, hb₂, hinner, hbounds, hoperands, hname⟩ := opens.oneLine hm hb
    obtain ⟨hb₃, hbody⟩ := ihb (hb₂.push hinner)
    obtain ⟨hb', hns⟩ := ih hb₃.pop
    refine ⟨hb', fun n hn => ?_⟩
    rcases Node.in_append hn with hn | hn
    · exact oneLine_bindNodes hbounds n hn
    · refine Node.forall_in_cons.2 ⟨Node.forall_in_block.2 ⟨?_, hbody, ?_⟩, hns⟩ n hn
      · exact ⟨⟨helper_eq ▸ hm.helper fragment, hoperands⟩, hname⟩
      · rintro _ ⟨⟩
  | branched mem fragment opens helper_eq _ _ _ ihb iho ih =>
    have hm := hR _ mem
    obtain ⟨hb₁, hb₂, hinner, hbounds, hoperands, hname⟩ := opens.oneLine hm hb
    obtain ⟨hb₃, hbody⟩ := ihb (hb₂.push hinner)
    obtain ⟨hb₄, hbranch⟩ := iho (hb₃.replace hb₁.scope)
    obtain ⟨hb', hns⟩ := ih hb₄.pop
    refine ⟨hb', fun n hn => ?_⟩
    rcases Node.in_append hn with hn | hn
    · exact oneLine_bindNodes hbounds n hn
    · refine Node.forall_in_cons.2 ⟨Node.forall_in_block.2 ⟨?_, hbody, ?_⟩, hns⟩ n hn
      · exact ⟨⟨helper_eq ▸ hm.helper fragment, hoperands⟩, hname⟩
      · rintro _ ⟨⟩
        exact hbranch

theorem listing_of_compile {w : Workshop} {source : String} {name : Option String} {t : Template}
    (h : w.compile source name = .ok t) :
    t.listing = Listing.render w.config.resultName t.nodes := by
  unfold Workshop.compile at h
  cases hc : w.compileStripped name (Text.strip source.toList) with
  | error e => simp [hc, Except.map] at h
  | ok nodes =>
    simp only [hc, Except.map, Except.ok.injEq] at h
    rw [← h]
    rfl

/-- The listing of a template has one statement a line if and only if no node shows a line feed, and
no node does where no marker brings one in. -/
theorem one_statement_a_line {w : Workshop} (hacc : Text.OneLine w.config.resultName)
    {source : String} {name : Option String} {t : Template} (ht : w.compile source name = .ok t) :
    (List.splitOn '\n' t.listing.toList =
          (Listing.lines w.config.resultName t.nodes).map String.toList ↔
        ∀ n : Node, n.In t.nodes → n.OneLine) ∧
      ((∀ r ∈ w.readings source name, r.marker.OneLine) →
        List.splitOn '\n' t.listing.toList =
          (Listing.lines w.config.resultName t.nodes).map String.toList) := by
  have hiff := Listing.splitOn_render_iff hacc t.nodes
  rw [listing_of_compile ht]
  refine ⟨hiff, fun hmarkers => hiff.2 ?_⟩
  obtain ⟨b, hhoists⟩ := hoists_of_compile ht
  exact (hhoists.oneLine hmarkers Binder.oneLine_initial).2

/-- A loop over scopes with a name of their own, and texts on two lines. -/
def loopOfScopes : String :=
  marked "#for a" ++ marked "#with $value" ++ "x\ny" ++ marked "b" ++ marked "/with" ++
    marked "#else" ++ marked "=\"s\"" ++ marked "/for"

theorem one_statement_a_line_of_loop :
    Text.OneLine ({} : Config).resultName ∧
      (∀ r ∈ (⟨.builtin, {}⟩ : Workshop).readings loopOfScopes none, r.marker.OneLine) ∧
      ∃ t, (⟨.builtin, {}⟩ : Workshop).compile loopOfScopes none = .ok t ∧
        (Listing.lines "$html" t.nodes).length = 16 ∧
        List.splitOn '\n' t.listing.toList = (Listing.lines "$html" t.nodes).map String.toList := by
  have hacc : Text.OneLine ({} : Config).resultName := by decide
  have hmarkers : ∀ r ∈ (⟨.builtin, {}⟩ : Workshop).readings loopOfScopes none,
      r.marker.OneLine := by
    decide +kernel
  have hcompile : ((⟨.builtin, {}⟩ : Workshop).compile loopOfScopes none).toOption.any
      (fun t => decide ((Listing.lines "$html" t.nodes).length = 16)) = true := by
    decide +kernel
  obtain ⟨t, ht, hlines⟩ := exists_ok_of_any hcompile
  exact ⟨hacc, hmarkers, t, ht, of_decide_eq_true hlines, (one_statement_a_line hacc ht).2 hmarkers⟩

/-- A text that is put out breaks its statement where it has a line feed. -/
theorem statement_on_two_lines :
    ∃ t, (⟨.builtin, {}⟩ : Workshop).compile (marked "\"a\nb\"") none = .ok t ∧
      t.listing = "var $html = \"\";\nvar $escape = $helper[\"$escape\"];\n" ++
        "$html += $escape(\"a\nb\");\nreturn $html;\n" ∧
      (List.splitOn '\n' t.listing.toList).length = 6 ∧
      (Listing.lines "$html" t.nodes).length = 5 := by
  have hcompile : ((⟨.builtin, {}⟩ : Workshop).compile (marked "\"a\nb\"") none).toOption.any
      (fun t => decide (Text.join "\n" (Listing.lines "$html" t.nodes) =
          "var $html = \"\";\nvar $escape = $helper[\"$escape\"];\n" ++
            "$html += $escape(\"a\nb\");\nreturn $html;\n" ∧
        (Listing.lines "$html" t.nodes).length = 5)) = true := by
    decide +kernel
  obtain ⟨t, ht, hshown⟩ := exists_ok_of_any hcompile
  obtain ⟨hjoin, hlines⟩ := of_decide_eq_true hshown
  have hlisting := (listing_of_compile ht).trans ((Listing.render_eq _).trans hjoin)
  refine ⟨t, ht, hlisting, ?_, hlines⟩
  rw [hlisting]
  decide +kernel

end Stencil
