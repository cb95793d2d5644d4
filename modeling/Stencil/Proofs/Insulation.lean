import Stencil.Proofs.Loop
import Stencil.Proofs.Steps

/-!
# What a render depends on

A render reads a template, a context, and the inline helpers under the names that the template
needs: those that it calls, and the escape helper if it escapes (`render_congr`). No step changes a
template, and the inline helpers of its registry are changed by edits of that registry only. Main
statement: a compiled template is insulated from everything else that a session does
(`render_insulated`).
-/

namespace Stencil

/-! ### The names that a template needs -/

namespace Node

mutual

/-- The inline helpers that a tree calls. -/
def calls : Node → List String
  | .call _ helper _ _ => [helper]
  | .block _ body otherwise => callsAll body ++ callsBranch otherwise
  | _ => []

/-- The inline helpers that a forest calls. -/
def callsAll : List Node → List String
  | [] => []
  | n :: ns => calls n ++ callsAll ns

/-- The inline helpers that a branch calls. -/
def callsBranch : Option (List Node) → List String
  | none => []
  | some ns => callsAll ns

end

end Node

/-- The names of the inline helpers that a template needs. -/
def Template.needed (t : Template) : List String :=
  Node.callsAll t.nodes ++ if t.escapes then [Builtin.escapeName] else []

/-! ### Renders with different tools -/

namespace Render

/-- Two sets of tools do the same for calls of the given names and, if `escapes`, for escapes. -/
structure SameFor (a b : Toolbox) (names : List String) (escapes : Bool) : Prop where
  template : a.template = b.template
  inlines : ∀ x ∈ names, a.inlines.get? x = b.inlines.get? x
  escape : escapes = true → a.escape = b.escape

variable {a b : Toolbox} {xs ys : List String} {d e : Bool}

theorem SameFor.left (h : SameFor a b (xs ++ ys) (d || e)) : SameFor a b xs d :=
  ⟨h.template, fun x hx => h.inlines x (List.mem_append_left _ hx),
    fun hd => h.escape (by rw [hd, Bool.true_or])⟩

theorem SameFor.right (h : SameFor a b (xs ++ ys) (d || e)) : SameFor a b ys e :=
  ⟨h.template, fun x hx => h.inlines x (List.mem_append_right _ hx),
    fun he => h.escape (by rw [he, Bool.or_true])⟩

theorem putOut_congr (h : SameFor a b xs e) (v : Value) : putOut a v e = putOut b v e := by
  unfold putOut
  cases e with
  | false => rfl
  | true => rw [h.escape rfl]

theorem leaf_congr {n : Node} (h : SameFor a b n.calls n.escapes) (inside : List BlockHead)
    (f : Frame) : leaf a inside f n = leaf b inside f n := by
  cases n with
  | output p o escape => exact putOut_congr h _
  | call p helper args escape =>
    have hput : ∀ v, putOut a v escape = putOut b v escape := putOut_congr h
    simp only [leaf, call, h.inlines helper List.mem_cons_self, h.template, hput]
  | text p s => rfl
  | bind p b => rfl
  | block head body otherwise => rfl

mutual

theorem renderNode_congr (n : Node) (h : SameFor a b n.calls n.escapes) (inside : List BlockHead)
    (f : Frame) : renderNode a inside f n = renderNode b inside f n := by
  match n with
  | .block head body otherwise =>
    have hbody := fun l => renderAll_congr body h.left (head :: inside) (passFrame f head l)
    have hbranch := renderBranch_congr otherwise h.right (head :: inside) (f.child [])
    simp only [renderNode, hbody, hbranch]
  | .text .. => rfl
  | .bind .. => rfl
  | .output p o e => exact leaf_congr h inside f
  | .call p helper args e => exact leaf_congr h inside f

theorem renderAll_congr (ns : List Node) (h : SameFor a b (Node.callsAll ns) (Node.escapesAny ns))
    (inside : List BlockHead) (f : Frame) :
    renderAll a inside f ns = renderAll b inside f ns := by
  match ns with
  | [] => rfl
  | n :: ns =>
    rw [renderAll, renderAll, renderNode_congr n h.left inside f,
      renderAll_congr ns h.right inside (frameAfter f n)]

theorem renderBranch_congr (o : Option (List Node))
    (h : SameFor a b (Node.callsBranch o) (Node.escapesBranch o)) (inside : List BlockHead)
    (f : Frame) : renderBranch a inside f o = renderBranch b inside f o := by
  match o with
  | none => rfl
  | some ns => exact renderAll_congr ns h inside f

end

end Render

/-- A template renders to the same, or stops at the same error, where it finds the same helpers
under the names that it needs. -/
theorem Template.render_congr {t : Template} {as bs : Table InlineHelper}
    (h : ∀ x ∈ t.needed, as.get? x = bs.get? x) (context : Value) :
    t.render as context = t.render bs context := by
  have hcalls : ∀ x ∈ Node.callsAll t.nodes, as.get? x = bs.get? x :=
    fun x hx => h x (List.mem_append_left _ hx)
  have hescape : t.escapes = true → as.get? Builtin.escapeName = bs.get? Builtin.escapeName := by
    intro he
    apply h
    simp only [needed, he, if_true]
    exact List.mem_append_right _ List.mem_cons_self
  have htools : ∀ a b, t.toolbox as = .ok a → t.toolbox bs = .ok b →
      (t.escapes = true → a.escape = b.escape) → t.render as context = t.render bs context := by
    intro a b ha hb he
    have hfor : Render.SameFor a b (Node.callsAll t.nodes) t.escapes := by
      obtain ⟨rfl, _⟩ := toolbox_eq_ok.1 ha
      obtain ⟨rfl, _⟩ := toolbox_eq_ok.1 hb
      exact ⟨rfl, hcalls, he⟩
    rw [render_eq ha, render_eq hb, Render.renderAll_congr t.nodes hfor]
  cases he : t.escapes with
  | false =>
    have hfree : ∀ inlines : Table InlineHelper, t.toolbox inlines =
        .ok ⟨inlines, (inlines.get? Builtin.escapeName).getD Builtin.escape, t.name⟩ :=
      fun inlines => toolbox_eq_ok.2 ⟨rfl, fun _ => he⟩
    refine htools _ _ (hfree as) (hfree bs) fun htrue => ?_
    rw [he] at htrue
    cases htrue
  | true =>
    have hsame := hescape he
    cases hb : bs.get? Builtin.escapeName with
    | some g =>
      exact htools _ _ (toolbox_of_escape t (hsame.trans hb)) (toolbox_of_escape t hb) fun _ => rfl
    | none =>
      simp only [render, toolbox, hsame, hb, he, if_true]

/-! ### Templates and inline helpers in a session -/

/-- The inline helper that a change of a registry concerns. -/
def Edit.inline? : Edit → Option String
  | .setInline n _ => some n
  | .dropInline n => some n
  | _ => none

theorem Edit.get?_inlines {r : Registry} {edit : Edit} {x : String} (h : edit.inline? ≠ some x) :
    (edit.apply r).inlines.get? x = r.inlines.get? x := by
  have hne : ∀ n, edit.inline? = some n → n ≠ x := by
    rintro n hn rfl
    exact h hn
  cases edit with
  | setInline n g => simp only [apply, Table.get?_set, hne n rfl, if_false]
  | dropInline n => simp only [apply, Table.get?_erase, hne n rfl, if_false]
  | setBlock n g => rfl
  | dropBlock n => rfl

theorem Edit.get?_inlines_foldl {edits : List Edit} {r : Registry} {x : String}
    (h : ∀ edit ∈ edits, edit.inline? ≠ some x) :
    (edits.foldl Edit.apply r).inlines.get? x = r.inlines.get? x := by
  induction edits generalizing r with
  | nil => rfl
  | cons edit edits ih =>
    rw [List.foldl_cons, ih fun d hd => h d (List.mem_cons_of_mem _ hd),
      get?_inlines (h edit List.mem_cons_self)]

/-- A step that compiles a template under a name. -/
def Step.compilesAs (id : String) : Step → Bool
  | .compile _ other _ _ => other == id
  | _ => false

namespace Session

variable {s : Session} {id : String}

/-- Nothing but a compilation under its name changes a template. -/
theorem templates_step {st : Step} (h : st.compilesAs id = false) :
    (s.step st).1.templates.get? id = s.templates.get? id := by
  rcases s.step_cases st with ⟨a, _, hc⟩ | ⟨e, _, hs⟩
  · generalize (s.step st).1 = s' at hc ⊢
    cases hc with
    | create provided _ => cases provided <;> rfl
    | compile _ _ =>
      have hne : ∀ other, (other == id) = false → other ≠ id := fun _ h => by simpa using h
      rw [Table.get?_set, if_neg (hne _ h)]
    | configure _ _ => rfl
    | edit _ _ => rfl
    | keepView _ => rfl
    | nothing _ => rfl
  · rw [hs]

theorem templates_after {sts : List Step} (h : ∀ st ∈ sts, st.compilesAs id = false) :
    (s.after sts).templates.get? id = s.templates.get? id := by
  induction sts generalizing s with
  | nil => rfl
  | cons st sts ih =>
    rw [after_cons, ih fun st hst => h st (List.mem_cons_of_mem _ hst),
      templates_step (h st List.mem_cons_self)]

/-- A render answers what the template renders to with the inline helpers of its registry. -/
theorem step_render_congr {s' : Session} {c : Compiled} (hs : s.templates.get? id = some c)
    (hs' : s'.templates.get? id = some c)
    (h : ∀ context, c.template.render (s.registry c.registry).inlines context =
      c.template.render (s'.registry c.registry).inlines context) (call : Call) :
    (s.step (.render id call)).2 = (s'.step (.render id call)).2 := by
  simp only [step, attempt, compiled, hs, hs']
  cases hcall : contextOf call with
  | error f => rfl
  | ok context =>
    simp only [Except.mapError, bind, Except.bind, h context]
    cases c.template.render (s'.registry c.registry).inlines context with
    | error e => rfl
    | ok out => rfl

end Session

open Session

/-- A template that a session has compiled is what its source compiled to then, and no later step
changes it. After any two continuations of the session it renders to the same, or stops at the same
error, if its registry then has the same inline helpers under the names that the template needs. In
particular nothing but a change of one of these in that very registry matters: no configuration, no
block helper, no other template, and no other registry. -/
theorem render_insulated {pre : List Step} {env id source : String} {name : Option String}
    {s : Session} {a : Answer}
    (h : (Session.after {} pre).step (.compile env id source name) = (s, .ok a)) :
    ∃ c e, s.templates.get? id = some c ∧
      (Session.after {} pre).environments.get? env = some e ∧ c.registry = e.registry ∧
      Workshop.compile ⟨(Session.after {} pre).registry e.registry, e.config⟩ source name =
        .ok c.template ∧
      (∀ sts₁ sts₂,
        (∀ x ∈ c.template.needed, ((s.after sts₁).registry c.registry).inlines.get? x =
          ((s.after sts₂).registry c.registry).inlines.get? x) →
        (∀ context, c.template.render ((s.after sts₁).registry c.registry).inlines context =
          c.template.render ((s.after sts₂).registry c.registry).inlines context) ∧
        ((∀ st ∈ sts₁ ++ sts₂, st.compilesAs id = false) → ∀ call,
          ((s.after sts₁).step (.render id call)).2 =
            ((s.after sts₂).step (.render id call)).2)) ∧
      ∀ sts, (∀ st ∈ sts, st.compilesAs id = false) →
        (∀ edit ∈ s.edits c.registry sts, ∀ x ∈ c.template.needed, edit.inline? ≠ some x) →
        ∀ call, ((s.after sts).step (.render id call)).2 = (s.step (.render id call)).2 := by
  have hnumbered : s.Numbered := by
    have hstep := (numbered_empty.after pre).step (.compile env id source name)
    rwa [h] at hstep
  obtain ⟨e, t, he, ht, hs⟩ : ∃ e t, (Session.after {} pre).environments.get? env = some e ∧
      Workshop.compile ⟨(Session.after {} pre).registry e.registry, e.config⟩ source name = .ok t ∧
      s.templates.get? id = some ⟨t, e.registry⟩ := by
    rcases (Session.after {} pre).step_cases (.compile env id source name) with
      ⟨_, _, hc⟩ | ⟨_, hfail, _⟩
    · rw [h] at hc
      generalize Session.after {} pre = s₀ at hc ⊢
      cases hc with
      | compile found compiled =>
        refine ⟨_, _, found, compiled, ?_⟩
        rw [Table.get?_set, if_pos rfl]
      | edit edits _ => cases edits
      | nothing looks => cases looks
    · rw [h] at hfail
      cases hfail
  have hregistry := hnumbered.templates id _ hs
  have hagree : ∀ sts₁ sts₂,
      (∀ x ∈ t.needed, ((s.after sts₁).registry e.registry).inlines.get? x =
        ((s.after sts₂).registry e.registry).inlines.get? x) →
      (∀ context, t.render ((s.after sts₁).registry e.registry).inlines context =
        t.render ((s.after sts₂).registry e.registry).inlines context) ∧
      ((∀ st ∈ sts₁ ++ sts₂, st.compilesAs id = false) → ∀ call,
        ((s.after sts₁).step (.render id call)).2 = ((s.after sts₂).step (.render id call)).2) := by
    intro sts₁ sts₂ hsame
    have hrender := Template.render_congr hsame
    refine ⟨hrender, fun hsts => ?_⟩
    have h₁ := (templates_after fun st hst => hsts st (List.mem_append_left _ hst)).trans hs
    have h₂ := (templates_after fun st hst => hsts st (List.mem_append_right _ hst)).trans hs
    exact step_render_congr h₁ h₂ hrender
  refine ⟨⟨t, e.registry⟩, e, hs, he, rfl, ht, hagree, fun sts hsts hedits => ?_⟩
  refine (hagree sts [] fun x hx => ?_).2 (by simpa using hsts)
  rw [registry_after hregistry, Edit.get?_inlines_foldl fun edit hm => hedits edit hm x hx]
  rfl

/-- Two environments over one registry, and a helper of its own in it. -/
def sharedSteps : List Step :=
  [.create "a" [] .builtin, .create "b" [] (.share "a"),
    .registerInline "b" (.str "same") (.helper fun vs => .ok (vs.headD .null))]

/-- Another configuration, the block helper of the template taken out, a helper put in that it does
not need, and the ones that it needs taken out of a copy. -/
def laterSteps : List Step :=
  [.configure "a" (.one "escapeHtml" (some (.bool false))), .unregisterBlock "b" "if",
    .registerInline "b" (.str "other") (.helper fun _ => .ok .null), .unregisterInline "a" "none",
    .compile "a" "u" "\x7b\x7bx\x7d\x7d" none, .create "c" [] (.copy "a"),
    .unregisterInline "c" "same", .unregisterInline "c" "$escape"]

def sharedSource : String := marked "same x" ++ marked "#if x" ++ marked "y" ++ marked "/if"

theorem render_insulated_of_shared :
    ∃ s a, (Session.after {} sharedSteps).step (.compile "a" "t" sharedSource none) = (s, .ok a) ∧
      (s.edits 0 laterSteps).map Edit.inline? = [none, some "other"] ∧
      ∀ call, ((s.after laterSteps).step (.render "t" call)).2 = (s.step (.render "t" call)).2 := by
  have hok : ((Session.after {} sharedSteps).step
      (.compile "a" "t" sharedSource none)).2.toOption.any (fun _ => true) = true := by
    decide +kernel
  obtain ⟨a, ha, _⟩ := exists_ok_of_any hok
  have hstep : (Session.after {} sharedSteps).step (.compile "a" "t" sharedSource none) =
      (((Session.after {} sharedSteps).step (.compile "a" "t" sharedSource none)).1, .ok a) :=
    Prod.ext rfl ha
  have hneeded : (((Session.after {} sharedSteps).step
      (.compile "a" "t" sharedSource none)).1.templates.get? "t").map
      (fun c => (c.registry, c.template.needed)) = some (0, ["same", "$escape"]) := by
    decide +kernel
  have hedits : ((((Session.after {} sharedSteps).step
      (.compile "a" "t" sharedSource none)).1).edits 0 laterSteps).map Edit.inline? =
      [none, some "other"] := by
    decide +kernel
  obtain ⟨c, e, hc, _, _, _, _, hrender⟩ := render_insulated hstep
  simp only [hc, Option.map_some, Option.some.injEq, Prod.mk.injEq] at hneeded
  refine ⟨_, a, hstep, hedits, hrender laterSteps (by decide) fun edit hm x hx hi => ?_⟩
  rw [hneeded.1] at hm
  rw [hneeded.2] at hx
  have hmem := List.mem_map_of_mem (f := Edit.inline?) hm
  rw [hedits, hi] at hmem
  obtain rfl : x = "other" := by simpa using hmem
  exact absurd hx (by decide)

end Stencil
