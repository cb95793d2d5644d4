import Stencil.Render
import Stencil.Render.Recursive

/-!
# The loop and the recursion

The loop over a work stack does what the recursion over the forest says: working off a region is
rendering it, and then going on with the rest of the stack unless something stopped (`run_region`).
-/

namespace Stencil.Render

/-! ### Outcomes -/

theorem andThen_of_none {o : Outcome} (n : Outcome) (h : o.error = none) :
    o.andThen n = n.after o.events := by
  simp only [Outcome.andThen, h]

theorem andThen_of_some {o : Outcome} {e : RenderError} (n : Outcome) (h : o.error = some e) :
    o.andThen n = o := by
  simp only [Outcome.andThen, h]

@[simp] theorem error_after (es : List Event) (o : Outcome) : (o.after es).error = o.error := rfl

@[simp] theorem events_after (es : List Event) (o : Outcome) :
    (o.after es).events = es ++ o.events := rfl

@[simp] theorem nothing_andThen (n : Outcome) : ({} : Outcome).andThen n = n :=
  andThen_of_none n rfl

theorem after_andThen (es : List Event) (o n : Outcome) :
    (o.after es).andThen n = (o.andThen n).after es := by
  cases h : o.error with
  | none =>
    rw [andThen_of_none n h, andThen_of_none n (by simpa using h), events_after,
      Outcome.after_after]
  | some e => rw [andThen_of_some n h, andThen_of_some n (by simpa using h)]

theorem andThen_assoc (a b c : Outcome) : (a.andThen b).andThen c = a.andThen (b.andThen c) := by
  cases h : a.error with
  | none => rw [andThen_of_none b h, andThen_of_none _ h, after_andThen]
  | some e =>
    have hb := andThen_of_some b h
    rw [hb, andThen_of_some c h, andThen_of_some _ h]

/-! ### Going on with the rest of a stack -/

theorem run_next {tools : Toolbox} {stack : List Work} (later : List Work) (es : List Event)
    (done : List Event) (h : step tools stack = .next later es) :
    run tools stack done = run tools later (es.reverse ++ done) := by
  rw [run]
  split
  · rename_i later' es' h'
    rw [h] at h'
    cases h'
    rfl
  · rename_i o h'
    rw [h] at h'
    cases h'

theorem run_stop {tools : Toolbox} {stack : List Work} {o : Outcome} (done : List Event)
    (h : step tools stack = .stop o) : run tools stack done = o.after done.reverse := by
  rw [run]
  split
  · rename_i later es h'
    rw [h] at h'
    cases h'
  · rename_i o' h'
    rw [h] at h'
    cases h'
    rfl

/-- What is left to do after an outcome: nothing if it stopped, else the rest of the stack. -/
def resume (tools : Toolbox) (o : Outcome) (rest : List Work) (done : List Event) : Outcome :=
  match o.error with
  | some _ => o.after done.reverse
  | none => run tools rest (o.events.reverse ++ done)

theorem resume_after (tools : Toolbox) (es : List Event) (o : Outcome) (rest : List Work)
    (done : List Event) :
    resume tools (o.after es) rest done = resume tools o rest (es.reverse ++ done) := by
  cases h : o.error with
  | none => simp [resume, h]
  | some e => simp [resume, h, Outcome.after_after]

theorem resume_andThen_of_none (tools : Toolbox) {o : Outcome} (n : Outcome) (rest : List Work)
    (done : List Event) (h : o.error = none) :
    resume tools (o.andThen n) rest done = resume tools n rest (o.events.reverse ++ done) := by
  rw [andThen_of_none n h, resume_after]

theorem resume_of_some (tools : Toolbox) {o : Outcome} {e : RenderError} (rest : List Work)
    (done : List Event) (h : o.error = some e) :
    resume tools o rest done = o.after done.reverse := by
  simp only [resume, h]

/-- A step whose outcome decides whether the stack `next` is worked off. -/
theorem run_ofOutcome {tools : Toolbox} {stack next : List Work} {o : Outcome}
    (done : List Event) (h : step tools stack = .ofOutcome o next) :
    run tools stack done = resume tools o next done := by
  cases he : o.error with
  | none =>
    have hs : step tools stack = .next next o.events := by rw [h]; simp [Progress.ofOutcome, he]
    rw [run_next next o.events done hs]
    simp [resume, he]
  | some e =>
    have hs : step tools stack = .stop o := by rw [h]; simp [Progress.ofOutcome, he]
    rw [run_stop done hs, resume_of_some tools next done he]

/-! ### Regions and passes -/

/-- What the end of a block's passes does. -/
def lastOf (tools : Toolbox) (h : BlockHead) (otherwise : Option (List Node)) (f : Frame)
    (inside : List BlockHead) (failure : Option Failure) (entered : Bool) : Outcome :=
  match failure with
  | some failure => ⟨[], some (.failure failure)⟩
  | none => if entered then {} else renderBranch tools (h :: inside) (f.child []) otherwise

/-- A region does in the loop what it does in the recursion. -/
def WorksAs (tools : Toolbox) (nodes : List Node) : Prop :=
  ∀ f inside rest done, run tools (.region nodes f inside :: rest) done =
    resume tools (renderAll tools inside f nodes) rest done

theorem run_passes {tools : Toolbox} {h : BlockHead} {body : List Node}
    {otherwise : Option (List Node)} (hb : WorksAs tools body)
    (ho : ∀ ns, otherwise = some ns → WorksAs tools ns) (ls : List Locals)
    (failure : Option Failure) (entered : Bool) (f : Frame) (inside : List BlockHead)
    (rest : List Work) (done : List Event) :
    run tools (.passes h body otherwise ⟨ls, failure⟩ entered f inside :: rest) done =
      resume tools
        ((takePasses (fun l => renderAll tools (h :: inside) (passFrame f h l) body) ls).andThen
          (lastOf tools h otherwise f inside failure (entered || !ls.isEmpty))) rest done := by
  induction ls generalizing entered done with
  | nil =>
    cases failure with
    | some failure =>
      rw [run_stop done (o := ⟨[], some (.failure failure)⟩) rfl]
      simp [takePasses, lastOf, resume]
    | none =>
      rw [run_next (branchWork h otherwise entered f inside ++ rest) [] done rfl]
      cases entered with
      | true => simp [takePasses, lastOf, branchWork, resume]
      | false =>
        cases otherwise with
        | none => simp [takePasses, lastOf, branchWork, resume, renderBranch]
        | some ns =>
          have hn := ho ns rfl (f.child []) (h :: inside) rest done
          simpa [takePasses, lastOf, branchWork, renderBranch] using hn
  | cons l ls ih =>
    -- the body of the pass is a region of its own, and the passes that are left are behind it
    rw [run_next _ [.passed l] done rfl, hb]
    simp only [List.reverse_cons, List.reverse_nil, List.nil_append, List.singleton_append,
      takePasses, after_andThen, andThen_assoc]
    rw [resume_after]
    cases he : (renderAll tools (h :: inside) (passFrame f h l) body).error with
    | none =>
      rw [resume_andThen_of_none tools _ rest _ he]
      simp only [resume, he, List.reverse_cons, List.reverse_nil, List.nil_append,
        List.singleton_append]
      rw [ih]
      simp [resume]
    | some e =>
      have hs := andThen_of_some
        ((takePasses (fun l => renderAll tools (h :: inside) (passFrame f h l) body) ls).andThen
          (lastOf tools h otherwise f inside failure (entered || !(l :: ls).isEmpty))) he
      rw [hs, resume_of_some tools _ _ he, resume_of_some tools _ _ he]
      simp

theorem worksAs_nil (tools : Toolbox) : WorksAs tools [] := by
  intro f inside rest done
  rw [run_next rest [] done rfl]
  rfl

/-- A node that is no block, in front of a region. -/
theorem worksAs_leaf {tools : Toolbox} {n : Node} {ns : List Node} (hn : WorksAs tools ns)
    (hr : ∀ f inside, renderNode tools inside f n = leaf tools inside f n)
    (hs : ∀ f inside rest, step tools (.region (n :: ns) f inside :: rest) =
      .ofOutcome (leaf tools inside f n) (.region ns (frameAfter f n) inside :: rest)) :
    WorksAs tools (n :: ns) := by
  intro f inside rest done
  rw [run_ofOutcome done (hs f inside rest), renderAll, hr]
  cases he : (leaf tools inside f n).error with
  | none =>
    rw [resume_andThen_of_none tools _ rest done he]
    simp only [resume, he]
    rw [hn]
    rfl
  | some e =>
    rw [resume_of_some tools _ done he, andThen_of_some _ he, resume_of_some tools _ done he]

theorem worksAs_block {tools : Toolbox} {h : BlockHead} {body ns : List Node}
    {otherwise : Option (List Node)} (hb : WorksAs tools body)
    (ho : ∀ es, otherwise = some es → WorksAs tools es) (hn : WorksAs tools ns) :
    WorksAs tools (.block h body otherwise :: ns) := by
  intro f inside rest done
  have hlast : ∀ ps : Passes,
      lastOf tools h otherwise f inside ps.failure (false || !ps.locals.isEmpty) =
        (match ps.failure with
        | some failure => ⟨[], some (.failure failure)⟩
        | none =>
          if ps.locals.isEmpty then renderBranch tools (h :: inside) (f.child []) otherwise
          else {}) := by
    intro ps
    simp only [lastOf, Bool.false_or]
    cases ps.failure with
    | some failure => rfl
    | none => cases ps.locals.isEmpty <;> rfl
  rw [run_next _ [.entered h.helper (h.operands.map f.evaluate)] done rfl,
    run_passes hb ho, hlast]
  simp only [renderAll, renderNode, frameAfter, List.reverse_cons, List.reverse_nil,
    List.nil_append, List.singleton_append, after_andThen]
  rw [resume_after]
  generalize (takePasses _ _).andThen _ = o
  cases he : o.error with
  | none =>
    rw [resume_andThen_of_none tools _ rest _ he]
    simp only [resume, he]
    rw [hn]
    rfl
  | some e =>
    rw [resume_of_some tools _ _ he, andThen_of_some _ he, resume_of_some tools _ _ he]
    simp

mutual

theorem worksAs_cons (tools : Toolbox) (n : Node) (ns : List Node) (hn : WorksAs tools ns) :
    WorksAs tools (n :: ns) := by
  match n with
  | .block h body otherwise =>
    exact worksAs_block (worksAs_all tools body) (worksAs_branch tools otherwise) hn
  | .text p s => exact worksAs_leaf hn (fun _ _ => rfl) fun _ _ _ => rfl
  | .bind p b => exact worksAs_leaf hn (fun _ _ => rfl) fun _ _ _ => rfl
  | .output p q e => exact worksAs_leaf hn (fun _ _ => rfl) fun _ _ _ => rfl
  | .call p h as e => exact worksAs_leaf hn (fun _ _ => rfl) fun _ _ _ => rfl

theorem worksAs_all (tools : Toolbox) (ns : List Node) : WorksAs tools ns := by
  match ns with
  | [] => exact worksAs_nil tools
  | n :: ns => exact worksAs_cons tools n ns (worksAs_all tools ns)

theorem worksAs_branch (tools : Toolbox) (otherwise : Option (List Node)) :
    ∀ ns, otherwise = some ns → WorksAs tools ns := by
  match otherwise with
  | none =>
    intro ns h
    cases h
  | some es =>
    intro ns h
    cases h
    exact worksAs_all tools es

end

/-- Working off a region is rendering it, and then going on with the rest of the stack. -/
theorem run_region (tools : Toolbox) (ns : List Node) (f : Frame) (inside : List BlockHead)
    (rest : List Work) (done : List Event) :
    run tools (.region ns f inside :: rest) done =
      resume tools (renderAll tools inside f ns) rest done :=
  worksAs_all tools ns f inside rest done

/-- A render by the loop is a render by recursion. -/
theorem runNodes_eq (tools : Toolbox) (ns : List Node) (f : Frame) :
    runNodes tools ns f = renderAll tools [] f ns := by
  have hr := run_region tools ns f [] [] []
  rw [runNodes, hr]
  cases he : (renderAll tools [] f ns).error with
  | none =>
    simp only [resume, he, List.append_nil]
    rw [run_stop _ (o := {}) rfl]
    rcases h : renderAll tools [] f ns with ⟨es, error⟩
    rw [h] at he
    cases he
    simp [Outcome.after]
  | some e => simp [resume, he]

end Stencil.Render

namespace Stencil

/-! ### Results -/

theorem eq_ok_of_toOption {ε α : Type} {r : Except ε α} {a : α} (h : r.toOption = some a) :
    r = .ok a := by
  cases r with
  | error e => cases h
  | ok b => exact congrArg Except.ok (Option.some.inj h)

theorem exists_ok_of_any {ε α : Type} {r : Except ε α} {P : α → Bool}
    (h : r.toOption.any P = true) : ∃ a, r = .ok a ∧ P a = true := by
  cases r with
  | error e => cases h
  | ok a => exact ⟨a, rfl, h⟩

namespace Template

theorem toolbox_of_escape (t : Template) {inlines : Table InlineHelper} {escape : InlineHelper}
    (h : inlines.get? Builtin.escapeName = some escape) :
    t.toolbox inlines = .ok ⟨inlines, escape, t.name⟩ := by
  unfold toolbox
  rw [h]

/-- Without the escape helper only a template that does not escape has tools. -/
theorem toolbox_eq_ok {t : Template} {inlines : Table InlineHelper} {tools : Toolbox} :
    t.toolbox inlines = .ok tools ↔
      tools = ⟨inlines, (inlines.get? Builtin.escapeName).getD Builtin.escape, t.name⟩ ∧
        (inlines.get? Builtin.escapeName = none → t.escapes = false) := by
  unfold toolbox
  cases inlines.get? Builtin.escapeName with
  | some h =>
    constructor
    · intro ht
      cases ht
      exact ⟨rfl, fun hn => nomatch hn⟩
    · rintro ⟨rfl, _⟩
      rfl
  | none =>
    cases he : t.escapes with
    | true =>
      constructor
      · intro ht
        cases ht
      · rintro ⟨_, hn⟩
        cases hn rfl
    | false =>
      constructor
      · intro ht
        cases ht
        exact ⟨rfl, fun _ => rfl⟩
      · rintro ⟨rfl, _⟩
        rfl

/-- A render is the recursion over the procedure. -/
theorem render_eq {t : Template} {inlines : Table InlineHelper} {tools : Toolbox}
    (h : t.toolbox inlines = .ok tools) (context : Value) :
    t.render inlines context =
      (Render.renderAll tools [] (rootFrame context) t.nodes).result := by
  unfold render
  rw [h]
  simp only [Render.runNodes_eq]

end Template

end Stencil
