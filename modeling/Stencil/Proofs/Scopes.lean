import Mathlib.Logic.Relation
import Stencil.Proofs.BuiltinBlocks
import Stencil.Proofs.Frames

/-!
# Scope references are stable

A moment of a render is a rest of a region in its frame, with the references to the scopes that are
open there and the values that these had when they were opened. Main statement: where the
compilation keeps scope references apart from other names, at every moment the references lead to
those values (`scopes_stable`).
-/

namespace Stencil

open Binder (Tidy Plain IsNumbered numbered Bound)

structure Moment where
  /-- The references to the open scopes, innermost first. -/
  scopes : List Ref
  /-- The values of the scopes when they were opened. -/
  values : List Value
  frame : Frame
  /-- What is left of the region. -/
  rest : List Node

namespace Moment

def start (nodes : List Node) (context : Value) : Moment :=
  ⟨[Ref.context], [context], Template.rootFrame context, nodes⟩

def past (m : Moment) (n : Node) (ns : List Node) : Moment :=
  { m with frame := Render.frameAfter m.frame n, rest := ns }

/-- In a pass of a block. The scope is opened in the frame of the pass. -/
def inside (m : Moment) (h : BlockHead) (l : Locals) (body : List Node) : Moment :=
  let f := Render.passFrame m.frame h l
  ⟨h.inner :: m.scopes, f.resolve h.inner :: m.values, f, body⟩

/-- In the branch of a block. The scope around the block is open once more. -/
def otherwise (m : Moment) (ns : List Node) : Moment :=
  ⟨m.scopes.headD Ref.context :: m.scopes, m.values.headD .null :: m.values, m.frame.child [], ns⟩

/-- The moments that come behind a moment: what follows in the region, the passes of its blocks and
their branches. -/
inductive Leads : Moment → Moment → Prop
  | here {m : Moment} : Leads m m
  | next {m m' : Moment} {n : Node} {ns : List Node} (rest : m.rest = n :: ns)
      (h : Leads (m.past n ns) m') : Leads m m'
  | pass {m m' : Moment} {head : BlockHead} {body ns : List Node}
      {otherwise : Option (List Node)} {l : Locals}
      (rest : m.rest = .block head body otherwise :: ns)
      (mem : l ∈ (head.run (head.operands.map m.frame.evaluate)).locals)
      (h : Leads (m.inside head l body) m') : Leads m m'
  | branch {m m' : Moment} {head : BlockHead} {body other ns : List Node}
      (rest : m.rest = .block head body (some other) :: ns) (h : Leads (m.otherwise other) m') :
      Leads m m'

theorem Leads.trans {m₁ m₂ m₃ : Moment} (h : Leads m₁ m₂) (k : Leads m₂ m₃) : Leads m₁ m₃ := by
  induction h with
  | here => exact k
  | next rest _ ih => exact .next rest (ih k)
  | pass rest mem _ ih => exact .pass rest mem (ih k)
  | branch rest _ ih => exact .branch rest (ih k)

theorem Leads.eq_of_nil {m m' : Moment} (h : m.Leads m') (hrest : m.rest = []) : m' = m := by
  cases h with
  | here => rfl
  | next rest =>
    rw [hrest] at rest
    cases rest
  | pass rest =>
    rw [hrest] at rest
    cases rest
  | branch rest =>
    rw [hrest] at rest
    cases rest

/-- Behind a node that is no block there is only the rest of its region. -/
theorem Leads.past_of_leaf {m m' : Moment} {n : Node} {ns : List Node} (h : m.Leads m')
    (hrest : m.rest = n :: ns) (hn : ∀ head body other, n ≠ .block head body other) :
    m' = m ∨ (m.past n ns).Leads m' := by
  cases h with
  | here => exact .inl rfl
  | next rest h =>
    rw [hrest] at rest
    cases rest
    exact .inr h
  | pass rest =>
    rw [hrest] at rest
    exact absurd (List.cons.inj rest).1 (hn _ _ _)
  | branch rest =>
    rw [hrest] at rest
    exact absurd (List.cons.inj rest).1 (hn _ _ _)

end Moment

/-! ### What keeps the scopes -/

section

variable {R : Reading → Prop} {b b₁ b₂ b₃ b' : Binder} {f : Frame} {values : List Value}
  {p : Position} {mark : Marker} {bounds : List Bound} {head : BlockHead}

theorem Holds.pass (h : Holds b₁ f values) (hb : Tidy b) (hr : Reading.Steady ⟨b, p, mark⟩)
    (opens : Opens b p mark bounds b₁ head b₂) {l : Locals}
    (hl : ∀ x, Table.has l x = true → Reading.Gives ⟨b, p, mark⟩ x) :
    Holds (b₂.push head.inner) (Render.passFrame f head l)
      ((Render.passFrame f head l).resolve head.inner :: values) := by
  have hb₁ := opens.tidy hb hr.plain
  have hg : Holds b₁ (f.child l) values := by
    apply h.child
    intro x hx
    have hp := hr.passes x (hl x hx)
    rwa [Reading.after_eq opens.bound] at hp
  apply Holds.of_cons _ (opens.push_levels _)
  unfold Render.passFrame
  rcases opens.inner_cases with ⟨hname, _, _⟩ | ⟨hname, _, _⟩
  · rw [hname]
    apply hg.set
    intro hm
    have hc := hb₁.counted _ (.inr hm) _ _ rfl
    omega
  · rw [hname]
    exact hg

theorem Holds.branch (h : Holds b₁ f values) (hb : Tidy b₁)
    (hl : b'.levels = ⟨b₁.scope, []⟩ :: b₁.levels) :
    Holds b' (f.child []) (values.headD .null :: values) := by
  have hg : Holds b₁ (f.child []) values := by
    apply h.child
    intro x hx
    cases hx
  rw [← hg.scope_eq hb]
  exact hg.of_cons hl

/-! ### Every moment -/

/-- At a moment the references to the open scopes lead to the values of the scopes. What comes next
is a text, or it comes from a marker of `R` that was compiled with those references. -/
structure Stable (R : Reading → Prop) (m : Moment) : Prop where
  holds : m.scopes.map m.frame.resolve = m.values
  compiled : ∀ n ns, m.rest = n :: ns → (∃ p s, n = .text p s) ∨
    ∃ r, R r ∧ r.position = n.position ∧ r.binder.scopes = m.scopes

variable {m m' : Moment}

theorem stable_of_reading (hs : m.scopes = b.scopes) (hv : Holds b m.frame m.values)
    (hr : R ⟨b', p, mark⟩) (hb : b'.scopes = b.scopes) {n : Node} {ns : List Node}
    (hrest : m.rest = n :: ns) (hn : n.position = p) : Stable R m := by
  refine ⟨hs ▸ hv, ?_⟩
  intro n' ns' h
  rw [hrest] at h
  cases h
  exact .inr ⟨_, hr, hn.symm, hb.trans hs.symm⟩

theorem stable_binds {es : List Binding} {ns : List Node} (hr : R ⟨b, p, mark⟩)
    (he : ∀ e ∈ es, e.target ∉ b.roots) (hs : m.scopes = b.scopes)
    (hv : Holds b m.frame m.values) (hrest : m.rest = es.map (.bind p) ++ ns)
    (h : m.Leads m') :
    Stable R m' ∨
      Moment.Leads { m with frame := Render.frameBehind m.frame es, rest := ns } m' := by
  induction es generalizing m with
  | nil =>
    rw [List.map_nil, List.nil_append] at hrest
    subst hrest
    exact .inr h
  | cons e es ih =>
    rw [List.map_cons, List.cons_append] at hrest
    rcases h.past_of_leaf hrest (fun _ _ _ => nofun) with rfl | h
    · exact .inl (stable_of_reading hs hv hr rfl hrest rfl)
    · have hset := hv.set (v := (m.frame.resolve e.source).get e.key) (he e List.mem_cons_self)
      exact ih (m := m.past (.bind p e) (es.map (.bind p) ++ ns))
        (fun d hd => he d (List.mem_cons_of_mem _ hd)) hs hset rfl h

/-- The node of a marker that puts something out stands where the marker does, and is no block. -/
theorem leaf_of_node? {refs : List Ref} {n : Node} (hn : mark.node? p refs = some n) :
    n.position = p ∧ (∀ head body other, n ≠ .block head body other) ∧
      ∀ f : Frame, Render.frameAfter f n = f := by
  unfold Marker.node? at hn
  split at hn
  · cases hn
    exact ⟨rfl, fun _ _ _ => nofun, fun _ => rfl⟩
  · cases hn
    exact ⟨rfl, fun _ _ _ => nofun, fun _ => rfl⟩
  · cases hn
    exact ⟨rfl, fun _ _ _ => nofun, fun _ => rfl⟩
  · cases hn

/-- The moments at a block behind its bindings, given those in its body, in its branch, and behind
it. -/
theorem stable_block {body ns : List Node} {otherwise : Option (List Node)}
    (hr : R ⟨b, p, mark⟩) (hsteady : Reading.Steady ⟨b, p, mark⟩) (hb : Tidy b)
    (opens : Opens b p mark bounds b₁ head b₂)
    (hs : m.scopes = b₁.scopes) (hv : Holds b₁ m.frame m.values)
    (hrest : m.rest = .block head body otherwise :: ns)
    (hbody : ∀ k : Moment, k.scopes = (b₂.push head.inner).scopes →
      Holds (b₂.push head.inner) k.frame k.values → k.rest = body → k.Leads m' → Stable R m')
    (hother : ∀ other, otherwise = some other → ∀ k : Moment,
      k.scopes = b₁.scope :: b₁.scopes →
      k.frame = m.frame.child [] → k.values = m.values.headD .null :: m.values →
      k.rest = other → k.Leads m' → Stable R m')
    (hnext : ∀ k : Moment, k.scopes = b₁.scopes → Holds b₁ k.frame k.values → k.rest = ns →
      k.Leads m' → Stable R m')
    (h : m.Leads m') : Stable R m' := by
  have hscopes := (Binder.bindsEach_of_bind opens.bound).within.scopes
  cases h with
  | here => exact stable_of_reading hs hv hr hscopes.symm hrest opens.position
  | next rest h =>
    rw [hrest] at rest
    cases rest
    exact hnext (m.past (.block head body otherwise) ns) hs hv rfl h
  | @pass _ _ head' body' ns' otherwise' l rest mem h =>
    rw [hrest] at rest
    cases rest
    refine hbody (m.inside head l body) ?_ ?_ rfl h
    · rw [Binder.scopes_of_cons (opens.push_levels _), ← hs]
      rfl
    · apply hv.pass hb hsteady opens
      intro x hx
      rw [opens.run] at mem
      exact ⟨_, l, mem, hx⟩
  | branch rest h =>
    rw [hrest] at rest
    cases rest
    refine hother _ rfl (m.otherwise _) ?_ rfl rfl rfl h
    unfold Moment.otherwise Binder.scope
    rw [hs]

theorem Hoists.stable {ds : List Passage} {ns : List Node} (h : Hoists R b ds b' ns) (hb : Tidy b)
    (hR : ∀ r, R r → r.Steady) (hs : m.scopes = b.scopes) (hv : Holds b m.frame m.values)
    (hrest : m.rest = ns) (hl : m.Leads m') : Stable R m' := by
  -- by induction on what is hoisted; the scopes of the binder keep their values all along
  induction h generalizing m with
  | nil =>
    obtain rfl := hl.eq_of_nil hrest
    refine ⟨hs ▸ hv, fun n ns h => ?_⟩
    rw [hrest] at h
    cases h
  | @text b b' p v ds ns _ ih =>
    rcases hl.past_of_leaf hrest (fun _ _ _ => nofun) with rfl | hl
    · refine ⟨hs ▸ hv, fun n ns h => ?_⟩
      rw [hrest] at h
      cases h
      exact .inl ⟨_, _, rfl⟩
    · exact ih (m := m.past (.text p v) ns) hb hs hv rfl hl
  | @leaf b b₁ b' p mark bounds d n ds ns mem bound passage node rest ih =>
    have hsteady := hR _ mem
    have hbind := Binder.bindsEach_of_bind bound
    have hscopes := hbind.within.scopes
    have hmade := hsteady.made
    rw [Reading.made_eq bound] at hmade
    rcases stable_binds mem hmade hs hv hrest hl with hstable | hl
    · exact hstable
    · have hv₁ := (hv.binds hmade).of_scopes hscopes
      obtain ⟨hp, hblock, hframe⟩ := leaf_of_node? node
      rcases hl.past_of_leaf rfl hblock with rfl | hl
      · exact stable_of_reading (hs.trans hscopes.symm) hv₁ mem hscopes.symm rfl hp
      · unfold Moment.past at hl
        rw [hframe] at hl
        obtain ⟨hb₁, _, _⟩ := hbind.tidy hb hsteady.plain
        exact ih (m := ⟨m.scopes, m.values, _, ns⟩) hb₁ (hs.trans hscopes.symm) hv₁ rfl hl
  | @block b b₁ b₂ b₃ b' p mark bounds helper run closed head body ds inner ns mem fragment opens
      helper_eq bodyPart rest ihb ih =>
    have hsteady := hR _ mem
    have hscopes := (Binder.bindsEach_of_bind opens.bound).within.scopes
    have hmade := hsteady.made
    rw [Reading.made_eq opens.bound] at hmade
    rcases stable_binds mem hmade hs hv hrest hl with hstable | hl
    · exact hstable
    · have hv₁ := (hv.binds hmade).of_scopes hscopes
      have hpop : b₃.pop.scopes = b₁.scopes := by
        rw [Binder.scopes, opens.pop_levels bodyPart.within]
        rfl
      refine stable_block (m := ⟨m.scopes, m.values, _, .block head inner none :: ns⟩) mem hsteady
        hb opens (hs.trans hscopes.symm) hv₁ rfl ?_ ?_ ?_ hl
      · intro k hks hkv hkr hk
        exact ihb (opens.tidy_push fragment hb hsteady.plain) hks hkv hkr hk
      · intro other ho
        cases ho
      · intro k hks hkv hkr hk
        exact ih (opens.tidy_pop hb hsteady.plain bodyPart.within) (hks.trans hpop.symm)
          (hkv.of_scopes hpop) hkr hk
  | @branched b b₁ b₂ b₃ b₄ b' p mark bounds helper run closed head body other ds inner alt ns mem
      fragment opens helper_eq bodyPart branchPart rest ihb iho ih =>
    have hsteady := hR _ mem
    have hscopes := (Binder.bindsEach_of_bind opens.bound).within.scopes
    have hmade := hsteady.made
    rw [Reading.made_eq opens.bound] at hmade
    rcases stable_binds mem hmade hs hv hrest hl with hstable | hl
    · exact hstable
    · have hv₁ := (hv.binds hmade).of_scopes hscopes
      have hpop : b₄.pop.scopes = b₁.scopes := by
        rw [Binder.scopes, opens.pop_levels_branch bodyPart.within branchPart.within]
        rfl
      have hlevels := opens.replace_levels bodyPart.within
      have hb₁ := opens.tidy hb hsteady.plain
      refine stable_block (m := ⟨m.scopes, m.values, _, .block head inner (some alt) :: ns⟩) mem
        hsteady hb opens (hs.trans hscopes.symm) hv₁ rfl ?_ ?_ ?_ hl
      · intro k hks hkv hkr hk
        exact ihb (opens.tidy_push fragment hb hsteady.plain) hks hkv hkr hk
      · intro other ho k hks hkf hkv hkr hk
        cases ho
        refine iho (opens.tidy_replace hb hsteady.plain bodyPart.within) ?_ ?_ hkr hk
        · rw [hks, Binder.scopes_of_cons hlevels]
        · rw [hkf, hkv]
          exact hv₁.branch hb₁ hlevels
      · intro k hks hkv hkr hk
        exact ih (opens.tidy_pop_branch hb hsteady.plain bodyPart.within branchPart.within)
          (hks.trans hpop.symm) (hkv.of_scopes hpop) hkr hk

end

/-! ### The moments of the loop -/

def Moment.Covers (m : Moment) : Render.Work → Prop
  | .region ns f _ => ∃ scopes values, m.Leads ⟨scopes, values, f, ns⟩
  | .passes h body otherwise left _ f _ =>
    (∃ scopes values ns, m.Leads ⟨scopes, values, f, .block h body otherwise :: ns⟩) ∧
      ∀ l ∈ left.locals, l ∈ (h.run (h.operands.map f.evaluate)).locals

def Render.GetsTo (tools : Toolbox) (stack later : List Render.Work) : Prop :=
  Relation.ReflTransGen (fun s t => Render.Later tools t s) stack later

section

open Render (Work step)

variable {m : Moment} {tools : Toolbox} {f : Frame} {inside : List BlockHead} {n : Node}
  {ns : List Node}

theorem Moment.Covers.past (h : m.Covers (.region (n :: ns) f inside)) :
    m.Covers (.region ns (Render.frameAfter f n) inside) := by
  obtain ⟨scopes, values, hm⟩ := h
  exact ⟨scopes, values, hm.trans (.next rfl .here)⟩

theorem covers_of_ofOutcome {stack next later : List Work} {o : Outcome} {es : List Event}
    (hs : step tools stack = .ofOutcome o next) (h : step tools stack = .next later es)
    (hn : ∀ w ∈ next, m.Covers w) : ∀ w ∈ later, m.Covers w := by
  rw [hs] at h
  unfold Render.Progress.ofOutcome at h
  split at h
  · cases h
  · cases h
    exact hn

/-- A step of the loop goes on to moments behind those where it was. -/
theorem covers_step {stack later : List Work} {es : List Event}
    (hc : ∀ w ∈ stack, m.Covers w) (h : step tools stack = .next later es) :
    ∀ w ∈ later, m.Covers w := by
  match stack with
  | [] => cases h
  | .region [] f inside :: rest =>
    cases h
    exact fun w hw => hc w (List.mem_cons_of_mem _ hw)
  | .region (.block head body otherwise :: ns) f inside :: rest =>
    have hhere := hc _ List.mem_cons_self
    cases h
    intro w hw
    rcases List.mem_cons.1 hw with rfl | hw
    · obtain ⟨scopes, values, hm⟩ := hhere
      exact ⟨⟨scopes, values, ns, hm⟩, fun l hl => hl⟩
    · rcases List.mem_cons.1 hw with rfl | hw
      · exact hhere.past
      · exact hc w (List.mem_cons_of_mem _ hw)
  | .region (.text p s :: ns) f inside :: rest =>
    refine covers_of_ofOutcome (o := Render.leaf tools inside f (.text p s)) rfl h
      fun w hw => ?_
    rcases List.mem_cons.1 hw with rfl | hw
    · exact (hc _ List.mem_cons_self).past
    · exact hc w (List.mem_cons_of_mem _ hw)
  | .region (.bind p b :: ns) f inside :: rest =>
    have hhere := hc _ List.mem_cons_self
    cases h
    intro w hw
    rcases List.mem_cons.1 hw with rfl | hw
    · exact hhere.past
    · exact hc w (List.mem_cons_of_mem _ hw)
  | .region (.output p o e :: ns) f inside :: rest =>
    refine covers_of_ofOutcome (o := Render.leaf tools inside f (.output p o e)) rfl h
      fun w hw => ?_
    rcases List.mem_cons.1 hw with rfl | hw
    · exact (hc _ List.mem_cons_self).past
    · exact hc w (List.mem_cons_of_mem _ hw)
  | .region (.call p k as e :: ns) f inside :: rest =>
    refine covers_of_ofOutcome (o := Render.leaf tools inside f (.call p k as e)) rfl h
      fun w hw => ?_
    rcases List.mem_cons.1 hw with rfl | hw
    · exact (hc _ List.mem_cons_self).past
    · exact hc w (List.mem_cons_of_mem _ hw)
  | .passes head body otherwise ⟨l :: ls, failure⟩ entered f inside :: rest =>
    obtain ⟨⟨scopes, values, ns, hm⟩, hls⟩ := hc _ List.mem_cons_self
    cases h
    intro w hw
    rcases List.mem_cons.1 hw with rfl | hw
    · have hl := hls l List.mem_cons_self
      exact ⟨_, _, hm.trans (.pass rfl hl .here)⟩
    · rcases List.mem_cons.1 hw with rfl | hw
      · exact ⟨⟨scopes, values, ns, hm⟩, fun l hl => hls l (List.mem_cons_of_mem _ hl)⟩
      · exact hc w (List.mem_cons_of_mem _ hw)
  | .passes head body otherwise ⟨[], some failure⟩ entered f inside :: rest => cases h
  | .passes head body otherwise ⟨[], none⟩ entered f inside :: rest =>
    obtain ⟨⟨scopes, values, ns, hm⟩, _⟩ := hc _ List.mem_cons_self
    cases h
    intro w hw
    rcases List.mem_append.1 hw with hw | hw
    · unfold Render.branchWork at hw
      split at hw
      · rcases List.mem_singleton.1 hw with rfl
        exact ⟨_, _, hm.trans (.branch rfl .here)⟩
      · cases hw
    · exact hc w (List.mem_cons_of_mem _ hw)

/-- Every region on a stack that a render gets to is at a moment of the render. -/
theorem covers_of_getsTo {nodes : List Node} {context : Value} {stack : List Work}
    (h : Render.GetsTo tools [.region nodes (Template.rootFrame context) []] stack) :
    ∀ w ∈ stack, (Moment.start nodes context).Covers w := by
  induction h with
  | refl =>
    intro w hw
    rcases List.mem_singleton.1 hw with rfl
    exact ⟨_, _, .here⟩
  | tail _ hlast ih =>
    obtain ⟨es, he⟩ := hlast
    exact covers_step ih he

end

/-! ### The context -/

theorem getLast?_cons_of_some {α : Type} {a b : α} {as : List α} (h : as.getLast? = some b) :
    (a :: as).getLast? = some b := by
  rw [List.getLast?_cons, h]
  rfl

theorem Moment.Leads.context {m m' : Moment} {r : Ref} {v : Value} (h : m.Leads m')
    (hs : m.scopes.getLast? = some r) (hv : m.values.getLast? = some v) :
    m'.scopes.getLast? = some r ∧ m'.values.getLast? = some v := by
  induction h with
  | here => exact ⟨hs, hv⟩
  | next _ _ ih => exact ih hs hv
  | pass _ _ _ ih => exact ih (getLast?_cons_of_some hs) (getLast?_cons_of_some hv)
  | branch _ _ ih => exact ih (getLast?_cons_of_some hs) (getLast?_cons_of_some hv)

/-- Scope references are stable: where the compilation keeps them apart from other names, every
region that a render works on is at a moment, and at every moment each reference that stood on the
compiler's stack of scopes leads to the value that the scope had when it was opened, and the
reference to the context leads to the context. -/
theorem scopes_stable {w : Workshop} {source : String} {name : Option String} {t : Template}
    (h : w.compile source name = .ok t) (hR : w.Steady source name) (context : Value) :
    (∀ tools stack ns f inside,
      Render.GetsTo tools [.region t.nodes (Template.rootFrame context) []] stack →
      .region ns f inside ∈ stack →
      ∃ scopes values, (Moment.start t.nodes context).Leads ⟨scopes, values, f, ns⟩) ∧
    ∀ m, (Moment.start t.nodes context).Leads m →
      Stable (· ∈ w.readings source name) m ∧ m.frame.resolve Ref.context = context := by
  constructor
  · intro tools stack ns f inside hstack hmem
    exact covers_of_getsTo hstack _ hmem
  · intro m hm
    obtain ⟨b, hb⟩ := hoists_of_compile h
    have hstable := hb.stable (m := .start t.nodes context) Binder.tidy_initial hR rfl
      (.start context) rfl hm
    obtain ⟨hs, hv⟩ := hm.context (r := Ref.context) (v := context) rfl rfl
    refine ⟨hstable, ?_⟩
    rw [← hstable.holds, List.getLast?_map, hs] at hv
    exact Option.some.inj hv

def loopInLoop : String :=
  marked "#for rows" ++ marked "#for cells" ++ marked "../name" ++ marked "name" ++
    marked "/for" ++ marked "/for"

theorem scopes_stable_in_loop :
    ∃ t, (⟨.builtin, {}⟩ : Workshop).compile loopInLoop none = .ok t ∧
      (⟨.builtin, {}⟩ : Workshop).Steady loopInLoop none ∧
      ∀ context m, (Moment.start t.nodes context).Leads m →
        Stable (· ∈ (⟨.builtin, {}⟩ : Workshop).readings loopInLoop none) m ∧
        m.frame.resolve Ref.context = context := by
  have hok : ((⟨.builtin, {}⟩ : Workshop).compile loopInLoop none).toOption.any
      (fun t => t.nodes.length == 2) = true := by
    decide +kernel
  have hapart : (⟨.builtin, {}⟩ : Workshop).Apart loopInLoop none :=
    Workshop.apart_of_keepsApart Workshop.usesBuiltins_builtin (by decide +kernel)
  have hsteady : (⟨.builtin, {}⟩ : Workshop).Steady loopInLoop none :=
    fun r hr => (hapart r hr).toSteady
  obtain ⟨t, ht, _⟩ := exists_ok_of_any hok
  exact ⟨t, ht, hsteady, fun context => (scopes_stable ht hsteady context).2⟩

/-- A property of the context that has the name of the local for the context. -/
def contextProperty : String := marked "this.$data.a" ++ marked "a"

def contextWithDataProperty : Value :=
  .map [(.str "a", .str "x"), (.str "$data", .map [(.str "a", .str "y")])]

/-- The property is hoisted over the local, and the reference to the context leads to the
property. -/
theorem scopes_not_stable :
    ∃ t m, (⟨.builtin, {}⟩ : Workshop).compile contextProperty none = .ok t ∧
      (Moment.start t.nodes contextWithDataProperty).Leads m ∧
      m.scopes = [Ref.context] ∧ m.values = [contextWithDataProperty] ∧
      m.frame.resolve Ref.context = .map [(.str "a", .str "y")] := by
  have hc : (⟨.builtin, {}⟩ : Workshop).compile contextProperty none = .ok
      { name := none
        source := contextProperty
        resultName := "$html"
        nodes :=
          [.bind ⟨1, 0⟩ ⟨"$data", ⟨"$data", []⟩, .name "$data"⟩,
           .output ⟨1, 0⟩ (.ref ⟨"$data", [.name "a"]⟩) true,
           .bind ⟨1, 16⟩ ⟨"a", ⟨"$data", []⟩, .name "a"⟩,
           .output ⟨1, 16⟩ (.ref ⟨"a", []⟩) true] } := by
    with_unfolding_all rfl
  exact ⟨_, _, hc, .next rfl .here, rfl, rfl, rfl⟩

end Stencil
