import Stencil.Render.Leaf

/-!
# Rendering by a work stack

A render is a loop over a stack of work: the rest of a region in its frame, or the rest of the
passes of a block. No depth of nesting is too great for it. Main statement: every stack is worked
off after finitely many steps (`Work.acc`), which is what the loop is defined by.
-/

namespace Stencil.Render

/-- A piece of work. -/
inductive Work
  /-- The rest of a region, its frame, and the blocks around it, innermost first. -/
  | region (nodes : List Node) (frame : Frame) (inside : List BlockHead)
  /-- The passes of a block that are still to be taken, and whether one has been. -/
  | passes (head : BlockHead) (body : List Node) (otherwise : Option (List Node)) (left : Passes)
      (entered : Bool) (frame : Frame) (inside : List BlockHead)
  deriving Inhabited

/-- A step of the loop: on to another stack, or the end. -/
inductive Progress
  | next (stack : List Work) (events : List Event)
  | stop (outcome : Outcome)

/-- Goes on with a stack unless something stopped. -/
def Progress.ofOutcome (o : Outcome) (stack : List Work) : Progress :=
  match o.error with
  | some _ => .stop o
  | none => .next stack o.events

/-- The work on the branch of a block whose passes are over. -/
def branchWork (head : BlockHead) (otherwise : Option (List Node)) (entered : Bool) (frame : Frame)
    (inside : List BlockHead) : List Work :=
  match entered, otherwise with
  | false, some ns => [.region ns (frame.child []) (head :: inside)]
  | _, _ => []

/-- One step of the loop. -/
def step (tools : Toolbox) : List Work → Progress
  | [] => .stop {}
  | .region [] _ _ :: rest => .next rest []
  | .region (.block h body otherwise :: ns) f inside :: rest =>
    let values := h.operands.map f.evaluate
    .next (.passes h body otherwise (h.run values) false f inside :: .region ns f inside :: rest)
      [.entered h.helper values]
  | .region (.text p s :: ns) f inside :: rest =>
    .ofOutcome (leaf tools inside f (.text p s)) (.region ns f inside :: rest)
  | .region (.bind p b :: ns) f inside :: rest =>
    .next (.region ns (frameAfter f (.bind p b)) inside :: rest) []
  | .region (.output p o e :: ns) f inside :: rest =>
    .ofOutcome (leaf tools inside f (.output p o e)) (.region ns f inside :: rest)
  | .region (.call p h as e :: ns) f inside :: rest =>
    .ofOutcome (leaf tools inside f (.call p h as e)) (.region ns f inside :: rest)
  | .passes h body otherwise ⟨l :: ls, failure⟩ _ f inside :: rest =>
    .next (.region body (passFrame f h l) (h :: inside) ::
      .passes h body otherwise ⟨ls, failure⟩ true f inside :: rest) [.passed l]
  | .passes _ _ _ ⟨[], some failure⟩ _ _ _ :: _ => .stop ⟨[], some (.failure failure)⟩
  | .passes h _ otherwise ⟨[], none⟩ entered f inside :: rest =>
    .next (branchWork h otherwise entered f inside ++ rest) []

/-! ### Every stack is worked off -/

/-- The stack that a step leaves. -/
def Later (tools : Toolbox) (later sooner : List Work) : Prop :=
  ∃ es, step tools sooner = .next later es

theorem acc_of_ofOutcome {tools : Toolbox} {stack next : List Work} {o : Outcome}
    (h : step tools stack = .ofOutcome o next) (hn : Acc (Later tools) next) :
    Acc (Later tools) stack := by
  refine ⟨_, fun later hl => ?_⟩
  obtain ⟨es, he⟩ := hl
  rw [h] at he
  cases o with
  | mk events error =>
    cases error with
    | none =>
      simp only [Progress.ofOutcome, Progress.next.injEq] at he
      rw [← he.1]
      exact hn
    | some e => simp [Progress.ofOutcome] at he

theorem acc_of_next {tools : Toolbox} {stack next : List Work} {es : List Event}
    (h : step tools stack = .next next es) (hn : Acc (Later tools) next) :
    Acc (Later tools) stack := by
  refine ⟨_, fun later hl => ?_⟩
  obtain ⟨es', he⟩ := hl
  rw [h] at he
  simp only [Progress.next.injEq] at he
  rw [← he.1]
  exact hn

/-- A region is worked off if the regions of its nodes are. -/
def WorksOff (tools : Toolbox) (nodes : List Node) : Prop :=
  ∀ f inside rest, Acc (Later tools) rest → Acc (Later tools) (.region nodes f inside :: rest)

theorem worksOff_nil (tools : Toolbox) : WorksOff tools [] :=
  fun _ _ _ h => acc_of_next rfl h

theorem acc_passes {tools : Toolbox} {h : BlockHead} {body : List Node}
    {otherwise : Option (List Node)} (hb : WorksOff tools body)
    (ho : ∀ ns, otherwise = some ns → WorksOff tools ns) (ls : List Locals)
    (failure : Option Failure) (entered : Bool) (f : Frame) (inside : List BlockHead)
    (rest : List Work) (hr : Acc (Later tools) rest) :
    Acc (Later tools) (.passes h body otherwise ⟨ls, failure⟩ entered f inside :: rest) := by
  induction ls generalizing entered with
  | nil =>
    cases failure with
    | some failure =>
      refine ⟨_, fun later hl => ?_⟩
      obtain ⟨es, he⟩ := hl
      simp [step] at he
    | none =>
      refine acc_of_next rfl ?_
      cases entered with
      | true => exact hr
      | false =>
        cases otherwise with
        | none => exact hr
        | some ns => exact ho ns rfl _ _ _ hr
  | cons l ls ih => exact acc_of_next rfl (hb _ _ _ (ih true))

theorem worksOff_block {tools : Toolbox} {h : BlockHead} {body ns : List Node}
    {otherwise : Option (List Node)} (hb : WorksOff tools body)
    (ho : ∀ es, otherwise = some es → WorksOff tools es) (hn : WorksOff tools ns) :
    WorksOff tools (.block h body otherwise :: ns) :=
  fun f inside rest hr =>
    acc_of_next rfl (acc_passes hb ho _ _ _ _ _ _ (hn f inside rest hr))

mutual

/-- A tree in front of a region that is worked off is worked off. -/
theorem worksOff_cons (tools : Toolbox) (n : Node) (ns : List Node) (hn : WorksOff tools ns) :
    WorksOff tools (n :: ns) := by
  match n with
  | .block h body otherwise =>
    exact worksOff_block (worksOff tools body) (worksOff_branch tools otherwise) hn
  | .text p s =>
    exact fun f inside rest hr =>
      acc_of_ofOutcome (o := leaf tools inside f (.text p s)) rfl (hn f inside rest hr)
  | .bind p b => exact fun f inside rest hr => acc_of_next rfl (hn _ inside rest hr)
  | .output p q e =>
    exact fun f inside rest hr =>
      acc_of_ofOutcome (o := leaf tools inside f (.output p q e)) rfl (hn f inside rest hr)
  | .call p h as e =>
    exact fun f inside rest hr =>
      acc_of_ofOutcome (o := leaf tools inside f (.call p h as e)) rfl (hn f inside rest hr)

/-- Every region is worked off. -/
theorem worksOff (tools : Toolbox) (ns : List Node) : WorksOff tools ns := by
  match ns with
  | [] => exact worksOff_nil tools
  | n :: ns => exact worksOff_cons tools n ns (worksOff tools ns)

/-- Every branch is worked off. -/
theorem worksOff_branch (tools : Toolbox) (otherwise : Option (List Node)) :
    ∀ ns, otherwise = some ns → WorksOff tools ns := by
  match otherwise with
  | none =>
    intro ns h
    cases h
  | some es =>
    intro ns h
    cases h
    exact worksOff tools es

end

/-- Every stack is worked off. -/
theorem Work.acc (tools : Toolbox) (stack : List Work) : Acc (Later tools) stack := by
  induction stack with
  | nil =>
    refine ⟨_, fun later hl => ?_⟩
    obtain ⟨es, he⟩ := hl
    simp [step] at he
  | cons w rest ih =>
    match w with
    | .region ns f inside => exact worksOff tools ns f inside rest ih
    | .passes h body otherwise ⟨ls, failure⟩ entered f inside =>
      exact acc_passes (worksOff tools body) (worksOff_branch tools otherwise) _ _ _ _ _ _ ih

theorem later_wf (tools : Toolbox) : WellFounded (Later tools) := ⟨Work.acc tools⟩

/-! ### The loop -/

/-- Works a stack off; `done` are the events so far, newest first. -/
def run (tools : Toolbox) (stack : List Work) (done : List Event) : Outcome :=
  match _h : step tools stack with
  | .next later es => run tools later (es.reverse ++ done)
  | .stop o => o.after done.reverse
termination_by (later_wf tools).wrap stack
decreasing_by exact ⟨_, by assumption⟩

/-- Renders a forest in a frame. -/
def runNodes (tools : Toolbox) (nodes : List Node) (f : Frame) : Outcome :=
  run tools [.region nodes f []] []

end Stencil.Render
