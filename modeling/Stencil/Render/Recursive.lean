import Stencil.Render.Leaf

/-!
# Rendering by recursion

The meaning of a forest, by recursion over it: a region does what its nodes do, in order and in one
frame; a block takes its passes one by one, each in a frame of its own, and renders its branch if
they end without any pass.
-/

namespace Stencil.Render

/-- Takes passes one by one: `body` renders one. -/
def takePasses (body : Locals → Outcome) : List Locals → Outcome
  | [] => {}
  | l :: ls => ((body l).after [.passed l]).andThen (takePasses body ls)

mutual

/-- What a tree does in a frame; `inside` are the blocks around it, innermost first. -/
def renderNode (tools : Toolbox) (inside : List BlockHead) (f : Frame) : Node → Outcome
  | .block h body otherwise =>
    let values := h.operands.map f.evaluate
    let passes := h.run values
    let taken :=
      takePasses (fun l => renderAll tools (h :: inside) (passFrame f h l) body) passes.locals
    let last :=
      match passes.failure with
      | some failure => ⟨[], some (.failure failure)⟩
      | none =>
        if passes.locals.isEmpty then renderBranch tools (h :: inside) (f.child []) otherwise
        else {}
    (taken.andThen last).after [.entered h.helper values]
  | n => leaf tools inside f n

/-- What a forest does in a frame. -/
def renderAll (tools : Toolbox) (inside : List BlockHead) (f : Frame) : List Node → Outcome
  | [] => {}
  | n :: ns =>
    (renderNode tools inside f n).andThen (renderAll tools inside (frameAfter f n) ns)

/-- What a branch does in a frame, if there is one. -/
def renderBranch (tools : Toolbox) (inside : List BlockHead) (f : Frame) :
    Option (List Node) → Outcome
  | none => {}
  | some ns => renderAll tools inside f ns

end

end Stencil.Render
