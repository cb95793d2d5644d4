import Mathlib.Data.List.Induction
import Stencil.Marker
import Stencil.Procedure.Basic

/-!
# The nesting of markers

Markers by what they do to the nesting of blocks, the grammar of the sequences that are nested
properly, and a stack of open blocks that tells these from the others. Main statements: the stack
is empty at the end of exactly the balanced sequences (`Opened.balanced_iff_run`), and where it
stops, or where it is not empty at the end, the sequence breaks (`Opened.breaks_of_run_error`,
`Opened.breaks_of_run_ok`).
-/

namespace Stencil

/-- What a marker does to the nesting of blocks. -/
inductive Mark
  | plain
  | selfClosing (helper : String)
  | opening (helper : String)
  | closing (helper : String)
  | branch (helper : String)
  deriving DecidableEq, Repr, Inhabited

def Marker.mark (m : Marker) : Mark :=
  match m.fragment with
  | .opening helper _ closed => if closed then .selfClosing helper else .opening helper
  | .closing helper => .closing helper
  | .branch helper => .branch helper
  | .output _ _ => .plain
  | .call _ _ _ => .plain

/-- A mark at its place. -/
structure Sign where
  position : Position
  mark : Mark
  deriving DecidableEq, Repr, Inhabited

/-! ### The grammar -/

/-- Marks in which every block that is opened is closed under its name and has one branch at
most. -/
inductive Balanced : List Mark → Prop
  | nil : Balanced []
  | plain {ms : List Mark} (rest : Balanced ms) : Balanced (.plain :: ms)
  | selfClosing {h : String} {ms : List Mark} (rest : Balanced ms) :
      Balanced (.selfClosing h :: ms)
  | block {h : String} {body ms : List Mark} (inside : Balanced body) (rest : Balanced ms) :
      Balanced (.opening h :: (body ++ .closing h :: ms))
  | branched {h k : String} {body other ms : List Mark} (inside : Balanced body)
      (otherwise : Balanced other) (rest : Balanced ms) :
      Balanced (.opening h :: (body ++ .branch k :: (other ++ .closing h :: ms)))

theorem Balanced.append {ms ns : List Mark} (h : Balanced ms) (k : Balanced ns) :
    Balanced (ms ++ ns) := by
  induction h with
  | nil => exact k
  | plain _ ih => exact .plain ih
  | selfClosing _ ih => exact .selfClosing ih
  | block inside _ _ ih =>
    simp only [List.cons_append, List.append_assoc]
    exact .block inside ih
  | branched inside otherwise _ _ _ ih =>
    simp only [List.cons_append, List.append_assoc]
    exact .branched inside otherwise ih

/-- A block that has been opened: where, under which name, and whether its branch has started. -/
structure Opened where
  position : Position
  helper : String
  branched : Bool := false
  deriving DecidableEq, Repr, Inhabited

/-- Signs that are balanced but for blocks left open, which are listed from the innermost one. -/
inductive LeavesOpen : List Sign → List Opened → Prop
  | balanced {ss : List Sign} (h : Balanced (ss.map Sign.mark)) : LeavesOpen ss []
  | block {before ss : List Sign} {p : Position} {h : String} {stack : List Opened}
      (around : LeavesOpen before stack) (inside : Balanced (ss.map Sign.mark)) :
      LeavesOpen (before ++ ⟨p, .opening h⟩ :: ss) (⟨p, h, false⟩ :: stack)
  | branch {before ss : List Sign} {p q : Position} {h k : String} {stack : List Opened}
      (body : LeavesOpen before (⟨p, h, false⟩ :: stack)) (inside : Balanced (ss.map Sign.mark)) :
      LeavesOpen (before ++ ⟨q, .branch k⟩ :: ss) (⟨p, h, true⟩ :: stack)

/-- Where a sequence of signs stops being balanced: the fault, the kind of mistake that it is, and
the place. -/
inductive Breaks : List Sign → Fault → Mistake → Position → Prop
  | notOpened {before after : List Sign} {p : Position} {h : String}
      (around : LeavesOpen before []) :
      Breaks (before ++ ⟨p, .closing h⟩ :: after) (.closeWithoutOpen h)
        (.unmatchedClose none (some h)) p
  | otherName {before after : List Sign} {p : Position} {h : String} {o : Opened}
      {stack : List Opened} (around : LeavesOpen before (o :: stack)) (ne : o.helper ≠ h) :
      Breaks (before ++ ⟨p, .closing h⟩ :: after) (.closeMismatch h o.helper o.position.line)
        (.unmatchedClose (some o.helper) (some h)) p
  | branchOutside {before after : List Sign} {p : Position} {h : String}
      (around : LeavesOpen before []) :
      Breaks (before ++ ⟨p, .branch h⟩ :: after) (.branchOutside h) .malformed p
  | secondBranch {before after : List Sign} {p : Position} {h : String} {o : Opened}
      {stack : List Opened} (around : LeavesOpen before (o :: stack))
      (branched : o.branched = true) :
      Breaks (before ++ ⟨p, .branch h⟩ :: after) (.secondBranch o.helper h) .malformed p
  | notClosed {ss : List Sign} {o : Opened} {stack : List Opened}
      (around : LeavesOpen ss (o :: stack)) :
      Breaks ss (.unclosedBlock o.helper) (.unmatchedClose (some o.helper) none) o.position

/-! ### The stack of open blocks -/

namespace Opened

/-- What a sign does to the blocks that are open, innermost first. -/
def next (stack : List Opened) (s : Sign) : Except Fault (List Opened) :=
  match s.mark with
  | .plain => .ok stack
  | .selfClosing _ => .ok stack
  | .opening h => .ok (⟨s.position, h, false⟩ :: stack)
  | .closing h =>
    match stack with
    | [] => .error (.closeWithoutOpen h)
    | o :: os => if o.helper = h then .ok os else .error (.closeMismatch h o.helper o.position.line)
  | .branch h =>
    match stack with
    | [] => .error (.branchOutside h)
    | o :: os =>
      if o.branched then .error (.secondBranch o.helper h)
      else .ok ({ o with branched := true } :: os)

/-- The blocks that are open behind signs, or the fault and the place of the first one that does not
fit. -/
def run (stack : List Opened) : List Sign → Except (Fault × Position) (List Opened)
  | [] => .ok stack
  | s :: ss =>
    match next stack s with
    | .error f => .error (f, s.position)
    | .ok stack => run stack ss

variable {stack stack' : List Opened} {s : Sign} {ss ts : List Sign}

theorem run_append_of_ok (h : run stack ss = .ok stack') (ts : List Sign) :
    run stack (ss ++ ts) = run stack' ts := by
  induction ss generalizing stack with
  | nil =>
    cases h
    rfl
  | cons s ss ih =>
    simp only [run] at h
    simp only [List.cons_append, run]
    split at h
    · cases h
    · exact ih h

theorem run_append_of_error {e : Fault × Position} (h : run stack ss = .error e) (ts : List Sign) :
    run stack (ss ++ ts) = .error e := by
  induction ss generalizing stack with
  | nil => cases h
  | cons s ss ih =>
    simp only [run] at h
    simp only [List.cons_append, run]
    split at h
    · exact h
    · exact ih h

/-- What is balanced leaves the open blocks as they are. -/
theorem run_of_balanced {ms : List Mark} (h : Balanced ms) :
    ∀ (stack : List Opened) (ss : List Sign), ss.map Sign.mark = ms → run stack ss = .ok stack := by
  induction h with
  | nil =>
    intro stack ss hss
    rw [List.map_eq_nil_iff.1 hss]
    rfl
  | plain _ ih =>
    intro stack ss hss
    obtain ⟨s, ss, rfl, hs, hrest⟩ := List.map_eq_cons_iff.1 hss
    simp only [run, next, hs]
    exact ih stack ss hrest
  | selfClosing _ ih =>
    intro stack ss hss
    obtain ⟨s, ss, rfl, hs, hrest⟩ := List.map_eq_cons_iff.1 hss
    simp only [run, next, hs]
    exact ih stack ss hrest
  | block _ _ ihb ih =>
    intro stack ss hss
    obtain ⟨s, ss, rfl, hs, hrest⟩ := List.map_eq_cons_iff.1 hss
    obtain ⟨bs, cs, rfl, hbs, hcs⟩ := List.map_eq_append_iff.1 hrest
    obtain ⟨c, cs, rfl, hc, hrest⟩ := List.map_eq_cons_iff.1 hcs
    simp only [run, next, hs]
    rw [run_append_of_ok (ihb _ bs hbs)]
    simp only [run, next, hc, if_true]
    exact ih stack cs hrest
  | branched _ _ _ ihb iho ih =>
    intro stack ss hss
    obtain ⟨s, ss, rfl, hs, hrest⟩ := List.map_eq_cons_iff.1 hss
    obtain ⟨bs, es, rfl, hbs, hes⟩ := List.map_eq_append_iff.1 hrest
    obtain ⟨e, es, rfl, he, hrest⟩ := List.map_eq_cons_iff.1 hes
    obtain ⟨os, cs, rfl, hos, hcs⟩ := List.map_eq_append_iff.1 hrest
    obtain ⟨c, cs, rfl, hc, hrest⟩ := List.map_eq_cons_iff.1 hcs
    simp only [run, next, hs]
    rw [run_append_of_ok (ihb _ bs hbs)]
    simp only [run, next, he, Bool.false_eq_true, if_false]
    rw [run_append_of_ok (iho _ os hos)]
    simp only [run, next, hc, if_true]
    exact ih stack cs hrest

end Opened

/-! ### What the stack tells -/

namespace LeavesOpen

variable {ss ts : List Sign} {stack stack' : List Opened} {s : Sign}

theorem append (h : LeavesOpen ss stack) (k : Balanced (ts.map Sign.mark)) :
    LeavesOpen (ss ++ ts) stack := by
  cases h with
  | balanced h =>
    apply balanced
    rw [List.map_append]
    exact h.append k
  | block around inside =>
    rw [List.append_assoc, List.cons_append]
    apply block around
    rw [List.map_append]
    exact inside.append k
  | branch body inside =>
    rw [List.append_assoc, List.cons_append]
    apply branch body
    rw [List.map_append]
    exact inside.append k

/-- A closing of the innermost block makes what is inside it part of what is around it. -/
theorem close {o : Opened} (h : LeavesOpen ss (o :: stack)) (p : Position) :
    LeavesOpen (ss ++ [⟨p, .closing o.helper⟩]) stack := by
  cases h with
  | @block before inner q h _ around inside =>
    have hblock : Balanced ((⟨q, .opening h⟩ :: (inner ++ [⟨p, .closing h⟩])).map Sign.mark) := by
      simp only [List.map_cons, List.map_append, List.map_nil]
      exact .block inside .nil
    rw [List.append_assoc, List.cons_append]
    exact around.append hblock
  | @branch before inner q r h k _ body inside =>
    cases body with
    | @block before first _ _ _ around first_inside =>
      have hblock : Balanced ((⟨q, .opening h⟩ ::
          (first ++ ⟨r, .branch k⟩ :: (inner ++ [⟨p, .closing h⟩]))).map Sign.mark) := by
        simp only [List.map_cons, List.map_append, List.map_nil]
        exact .branched first_inside inside .nil
      rw [List.append_assoc, List.append_assoc, List.cons_append, List.cons_append]
      exact around.append hblock

theorem next (h : LeavesOpen ss stack) (hs : Opened.next stack s = .ok stack') :
    LeavesOpen (ss ++ [s]) stack' := by
  obtain ⟨p, mark⟩ := s
  cases mark with
  | plain =>
    cases hs
    exact h.append (.plain .nil)
  | selfClosing k =>
    cases hs
    exact h.append (.selfClosing .nil)
  | opening k =>
    cases hs
    exact .block h .nil
  | closing k =>
    simp only [Opened.next] at hs
    split at hs
    · cases hs
    · split at hs
      · rename_i hname
        cases hs
        exact hname ▸ h.close p
      · cases hs
  | branch k =>
    simp only [Opened.next] at hs
    split at hs
    · cases hs
    · rename_i o os
      split at hs
      · cases hs
      · rename_i hb
        cases hs
        obtain ⟨q, name, branched⟩ := o
        obtain rfl : branched = false := by simpa using hb
        exact .branch h .nil

end LeavesOpen

namespace Opened

variable {ss : List Sign} {stack : List Opened}

theorem leavesOpen_of_run (h : run [] ss = .ok stack) : LeavesOpen ss stack := by
  induction ss using List.reverseRecOn generalizing stack with
  | nil =>
    cases h
    exact .balanced .nil
  | append_singleton ss s ih =>
    cases hs : run [] ss with
    | error e =>
      rw [run_append_of_error hs] at h
      cases h
    | ok around =>
      rw [run_append_of_ok hs] at h
      simp only [run] at h
      split at h
      · cases h
      · rename_i stack' hnext
        cases h
        exact (ih hs).next hnext

/-- The balanced sequences are those behind which no block is open. -/
theorem balanced_iff_run : Balanced (ss.map Sign.mark) ↔ run [] ss = .ok [] := by
  constructor
  · intro h
    exact run_of_balanced h [] ss rfl
  · intro h
    cases leavesOpen_of_run h with
    | balanced h => exact h

/-- The sign where the stack stops. -/
theorem exists_of_run_error {stack : List Opened} {f : Fault} {p : Position}
    (h : run stack ss = .error (f, p)) :
    ∃ before s after around, ss = before ++ s :: after ∧ run stack before = .ok around ∧
      next around s = .error f ∧ s.position = p := by
  induction ss generalizing stack with
  | nil => cases h
  | cons s ss ih =>
    simp only [run] at h
    split at h
    · rename_i g hg
      simp only [Except.error.injEq, Prod.mk.injEq] at h
      obtain ⟨rfl, rfl⟩ := h
      exact ⟨[], s, ss, stack, rfl, rfl, hg, rfl⟩
    · rename_i stack' hnext
      obtain ⟨before, s', after, around, rfl, hrun, hs, hp⟩ := ih h
      refine ⟨s :: before, s', after, around, rfl, ?_, hs, hp⟩
      simp only [run, hnext]
      exact hrun

theorem breaks_of_run_error {f : Fault} {p : Position} (h : run [] ss = .error (f, p)) :
    Breaks ss f f.mistake p := by
  obtain ⟨before, ⟨q, mark⟩, after, around, rfl, hrun, hs, rfl⟩ := exists_of_run_error h
  have hopen := leavesOpen_of_run hrun
  cases mark with
  | plain => cases hs
  | selfClosing k => cases hs
  | opening k => cases hs
  | closing k =>
    simp only [next] at hs
    split at hs
    · cases hs
      exact .notOpened hopen
    · split at hs
      · cases hs
      · rename_i hname
        cases hs
        exact .otherName hopen hname
  | branch k =>
    simp only [next] at hs
    split at hs
    · cases hs
      exact .branchOutside hopen
    · split at hs
      · rename_i hb
        cases hs
        exact .secondBranch hopen hb
      · cases hs

theorem breaks_of_run_ok {o : Opened} (h : run [] ss = .ok (o :: stack)) :
    Breaks ss (.unclosedBlock o.helper) (.unmatchedClose (some o.helper) none) o.position :=
  .notClosed (leavesOpen_of_run h)

end Opened

end Stencil
