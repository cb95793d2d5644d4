import Stencil.Error.Raised

/-!
# Locating an error again and again

Whatever calls locate an error, it is the error that its class makes at the place it has come to,
and each part of that place is what was given for it first (`RaisedError.located_by_first`).
-/

namespace Stencil

namespace Location

/-- A place after an error there has been located once more. -/
def settle (l : Location) (s : Sighting) : Location where
  line := l.line.or (some s.line)
  column := if l.line.isSome then l.column else s.column
  name := l.name.or s.name
  source := l.source.or s.source

/-- A line and the column that was given with it. -/
def mark (l : Location) : Option (Int × Option Int) := l.line.map fun n => (n, l.column)

theorem mark_eq_some {l : Location} {n : Int} {column : Option Int} :
    l.mark = some (n, column) ↔ l.line = some n ∧ l.column = column := by
  rw [mark, Option.map_eq_some_iff]
  constructor
  · intro h
    obtain ⟨m, hm, heq⟩ := h
    cases heq
    exact ⟨hm, rfl⟩
  · intro h
    exact ⟨n, h.1, by rw [h.2]⟩

/-- Line and column are filled in together. -/
theorem mark_settle (l : Location) (s : Sighting) :
    (l.settle s).mark = l.mark.or (some (s.line, s.column)) := by
  cases h : l.line with
  | none => simp [mark, settle, h]
  | some n => simp [mark, settle, h]

/-- What fills in a part of a place where it is missing keeps the first one that is given. -/
theorem foldl_settle {β : Type} {part : Location → Option β} {given : Sighting → Option β}
    (hstep : ∀ l s, part (l.settle s) = (part l).or (given s)) (l : Location)
    (calls : List Sighting) :
    part (calls.foldl settle l) = (part l :: calls.map given).findSome? id := by
  induction calls generalizing l with
  | nil =>
    rw [List.foldl_nil, List.map_nil, List.findSome?_singleton]
    rfl
  | cons s calls ih =>
    rw [List.foldl_cons, ih, hstep]
    cases h : part l with
    | none => rfl
    | some b => rfl

theorem mark_foldl_settle (l : Location) (calls : List Sighting) :
    (calls.foldl settle l).mark =
      (l.mark :: calls.map fun s => some (s.line, s.column)).findSome? id :=
  foldl_settle mark_settle l calls

end Location

namespace RaisedError

theorem location_make (c : Complaint) (l : Location) : (make c l).location = l := rfl

/-- To locate a new error is to make it at the place that comes of it. -/
theorem locate_make (c : Complaint) (l : Location) (s : Sighting) :
    (make c l).locate s = make c (l.settle s) := rfl

theorem foldl_locate (c : Complaint) (l : Location) (calls : List Sighting) :
    calls.foldl locate (make c l) = make c (calls.foldl Location.settle l) := by
  induction calls generalizing l with
  | nil => rfl
  | cons s calls ih => rw [List.foldl_cons, List.foldl_cons, locate_make, ih]

/-- However often an error is located, line and column are those it was made with, if the line is,
and else those of the first call. Of the names and of the sources it has the first one given. The
error is as if made at the place it has come to, with the texts of that one. -/
theorem located_by_first (c : Complaint) (l : Location) (calls : List Sighting) :
    let e := calls.foldl locate (make c l)
    (∀ n, l.line = some n → e.location.line = some n ∧ e.location.column = l.column) ∧
      (l.line = none → ∀ s later, calls = s :: later →
        e.location.line = some s.line ∧ e.location.column = s.column) ∧
      e.location.name = (l.name :: calls.map Sighting.name).findSome? id ∧
      e.location.source = (l.source :: calls.map Sighting.source).findSome? id ∧
      e = make c e.location ∧ e.shown = (make c e.location).shown ∧
      e.compact = (make c e.location).compact := by
  intro e
  have hmake : e = make c (calls.foldl Location.settle l) := foldl_locate c l calls
  have hplace : e.location = calls.foldl Location.settle l := by rw [hmake, location_make]
  have hfresh : e = make c e.location := by rw [hplace, hmake]
  have hmark := Location.mark_foldl_settle l calls
  rw [← hplace] at hmark
  refine ⟨fun n hn => ?_, fun hnone s later hcalls => ?_, ?_, ?_, hfresh,
    congrArg shown hfresh, congrArg compact hfresh⟩
  · apply Location.mark_eq_some.1
    rw [hmark, Location.mark, hn]
    rfl
  · apply Location.mark_eq_some.1
    rw [hmark, Location.mark, hnone, hcalls]
    rfl
  · rw [hplace]
    exact Location.foldl_settle (fun _ _ => rfl) l calls
  · rw [hplace]
    exact Location.foldl_settle (fun _ _ => rfl) l calls

-- A column that was given without a line is lost to the first call.
example : ([⟨3, none, none, some "a"⟩, ⟨5, some 1, some "t", some "b"⟩].foldl locate
    (make (.unclosedMarker "m") { column := some 7 })).location =
      ⟨some 3, none, some "t", some "a"⟩ := rfl

end RaisedError

end Stencil
