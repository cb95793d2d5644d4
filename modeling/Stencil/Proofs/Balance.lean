import Stencil.Proofs.Assembly
import Stencil.Proofs.Loop
import Stencil.Proofs.Nesting
import Stencil.Proofs.Places

/-!
# Which nestings of markers compile

The open blocks of a compilation are what the stack of open blocks is behind the markers read so
far (`Builder.opened_apply`). So a source whose markers can all be read and bound compiles exactly
if they are balanced, and otherwise the compilation reports where they break
(`compile_iff_balanced`).
-/

namespace Stencil

theorem exists_of_map_eq_ok {ε α β : Type} {f : α → β} {r : Except ε α} {b : β}
    (h : r.map f = .ok b) : ∃ a, r = .ok a ∧ f a = b := by
  cases r with
  | error e => cases h
  | ok a => exact ⟨a, rfl, Except.ok.inj h⟩

/-! ### The open blocks of a compilation -/

def OpenBlock.opened (o : OpenBlock) : Opened :=
  ⟨o.head.position, o.head.helper, o.otherwise.isSome⟩

namespace Builder

def opened (b : Builder) : List Opened := b.pending.map OpenBlock.opened

variable {b c : Builder} {p : Position} {refs : List Ref}

@[simp] theorem opened_emit (b : Builder) (ns : List Node) : (b.emit ns).opened = b.opened := by
  rcases b with ⟨binder, top, pending⟩
  cases pending with
  | nil => rfl
  | cons o os =>
    rcases o with ⟨head, outer, body, otherwise⟩
    cases otherwise <;> rfl

@[simp] theorem opened_emitText (b : Builder) (source : List Char) (offset : Nat)
    (cs : List Char) : (b.emitText source offset cs).opened = b.opened := by
  unfold emitText
  split
  · rfl
  · exact opened_emit b _

theorem opened_bind {paths : List String} (h : b.bind p paths = .ok (c, refs)) :
    c.opened = b.opened := by
  obtain ⟨bounds, binder, _, rfl, _⟩ := bind_eq_ok h
  rw [opened_emit]
  rfl

theorem opened_close (b : Builder) (helper : String) (p : Position) :
    (b.close helper).map opened = Opened.next b.opened ⟨p, .closing helper⟩ := by
  rcases b with ⟨binder, top, pending⟩
  cases pending with
  | nil => rfl
  | cons o os =>
    simp only [close, Opened.next, opened, List.map_cons, OpenBlock.opened]
    split
    · exact congrArg Except.ok (opened_emit _ _)
    · rfl

theorem opened_branch (b : Builder) (helper : String) (p : Position) :
    (b.branch helper).map opened = Opened.next b.opened ⟨p, .branch helper⟩ := by
  rcases b with ⟨binder, top, pending⟩
  cases pending with
  | nil => rfl
  | cons o os =>
    rcases o with ⟨head, outer, body, otherwise⟩
    cases otherwise <;> rfl

theorem opened_openBlock {helper scope : String} {run : List Value → Passes} {paths : List String}
    (h : b.openBlock p helper run scope paths = .ok c) :
    c.opened = ⟨p, helper, false⟩ :: b.opened := by
  simp only [openBlock] at h
  split at h
  · cases h
  · rename_i d refs hd
    cases h
    rw [← opened_bind hd]
    rfl

theorem map_orStop {α β : Type} (r : Except Fault α) (g : α → β) :
    (Marker.orStop r).map g = Marker.orStop (r.map g) := by
  cases r <;> rfl

theorem bind_nil (hl : b.binder.levels ≠ []) (p : Position) : b.bind p [] = .ok (b, []) := by
  have hbind : b.binder.bind [] = (b.binder, .ok []) := by
    rw [Binder.bind, if_neg (by simpa using hl)]
    rfl
  unfold bind
  rw [hbind]
  simp only [List.filterMap_nil, List.map_nil, emit_nil]

/-- A marker whose paths cannot be bound cannot be added. -/
theorem apply_of_bind_error (hl : b.binder.levels ≠ []) {m : Marker} {e : CompileError}
    (h : b.bind p m.asked = .error e) : b.apply p m = .error e := by
  have hasked : m.asked ≠ [] := by
    intro hnil
    rw [hnil, bind_nil hl] at h
    cases h
  cases hf : m.fragment with
  | opening helper run closed =>
    rw [Marker.asked_of_opening hf] at h
    simp only [apply, hf, openBlock, h]
  | closing helper => exact absurd (by simp only [Marker.asked, hf]) hasked
  | branch helper => exact absurd (by simp only [Marker.asked, hf]) hasked
  | output escape constant =>
    cases constant with
    | some v => exact absurd (by simp only [Marker.asked, hf]) hasked
    | none =>
      have hpaths : b.bind p m.paths = .error e := by simpa only [Marker.asked, hf] using h
      simp only [apply, hf, hpaths, Except.map]
  | call helper args escape =>
    have hpaths : b.bind p m.paths = .error e := by simpa only [Marker.asked, hf] using h
    simp only [apply, hf, hpaths, Except.map]

theorem exists_bind_of_apply (hl : b.binder.levels ≠ []) {m : Marker} (h : b.apply p m = .ok c) :
    ∃ r, b.bind p m.asked = .ok r := by
  cases hbind : b.bind p m.asked with
  | error e =>
    rw [apply_of_bind_error hl hbind] at h
    cases h
  | ok r => exact ⟨r, rfl⟩

/-- A marker whose paths can be bound does to the open blocks what its mark does to the stack. -/
theorem opened_apply {m : Marker} (hb : b.bind p m.asked = .ok (c, refs)) :
    (b.apply p m).map opened = Marker.orStop (Opened.next b.opened ⟨p, m.mark⟩) := by
  cases hf : m.fragment with
  | opening helper run closed =>
    have hopen : ∃ d, b.openBlock p helper run m.scope m.paths = .ok d := by
      rw [Marker.asked_of_opening hf] at hb
      simp only [openBlock, hb]
      exact ⟨_, rfl⟩
    obtain ⟨d, hd⟩ := hopen
    have hopened := opened_openBlock hd
    cases closed with
    | true =>
      simp only [apply, Marker.mark, hf, hd, if_true, map_orStop]
      rw [opened_close d helper p, hopened]
      simp only [Opened.next, if_true]
    | false =>
      simp only [apply, Marker.mark, hf, hd, Bool.false_eq_true, if_false, Opened.next, Except.map,
        hopened]
      rfl
  | closing helper =>
    simp only [apply, Marker.mark, hf, map_orStop]
    rw [opened_close b helper p]
  | branch helper =>
    simp only [apply, Marker.mark, hf, map_orStop]
    rw [opened_branch b helper p]
  | output escape constant =>
    cases constant with
    | some v =>
      simp only [apply, Marker.mark, hf, Except.map, opened_emit, Opened.next]
      rfl
    | none =>
      have hpaths : b.bind p m.paths = .ok (c, refs) := by simpa only [Marker.asked, hf] using hb
      simp only [apply, Marker.mark, hf, hpaths, Except.map, opened_emit, Opened.next,
        opened_bind hpaths]
      rfl
  | call helper args escape =>
    have hpaths : b.bind p m.paths = .ok (c, refs) := by simpa only [Marker.asked, hf] using hb
    simp only [apply, Marker.mark, hf, hpaths, Except.map, opened_emit, Opened.next,
      opened_bind hpaths]
    rfl

end Builder

/-! ### The signs of a source -/

/-- A piece that is a marker, and a sign at its place. -/
inductive Piece.At (source : List Char) : Piece → Sign → Prop
  | marker {offset : Nat} {body trailing : List Char} {mark : Mark} :
      At source (.marker offset body trailing) ⟨.ofOffset source offset, mark⟩

def Piece.IsClosed : Piece → Prop
  | .marker _ _ _ => True
  | .unclosed _ => False

namespace Workshop

/-- The signs of pieces that are all markers, as they are read and bound where the compilation gets
to. Behind the first one that does not fit the open blocks any signs will do. -/
inductive Signs (w : Workshop) (name : Option String) (source : List Char) :
    Builder → List Piece → List Sign → Prop
  | nil {b : Builder} : Signs w name source b [] []
  | next {b c d : Builder} {offset : Nat} {body trailing : List Char} {m : Marker}
      {refs : List Ref} {ps : List Piece} {ss : List Sign}
      (read : Marker.read w.registry w.config body b.binder.scope.text = .ok m)
      (bound : b.bind (.ofOffset source offset) m.asked = .ok (d, refs))
      (step : w.step name source b (.marker offset body trailing) = .ok c)
      (rest : Signs w name source c ps ss) :
      Signs w name source b (.marker offset body trailing :: ps)
        (⟨.ofOffset source offset, m.mark⟩ :: ss)
  | stop {b d : Builder} {offset : Nat} {body trailing : List Char} {m : Marker}
      {refs : List Ref} {e : CompileError} {ps : List Piece} {ss : List Sign}
      (read : Marker.read w.registry w.config body b.binder.scope.text = .ok m)
      (bound : b.bind (.ofOffset source offset) m.asked = .ok (d, refs))
      (step : w.step name source b (.marker offset body trailing) = .error e)
      (rest : List.Forall₂ (Piece.At source) ps ss) :
      Signs w name source b (.marker offset body trailing :: ps)
        (⟨.ofOffset source offset, m.mark⟩ :: ss)

/-- The compilation of pieces gets to a marker that cannot be read, or whose paths cannot be
bound. -/
inductive Refuses (w : Workshop) (name : Option String) (source : List Char) :
    Builder → List Piece → Prop
  | read {b : Builder} {offset : Nat} {body trailing : List Char} {e : CompileError}
      {ps : List Piece} (h : Marker.read w.registry w.config body b.binder.scope.text = .error e) :
      Refuses w name source b (.marker offset body trailing :: ps)
  | bind {b : Builder} {offset : Nat} {body trailing : List Char} {m : Marker}
      {e : CompileError} {ps : List Piece}
      (read : Marker.read w.registry w.config body b.binder.scope.text = .ok m)
      (h : b.bind (.ofOffset source offset) m.asked = .error e) :
      Refuses w name source b (.marker offset body trailing :: ps)
  | later {b c : Builder} {q : Piece} {ps : List Piece} (step : w.step name source b q = .ok c)
      (rest : Refuses w name source c ps) : Refuses w name source b (q :: ps)

variable {w : Workshop} {name : Option String} {source : List Char} {b c : Builder}
  {ps : List Piece} {ss : List Sign}

theorem exists_at (h : ∀ q ∈ ps, q.IsClosed) :
    ∃ ss : List Sign, List.Forall₂ (Piece.At source) ps ss := by
  induction ps with
  | nil => exact ⟨[], .nil⟩
  | cons q ps ih =>
    obtain ⟨ss, hss⟩ := ih fun r hr => h r (List.mem_cons_of_mem _ hr)
    cases q with
    | unclosed offset => exact (h _ List.mem_cons_self).elim
    | marker offset body trailing =>
      exact ⟨⟨.ofOffset source offset, .plain⟩ :: ss, .cons .marker hss⟩

/-- Markers that are all closed have signs unless one of them is refused. -/
theorem exists_signs (h : ∀ q ∈ ps, q.IsClosed) (hr : ¬ w.Refuses name source b ps) :
    ∃ ss, w.Signs name source b ps ss := by
  induction ps generalizing b with
  | nil => exact ⟨[], .nil⟩
  | cons q ps ih =>
    have hps : ∀ r ∈ ps, r.IsClosed := fun r hr => h r (List.mem_cons_of_mem _ hr)
    cases q with
    | unclosed offset => exact (h _ List.mem_cons_self).elim
    | marker offset body trailing =>
      cases hread : Marker.read w.registry w.config body b.binder.scope.text with
      | error e => exact absurd (.read hread) hr
      | ok m =>
        cases hbind : b.bind (.ofOffset source offset) m.asked with
        | error e => exact absurd (.bind hread hbind) hr
        | ok r =>
          cases hstep : w.step name source b (.marker offset body trailing) with
          | error e =>
            obtain ⟨ss, hss⟩ : ∃ ss : List Sign, List.Forall₂ (Piece.At source) ps ss :=
              exists_at hps
            exact ⟨_, .stop hread hbind hstep hss⟩
          | ok c =>
            obtain ⟨ss, hss⟩ := ih hps fun hrest => hr (.later hstep hrest)
            exact ⟨_, .next hread hbind hstep hss⟩

/-- What compiles without an error has closed markers only, and none of them is refused. -/
theorem of_steps (hb : b.Levelled) (h : w.steps name source b ps = .ok c) :
    (∀ q ∈ ps, q.IsClosed) ∧ ¬ w.Refuses name source b ps := by
  induction ps generalizing b with
  | nil => exact ⟨nofun, nofun⟩
  | cons q ps ih =>
    cases q with
    | unclosed offset => cases h
    | marker offset body trailing =>
      rw [steps] at h
      split at h
      · cases h
      · rename_i d hd
        obtain ⟨hclosed, hrest⟩ := ih (levelled_step hb hd) h
        constructor
        · intro r hr
          rcases List.mem_cons.1 hr with rfl | hr
          · trivial
          · exact hclosed r hr
        · intro hrefuses
          cases hrefuses with
          | read hread =>
            simp only [step, applyMarker, hread] at hd
            cases hd
          | bind hread hbind =>
            have happly := Builder.apply_of_bind_error hb.levels_ne_nil hbind
            simp only [step, applyMarker, hread, happly] at hd
            cases hd
          | later hstep hlater =>
            cases hd.symm.trans hstep
            exact hrest hlater

/-! ### The compilation follows the stack -/

/-- How a fault at a position is reported. -/
def reported (name : Option String) (source : List Char) (f : Fault) (p : Position) :
    CompileError :=
  f.stop.locate p.line (some p.column) name (some (String.ofList source))

theorem opened_step (name : Option String) {offset : Nat} {body : List Char} {m : Marker}
    {d : Builder} {refs : List Ref}
    (read : Marker.read w.registry w.config body b.binder.scope.text = .ok m)
    (bound : b.bind (.ofOffset source offset) m.asked = .ok (d, refs)) (trailing : List Char) :
    (w.step name source b (.marker offset body trailing)).map Builder.opened =
      (Opened.next b.opened ⟨.ofOffset source offset, m.mark⟩).mapError
        fun f => reported name source f (.ofOffset source offset) := by
  have happly := Builder.opened_apply bound
  simp only [step, applyMarker, read]
  cases ha : b.apply (.ofOffset source offset) m with
  | error e =>
    rw [ha] at happly
    cases hn : Opened.next b.opened ⟨.ofOffset source offset, m.mark⟩ with
    | error f =>
      rw [hn] at happly
      cases happly
      rfl
    | ok stack =>
      rw [hn] at happly
      cases happly
  | ok c =>
    rw [ha] at happly
    cases hn : Opened.next b.opened ⟨.ofOffset source offset, m.mark⟩ with
    | error f =>
      rw [hn] at happly
      cases happly
    | ok stack =>
      rw [hn] at happly
      cases happly
      simp only [Except.map, Builder.opened_emitText]
      rfl

theorem opened_started (w : Workshop) (source : String) : (w.started source).opened = [] :=
  Builder.opened_emitText _ _ _ _

/-- A compilation gets as far as the stack does. -/
theorem opened_steps (h : w.Signs name source b ps ss) :
    (w.steps name source b ps).map Builder.opened =
      (Opened.run b.opened ss).mapError fun e => reported name source e.1 e.2 := by
  induction h with
  | nil => rfl
  | @next b c d offset body trailing m refs ps ss read bound step _ ih =>
    have hstep := opened_step name read bound trailing
    rw [step] at hstep
    rw [steps, Opened.run, step]
    cases hn : Opened.next b.opened ⟨.ofOffset source offset, m.mark⟩ with
    | error f =>
      rw [hn] at hstep
      cases hstep
    | ok stack =>
      rw [hn] at hstep
      cases hstep
      exact ih
  | @stop b d offset body trailing m refs e ps ss read bound step _ =>
    have hstep := opened_step name read bound trailing
    rw [step] at hstep
    rw [steps, Opened.run, step]
    cases hn : Opened.next b.opened ⟨.ofOffset source offset, m.mark⟩ with
    | error f =>
      rw [hn] at hstep
      cases hstep
      rfl
    | ok stack =>
      rw [hn] at hstep
      cases hstep

/-- Where the stack is empty at the end the compilation gives a template, and where it is not the
innermost block is reported. -/
theorem compile_of_run {source : String}
    (h : w.Signs name (Text.strip source.toList) (w.started source) (w.scan source).2 ss) :
    match Opened.run [] ss with
    | .ok [] => ∃ t, w.compile source name = .ok t
    | .ok (o :: _) => w.compile source name =
        .error (reported name (Text.strip source.toList) (.unclosedBlock o.helper) o.position)
    | .error (f, p) => w.compile source name =
        .error (reported name (Text.strip source.toList) f p) := by
  have hsteps := opened_steps h
  rw [opened_started] at hsteps
  cases hs : w.steps name (Text.strip source.toList) (w.started source) (w.scan source).2 with
  | error e =>
    rw [hs] at hsteps
    cases hr : Opened.run [] ss with
    | error e' =>
      rw [hr] at hsteps
      cases hsteps
      exact compile_of_steps_error hs
    | ok stack =>
      rw [hr] at hsteps
      cases hsteps
  | ok b =>
    rw [hs] at hsteps
    cases hr : Opened.run [] ss with
    | error e' =>
      rw [hr] at hsteps
      cases hsteps
    | ok stack =>
      rw [hr] at hsteps
      cases hsteps
      have hcompile := compile_of_steps_ok hs
      unfold finish at hcompile
      unfold Builder.opened
      cases hp : b.pending with
      | nil =>
        rw [hp] at hcompile
        exact ⟨_, hcompile⟩
      | cons o os =>
        rw [hp] at hcompile
        exact hcompile

end Workshop

/-! ### Levels -/

namespace Builder

theorem length_pending_ledger (top : List Node) (os : List OpenBlock) :
    (ledgerOf top os).pending.length = os.length := by
  induction os with
  | nil => rfl
  | cons o os ih =>
    simp only [ledgerOf, Procedure.Ledger.attach, List.length_cons]
    split
    · rename_i hnil
      rw [← ih, hnil]
    · rename_i d ds hcons
      rw [← ih, hcons]
      rfl

theorem Levelled.assembly {b : Builder} (h : b.Levelled) :
    b.assembly.scopes.length = b.assembly.ledger.pending.length + 1 ∧
      b.assembly.bounds.length = b.assembly.ledger.pending.length + 1 ∧
      b.assembly.scopes.getLast? = some Ref.context := by
  have hpending : b.assembly.ledger.pending.length = b.pending.length :=
    length_pending_ledger b.top b.pending
  have hlevels := h.length
  refine ⟨?_, ?_, h.root⟩
  · rw [hpending, ← hlevels]
    exact Binder.length_scopes b.binder
  · rw [hpending, ← hlevels]
    exact List.length_map _

end Builder

/-! ### Compilation -/

/-- A source whose markers are all closed, and of which none fails to be read or bound, compiles
exactly if the markers are balanced; where they are not, the compilation reports the place where
they break. Behind every marker that it gets past there is one scope and one level of bindings more
than there are open blocks, and the outermost scope is the render context. -/
theorem compile_iff_balanced {w : Workshop} {source : String} {name : Option String}
    (hclosed : ∀ q ∈ (w.scan source).2, q.IsClosed)
    (hgood : ¬ w.Refuses name (Text.strip source.toList) (w.started source) (w.scan source).2) :
    (∃ ss, w.Signs name (Text.strip source.toList) (w.started source) (w.scan source).2 ss) ∧
    (∀ ss, w.Signs name (Text.strip source.toList) (w.started source) (w.scan source).2 ss →
      ((∃ t, w.compile source name = .ok t) ↔ Balanced (ss.map Sign.mark)) ∧
      (¬ Balanced (ss.map Sign.mark) → ∃ f m p, Breaks ss f m p ∧
        w.compile source name = .error (.mistake
          { mistake := m, message := f.message, line := some p.line, column := some p.column
            name, source := some (String.ofList (Text.strip source.toList)) }))) ∧
    ∀ ps qs a, (w.scan source).2 = ps ++ qs →
      w.assemblePieces name (Text.strip source.toList)
        (({} : Assembly).addText (Text.strip source.toList) 0 (w.scan source).1) ps = .ok a →
      a.scopes.length = a.ledger.pending.length + 1 ∧
        a.bounds.length = a.ledger.pending.length + 1 ∧
        a.scopes.getLast? = some Ref.context := by
  refine ⟨Workshop.exists_signs hclosed hgood, fun ss hss => ?_, fun ps qs a _ ha => ?_⟩
  · have hcompile := Workshop.compile_of_run hss
    rw [Opened.balanced_iff_run]
    cases hr : Opened.run [] ss with
    | error e =>
      rw [hr] at hcompile
      obtain ⟨f, p⟩ := e
      have hbreaks := Opened.breaks_of_run_error hr
      simp only [hcompile]
      exact ⟨by simp, fun _ => ⟨f, f.mistake, p, hbreaks, rfl⟩⟩
    | ok stack =>
      rw [hr] at hcompile
      cases stack with
      | nil => exact ⟨by simp only [hcompile], fun hne => absurd rfl hne⟩
      | cons o os =>
        have hbreaks := Opened.breaks_of_run_ok hr
        simp only at hcompile
        simp only [hcompile]
        exact ⟨by simp, fun _ => ⟨_, _, _, hbreaks, rfl⟩⟩
  · have hstart : (w.started source).Levelled := Builder.Levelled.initial.emitText _ _ _
    rw [Workshop.assembly_start] at ha
    obtain ⟨c, hc, rfl⟩ := exists_of_map_eq_ok
      ((Workshop.assemblePieces_eq hstart ps).symm.trans ha)
    exact (levelled_steps hstart hc).assembly

theorem compile_iff_balanced_of_loop :
    ∃ t ss, (⟨.builtin, {}⟩ : Workshop).compile loopSource none = .ok t ∧
      (∀ q ∈ ((⟨.builtin, {}⟩ : Workshop).scan loopSource).2, q.IsClosed) ∧
      ¬ (⟨.builtin, {}⟩ : Workshop).Refuses none (Text.strip loopSource.toList)
        ((⟨.builtin, {}⟩ : Workshop).started loopSource)
        ((⟨.builtin, {}⟩ : Workshop).scan loopSource).2 ∧
      (⟨.builtin, {}⟩ : Workshop).Signs none (Text.strip loopSource.toList)
        ((⟨.builtin, {}⟩ : Workshop).started loopSource)
        ((⟨.builtin, {}⟩ : Workshop).scan loopSource).2 ss ∧ Balanced (ss.map Sign.mark) := by
  have hok : ((⟨.builtin, {}⟩ : Workshop).compile loopSource none).toOption.any
      (fun t => t.nodes.length == 2) = true := by
    decide +kernel
  obtain ⟨t, ht, _⟩ := exists_ok_of_any hok
  obtain ⟨b, hb, _⟩ := steps_of_compile ht rfl
  obtain ⟨hclosed, hgood⟩ := Workshop.of_steps (Builder.Levelled.initial.emitText _ _ _) hb
  obtain ⟨⟨ss, hss⟩, hbalanced, _⟩ := compile_iff_balanced hclosed hgood
  exact ⟨t, ss, ht, hclosed, hgood, hss, (hbalanced ss hss).1.1 ⟨t, ht⟩⟩

end Stencil
