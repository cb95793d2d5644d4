import Stencil.Proofs.Balance
import Stencil.Proofs.Causes
import Stencil.Proofs.Concat
import Stencil.Proofs.Origins
import Stencil.Proofs.Unplaced

/-!
# Which marker a mistake is reported at

A compilation that fails blames one marker: the one that has no end tag, the one that is refused, or
the one that opens the innermost block that is left open. Main statements: a start tag is where the
blamed marker is said to be (`Workshop.tag_of_mem_scan`), and with the built-in block helpers every
mistake is reported with the place of the marker that is to blame (`Workshop.exists_blames`).
-/

namespace Stencil

/-! ### Start tags -/

def Piece.offset : Piece → Nat
  | .marker offset _ _ => offset
  | .unclosed offset => offset

namespace Workshop

variable {w : Workshop}

theorem tag_of_mem_pieces {pre : List Char} {ts : List (List Char)} {q : Piece}
    (h : q ∈ w.pieces pre.length ts) :
    w.config.startTag.toList <+:
      (pre ++ ts.flatMap (w.config.startTag.toList ++ ·)).drop q.offset := by
  induction ts generalizing pre with
  | nil => cases h
  | cons t ts ih =>
    have hhere : w.config.startTag.toList <+:
        (pre ++ (t :: ts).flatMap (w.config.startTag.toList ++ ·)).drop pre.length := by
      rw [List.drop_left, List.flatMap_cons, List.append_assoc]
      exact List.prefix_append _ _
    cases hcut : Text.cut? w.config.endTag.toList t with
    | none =>
      simp only [pieces, Piece.ofTexts, hcut, List.mem_singleton] at h
      rw [h]
      exact hhere
    | some p =>
      obtain ⟨body, trailing⟩ := p
      rw [pieces_cons hcut] at h
      rcases List.mem_cons.1 h with rfl | h
      · exact hhere
      · have hnext : w.next pre.length body trailing =
            (pre ++ (w.config.startTag.toList ++ t)).length := by
          rw [next_eq hcut]
          simp only [List.length_append]
          omega
        rw [hnext] at h
        have hlater := ih h
        rwa [List.append_assoc, ← List.flatMap_cons (f := (w.config.startTag.toList ++ ·))]
          at hlater

theorem tag_of_mem_scan {source : String} {q : Piece} (hne : w.config.startTag.toList ≠ [])
    (h : q ∈ (w.scan source).2) :
    w.config.startTag.toList <+: (Text.strip source.toList).drop q.offset := by
  obtain ⟨first, ts, hts⟩ := List.exists_cons_of_ne_nil
    (Text.splitOn_ne_nil w.config.startTag.toList (Text.strip source.toList))
  have hscan : w.scan source = (first, w.pieces first.length ts) := scan_eq hts
  rw [hscan] at h
  rw [(Text.eq_of_splitOn hne hts).1]
  exact tag_of_mem_pieces h

end Workshop

/-! ### The openings of blocks -/

/-- A block that is open behind a sign was open in front of it, or the sign opens it. -/
theorem Opened.of_mem_next {stack stack' : List Opened} {s : Sign} {o : Opened}
    (h : next stack s = .ok stack') (ho : o ∈ stack') :
    (∃ o' ∈ stack, o'.position = o.position ∧ o'.helper = o.helper) ∨
      s = ⟨o.position, .opening o.helper⟩ := by
  obtain ⟨p, mark⟩ := s
  cases mark with
  | plain =>
    cases h
    exact .inl ⟨o, ho, rfl, rfl⟩
  | selfClosing k =>
    cases h
    exact .inl ⟨o, ho, rfl, rfl⟩
  | opening k =>
    cases h
    rcases List.mem_cons.1 ho with rfl | ho
    · exact .inr rfl
    · exact .inl ⟨o, ho, rfl, rfl⟩
  | closing k =>
    cases stack with
    | nil => cases h
    | cons q qs =>
      simp only [next] at h
      split at h
      · cases h
        exact .inl ⟨o, List.mem_cons_of_mem _ ho, rfl, rfl⟩
      · cases h
  | branch k =>
    cases stack with
    | nil => cases h
    | cons q qs =>
      simp only [next] at h
      split at h
      · cases h
      · cases h
        rcases List.mem_cons.1 ho with rfl | ho
        · exact .inl ⟨q, List.mem_cons_self, rfl, rfl⟩
        · exact .inl ⟨o, List.mem_cons_of_mem _ ho, rfl, rfl⟩

namespace Workshop

variable {w : Workshop} {name : Option String} {b c : Builder}

/-- A marker that is taken does to the open blocks what its mark does to the stack. -/
theorem next_of_step {source : List Char} (hb : b.Levelled) {offset : Nat}
    {body trailing : List Char}
    (h : w.step name source b (.marker offset body trailing) = .ok c) :
    ∃ m, Marker.read w.registry w.config body b.binder.scope.text = .ok m ∧
      Opened.next b.opened ⟨.ofOffset source offset, m.mark⟩ = .ok c.opened := by
  obtain ⟨m, d, hread, happly, -⟩ := exists_of_marker_step h
  obtain ⟨r, hbind⟩ := Builder.exists_bind_of_apply hb.levels_ne_nil happly
  have hstep := opened_step name hread hbind trailing
  rw [h] at hstep
  refine ⟨m, hread, ?_⟩
  cases hnext : Opened.next b.opened ⟨.ofOffset source offset, m.mark⟩ with
  | error f =>
    rw [hnext] at hstep
    cases hstep
  | ok stack =>
    rw [hnext] at hstep
    exact (congrArg Except.ok (Except.ok.inj hstep)).symm

/-- A block that is left open behind markers was open in front of them, or one of them opens it. -/
theorem exists_opening {source : List Char} {ps : List Piece} (hb : b.Levelled)
    (h : w.steps name source b ps = .ok c) {o : Stencil.Opened} (ho : o ∈ c.opened) :
    (∃ o' ∈ b.opened, o'.position = o.position ∧ o'.helper = o.helper) ∨
      ∃ before offset body trailing after d m,
        ps = before ++ .marker offset body trailing :: after ∧
          w.steps name source b before = .ok d ∧
          Marker.read w.registry w.config body d.binder.scope.text = .ok m ∧
          m.mark = .opening o.helper ∧ o.position = .ofOffset source offset := by
  induction ps generalizing b with
  | nil =>
    cases h
    exact .inl ⟨o, ho, rfl, rfl⟩
  | cons q ps ih =>
    rw [steps] at h
    split at h
    · cases h
    · rename_i d hd
      -- either a later marker opens the block, or it is open behind `q`: its branch may have been
      -- started since, but its place and its name are the same
      rcases ih (levelled_step hb hd) h with ⟨o', ho', hposition, hhelper⟩ | hlater
      · cases q with
        | unclosed offset => cases hd
        | marker offset body trailing =>
          obtain ⟨m, hread, hnext⟩ := next_of_step hb hd
          rcases Opened.of_mem_next hnext ho' with ⟨q, hq, hqp, hqh⟩ | hopens
          · exact .inl ⟨q, hq, hqp.trans hposition, hqh.trans hhelper⟩
          · obtain ⟨hp, hm⟩ := Sign.mk.inj hopens
            refine .inr ⟨[], offset, body, trailing, ps, b, m, rfl, rfl, hread, ?_, ?_⟩
            · rw [hm, hhelper]
            · rw [hp, hposition]
      · obtain ⟨before, offset, body, trailing, after, e, m, rfl, hbefore, hrest⟩ := hlater
        refine .inr ⟨q :: before, offset, body, trailing, after, e, m, rfl, ?_, hrest⟩
        rw [steps, hd]
        exact hbefore

/-! ### The marker that is to blame -/

/-- The marker at an offset is to blame for a fault: it has no end tag, it is refused where the
compilation gets to it, or it opens the innermost of the blocks that are left open at the end. -/
inductive Blames (w : Workshop) (source : String) (name : Option String) : Nat → Fault → Prop
  | unclosed {before after : List Piece} {offset : Nat} {b : Builder}
      (reached : w.Reaches source name before (.unclosed offset) after b) :
      Blames w source name offset (.unclosedMarker w.config.startTag w.config.endTag)
  | refused {before after : List Piece} {offset : Nat} {body trailing : List Char} {b : Builder}
      {f : Fault} (reached : w.Reaches source name before (.marker offset body trailing) after b)
      (refused : w.applyMarker b (.ofOffset (Text.strip source.toList) offset) body =
        .error f.stop) :
      Blames w source name offset f
  | leftOpen {before after : List Piece} {offset : Nat} {body trailing : List Char} {b c : Builder}
      {m : Marker} {o : Stencil.Opened} {os : List Stencil.Opened}
      (reached : w.Reaches source name before (.marker offset body trailing) after b)
      (read : Marker.read w.registry w.config body b.binder.scope.text = .ok m)
      (opens : m.mark = .opening o.helper)
      (taken : w.steps name (Text.strip source.toList) (w.started source) (w.scan source).2 = .ok c)
      (left : c.opened = o :: os)
      (position : o.position = .ofOffset (Text.strip source.toList) offset) :
      Blames w source name offset (.unclosedBlock o.helper)

theorem Blames.tag {source : String} {offset : Nat} {f : Fault}
    (hne : w.config.startTag.toList ≠ []) (h : w.Blames source name offset f) :
    w.config.startTag.toList <+: (Text.strip source.toList).drop offset := by
  have htag : ∀ {before after : List Piece} {q : Piece} {b : Builder},
      w.Reaches source name before q after b →
        w.config.startTag.toList <+: (Text.strip source.toList).drop q.offset := by
    intro before after q b hreach
    apply tag_of_mem_scan hne
    rw [hreach.pieces]
    exact List.mem_append_right _ List.mem_cons_self
  cases h with
  | unclosed reached => exact htag reached
  | refused reached _ => exact htag reached
  | leftOpen reached _ _ _ _ _ => exact htag reached

/-- With the built-in block helpers a mistake is a fault of the marker that is to blame, and it is
reported there. -/
theorem exists_blames (hw : w.UsesBuiltins) {source : String} {e : TemplateError}
    (h : w.compile source name = .error (.mistake e)) :
    ∃ offset f, w.Blames source name offset f ∧
      .mistake e = reported name (Text.strip source.toList) f
        (.ofOffset (Text.strip source.toList) offset) := by
  rcases cases_of_compile_error h with ⟨before, q, after, b, hreach, hstep⟩ | ⟨b, hsteps, hfinish⟩
  · cases q with
    | unclosed offset =>
      cases hstep
      exact ⟨offset, _, .unclosed hreach, rfl⟩
    | marker offset body trailing =>
      have hplace := w.unplaced_applyMarker hw b (.ofOffset (Text.strip source.toList) offset) body
      simp only [step] at hstep
      split at hstep
      · rename_i e' he
        rw [he] at hplace
        cases e' with
        | failure f => cases hstep
        | mistake e' =>
          obtain ⟨f, rfl⟩ := hplace
          exact ⟨offset, f, .refused hreach he, (Except.error.inj hstep).symm⟩
      · cases hstep
  · unfold finish at hfinish
    split at hfinish
    · cases hfinish
    · rename_i o os hpending
      have hopened : b.opened = o.opened :: os.map OpenBlock.opened := by
        rw [Builder.opened, hpending, List.map_cons]
      have hstart : (w.started source).Levelled := Builder.Levelled.initial.emitText _ _ _
      rcases exists_opening hstart hsteps (hopened ▸ List.mem_cons_self) with ⟨q, hq, -⟩ | hopening
      · rw [opened_started] at hq
        cases hq
      · obtain ⟨before, offset, body, trailing, after, c, m, hpieces, hbefore, hread, hmark,
          hposition⟩ := hopening
        refine ⟨offset, _, .leftOpen ⟨hpieces, hbefore⟩ hread hmark hsteps hopened hposition, ?_⟩
        rw [← hposition]
        exact (Except.error.inj hfinish).symm

end Workshop

end Stencil
