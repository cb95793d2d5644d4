import Stencil.Proofs.Insertion
import Stencil.Procedure.Flat

/-!
# Compilations on the same lines

Two compilations that meet the same markers on the same lines, if at other columns: they end with
results that are the same but for columns, or they stop with the same error but for its column and
the source that it shows (`Workshop.steps_aligned`, `Workshop.compile_aligned`).
-/

namespace Stencil

/-- The error without its column and the source it was found in. -/
def TemplateError.flush (e : TemplateError) : TemplateError :=
  { e with column := none, source := none }

def CompileError.flush : CompileError → CompileError
  | .mistake e => .mistake e.flush
  | .failure f => .failure f

/-- Two results that are related, or two errors that are the same but for column and source. -/
inductive Aligned {α β : Type} (R : α → β → Prop) :
    Except CompileError α → Except CompileError β → Prop
  | ok {a : α} {b : β} (h : R a b) : Aligned R (.ok a) (.ok b)
  | error {e f : CompileError} (same : e.flush = f.flush) : Aligned R (.error e) (.error f)

/-- States of a compilation that are the same but for columns. -/
def Builder.InLine (b b' : Builder) : Prop := b.flush = b'.flush

/-- The same piece on the same line of two sources. -/
inductive Piece.InLine (w : Workshop) (source source' : List Char) : Piece → Piece → Prop
  | unclosed {offset offset' : Nat}
      (line : (Position.ofOffset source offset).lineStart =
        (Position.ofOffset source' offset').lineStart) :
      InLine w source source' (.unclosed offset) (.unclosed offset')
  | marker {offset offset' : Nat} {body trailing : List Char}
      (line : (Position.ofOffset source offset).lineStart =
        (Position.ofOffset source' offset').lineStart)
      (behind : (Position.ofOffset source (w.behind offset body)).lineStart =
        (Position.ofOffset source' (w.behind offset' body)).lineStart) :
      InLine w source source' (.marker offset body trailing) (.marker offset' body trailing)

/-! ### Errors and results -/

theorem TemplateError.flush_locate {e f : TemplateError} (h : e.flush = f.flush) (line : Int)
    (c c' : Option Int) (name s s' : Option String) :
    (e.locate line c name s).flush = (f.locate line c' name s').flush := by
  simp only [flush, mk.injEq, and_true] at h
  obtain ⟨hmistake, hmessage, hline, hname⟩ := h
  simp only [flush, locate, hmistake, hmessage, hline, hname]

theorem CompileError.flush_locate {e f : CompileError} (h : e.flush = f.flush) (line : Int)
    (c c' : Option Int) (name s s' : Option String) :
    (e.locate line c name s).flush = (f.locate line c' name s').flush := by
  match e, f with
  | .mistake e, .mistake f =>
    exact congrArg mistake (TemplateError.flush_locate (mistake.inj h) line c c' name s s')
  | .failure e, .failure f => exact h

namespace Aligned

variable {α β γ δ : Type} {R : α → β → Prop} {S : γ → δ → Prop} {x : Except CompileError α}
  {y : Except CompileError β}

theorem bind (h : Aligned R x y) {f : α → Except CompileError γ} {g : β → Except CompileError δ}
    (hS : ∀ a b, R a b → Aligned S (f a) (g b)) : Aligned S (x.bind f) (y.bind g) := by
  cases h with
  | ok h => exact hS _ _ h
  | error same => exact .error same

theorem map (h : Aligned R x y) {f : α → γ} {g : β → δ} (hS : ∀ a b, R a b → S (f a) (g b)) :
    Aligned S (x.map f) (y.map g) := by
  cases h with
  | ok h => exact .ok (hS _ _ h)
  | error same => exact .error same

theorem of_map_eq {f : α → γ} {g : β → γ} (h : x.map f = y.map g) :
    Aligned (fun a b => f a = g b) x y := by
  match x, y with
  | .ok a, .ok b => exact .ok (Except.ok.inj h)
  | .error e, .error f => exact .error (congrArg CompileError.flush (Except.error.inj h))
  | .ok a, .error f => cases h
  | .error e, .ok b => cases h

end Aligned

namespace Workshop

variable {w : Workshop} {name : Option String} {source source' : List Char} {b b' : Builder}

/-! ### Pieces -/

theorem steps_cons_eq (w : Workshop) (name : Option String) (source : List Char) (b : Builder)
    (p : Piece) (ps : List Piece) :
    w.steps name source b (p :: ps) =
      (w.step name source b p).bind fun c => w.steps name source c ps := by
  rw [steps]
  cases w.step name source b p <;> rfl

/-- What is reported on the same line of two sources. -/
theorem aligned_locate {α β : Type} {R : α → β → Prop} {e f : CompileError}
    (h : e.flush = f.flush) {p p' : Position} (line : p.lineStart = p'.lineStart)
    (name s s' : Option String) :
    Aligned R (.error (e.locate p.line (some p.column) name s))
      (.error (f.locate p'.line (some p'.column) name s')) := by
  have hline : p.line = p'.line := (Position.mk.inj line).1
  rw [hline]
  exact .error (CompileError.flush_locate h _ _ _ _ _ _)

/-- A marker does the same to states that are the same but for columns. -/
theorem apply_inLine (h : b.InLine b') {p p' : Position} (line : p.lineStart = p'.lineStart)
    (m : Marker) : Aligned Builder.InLine (b.apply p m) (b'.apply p' m) := by
  refine Aligned.of_map_eq (f := Builder.flush) (g := Builder.flush) ?_
  rw [← Builder.flush_apply, ← Builder.flush_apply, line, h]

theorem step_of_aligned {offset offset' : Nat} {body body' trailing trailing' : List Char}
    (line : (Position.ofOffset source offset).lineStart =
      (Position.ofOffset source' offset').lineStart)
    {R S : Builder → Builder → Prop}
    (h : Aligned R (w.applyMarker b (.ofOffset source offset) body)
      (w.applyMarker b' (.ofOffset source' offset') body'))
    (hS : ∀ c c', R c c' → S (c.emitText source (w.behind offset body) trailing)
      (c'.emitText source' (w.behind offset' body') trailing')) :
    Aligned S (w.step name source b (.marker offset body trailing))
      (w.step name source' b' (.marker offset' body' trailing')) := by
  generalize hx : w.applyMarker b (.ofOffset source offset) body = x at h
  generalize hy : w.applyMarker b' (.ofOffset source' offset') body' = y at h
  simp only [step, hx, hy]
  cases h with
  | ok h => exact .ok (hS _ _ h)
  | error same => exact aligned_locate same line _ _ _

theorem step_inLine (name : Option String) (h : b.InLine b') {q q' : Piece}
    (hq : Piece.InLine w source source' q q') :
    Aligned Builder.InLine (w.step name source b q) (w.step name source' b' q') := by
  cases hq with
  | unclosed line => exact aligned_locate rfl line _ _ _
  | @marker offset offset' body trailing line behind =>
    have hbinder : b'.binder = b.binder := (congrArg Builder.binder h).symm
    have hmarker : Aligned Builder.InLine (w.applyMarker b (.ofOffset source offset) body)
        (w.applyMarker b' (.ofOffset source' offset') body) := by
      unfold applyMarker
      rw [hbinder]
      cases Marker.read w.registry w.config body b.binder.scope.text with
      | error e => exact .error rfl
      | ok m => exact apply_inLine h line m
    exact step_of_aligned line hmarker fun c c' hc => Builder.flush_emitText hc behind trailing

/-- Texts that two sources have on the same lines, with other texts behind them. -/
theorem steps_aligned (name : Option String) {R : Builder → Builder → Prop}
    {ts vs vs' : List (List Char)} {start start' : Nat}
    (hlines : ∀ k ≤ Text.width w.config.startTag.toList ts,
      (Position.ofOffset source (start + k)).lineStart =
        (Position.ofOffset source' (start' + k)).lineStart)
    (hrest : ∀ c c' : Builder, c.InLine c' →
      Aligned R
        (w.steps name source c (w.pieces (start + Text.width w.config.startTag.toList ts) vs))
        (w.steps name source' c' (w.pieces (start' + Text.width w.config.startTag.toList ts) vs')))
    (h : b.InLine b') :
    Aligned R (w.steps name source b (w.pieces start (ts ++ vs)))
      (w.steps name source' b' (w.pieces start' (ts ++ vs'))) := by
  induction ts generalizing start start' b b' with
  | nil => exact hrest b b' h
  | cons t ts ih =>
    rw [Text.width] at hlines hrest
    have hline := hlines 0 (Nat.zero_le _)
    rw [List.cons_append, List.cons_append]
    cases hcut : Text.cut? w.config.endTag.toList t with
    | none =>
      rw [pieces_none hcut, pieces_none hcut]
      exact aligned_locate rfl hline _ _ _
    | some q =>
      obtain ⟨body, trailing⟩ := q
      have hle := behind_le hcut
      rw [pieces_cons hcut, pieces_cons hcut, steps_cons_eq, steps_cons_eq, next_eq hcut,
        next_eq hcut]
      have hbehind : (Position.ofOffset source (w.behind start body)).lineStart =
          (Position.ofOffset source' (w.behind start' body)).lineStart := by
        rw [behind_eq, behind_eq]
        exact hlines _ (by omega)
      refine (step_inLine name h (.marker hline hbehind)).bind fun c c' hc => ih ?_ ?_ hc
      · intro k hk
        rw [Nat.add_assoc start, Nat.add_assoc start']
        exact hlines _ (by omega)
      · rw [Nat.add_assoc start, Nat.add_assoc start']
        exact hrest

/-! ### Sources -/

theorem finish_aligned (name : Option String) (h : b.InLine b') :
    Aligned (fun ns ns' => Node.flushAll ns = Node.flushAll ns') (finish name source b)
      (finish name source' b') := by
  have hpending : b.pending.map OpenBlock.flush = b'.pending.map OpenBlock.flush :=
    congrArg Builder.pending h
  unfold finish
  cases hb : b.pending with
  | nil =>
    rw [hb] at hpending
    rw [List.map_eq_nil_iff.1 hpending.symm]
    exact .ok (congrArg Builder.top h)
  | cons o os =>
    obtain ⟨o', os', hb'⟩ : ∃ o' os', b'.pending = o' :: os' := by
      refine List.exists_cons_of_ne_nil fun hnil => ?_
      rw [hb, hnil] at hpending
      cases hpending
    rw [hb, hb'] at hpending
    have hhead : o.head.flush = o'.head.flush :=
      congrArg OpenBlock.head (List.cons.inj hpending).1
    obtain ⟨hline, hhelper, -⟩ := BlockHead.mk.inj hhead
    have hfault : Fault.unclosedBlock o.head.helper = .unclosedBlock o'.head.helper :=
      congrArg Fault.unclosedBlock hhelper
    rw [hb']
    exact aligned_locate (congrArg (fun f => f.stop.flush) hfault) hline _ _ _

theorem compile_eq (w : Workshop) (source : String) (name : Option String) :
    w.compile source name =
      ((w.steps name (Text.strip source.toList) (w.started source) (w.scan source).2).bind
        (finish name (Text.strip source.toList))).map fun nodes =>
          { name, source := String.ofList (Text.strip source.toList), nodes
            resultName := w.config.resultName } := by
  cases hs : w.steps name (Text.strip source.toList) (w.started source) (w.scan source).2 with
  | error e => exact compile_of_steps_error hs
  | ok b => exact compile_of_steps_ok hs

/-- Two sources with the same text in front of the first marker. -/
theorem compile_aligned {source source' : String} (name : Option String) {t : List Char}
    {ts ts' : List (List Char)}
    (hts : Text.splitOn w.config.startTag.toList (Text.strip source.toList) = t :: ts)
    (hts' : Text.splitOn w.config.startTag.toList (Text.strip source'.toList) = t :: ts')
    (h : ∀ b b' : Builder, b.InLine b' →
      Aligned Builder.InLine
        (w.steps name (Text.strip source.toList) b (w.pieces t.length ts))
        (w.steps name (Text.strip source'.toList) b' (w.pieces t.length ts'))) :
    Aligned (fun T T' => T.name = T'.name ∧ Node.flushAll T.nodes = Node.flushAll T'.nodes)
      (w.compile source name) (w.compile source' name) := by
  have hscan : ∀ {s : String} {us : List (List Char)},
      Text.splitOn w.config.startTag.toList (Text.strip s.toList) = t :: us →
        w.scan s = (t, w.pieces t.length us) := by
    intro s us hus
    rw [scan, Piece.scan, hus]
    rfl
  have hstart : (w.started source).InLine (w.started source') := by
    unfold started
    rw [hscan hts, hscan hts']
    exact Builder.flush_emitText rfl rfl _
  rw [compile_eq, compile_eq, hscan hts, hscan hts']
  exact ((h _ _ hstart).bind fun _ _ hc => finish_aligned name hc).map fun _ _ hn => ⟨rfl, hn⟩

end Workshop

/-! ### The flat form -/

namespace Procedure

/-- An entry at the start of its line. -/
def Entry.flush : Entry → Entry
  | .leaf parent n => .leaf parent n.flush
  | .block parent h body otherwise => .block parent h.flush body otherwise

mutual

theorem size_flush (n : Node) : n.flush.size = n.size := by
  match n with
  | .text p s => rfl
  | .bind p e => rfl
  | .output p o escape => rfl
  | .call p helper args escape => rfl
  | .block h body otherwise =>
    simp only [Node.flush, Node.size, sizeAll_flush body, sizeBranch_flush otherwise]

theorem sizeAll_flush (ns : List Node) : Node.sizeAll (Node.flushAll ns) = Node.sizeAll ns := by
  match ns with
  | [] => rfl
  | n :: ns => simp only [Node.flushAll, Node.sizeAll, size_flush n, sizeAll_flush ns]

theorem sizeBranch_flush (otherwise : Option (List Node)) :
    Node.sizeBranch (Node.flushBranch otherwise) = Node.sizeBranch otherwise := by
  match otherwise with
  | none => rfl
  | some ns => exact sizeAll_flush ns

end

theorem numbers_flush (first : Nat) (ns : List Node) :
    numbers first (Node.flushAll ns) = numbers first ns := by
  induction ns generalizing first with
  | nil => rfl
  | cons n ns ih => rw [Node.flushAll, numbers, numbers, size_flush, ih]

mutual

theorem flattenNode_flush (parent : Option Nat) (first : Nat) (n : Node) :
    flattenNode parent first n.flush = (flattenNode parent first n).map Entry.flush := by
  match n with
  | .text p s => rfl
  | .bind p e => rfl
  | .output p o escape => rfl
  | .call p helper args escape => rfl
  | .block h body otherwise =>
    have hnumbers : (Node.flushBranch otherwise).map
        (numbers (first + 1 + Node.sizeAll body)) =
          otherwise.map (numbers (first + 1 + Node.sizeAll body)) := by
      cases otherwise with
      | none => rfl
      | some ns => exact congrArg some (numbers_flush _ ns)
    simp only [Node.flush, flattenNode, sizeAll_flush, numbers_flush, hnumbers, List.map_cons,
      List.map_append, flatten_flush _ _ body, flattenBranch_flush _ _ otherwise, Entry.flush]

theorem flatten_flush (parent : Option Nat) (first : Nat) (ns : List Node) :
    flatten parent first (Node.flushAll ns) = (flatten parent first ns).map Entry.flush := by
  match ns with
  | [] => rfl
  | n :: ns =>
    simp only [Node.flushAll, flatten, size_flush, List.map_append, flattenNode_flush _ _ n,
      flatten_flush _ _ ns]

theorem flattenBranch_flush (parent : Option Nat) (first : Nat)
    (otherwise : Option (List Node)) :
    flattenBranch parent first (Node.flushBranch otherwise) =
      (flattenBranch parent first otherwise).map Entry.flush := by
  match otherwise with
  | none => rfl
  | some ns => exact flatten_flush parent first ns

end

/-- Forests that are the same but for columns have entries that are. -/
theorem entries_of_flush {ns ns' : List Node} (h : Node.flushAll ns = Node.flushAll ns') :
    (entries ns).map Entry.flush = (entries ns').map Entry.flush := by
  rw [entries, entries, ← flatten_flush, ← flatten_flush, h]

end Procedure

end Stencil
