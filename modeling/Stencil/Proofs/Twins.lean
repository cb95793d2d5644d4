import Stencil.Proofs.BuiltinBlocks
import Stencil.Proofs.Conditions
import Stencil.Proofs.Negation
import Stencil.Proofs.Paths
import Stencil.Proofs.Words

/-!
# Two spellings of a path

A path of words can be spelled with the mark of the innermost scope in front of it
(`Path.Twin`). Both spellings resolve alike, and a condition with the one in the place of the other
is parsed to the same groups (`Condition.parse_twin`).
-/

namespace Stencil

/-- Two results that are related, or two errors. -/
inductive Paired {ε δ α β : Type} (R : α → β → Prop) : Except ε α → Except δ β → Prop
  | ok {a : α} {b : β} (h : R a b) : Paired R (.ok a) (.ok b)
  | error (e : ε) (f : δ) : Paired R (.error e) (.error f)

namespace Paired

variable {ε δ α β α' β' : Type} {R : α → β → Prop} {x : Except ε α} {y : Except δ β}

theorem refl {S : α → α → Prop} (h : ∀ a, S a a) (x : Except ε α) : Paired S x x := by
  cases x with
  | ok a => exact .ok (h a)
  | error e => exact .error e e

theorem of_forall (h : ∀ a, x = .ok a → ∃ b, y = .ok b ∧ R a b)
    (h' : ∀ b, y = .ok b → ∃ a, x = .ok a) : Paired R x y := by
  cases x with
  | ok a =>
    obtain ⟨b, rfl, hr⟩ := h a rfl
    exact .ok hr
  | error e =>
    cases y with
    | ok b =>
      obtain ⟨a, ha⟩ := h' b rfl
      cases ha
    | error f => exact .error e f

theorem exists_ok_or (h : Paired R x y) :
    (∃ a b, x = .ok a ∧ y = .ok b ∧ R a b) ∨ ∃ e f, x = .error e ∧ y = .error f := by
  cases h with
  | @ok a b h => exact .inl ⟨a, b, rfl, rfl, h⟩
  | error e f => exact .inr ⟨e, f, rfl, rfl⟩

theorem trans {γ ζ : Type} {S : β → γ → Prop} {T : α → γ → Prop} {z : Except ζ γ}
    (h : Paired R x y) (k : Paired S y z) (hT : ∀ a b c, R a b → S b c → T a c) :
    Paired T x z := by
  cases h with
  | ok h =>
    cases k with
    | ok k => exact .ok (hT _ _ _ h k)
  | error e f =>
    cases k with
    | error f g => exact .error e g

theorem of_map_eq {f : α → α'} {g : β → α'} {y : Except ε β} (h : x.map f = y.map g) :
    Paired (fun a b => f a = g b) x y := by
  cases x with
  | ok a =>
    cases y with
    | ok b => exact .ok (Except.ok.inj h)
    | error e => cases h
  | error e =>
    cases y with
    | ok b => cases h
    | error f => exact .error e f

theorem map {f : α → α'} {g : β → β'} {S : α' → β' → Prop} (h : Paired R x y)
    (hS : ∀ a b, R a b → S (f a) (g b)) : Paired S (x.map f) (y.map g) := by
  cases h with
  | ok h => exact .ok (hS _ _ h)
  | error e f => exact .error e f

end Paired

variable {p : String}

namespace Path

/-- Two spellings of a path: the same text, or one with and one without the mark of the innermost
scope in front of `p`. -/
inductive Twin (p : String) : String → String → Prop
  | same (q : String) : Twin p q q
  | here : Twin p p ("./" ++ p)
  | back : Twin p ("./" ++ p) p

variable {q q' : String}

theorem Twin.symm (h : Twin p q q') : Twin p q' q := by
  cases h with
  | same => exact .same q
  | here => exact .back
  | back => exact .here

theorem Twin.eq_or (h : Twin p q q') :
    q' = q ∨ q = p ∧ q' = "./" ++ p ∨ q = "./" ++ p ∧ q' = p := by
  cases h with
  | same => exact .inl rfl
  | here => exact .inr (.inl ⟨rfl, rfl⟩)
  | back => exact .inr (.inr ⟨rfl, rfl⟩)

theorem Twin.congr {α : Type} (f : String → α) (hf : f ("./" ++ p) = f p) (h : Twin p q q') :
    f q' = f q := by
  cases h with
  | same => rfl
  | here => exact hf
  | back => exact hf.symm

theorem exists_local (h : q.toList.head? = some '$') : ∃ x, local? q = some x := by
  obtain ⟨cs, hcs⟩ := List.head?_eq_some_iff.1 h
  rw [local?, hcs]
  exact ⟨_, rfl⟩

theorem localText?_of_words {cs : List Char} (h : Token.isWords cs = true) :
    localText? ('.' :: '/' :: cs) = localText? cs := by
  obtain ⟨c, rest, rfl, hc⟩ := Token.exists_cons_of_isWords h
  have hstop : c ≠ '.' := fun he => absurd (he ▸ hc) (by decide)
  unfold localText?
  split
  · rename_i heq
    cases heq
  · rename_i heq
    cases heq
    rfl
  · rename_i hhere
    split
    · rename_i heq
      cases heq
      exact (hhere _ rfl).elim
    · rename_i heq
      cases heq
      exact absurd rfl hstop
    · rfl

section

variable (hp : Token.isWords p.toList = true)

include hp

theorem dropFinalNewline_of_words : Token.dropFinalNewline p.toList = p.toList := by
  have hline : ¬ p.toList.getLast? = some '\n' := fun h =>
    Token.not_mem_of_isWords hp (by decide) (by decide) (List.mem_of_getLast? h)
  rw [Token.dropFinalNewline, if_neg hline]

theorem dropFinalNewline_here :
    Token.dropFinalNewline ('.' :: '/' :: p.toList) = '.' :: '/' :: p.toList := by
  have hline : ¬ ('.' :: '/' :: p.toList).getLast? = some '\n' := fun h => by
    have hmem := List.mem_of_getLast? h
    simp only [List.mem_cons] at hmem
    rcases hmem with hmem | hmem | hmem
    · exact absurd hmem (by decide)
    · exact absurd hmem (by decide)
    · exact Token.not_mem_of_isWords hp (by decide) (by decide) hmem
  rw [Token.dropFinalNewline, if_neg hline]

theorem dropStart_of_words : Token.dropStart p.toList = p.toList := by
  have hclimbs := Token.climbs_of_isWords hp
  obtain ⟨c, rest, hcs, hc⟩ := Token.exists_cons_of_isWords hp
  rw [hcs] at hclimbs ⊢
  unfold Token.dropStart
  split
  · rename_i heq
    cases heq
    exact absurd hc (by decide)
  · rename_i heq
    cases heq
    exact absurd hc (by decide)
  · rw [hclimbs]

theorem isPath_of_words : Token.isPath p = true := by
  rw [Token.isPath, dropFinalNewline_of_words hp, dropStart_of_words hp]
  exact hp

theorem isPath_here : Token.isPath ("./" ++ p) = true := by
  rw [Token.isPath, toList_here, dropFinalNewline_here hp]
  exact hp

theorem literal?_here : Token.literal? ("./" ++ p) = .ok none := by
  have hne : ∀ s : String, s.toList.head? ≠ some '.' → "./" ++ p ≠ s := by
    rintro s hs rfl
    rw [toList_here] at hs
    exact hs rfl
  have hstring : Token.stringBody? ('.' :: '/' :: p.toList) = none := rfl
  unfold Token.literal?
  rw [if_neg (hne "true" (by decide)), if_neg (hne "false" (by decide)),
    if_neg (hne "null" (by decide)), toList_here, hstring]
  simp only [Token.number?, dropFinalNewline_here hp]
  rfl

variable (h : Twin p q q')

include h

theorem Twin.resolve_eq (scopes : List Ref) : resolve q' scopes = resolve q scopes :=
  h.congr (fun q => resolve q scopes) (resolve_here hp scopes)

theorem Twin.local?_eq : local? q' = local? q := by
  refine h.congr local? ?_
  rw [local?, toList_here, localText?_of_words hp]
  rfl

theorem Twin.isPath_eq : Token.isPath q' = Token.isPath q :=
  h.congr Token.isPath (by rw [isPath_here hp, isPath_of_words hp])

theorem Twin.eq_iff {s : String} (hs : Token.isWords s.toList = false)
    (hhead : s.toList.head? ≠ some '.' ∨ s = "..") : q' = s ↔ q = s := by
  have hbare : p ≠ s := by
    rintro rfl
    rw [hp] at hs
    cases hs
  have hhere : "./" ++ p ≠ s := by
    rintro rfl
    rcases hhead with hhead | hhead
    · rw [toList_here] at hhead
      exact hhead rfl
    · have hlist := congrArg String.toList hhead
      rw [toList_here] at hlist
      cases hlist
  cases h with
  | same => rfl
  | here => simp only [hbare, hhere]
  | back => simp only [hbare, hhere]

theorem Twin.literal?_eq (hl : Token.literal? p = .ok none) :
    Token.literal? q' = Token.literal? q :=
  h.congr Token.literal? (by rw [literal?_here hp, hl])

end

end Path

/-! ### Conditions -/

namespace Condition

/-- Two spellings of an operand: the paths behind its negations are two spellings of a path. -/
inductive Twin (p : String) : String → String → Prop
  | path {q q' : String} (h : Path.Twin p q q') : Twin p q q'
  | negated {t t' : String} (h : Twin p t t') : Twin p ("!" ++ t) ("!" ++ t')

variable {slot : Nat} {t t' u : String} {o : Operand} {q : Option String} {ts ts' ps : List String}
  {term : Term} {c : Condition}

theorem Twin.symm (h : Twin p t t') : Twin p t' t := by
  induction h with
  | path h => exact .path h.symm
  | negated _ ih => exact .negated ih

theorem Twin.flip (h : List.Forall₂ (Twin p) ts ts') : List.Forall₂ (Twin p) ts' ts := by
  induction h with
  | nil => exact .nil
  | cons h _ ih => exact .cons h.symm ih

theorem Twin.replicate {q q' : String} (n : Nat) (h : Path.Twin p q q') :
    Twin p (String.ofList (List.replicate n '!' ++ q.toList))
      (String.ofList (List.replicate n '!' ++ q'.toList)) := by
  induction n with
  | zero =>
    simp only [List.replicate_zero, List.nil_append, String.ofList_toList]
    exact .path h
  | succ n ih =>
    rw [List.replicate_succ, List.cons_append, List.cons_append, ← ofList_negated,
      ← ofList_negated]
    exact .negated ih

theorem ReadsOperand.of_path (other : Token.literal? t = .ok none)
    (path : Token.isPath t = true) (h : ReadsOperand slot t o q) :
    o = ⟨false, .slot slot⟩ ∧ q = some t := by
  cases h with
  | literal h =>
    rw [other] at h
    cases h
  | path => exact ⟨rfl, rfl⟩
  | negated h =>
    rw [not_isPath_of_negation (toList_negated _)] at path
    cases path

theorem ReadsOperand.of_negated (h : ReadsOperand slot ("!" ++ t) o q) :
    ∃ o', o = o'.negate ∧ ReadsOperand slot t o' q := by
  generalize hu : "!" ++ t = u at h
  cases h with
  | literal h =>
    rw [← hu, literal?_of_negation (toList_negated t)] at h
    cases h
  | path _ hpath =>
    rw [← hu, not_isPath_of_negation (toList_negated t)] at hpath
    cases hpath
  | @negated t₁ o' _ h =>
    have ht : t = t₁ := by
      have hlist := congrArg String.toList hu
      rw [toList_negated, toList_negated] at hlist
      exact String.toList_injective (List.cons.inj hlist).2
    exact ⟨o', rfl, ht ▸ h⟩

section

variable (hp : Token.isWords p.toList = true) (hl : Token.literal? p = .ok none)

include hp hl

theorem Twin.eq_or (h : Twin p t t') : t' = t ∨ IsOperand t ∧ IsOperand t' := by
  have hbare : IsOperand p := .path hl (Path.isPath_of_words hp)
  have hhere : IsOperand ("./" ++ p) := .path (Path.literal?_here hp) (Path.isPath_here hp)
  induction h with
  | path h =>
    cases h with
    | same => exact .inl rfl
    | here => exact .inr ⟨hbare, hhere⟩
    | back => exact .inr ⟨hhere, hbare⟩
  | negated _ ih =>
    rcases ih with rfl | ⟨h, h'⟩
    · exact .inl rfl
    · exact .inr ⟨.negated h, .negated h'⟩

theorem Twin.eq_of_isReserved (h : Twin p t t') (hr : isReserved t = true) : t' = t := by
  rcases h.eq_or hp hl with he | ⟨ho, _⟩
  · exact he
  · rw [ho.not_isReserved] at hr
    cases hr

theorem Twin.reads (ht : Twin p t t') (h : ReadsOperand slot t o q) :
    ∃ q', ReadsOperand slot t' o q' ∧ List.Forall₂ (Path.Twin p) q.toList q'.toList := by
  induction ht generalizing o q with
  | path ht =>
    cases ht with
    | same => exact ⟨q, h, List.forall₂_same.2 fun x _ => .same x⟩
    | here =>
      obtain ⟨rfl, rfl⟩ := ReadsOperand.of_path hl (Path.isPath_of_words hp) h
      exact ⟨_, .path (Path.literal?_here hp) (Path.isPath_here hp), .cons .here .nil⟩
    | back =>
      obtain ⟨rfl, rfl⟩ := ReadsOperand.of_path (Path.literal?_here hp) (Path.isPath_here hp) h
      exact ⟨_, .path hl (Path.isPath_of_words hp), .cons .back .nil⟩
  | negated _ ih =>
    obtain ⟨o', rfl, hbody⟩ := h.of_negated
    obtain ⟨q', h', hq⟩ := ih hbody
    exact ⟨q', h'.negated, hq⟩

theorem ReadsTerm.twin (h : ReadsTerm slot ts term ps) (hts : List.Forall₂ (Twin p) ts ts') :
    ∃ ps', ReadsTerm slot ts' term ps' ∧ List.Forall₂ (Path.Twin p) ps ps' := by
  cases h with
  | alone h =>
    cases hts with
    | cons ht hnil =>
      cases hnil
      obtain ⟨q', h', hq⟩ := ht.reads hp hl h
      exact ⟨_, .alone h', hq⟩
  | compared left c right =>
    cases hts with
    | cons ht htail =>
      cases htail with
      | cons hc htail =>
        cases htail with
        | cons ht' hnil =>
          cases hnil
          obtain ⟨q, hleft, hq⟩ := ht.reads hp hl left
          obtain ⟨q', hright, hq'⟩ := ht'.reads hp hl right
          rw [hc.eq_of_isReserved hp hl (isReserved_spelling c)]
          rw [hq.length_eq] at hright
          exact ⟨_, .compared hleft c hright, List.rel_append hq hq'⟩

theorem Twin.exists_connected {us us' : List String} {d : String} (hd : isReserved d = true)
    (h : List.Forall₂ (Twin p) (ts ++ d :: us) us') :
    ∃ ts' vs, us' = ts' ++ d :: vs ∧ List.Forall₂ (Twin p) ts ts' ∧
      List.Forall₂ (Twin p) us vs := by
  obtain ⟨ts', rest, rfl, hts, hrest⟩ := exists_append_of_forall₂ h
  cases hrest with
  | cons hc hus =>
    rw [hc.eq_of_isReserved hp hl hd]
    exact ⟨ts', _, rfl, hts, hus⟩

theorem ReadsGroups.twin (h : ReadsGroups slot ts c) (hts : List.Forall₂ (Twin p) ts ts') :
    ∃ c', ReadsGroups slot ts' c' ∧ c'.groups = c.groups ∧
      List.Forall₂ (Path.Twin p) c.paths c'.paths := by
  induction h generalizing ts' with
  | term h =>
    obtain ⟨ps', h', hps⟩ := h.twin hp hl hts
    exact ⟨_, .term h', rfl, hps⟩
  | or h _ ih =>
    obtain ⟨vs, ws, rfl, hvs, hws⟩ := Twin.exists_connected hp hl (by decide) hts
    obtain ⟨ps', h', hps⟩ := h.twin hp hl hvs
    obtain ⟨c', hc', hgroups, hpaths⟩ := ih hws
    rw [hps.length_eq] at hc'
    exact ⟨_, .or h' hc', congrArg (List.cons _) hgroups, List.rel_append hps hpaths⟩
  | and h _ ih =>
    obtain ⟨vs, ws, rfl, hvs, hws⟩ := Twin.exists_connected hp hl (by decide) hts
    obtain ⟨ps', h', hps⟩ := h.twin hp hl hvs
    obtain ⟨c', hc', hgroups, hpaths⟩ := ih hws
    rw [hps.length_eq] at hc'
    exact ⟨_, .and h' hc', congrArg (prepend _) hgroups, List.rel_append hps hpaths⟩

/-- Conditions with two spellings of their operands are read alike. -/
theorem parse_twin (hts : List.Forall₂ (Twin p) ts ts') :
    Paired (fun c c' => c'.groups = c.groups ∧ List.Forall₂ (Path.Twin p) c.paths c'.paths)
      (parse ts) (parse ts') := by
  refine .of_forall (fun c hc => ?_) fun c' hc' => ?_
  · obtain ⟨c', hc', h⟩ := (parse_eq_ok.1 hc).twin hp hl hts
    exact ⟨c', parse_eq_ok.2 hc', h⟩
  · obtain ⟨c, hc, _⟩ := (parse_eq_ok.1 hc').twin hp hl (Twin.flip hts)
    exact ⟨c, parse_eq_ok.2 hc⟩

end

end Condition

end Stencil
