import Stencil.Proofs.Keys
import Stencil.Proofs.Twins

/-!
# What a path token spells

A path token is the spelling of a form: the mark of a scope, then words with full stops between
them. The form is the only one with this spelling, and resolving the token gives what the form says
(`isPath_iff_and_resolve_form`).
-/

namespace Stencil

namespace Token

/-! ### Words and full stops -/

theorem dotted_intercalate {w : List Char} {ws : List (List Char)} (h : ∀ v ∈ w :: ws, '.' ∉ v) :
    dotted (['.'].intercalate (w :: ws)) = w :: ws := by
  induction ws generalizing w with
  | nil =>
    rw [List.intercalate_singleton]
    exact dotted_of_not_mem (h w List.mem_cons_self)
  | cons v ws ih =>
    rw [List.intercalate_cons_cons, List.append_assoc, List.singleton_append,
      dotted_append _ (h w List.mem_cons_self), ih fun u hu => h u (List.mem_cons_of_mem _ hu)]

theorem intercalate_dotted (cs : List Char) : ['.'].intercalate (dotted cs) = cs := by
  induction cs with
  | nil => rfl
  | cons c cs ih =>
    obtain ⟨w, ws, hd⟩ := List.exists_cons_of_ne_nil (dotted_ne_nil cs)
    rw [hd] at ih
    by_cases hc : c = '.'
    · subst hc
      rw [dotted, if_pos rfl, hd, List.intercalate_cons_cons, ih]
      rfl
    · rw [dotted, if_neg hc, hd]
      cases ws with
      | nil =>
        rw [List.intercalate_singleton] at ih ⊢
        rw [ih]
      | cons v ws =>
        rw [List.intercalate_cons_cons] at ih ⊢
        rw [List.cons_append, List.cons_append, ih]

theorem dotted_of_spelled {w : List Char} {ws : List (List Char)}
    (h : ∀ v ∈ w :: ws, isPathWord v = true) : dotted (['.'].intercalate (w :: ws)) = w :: ws :=
  dotted_intercalate fun v hv => not_mem_of_isPathWord (h v hv) (by decide)

theorem isWords_intercalate {w : List Char} {ws : List (List Char)}
    (h : ∀ v ∈ w :: ws, isPathWord v = true) : isWords (['.'].intercalate (w :: ws)) = true := by
  rw [isWords, dotted_of_spelled h]
  exact List.all_eq_true.2 h

theorem dropFinalNewline_of_ne {cs : List Char} (h : cs.getLast? ≠ some '\n') :
    dropFinalNewline cs = cs := if_neg h

end Token

namespace Path

/-! ### Marks of a scope -/

/-- What a path starts with. `climb n` climbs `n + 1` scopes. -/
inductive Lead
  | bare
  | here
  | root
  | climb (n : Nat)
  deriving DecidableEq, Repr

namespace Lead

def climbText : Nat → List Char
  | 0 => []
  | n + 1 => '.' :: '.' :: '/' :: climbText n

def text : Lead → List Char
  | bare => []
  | here => ['.', '/']
  | root => ['/']
  | climb n => climbText (n + 1)

/-- Whether the mark stands for the innermost scope, where the locals of block helpers are. -/
def isNear : Lead → Bool
  | bare => true
  | here => true
  | root => false
  | climb _ => false

/-- The scope that the mark stands for. The scopes are listed from the innermost one. -/
def scope (scopes : List Ref) : Lead → Option Ref
  | bare => scopes.head?
  | here => scopes.head?
  | root => scopes.getLast?
  | climb n => scopes[n + 1]?

theorem exists_scope {scopes : List Ref} (lead : Lead) (hne : scopes ≠ [])
    (h : ∀ n, lead = .climb n → n + 1 < scopes.length) : ∃ base, lead.scope scopes = some base := by
  cases lead with
  | bare => exact ⟨scopes.head hne, List.head?_eq_some_head hne⟩
  | here => exact ⟨scopes.head hne, List.head?_eq_some_head hne⟩
  | root => exact ⟨scopes.getLast hne, List.getLast?_eq_some_getLast hne⟩
  | climb n => exact ⟨scopes.get ⟨n + 1, h n rfl⟩, List.getElem?_eq_getElem (h n rfl)⟩

def ofText : List Char → Lead
  | '.' :: '/' :: _ => here
  | '/' :: _ => root
  | cs =>
    match (Token.climbs cs).1 with
    | 0 => bare
    | n + 1 => climb n

theorem climbs_climbText (n : Nat) (cs : List Char) :
    Token.climbs (climbText n ++ cs) = (n + (Token.climbs cs).1, (Token.climbs cs).2) := by
  induction n with
  | zero => simp [climbText]
  | succ n ih =>
    have hstep : climbText (n + 1) ++ cs = '.' :: '.' :: '/' :: (climbText n ++ cs) := rfl
    rw [hstep, Token.climbs, ih, Nat.add_right_comm]

theorem climbText_climbs (cs : List Char) :
    climbText (Token.climbs cs).1 ++ (Token.climbs cs).2 = cs := by
  fun_induction Token.climbs cs with
  | case1 cs ih => exact congrArg (fun t => '.' :: '.' :: '/' :: t) ih
  | case2 cs h => rfl

theorem text_append_dropStart (cs : List Char) : (ofText cs).text ++ Token.dropStart cs = cs := by
  unfold ofText
  split
  · rfl
  · rfl
  · rename_i hhere hroot
    have hd : Token.dropStart cs = (Token.climbs cs).2 := by
      unfold Token.dropStart
      split
      · exact absurd rfl (hhere _)
      · exact absurd rfl (hroot _)
      · rfl
    have hcs := climbText_climbs cs
    rw [hd]
    split
    · rename_i hn
      rwa [hn] at hcs
    · rename_i n hn
      rwa [hn] at hcs

section

variable {cs : List Char} (h : Token.isWords cs = true)

include h

theorem dropStart_append (lead : Lead) : Token.dropStart (lead.text ++ cs) = cs := by
  cases lead with
  | bare =>
    have hcs := dropStart_of_words (p := String.ofList cs) (by rwa [String.toList_ofList])
    rwa [String.toList_ofList] at hcs
  | here => rfl
  | root => rfl
  | climb n =>
    have hclimbs := climbs_climbText (n + 1) cs
    rw [Token.climbs_of_isWords h] at hclimbs
    exact congrArg Prod.snd hclimbs

theorem ofText_append (lead : Lead) : ofText (lead.text ++ cs) = lead := by
  cases lead with
  | bare =>
    -- a word starts neither with a full stop nor with a slash
    obtain ⟨c, rest, rfl, hc⟩ := Token.exists_cons_of_isWords h
    have hclimbs := Token.climbs_of_isWords h
    unfold ofText
    split
    · rename_i heq
      cases heq
      exact absurd hc (by decide)
    · rename_i heq
      cases heq
      exact absurd hc (by decide)
    · rw [show bare.text ++ c :: rest = c :: rest from rfl, hclimbs]
  | here => rfl
  | root => rfl
  | climb n =>
    have hclimbs := climbs_climbText (n + 1) cs
    rw [Token.climbs_of_isWords h] at hclimbs
    have hn : (Token.climbs ('.' :: '.' :: '/' :: (climbText n ++ cs))).1 = n + 1 :=
      congrArg Prod.fst hclimbs
    change ofText ('.' :: '.' :: '/' :: (climbText n ++ cs)) = climb n
    unfold ofText
    split
    · rename_i heq
      cases heq
    · rename_i heq
      cases heq
    · rw [hn]

theorem getLast?_append (lead : Lead) : (lead.text ++ cs).getLast? ≠ some '\n' := by
  rw [List.getLast?_append_of_ne_nil _ (Token.ne_nil_of_isWords h)]
  intro hl
  exact Token.not_mem_of_isWords h (by decide) (by decide) (List.mem_of_getLast? hl)

end

end Lead

/-! ### Steps of resolving -/

theorem segments_of_short {ws : List (List Char)}
    (h : ∀ w ∈ ws, isIndex w = true → w.length ≤ Failure.maxDigits) :
    segments ws = .ok (ws.map wordStep) := by
  have hm : ws.mapM segment = .ok (ws.map wordStep) := by
    induction ws with
    | nil => rfl
    | cons w ws ih =>
      rw [List.mapM_cons, segment_of_short (h w List.mem_cons_self),
        ih fun v hv => h v (List.mem_cons_of_mem _ hv)]
      rfl
  rw [segments, hm]
  rfl

/-- The words for the scope itself are taken from the ends. -/
theorem tail_withoutThis_sublist (w : List Char) (ws : List (List Char)) :
    (withoutThis (w :: ws)).tail.Sublist ws := by
  have hlast : ∀ vs : List (List Char),
      (if vs.getLast? = some this then vs.dropLast else vs).Sublist vs := by
    intro vs
    split
    · exact List.dropLast_sublist vs
    · exact List.Sublist.refl vs
  unfold withoutThis
  split
  · exact (List.tail_sublist _).trans (hlast ws)
  · exact (hlast (w :: ws)).tail

theorem ofWords_of_short {base : Ref} {ws : List (List Char)}
    (h : ∀ w ∈ ws.tail, isIndex w = true → w.length ≤ Failure.maxDigits) :
    ofWords base ws =
      .ok ⟨base, ws.head?.map String.ofList, ws.tail.map wordStep⟩ := by
  cases ws with
  | nil => rfl
  | cons w ws =>
    have hrest : segments ws = .ok (ws.map wordStep) := segments_of_short h
    rw [ofWords, hrest]
    rfl

theorem start_of_climbs {path : String} {scopes : List Ref} {n : Nat} {cs : List Char}
    (hroot : path.toList.head? ≠ some '/') (hhere : ∀ ds, path.toList ≠ '.' :: '/' :: ds)
    (h : Token.climbs path.toList = (n, cs)) :
    start path scopes = if n = 0 then located scopes.head? cs else
      match scopes[n]? with
      | some base => .ok (base, cs)
      | none => .error (Fault.climbsTooFar path n ((scopes.length : Int) - 1)).stop := by
  unfold start
  split
  · rename_i heq
    rw [heq] at hroot
    exact absurd rfl hroot
  · rename_i heq
    exact absurd heq (hhere _)
  · rw [h]
    cases n with
    | zero => rfl
    | succ k => rfl

theorem resolve_eq_local {path : String} {scopes : List Ref} {cs : List Char}
    (h : localText? path.toList = some cs) : resolve path scopes = resolveLocal cs := by
  unfold localText? at h
  split at h
  · rename_i heq
    cases h
    simp only [resolve, heq]
  · rename_i heq
    cases h
    simp only [resolve, heq]
  · cases h

theorem resolve_eq_start {path : String} {scopes : List Ref}
    (h : localText? path.toList = none) :
    resolve path scopes = (start path scopes).bind fun s => resolveFrom path s.1 s.2 := by
  unfold resolve
  split
  · rename_i heq
    rw [heq] at h
    cases h
  · rename_i heq
    rw [heq] at h
    cases h
  · cases start path scopes with
    | error e => rfl
    | ok s => rfl

/-! ### Forms -/

/-- A path apart as it is spelled: the mark of a scope, then one word or more. -/
structure Form where
  lead : Lead
  first : List Char
  rest : List (List Char)
  spelled : ∀ w ∈ first :: rest, Token.isPathWord w = true

namespace Form

variable (f : Form)

def body : List Char := ['.'].intercalate (f.first :: f.rest)

def text : String := String.ofList (f.lead.text ++ f.body)

/-- Whether the first word is the name of a local of a block helper. -/
def startsLocal : Prop := f.first.head? = some '$'

instance : Decidable f.startsLocal := inferInstanceAs (Decidable (f.first.head? = some '$'))

def unmarked : Form := { f with lead := .bare }

theorem toList_text : f.text.toList = f.lead.text ++ f.body := String.toList_ofList

theorem isWords_body : Token.isWords f.body = true := Token.isWords_intercalate f.spelled

theorem dotted_body : Token.dotted f.body = f.first :: f.rest := Token.dotted_of_spelled f.spelled

theorem getLast?_text : f.text.toList.getLast? ≠ some '\n' := by
  rw [toList_text]
  exact Lead.getLast?_append f.isWords_body f.lead

theorem isPath_text : Token.isPath f.text = true := by
  rw [Token.isPath, Token.dropFinalNewline_of_ne f.getLast?_text, toList_text,
    Lead.dropStart_append f.isWords_body]
  exact f.isWords_body

theorem text_injective {f g : Form} (h : f.text = g.text) : f = g := by
  have htext : f.lead.text ++ f.body = g.lead.text ++ g.body := by
    rw [← toList_text, ← toList_text, h]
  have hlead : f.lead = g.lead := by
    rw [← Lead.ofText_append f.isWords_body f.lead, htext, Lead.ofText_append g.isWords_body]
  have hbody : f.body = g.body := by
    rw [← Lead.dropStart_append f.isWords_body f.lead, htext, Lead.dropStart_append g.isWords_body]
  have hwords : f.first :: f.rest = g.first :: g.rest := by
    rw [← dotted_body, hbody, dotted_body]
  cases f
  cases g
  simp only [List.cons.injEq] at hwords hlead
  obtain ⟨hfirst, hrest⟩ := hwords
  subst hlead hfirst hrest
  rfl

theorem exists_of_isPath {t : String} (ht : t.toList.getLast? ≠ some '\n')
    (h : Token.isPath t = true) : ∃ f : Form, f.text = t := by
  rw [Token.isPath, Token.dropFinalNewline_of_ne ht] at h
  obtain ⟨w, ws, hd⟩ := List.exists_cons_of_ne_nil (Token.dotted_ne_nil (Token.dropStart t.toList))
  have hspelled : ∀ v ∈ w :: ws, Token.isPathWord v = true := by
    rw [← hd]
    exact List.all_eq_true.1 h
  refine ⟨⟨Lead.ofText t.toList, w, ws, hspelled⟩, ?_⟩
  apply String.toList_injective
  rw [toList_text, body, ← hd, Token.intercalate_dotted]
  exact Lead.text_append_dropStart t.toList

theorem isPath_iff {t : String} (ht : t.toList.getLast? ≠ some '\n') :
    Token.isPath t = true ↔ ∃! f : Form, f.text = t := by
  constructor
  · intro h
    obtain ⟨f, hf⟩ := exists_of_isPath ht h
    exact ⟨f, hf, fun g hg => text_injective (hg.trans hf.symm)⟩
  · rintro ⟨f, rfl, _⟩
    exact f.isPath_text

/-! ### Resolving a spelling -/

variable {f : Form} {scopes : List Ref}

theorem head?_body : f.body.head? = f.first.head? := by
  obtain ⟨c, w, hfirst⟩ := List.exists_cons_of_ne_nil
    (Token.ne_nil_of_isPathWord (f.spelled f.first List.mem_cons_self))
  cases hrest : f.rest with
  | nil => rw [body, hrest, List.intercalate_singleton]
  | cons v ws =>
    rw [body, hrest, List.intercalate_cons_cons, hfirst]
    rfl

theorem localText?_near (hnear : f.lead.isNear = true) (hlocal : f.startsLocal) :
    localText? f.text.toList = some f.body := by
  have htext := f.toList_text
  obtain ⟨cs, hcs⟩ := List.head?_eq_some_iff.1 (head?_body.trans hlocal)
  rw [htext, hcs]
  cases hlead : f.lead with
  | bare => rfl
  | here => rfl
  | root => rw [hlead] at hnear; cases hnear
  | climb n => rw [hlead] at hnear; cases hnear

theorem localText?_body (h : ¬ f.startsLocal) : localText? f.body = none := by
  obtain ⟨c, rest, hcs, hc⟩ := Token.exists_cons_of_isWords f.isWords_body
  have hhead := f.head?_body
  rw [hcs] at hhead ⊢
  unfold localText?
  split
  · rename_i heq
    cases heq
    exact absurd hhead.symm h
  · rename_i heq
    cases heq
    exact absurd hc (by decide)
  · rfl

theorem localText?_text (h : ¬ (f.lead.isNear = true ∧ f.startsLocal)) :
    localText? f.text.toList = none := by
  rw [toList_text]
  cases hlead : f.lead with
  | bare =>
    rw [hlead] at h
    exact localText?_body fun hlocal => h ⟨rfl, hlocal⟩
  | here =>
    rw [hlead] at h
    exact (localText?_of_words f.isWords_body).trans (localText?_body fun hlocal => h ⟨rfl, hlocal⟩)
  | root => rfl
  | climb n => rfl

theorem start_climb {n : Nat} (hlead : f.lead = .climb n) :
    start f.text scopes = match scopes[n + 1]? with
      | some base => .ok (base, f.body)
      | none => .error (Fault.climbsTooFar f.text (n + 1) ((scopes.length : Int) - 1)).stop := by
  have hlist : f.text.toList = '.' :: '.' :: '/' :: (Lead.climbText n ++ f.body) := by
    rw [toList_text, hlead]
    rfl
  have hclimbs := Lead.climbs_climbText (n + 1) f.body
  rw [Token.climbs_of_isWords f.isWords_body] at hclimbs
  rw [start_of_climbs ?_ ?_ (?_ : _ = (n + 1, f.body))]
  · rfl
  · rw [hlist]
    rintro ⟨⟩
  · intro ds heq
    rw [hlist] at heq
    cases heq
  · rw [hlist]
    exact hclimbs

theorem start_located (h : ∀ n, f.lead ≠ .climb n) :
    start f.text scopes = located (f.lead.scope scopes) f.body := by
  have htext := f.toList_text
  cases hlead : f.lead with
  | bare =>
    rw [hlead] at htext
    have hlist : f.text.toList = f.body := htext
    obtain ⟨c, rest, hcs, hc⟩ := Token.exists_cons_of_isWords f.isWords_body
    rw [start_of_climbs ?_ ?_ (?_ : _ = (0, f.body))]
    · rfl
    · rw [hlist, hcs]
      rintro ⟨⟩
      exact absurd hc (by decide)
    · intro ds heq
      rw [hlist, hcs] at heq
      cases heq
      exact absurd hc (by decide)
    · rw [hlist]
      exact Token.climbs_of_isWords f.isWords_body
  | here =>
    rw [hlead] at htext
    have hlist : f.text.toList = '.' :: '/' :: f.body := htext
    simp only [start, hlist, Lead.scope]
  | root =>
    rw [hlead] at htext
    have hlist : f.text.toList = '/' :: f.body := htext
    simp only [start, hlist, Lead.scope]
  | climb n => exact absurd hlead (h n)

theorem start_of_scope {base : Ref} (h : f.lead.scope scopes = some base) :
    start f.text scopes = .ok (base, f.body) := by
  by_cases hclimb : ∃ n, f.lead = .climb n
  · obtain ⟨n, hlead⟩ := hclimb
    rw [hlead] at h
    have hbase : scopes[n + 1]? = some base := h
    rw [start_climb hlead, hbase]
  · rw [start_located fun n hn => hclimb ⟨n, hn⟩, h]
    rfl

theorem start_of_no_scope (h : f.lead.scope scopes = none) :
    ∃ e, start f.text scopes = .error e := by
  by_cases hclimb : ∃ n, f.lead = .climb n
  · obtain ⟨n, hlead⟩ := hclimb
    rw [hlead] at h
    have hbase : scopes[n + 1]? = none := h
    rw [start_climb hlead, hbase]
    exact ⟨_, rfl⟩
  · rw [start_located fun n hn => hclimb ⟨n, hn⟩, h]
    exact ⟨_, rfl⟩

theorem resolve_near (hnear : f.lead.isNear = true) (hlocal : f.startsLocal) :
    resolve f.text scopes = resolveLocal f.body := resolve_eq_local (localText?_near hnear hlocal)

/-- A spelling that names no local of the innermost scope is read from the scope of its mark. -/
theorem resolve_far (h : ¬ (f.lead.isNear = true ∧ f.startsLocal)) :
    resolve f.text scopes = (start f.text scopes).bind fun s => resolveFrom f.text s.1 s.2 :=
  resolve_eq_start (localText?_text h)

theorem resolve_of_scope {base : Ref} (h : ¬ (f.lead.isNear = true ∧ f.startsLocal))
    (hscope : f.lead.scope scopes = some base) :
    resolve f.text scopes = resolveFrom f.text base f.body := by
  rw [resolve_far h, start_of_scope hscope]
  rfl

theorem resolveFrom_local {path : String} {base : Ref} (h : f.startsLocal) :
    resolveFrom path base f.body =
      .error (Fault.hiddenLocal (String.ofList f.first) path).stop := by
  have hne : f.body ≠ [] := Token.ne_nil_of_isWords f.isWords_body
  have hwords : words f.body = f.first :: f.rest := by
    rw [words, List.isEmpty_eq_false_iff.2 hne, f.dotted_body]
    rfl
  have hhead : (f.first.head? == some '$') = true := beq_iff_eq.2 h
  simp only [resolveFrom, hwords, List.head?_cons, Option.filter_some, hhead, if_true]

theorem resolve_words {base : Ref} (h : ¬ f.startsLocal)
    (hscope : f.lead.scope scopes = some base) :
    resolve f.text scopes = ofWords base (withoutThis (f.first :: f.rest)) := by
  rw [resolve_of_scope (fun hn => h hn.2) hscope,
    resolveFrom_of_words f.text base f.isWords_body (fun hh => h (f.head?_body.symm.trans hh)),
    f.dotted_body]

end Form

/-- A path token is the spelling of one form, and it resolves to what the form says: a local of a
block helper where its first word is one, or the words but for those that stand for the scope
itself, read from the scope of its mark. -/
theorem isPath_iff_and_resolve_form :
    (∀ t : String, t.toList.getLast? ≠ some '\n' →
      (Token.isPath t = true ↔ ∃! f : Form, f.text = t)) ∧
    ∀ (f : Form) (scopes : List Ref), scopes ≠ [] →
      (∀ w ∈ f.rest, isIndex w = true → w.length ≤ Failure.maxDigits) →
      (f.lead.isNear = true → f.startsLocal →
        resolve f.text scopes =
          .ok ⟨⟨String.ofList f.first, []⟩, none, f.rest.map wordStep⟩) ∧
      (∀ n, f.lead = .climb n → scopes.length ≤ n + 1 →
        resolve f.text scopes =
          .error (Fault.climbsTooFar f.text (n + 1) ((scopes.length : Int) - 1)).stop) ∧
      (∀ base, f.lead.isNear = false → f.startsLocal → f.lead.scope scopes = some base →
        resolve f.text scopes =
          .error (Fault.hiddenLocal (String.ofList f.first) f.text).stop) ∧
      (¬ f.startsLocal → (∀ n, f.lead = .climb n → n + 1 < scopes.length) →
        ∃ base, f.lead.scope scopes = some base ∧
          resolve f.text scopes =
            .ok ⟨base, (withoutThis (f.first :: f.rest)).head?.map String.ofList,
              (withoutThis (f.first :: f.rest)).tail.map wordStep⟩) ∧
      (¬ f.startsLocal → ∀ n, f.lead = .climb n → n + 1 < scopes.length →
        resolve f.text scopes = resolve f.unmarked.text (scopes.drop (n + 1))) := by
  refine ⟨fun t ht => Form.isPath_iff ht, fun f scopes hne hshort => ⟨?_, ?_, ?_, ?_, ?_⟩⟩
  · intro hnear hlocal
    rw [Form.resolve_near hnear hlocal, resolveLocal, f.dotted_body]
    simp only [segments_of_short hshort, Except.map]
  · intro n hlead hlen
    have hfar : ¬ (f.lead.isNear = true ∧ f.startsLocal) := by
      rintro ⟨hnear, _⟩
      rw [hlead] at hnear
      cases hnear
    rw [Form.resolve_far hfar, Form.start_climb hlead, List.getElem?_eq_none hlen]
    rfl
  · intro base hnear hlocal hscope
    rw [Form.resolve_of_scope (by simp [hnear]) hscope, Form.resolveFrom_local hlocal]
  · intro hlocal hclimb
    obtain ⟨base, hscope⟩ := f.lead.exists_scope hne hclimb
    refine ⟨base, hscope, ?_⟩
    rw [Form.resolve_words hlocal hscope,
      ofWords_of_short fun w hw =>
        hshort w ((tail_withoutThis_sublist f.first f.rest).subset hw)]
  · intro hlocal n hlead hlen
    have hbase : scopes[n + 1]? = some scopes[n + 1] := List.getElem?_eq_getElem hlen
    have hscope : f.lead.scope scopes = some scopes[n + 1] := by rw [hlead]; exact hbase
    have hdrop : f.unmarked.lead.scope (scopes.drop (n + 1)) = some scopes[n + 1] := by
      rw [← hbase, ← List.head?_drop]
      rfl
    rw [Form.resolve_words hlocal hscope, Form.resolve_words (f := f.unmarked) hlocal hdrop]
    rfl

theorem resolve_form_of_scopes :
    (∃! f : Form, f.text = "../this.a.12.this") ∧
      resolve "../this.a.12.this" [⟨"b", []⟩, Ref.context] =
        .ok ⟨Ref.context, some "a", [.index 12]⟩ ∧
      resolve "../this.a.12.this" [⟨"b", []⟩, Ref.context] =
        resolve "this.a.12.this" [Ref.context] ∧
      resolve "./$value.0" [Ref.context] = .ok ⟨⟨"$value", []⟩, none, [.index 0]⟩ ∧
      resolve "../a" [Ref.context] = .error (Fault.climbsTooFar "../a" 1 0).stop ∧
      resolve "/$key" [Ref.context] = .error (Fault.hiddenLocal "$key" "/$key").stop := by
  have h := isPath_iff_and_resolve_form
  have hshort : ∀ ws : List (List Char), (∀ w ∈ ws, w.length ≤ 4) →
      ∀ w ∈ ws, isIndex w = true → w.length ≤ Failure.maxDigits := fun ws hws w hw _ =>
    (hws w hw).trans (by decide)
  let climbed : Form :=
    ⟨.climb 0, this, ["a".toList, "12".toList, this], by decide⟩
  have hclimbed := h.2 climbed [⟨"b", []⟩, Ref.context] (by simp) (hshort _ (by decide))
  obtain ⟨base, hbase, hwords⟩ := hclimbed.2.2.2.1 (by decide) (by rintro n ⟨⟩; decide)
  cases hbase
  have hnear := h.2 ⟨.here, "$value".toList, ["0".toList], by decide⟩ [Ref.context] (by simp)
    (hshort _ (by decide))
  have hfar := h.2 ⟨.climb 0, "a".toList, [], by decide⟩ [Ref.context] (by simp)
    (hshort _ (by decide))
  have hroot := h.2 ⟨.root, "$key".toList, [], by decide⟩ [Ref.context] (by simp)
    (hshort _ (by decide))
  exact ⟨(h.1 _ (by decide)).1 (by decide +kernel), hwords,
    hclimbed.2.2.2.2 (by decide) 0 rfl (by decide), hnear.1 rfl rfl, hfar.2.1 0 rfl (by decide),
    hroot.2.2.1 _ rfl rfl rfl⟩

end Path

end Stencil
