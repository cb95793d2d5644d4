import Stencil.Proofs.Conditions
import Stencil.Proofs.Levels

/-!
# What a marker fails with

Reading a marker for a built-in block helper, and binding the paths that it asks for, ends well or
with a mistake of the template, unless the marker has an integer numeral with too many digits
(`Marker.sound_read`, `Builder.sound_bind`). The failures of reading and taking items of empty lists
are ruled out by the level that is always open.
-/

namespace Stencil

/-! ### Paths -/

namespace Path

theorem sound_segments {cs : List Char} {ws : List (List Char)} (h : ∀ w ∈ ws, w <:+: cs) :
    Sound (Overlong cs) (fun _ => True) (segments ws) := by
  unfold segments
  induction ws with
  | nil => trivial
  | cons w ws ih =>
    have hrest := ih fun v hv => h v (List.mem_cons_of_mem _ hv)
    rw [List.mapM_cons]
    cases hw : segment w with
    | error f => exact (overlong_of_segment hw).mono (h w List.mem_cons_self)
    | ok s =>
      cases hs : ws.mapM segment with
      | error f =>
        rw [hs] at hrest
        exact hrest
      | ok ss => trivial

/-- The first property of a path is a part of it. -/
def NameIn (cs : List Char) (r : Resolved) : Prop := ∀ n, r.name = some n → n.toList <:+: cs

theorem sound_resolveLocal (cs : List Char) :
    Sound (Overlong cs) (NameIn cs) (resolveLocal cs) := by
  unfold resolveLocal
  split
  · exact nofun
  · rename_i root ws hws
    have hparts := (Token.words_of_dotted cs).2
    have hsegments : Sound (Overlong cs) (fun _ => True) (segments ws) :=
      sound_segments fun w hw => hparts w (hws ▸ List.mem_cons_of_mem _ hw)
    exact (hsegments.imp fun _ _ => nofun).map

theorem infix_of_mem_words {cs w : List Char} (h : w ∈ words cs) : w <:+: cs := by
  unfold words at h
  split at h
  · cases h
  · exact (Token.words_of_dotted cs).2 w h

theorem sound_resolveFrom (path : String) (base : Ref) (cs : List Char) :
    Sound (Overlong cs) (NameIn cs) (resolveFrom path base cs) := by
  simp only [resolveFrom]
  split
  · trivial
  · split
    · trivial
    · split
      · intro n hn
        cases hn
      · rename_i name rest hws
        have hparts : ∀ w ∈ name :: rest, w <:+: cs :=
          fun w hw => infix_of_mem_words (Binder.mem_of_mem_withoutThis (hws ▸ hw))
        have hsegments : Sound (Overlong cs) (fun _ => True) (segments rest) :=
          sound_segments fun w hw => hparts w (List.mem_cons_of_mem _ hw)
        refine (hsegments.imp fun _ _ n hn => ?_).map
        cases hn
        rw [String.toList_ofList]
        exact hparts name List.mem_cons_self

/-- Where some scope is open, a path finds its scope or climbs too far. -/
theorem sound_start (path : String) {scopes : List Ref} (hs : scopes ≠ []) :
    Sound (Overlong path.toList) (fun r => r.2 <:+: path.toList) (start path scopes) := by
  obtain ⟨first, rest, rfl⟩ := List.exists_cons_of_ne_nil hs
  unfold start
  split
  · rename_i cs hcs
    rw [List.getLast?_eq_some_getLast hs, hcs]
    exact (List.suffix_cons '/' cs).isInfix
  · rename_i cs hcs
    rw [hcs]
    exact ((List.suffix_cons '/' cs).trans (List.suffix_cons '.' _)).isInfix
  · have hclimbs := (Token.climbs_suffix path.toList).isInfix
    split
    · rename_i tail hc
      rw [hc] at hclimbs
      exact hclimbs
    · rename_i n tail hc
      rw [hc] at hclimbs
      split
      · exact hclimbs
      · trivial

theorem sound_resolve (path : String) {scopes : List Ref} (hs : scopes ≠ []) :
    Sound (Overlong path.toList) (NameIn path.toList) (resolve path scopes) := by
  have hstart := sound_start path hs
  unfold resolve
  split
  · rename_i cs hcs
    rw [hcs]
    exact sound_resolveLocal _
  · rename_i cs hcs
    have hin : '$' :: cs <:+: '.' :: '/' :: '$' :: cs :=
      ((List.suffix_cons '/' _).trans (List.suffix_cons '.' _)).isInfix
    rw [hcs]
    exact (sound_resolveLocal _).mono (overlong_of_isInfix hin) fun r hr n hn => (hr n hn).trans hin
  · split
    · rename_i e he
      rw [he] at hstart
      exact hstart.error
    · rename_i base cs he
      rw [he] at hstart
      exact (sound_resolveFrom path base cs).mono (overlong_of_isInfix hstart)
        fun r hr n hn => (hr n hn).trans hstart

end Path

/-! ### Binding -/

/-- What fails about a path fails about a row of digits of the text. -/
def Quotes (cs : List Char) (path : String) : Prop := ∀ f, Overlong path.toList f → Overlong cs f

theorem quotes_of_isInfix {cs : List Char} {path : String} (h : path.toList <:+: cs) :
    Quotes cs path := fun _ ho => ho.mono h

theorem quotes_of_short {cs : List Char} {path : String}
    (h : path.toList.length ≤ Failure.maxDigits) : Quotes cs path :=
  fun _ ho => absurd ho.length_lt (Nat.not_lt.2 h)

theorem quotes_empty (cs : List Char) : Quotes cs "" := quotes_of_short (by decide)

theorem quotes_closingScope (cs : List Char) : Quotes cs Marker.closingScope :=
  quotes_of_short (by decide)

theorem quotes_valueName (cs : List Char) : Quotes cs Builtin.valueName :=
  quotes_of_short (by decide)

namespace Binder

variable {b : Binder} {cs : List Char}

theorem sound_bindPath (hb : b.levels ≠ []) {path : String} (hq : Quotes cs path) :
    Sound (Overlong cs) (fun r => r.1.levels ≠ []) (b.bindPath path) := by
  have hscopes : b.scopes ≠ [] := by simpa [scopes] using hb
  have hresolve := Path.sound_resolve path hscopes
  cases hr : b.bindPath path with
  | ok r => exact (bindsPath_of_eq hr).within.levels_ne_nil hb
  | error e =>
    unfold bindPath at hr
    split at hr
    · rename_i e' he
      rw [he] at hresolve
      cases hr
      cases e with
      | mistake e => trivial
      | failure f => exact hq f hresolve
    · rename_i r he
      rw [he] at hresolve
      split at hr
      · cases hr
      · rename_i name hname
        split at hr
        · rename_i f hf
          cases hr
          exact hq f ((Path.overlong_of_key hf).mono (hresolve name hname))
        · cases hr

theorem sound_bindEach (hb : b.levels ≠ []) {paths : List String}
    (hq : ∀ q ∈ paths, Quotes cs q) : Sound (Overlong cs) (fun _ => True) (b.bindEach paths).2 := by
  induction paths generalizing b with
  | nil => trivial
  | cons q qs ih =>
    have hpath := sound_bindPath hb (hq q List.mem_cons_self)
    unfold bindEach
    split
    · rename_i e he
      rw [he] at hpath
      exact hpath.error
    · rename_i c bound he
      rw [he] at hpath
      exact (ih hpath fun p hp => hq p (List.mem_cons_of_mem _ hp)).map

end Binder

theorem Builder.sound_bind {b : Builder} {cs : List Char} (hb : b.Levelled) (p : Position)
    {paths : List String} (hq : ∀ q ∈ paths, Quotes cs q) :
    Sound (Overlong cs) (fun _ => True) (b.bind p paths) := by
  have hlevels : b.binder.levels.isEmpty = false := by simpa using hb.levels_ne_nil
  have heach := Binder.sound_bindEach hb.levels_ne_nil hq
  have hbind : b.binder.bind paths = b.binder.bindEach paths := by
    rw [Binder.bind, hlevels]
    rfl
  unfold Builder.bind
  rw [hbind]
  split
  · rename_i binder e he
    rw [he] at heach
    exact heach.error
  · trivial

/-! ### Conditions -/

theorem Condition.sound_parse {cs : List Char} {args : List String}
    (h : ∀ a ∈ args, a.toList <:+: cs) :
    Sound (Overlong cs) (fun c => ∀ q ∈ c.paths, Quotes cs q) (parse args) := by
  refine (sound_readsParse args).mono ?_ ?_
  · rintro f ⟨t, ht, _, ho⟩
    exact ho.mono (h t ht)
  · intro c hc q hq
    obtain ⟨t, ht, hin⟩ := hc.isInfix_path q hq
    exact quotes_of_isInfix (hin.trans (h t ht))

/-! ### Markers -/

namespace Builtin

variable {cs : List Char} {args : List String}

/-- A reply that is a plan, whose paths and scope are in the text. -/
def Plans (cs : List Char) (reply : Reply) : Prop :=
  ∃ p, reply = .plan p ∧ (∀ q ∈ p.paths, Quotes cs q) ∧ Quotes cs p.scope

theorem sound_singleArgument (helper : String) (h : ∀ a ∈ args, a.toList <:+: cs) :
    Sound (Overlong cs) (fun a => Quotes cs a) (singleArgument helper args) := by
  unfold singleArgument
  split
  · exact quotes_of_isInfix (h _ List.mem_cons_self)
  · trivial

/-- A built-in block helper fails about a row of digits of its arguments at most. -/
theorem sound_block {e : String × BlockHelper} (he : e ∈ blocks) (scope : String)
    (h : ∀ a ∈ args, a.toList <:+: cs) : Sound (Overlong cs) (Plans cs) (e.2 scope args) := by
  rcases mem_blocks he with he | he | he | ⟨helper, run, he, _⟩ <;> rw [he]
  · refine ((Condition.sound_parse h).imp fun c hc => ?_).map
    exact ⟨_, rfl, hc, quotes_empty cs⟩
  · unfold branch
    split
    · exact ⟨_, rfl, nofun, quotes_empty cs⟩
    · trivial
  · refine ((sound_singleArgument "with" h).imp fun a ha => ?_).map
    exact ⟨_, rfl, fun q hq => List.mem_singleton.1 hq ▸ ha, ha⟩
  · refine ((sound_singleArgument helper h).imp fun a ha => ?_).map
    exact ⟨_, rfl, fun q hq => List.mem_singleton.1 hq ▸ ha, quotes_valueName cs⟩

end Builtin

namespace Marker

variable {w : Workshop} {cs : List Char} {r : Registry}

/-- The paths and the scope of a marker are in the text. -/
structure Asks (cs : List Char) (m : Marker) : Prop where
  paths : ∀ q ∈ m.paths, Quotes cs q
  scope : Quotes cs m.scope

theorem sound_ofToken (escape : Bool) {token : String} (h : token.toList <:+: cs) :
    Sound (Overlong cs) (Asks cs) (ofToken escape token) := by
  unfold ofToken
  split
  · rename_i f hf
    exact (Token.overlong_of_literal? hf).mono h
  · exact ⟨nofun, quotes_empty cs⟩
  · split
    · exact ⟨fun q hq => List.mem_singleton.1 hq ▸ quotes_of_isInfix h, quotes_empty cs⟩
    · trivial

theorem sound_arguments (helper : String) (next : Nat) {ts : List String}
    (h : ∀ t ∈ ts, t.toList <:+: cs) :
    Sound (Overlong cs) (fun a => ∀ q ∈ a.1, Quotes cs q) (arguments helper next ts) := by
  induction ts generalizing next with
  | nil => exact nofun
  | cons t ts ih =>
    have hts := fun next => ih next fun u hu => h u (List.mem_cons_of_mem _ hu)
    have ht := h t List.mem_cons_self
    unfold arguments
    split
    · rename_i f hf
      exact (Token.overlong_of_literal? hf).mono ht
    · exact (hts next).map
    · split
      · refine ((hts (next + 1)).imp fun a ha q hq => ?_).map
        rcases List.mem_cons.1 hq with rfl | hq
        · exact quotes_of_isInfix ht
        · exact ha q hq
      · trivial

theorem sound_ofOutput (c : Config) (cs : List Char) :
    Sound (Overlong cs) (Asks cs) (ofOutput r c cs) := by
  have htext : (if cs.head? == some '=' then cs.drop 1 else cs) <:+: cs := by
    split
    · exact (List.drop_suffix 1 cs).isInfix
    · exact List.infix_rfl
  have htokens : ∀ t ∈ (Token.splitChars (if cs.head? == some '=' then cs.drop 1 else cs)).map
      String.ofList, t.toList <:+: cs := by
    intro t ht
    obtain ⟨u, hu, rfl⟩ := List.mem_map.1 ht
    rw [String.toList_ofList]
    exact (Token.infix_of_mem_splitChars hu).trans htext
  simp only [ofOutput]
  split
  · trivial
  · rename_i token hs
    exact sound_ofToken _ (htokens token (hs ▸ List.mem_cons_self))
  · rename_i name args _ hs
    unfold ofCall
    split
    · refine ((sound_arguments name 0 fun t ht => ?_).imp fun a ha => ?_).map
      · exact htokens t (hs ▸ List.mem_cons_of_mem _ ht)
      · exact ⟨ha, quotes_empty cs⟩
    · trivial

theorem takeSlash_isInfix (cs : List Char) : (takeSlash cs).2 <:+: cs := by
  unfold takeSlash
  split
  · exact (List.dropLast_prefix cs).isInfix
  · exact List.infix_rfl

theorem sound_ofReply {name : String} {closed : Bool} {reply : Reply}
    (h : Builtin.Plans cs reply) : Sound (Overlong cs) (Asks cs) (ofReply name closed reply) := by
  obtain ⟨p, rfl, hpaths, hscope⟩ := h
  simp only [ofReply]
  split
  · exact ⟨nofun, quotes_empty cs⟩
  · split
    · trivial
    · exact ⟨hpaths, hscope⟩

theorem sound_ofBlock (hw : w.UsesBuiltins) (scope : String) (cs : List Char) :
    Sound (Overlong cs) (Asks cs) (ofBlock w.registry scope cs) := by
  have htokens : ∀ t ∈ (Token.splitChars (takeSlash (Text.strip cs)).2).map String.ofList,
      t.toList <:+: cs := by
    intro t ht
    obtain ⟨u, hu, rfl⟩ := List.mem_map.1 ht
    rw [String.toList_ofList]
    exact (Token.infix_of_mem_splitChars hu).trans
      ((takeSlash_isInfix _).trans (Text.strip_isInfix cs))
  simp only [ofBlock]
  split
  · trivial
  · rename_i name args hs
    split
    · trivial
    · rename_i helper hhelper
      obtain ⟨e, he, rfl⟩ := hw name helper (Registry.get?_of_block hhelper)
      have hreply := Builtin.sound_block he scope
        fun t ht => htokens t (hs ▸ List.mem_cons_of_mem _ ht)
      split
      · rename_i error hr
        rw [hr] at hreply
        exact hreply.error
      · rename_i reply hr
        rw [hr] at hreply
        exact sound_ofReply hreply

/-- With the built-in block helpers a marker is read, or it is mistaken, or it has a numeral with
too many digits. -/
theorem sound_read (hw : w.UsesBuiltins) (body : List Char) (scope : String) :
    Sound (Overlong body) (Asks body) (read w.registry w.config body scope) := by
  have hmono : ∀ {cs : List Char} {r : Except CompileError Marker}, cs <:+: Text.strip body →
      Sound (Overlong cs) (Asks cs) r → Sound (Overlong body) (Asks body) r := by
    intro cs r hi hr
    have hin := hi.trans (Text.strip_isInfix body)
    refine hr.mono (overlong_of_isInfix hin) fun m hm => ⟨fun q hq f hf => ?_, fun f hf => ?_⟩
    · exact (hm.paths q hq f hf).mono hin
    · exact (hm.scope f hf).mono hin
  simp only [read]
  split
  · exact hmono (List.drop_suffix _ _).isInfix (sound_ofBlock hw scope _)
  · split
    · exact ⟨fun q hq => absurd hq List.not_mem_nil, quotes_closingScope body⟩
    · exact hmono List.infix_rfl (sound_ofOutput w.config _)

end Marker

end Stencil
