import Stencil.Proofs.Enumeration
import Stencil.Proofs.Meaning
import Stencil.Session

/-!
# Ways of passing a context

A template is called with a context, or rendered with a context and named arguments. The named
arguments give new values to entries of a map, and the other ones become entries behind them
(`Value.merged`). Main statement: a plain call and a render with the same context, merged with the
named arguments if there are any, answer the same (`contexts_agree`).
-/

namespace Stencil

theorem Table.get?_of_not_mem {α : Type} {t : Table α} {name : String} (h : name ∉ t.names) :
    t.get? name = none := by
  induction t with
  | nil => rfl
  | cons e t ih =>
    obtain ⟨hne, hrest⟩ := not_or.1 (mt List.mem_cons.2 h)
    rw [get?, if_neg (Ne.symm hne)]
    exact ih hrest

namespace Value

open Template (namedEntries)

variable {entries : List (Value × Value)} {named : Locals} {n : String} {k v : Value}

/-! ### Maps with named arguments -/

/-- An entry with the value of the argument of its name, if there is one. -/
def overridden (named : Locals) : Value × Value → Value × Value
  | (.str n, v) => (.str n, (named.get? n).getD v)
  | e => e

/-- The entries of a map with the values of the arguments of their names, and behind them an entry
for each of the other arguments. -/
def merged (entries : List (Value × Value)) (named : Locals) : List (Value × Value) :=
  entries.map (overridden named) ++
    (namedEntries named).filter fun e => (find? entries e.1).isNone

theorem agrees_str_iff : agrees (.str n) k = true ↔ k = .str n := by
  cases k with
  | str s => rw [agrees_str, beq_iff_eq, str.injEq, eq_comm]
  | _ => simp [agrees]

theorem find?_str_isNone :
    (find? entries (.str n)).isNone = true ↔ ∀ e ∈ entries, e.1 ≠ .str n := by
  simp only [find?, Option.isNone_iff_eq_none, Option.map_eq_none_iff, List.find?_eq_none,
    agrees_str_iff, ne_eq]

theorem fst_overridden (e : Value × Value) : (overridden named e).1 = e.1 := by
  unfold overridden
  split
  · rfl
  · rfl

theorem overridden_nil (e : Value × Value) : overridden [] e = e := by
  unfold overridden
  split
  · rfl
  · rfl

theorem overridden_of_ne {e : Value × Value} (h : e.1 ≠ .str n) :
    overridden ((n, v) :: named) e = overridden named e := by
  unfold overridden
  split
  · rename_i m w
    have hne : n ≠ m := fun he => h (congrArg Value.str he.symm)
    rw [Table.get?, if_neg hne]
  · rfl

theorem overridden_str_of_not_mem (hn : n ∉ Table.names named) :
    overridden named (.str n, v) = (.str n, v) := by
  rw [overridden, Table.get?_of_not_mem hn]
  rfl

theorem find?_cons (e : Value × Value) (entries : List (Value × Value)) (k : Value) :
    find? (e :: entries) k = if agrees k e.1 then some e.2 else find? entries k := by
  unfold find?
  rw [List.find?_cons]
  cases agrees k e.1 with
  | true => rfl
  | false => rfl

theorem find?_namedEntries (named : Locals) (n : String) :
    find? (namedEntries named) (.str n) = Table.get? named n := by
  induction named with
  | nil => rfl
  | cons e named ih =>
    rw [Table.get?, ← ih, namedEntries, List.map_cons, find?_cons]
    exact if_congr (agrees_str_iff.trans (str.injEq _ _).to_iff) rfl rfl

theorem find?_map_overridden (entries : List (Value × Value)) (named : Locals) (n : String) :
    find? (entries.map (overridden named)) (.str n) =
      (find? entries (.str n)).map (Table.get? named n).getD := by
  induction entries with
  | nil => rfl
  | cons e entries ih =>
    rw [List.map_cons, find?_cons, find?_cons, fst_overridden, ih]
    split
    · rename_i h
      obtain ⟨k, v⟩ := e
      obtain rfl : k = .str n := agrees_str_iff.1 h
      rfl
    · rfl

/-- What a merged map has under a name: the value of the argument, or else its own. -/
theorem find?_merged (entries : List (Value × Value)) (named : Locals) (n : String) :
    find? (merged entries named) (.str n) =
      (Table.get? named n).or (find? entries (.str n)) := by
  have happend : find? (merged entries named) (.str n) =
      (find? (entries.map (overridden named)) (.str n)).or
        (find? ((namedEntries named).filter fun e => (find? entries e.1).isNone) (.str n)) := by
    simp only [merged, find?, List.find?_append, Option.map_or]
  rw [happend, find?_map_overridden]
  cases hn : find? entries (.str n) with
  | some v => cases Table.get? named n <;> rfl
  | none =>
    have hkept : find? ((namedEntries named).filter fun e => (find? entries e.1).isNone)
        (.str n) = find? (namedEntries named) (.str n) := by
      rw [find?, find?, List.find?_filter]
      congr 2
      funext e
      rw [Bool.eq_iff_iff, decide_eq_true_iff, and_iff_right_iff_imp]
      intro he
      rw [agrees_str_iff.1 he, hn]
      rfl
    rw [hkept, find?_namedEntries, Option.map_none, Option.none_or, Option.or_none]

/-- A new name gets an entry behind the others. -/
theorem insert_of_absent (h : ∀ e ∈ entries, agrees k e.1 = false) :
    insert entries k v = entries ++ [(k, v)] := by
  induction entries with
  | nil => rfl
  | cons e entries ih =>
    have hhead := h e List.mem_cons_self
    rw [insert, hhead, ih fun f hf => h f (List.mem_cons_of_mem _ hf)]
    rfl

/-- A name that a map has gets another value in its place. -/
theorem insert_of_present (hkeyed : (map entries).Keyed) (h : ∃ e ∈ entries, e.1 = .str n) :
    insert entries (.str n) v = entries.map (overridden [(n, v)]) := by
  induction entries with
  | nil =>
    obtain ⟨e, he, -⟩ := h
    cases he
  | cons d entries ih =>
    obtain ⟨hd, hentries⟩ := List.pairwise_cons.1 hkeyed
    rw [insert, List.map_cons]
    by_cases hn : d.1 = .str n
    · -- no later key agrees with this one, so nothing else changes
      have hrest : ∀ e ∈ entries, overridden [(n, v)] e = e := fun e he => by
        have hne : e.1 ≠ .str n := fun heq => by
          have hagrees := hd e he
          rw [heq, hn, agrees_str, beq_self_eq_true] at hagrees
          cases hagrees
        rw [overridden_of_ne hne, overridden_nil]
      obtain ⟨k, w⟩ := d
      subst hn
      rw [if_pos (agrees_str_iff.2 rfl), List.map_congr_left hrest, List.map_id', overridden,
        Table.get?, if_pos rfl]
      rfl
    · have hpresent : ∃ e ∈ entries, e.1 = .str n := by
        obtain ⟨e, he, heq⟩ := h
        rcases List.mem_cons.1 he with rfl | he
        · exact absurd heq hn
        · exact ⟨e, he, heq⟩
      have hagrees : ¬ agrees (.str n) d.1 = true := fun ha => hn (agrees_str_iff.1 ha)
      rw [if_neg hagrees, ih hentries hpresent, overridden_of_ne hn, overridden_nil]

theorem absent_of_not (h : ¬ ∃ e ∈ entries, e.1 = .str n) :
    ∀ e ∈ entries, agrees (.str n) e.1 = false := by
  intro e he
  exact Bool.eq_false_iff.2 fun ha => h ⟨e, he, agrees_str_iff.1 ha⟩

theorem merged_nil (entries : List (Value × Value)) : merged entries [] = entries := by
  have hsame : overridden [] = id := funext overridden_nil
  simp only [merged, hsame, List.map_id, namedEntries, List.map_nil, List.filter_nil,
    List.append_nil]

theorem overridden_cons (hn : n ∉ Table.names named) (e : Value × Value) :
    overridden ((n, v) :: named) e = overridden named (overridden [(n, v)] e) := by
  by_cases he : e.1 = .str n
  · obtain ⟨k, w⟩ := e
    subst he
    have hfirst : ∀ rest : Locals, overridden ((n, v) :: rest) (.str n, w) = (.str n, v) := by
      intro rest
      rw [overridden, Table.get?, if_pos rfl]
      rfl
    rw [hfirst, hfirst, overridden_str_of_not_mem hn]
  · rw [overridden_of_ne he, overridden_of_ne he, overridden_nil]

theorem isNone_find?_insert (hkeyed : (map entries).Keyed) {m : String} (hm : m ≠ n) :
    (find? (insert entries (.str n) v) (.str m)).isNone =
      (find? entries (.str m)).isNone := by
  have hne : Value.str n ≠ .str m := fun he => hm (str.inj he).symm
  rw [Bool.eq_iff_iff, find?_str_isNone, find?_str_isNone]
  by_cases h : ∃ e ∈ entries, e.1 = .str n
  · rw [insert_of_present hkeyed h, List.forall_mem_map]
    simp only [fst_overridden]
  · rw [insert_of_absent (absent_of_not h), List.forall_mem_append, List.forall_mem_singleton]
    exact and_iff_left hne

/-- Merging can start with the first argument. -/
theorem merged_cons (hkeyed : (map entries).Keyed) (hn : n ∉ Table.names named) :
    merged entries ((n, v) :: named) = merged (insert entries (.str n) v) named := by
  have hothers : (namedEntries named).filter (fun e => (find? entries e.1).isNone) =
      (namedEntries named).filter
        fun e => (find? (insert entries (.str n) v) e.1).isNone := by
    refine List.filter_congr fun e he => ?_
    obtain ⟨⟨m, w⟩, hm, rfl⟩ := List.mem_map.1 he
    exact (isNone_find?_insert hkeyed (ne_of_mem_of_not_mem (List.mem_map_of_mem hm) hn)).symm
  have hmap : entries.map (overridden ((n, v) :: named)) =
      (entries.map (overridden [(n, v)])).map (overridden named) := by
    rw [List.map_map]
    exact List.map_congr_left fun e _ => overridden_cons hn e
  unfold merged
  rw [← hothers, hmap, namedEntries, List.map_cons, List.filter_cons]
  by_cases h : ∃ e ∈ entries, e.1 = .str n
  · have hpresent : ¬ (find? entries (.str n)).isNone = true := fun hnone => by
      obtain ⟨e, he, heq⟩ := h
      exact find?_str_isNone.1 hnone e he heq
    rw [if_neg hpresent, insert_of_present hkeyed h]
    rfl
  · have habsent : (find? entries (.str n)).isNone = true :=
      find?_str_isNone.2 fun e he heq => h ⟨e, he, heq⟩
    have hsame : entries.map (overridden [(n, v)]) = entries := by
      have heach : ∀ e ∈ entries, overridden [(n, v)] e = e := fun e he => by
        rw [overridden_of_ne fun heq => h ⟨e, he, heq⟩, overridden_nil]
      rw [List.map_congr_left heach, List.map_id']
    rw [if_pos habsent, insert_of_absent (absent_of_not h), hsame, List.map_append,
      List.map_singleton, overridden_str_of_not_mem hn, List.append_assoc]
    rfl

theorem foldl_insert_named (hkeyed : (map entries).Keyed) (hnamed : (Table.names named).Nodup) :
    (namedEntries named).foldl (fun es e => insert es e.1 e.2) entries = merged entries named := by
  induction named generalizing entries with
  | nil => exact (merged_nil entries).symm
  | cons e named ih =>
    obtain ⟨hn, hrest⟩ := List.nodup_cons.1 hnamed
    rw [merged_cons hkeyed hn]
    exact ih (pairwise_insert hkeyed _ _) hrest

theorem foldl_insert_append (before after : List (Value × Value))
    (hkeyed : (map (before ++ after)).Keyed) :
    after.foldl (fun es e => insert es e.1 e.2) before = before ++ after := by
  induction after generalizing before with
  | nil => exact (List.append_nil before).symm
  | cons e after ih =>
    have hnew : ∀ d ∈ before, agrees e.1 d.1 = false := fun d hd =>
      (List.pairwise_append.1 hkeyed).2.2 d hd e List.mem_cons_self
    rw [List.append_cons] at hkeyed
    rw [List.foldl_cons, insert_of_absent hnew, ih (before ++ [e]) hkeyed, ← List.append_cons]

theorem keyed_namedEntries (hnamed : (Table.names named).Nodup) :
    (map (namedEntries named)).Keyed := by
  have hkeys : (namedEntries named).Pairwise fun e f => e.1 ≠ f.1 :=
    List.pairwise_map.2 <| (List.pairwise_map.1 hnamed).imp fun hne he => hne (str.inj he)
  refine hkeys.imp_of_mem fun {e f} _ hf hne => ?_
  obtain ⟨⟨n, w⟩, -, rfl⟩ := List.mem_map.1 hf
  exact Bool.eq_false_iff.2 fun ha => hne (agrees_str_iff.1 ha)

end Value

namespace Template

open Value (merged)

variable {entries : List (Value × Value)} {named : Locals} {v : Value}

theorem callContext_of_ne_null (hv : v ≠ .null) : callContext [v] = .ok v := by
  unfold callContext
  split
  · rename_i he
    cases he
  · rename_i he
    exact absurd (List.singleton_inj.1 he) hv
  · rename_i he
    rw [List.singleton_inj.1 he]
  · rename_i hother
    exact absurd rfl (hother v)

theorem renderContext_single (v : Value) : renderContext [v] [] = .ok v := rfl

theorem has_takenName (hself : Failure.takenName ∉ named.names) :
    named.has Failure.takenName = false := by
  rw [Table.has, Table.get?_of_not_mem hself]
  rfl

theorem renderContext_nil (hnamed : named.names.Nodup)
    (hself : Failure.takenName ∉ named.names) :
    renderContext [] named = .ok (.map (namedEntries named)) := by
  have hbuilt : Value.ofEntries (namedEntries named) = .map (namedEntries named) :=
    congrArg Value.map (Value.foldl_insert_append [] _ (Value.keyed_namedEntries hnamed))
  rw [renderContext, has_takenName hself, hbuilt]
  rfl

theorem renderContext_map (hkeyed : (Value.map entries).Keyed) (hnamed : named.names.Nodup)
    (hself : Failure.takenName ∉ named.names) :
    renderContext [.map entries] named = .ok (.map (merged entries named)) := by
  have hbuilt : Value.ofEntries (entries ++ namedEntries named) =
      .map (merged entries named) := by
    rw [Value.ofEntries, List.foldl_append, Value.foldl_insert_append [] entries hkeyed,
      List.nil_append, Value.foldl_insert_named hkeyed hnamed]
  cases named with
  | nil => rw [Value.merged_nil, renderContext_single]
  | cons e named =>
    rw [renderContext, has_takenName hself, hbuilt]
    rfl

end Template

/-! ### Calls -/

namespace Session

open Template (namedEntries)
open Value (merged)

/-- A render looks only at the context that its call passes. -/
theorem step_render_of_contextOf (s : Session) (id : String) {call other : Call}
    (h : contextOf call = contextOf other) :
    s.step (.render id call) = s.step (.render id other) := by
  simp only [step, attempt, h]

/-- A call and a render pass the same context on, if it is not null; and no named argument may be
called like the object that the render belongs to. A map merged with named arguments has the value
of the argument under a name, or else its own. -/
theorem contexts_agree (s : Session) (id : String) :
    (∀ v, v ≠ .null → s.step (.render id (.plain [v])) = s.step (.render id (.named [v] []))) ∧
    ∀ named : Locals, named.names.Nodup → Failure.takenName ∉ named.names →
      (∀ entries, (Value.map entries).Keyed →
        s.step (.render id (.named [.map entries] named)) =
          s.step (.render id (.plain [.map (merged entries named)]))) ∧
      s.step (.render id (.named [] named)) =
        s.step (.render id (.plain [.map (namedEntries named)])) ∧
      ∀ entries n, Value.find? (merged entries named) (.str n) =
        (named.get? n).or (Value.find? entries (.str n)) := by
  refine ⟨fun v hv => ?_, fun named hnamed hself => ⟨fun entries hkeyed => ?_, ?_, ?_⟩⟩
  · exact step_render_of_contextOf s id (Template.callContext_of_ne_null hv)
  · exact step_render_of_contextOf s id (Template.renderContext_map hkeyed hnamed hself)
  · exact step_render_of_contextOf s id (Template.renderContext_nil hnamed hself)
  · exact fun entries n => Value.find?_merged entries named n

/-- A session with a template that was compiled with the built-in helpers. -/
def holding (t : Template) : Session where
  registries := [.builtin]
  templates := [("t", ⟨t, 0⟩)]

theorem step_holding {t : Template} {call : Call} {context : Value} {out : String}
    (hcontext : contextOf call = .ok context)
    (hrender : t.render Builtin.inlines context = .ok out) :
    (holding t).step (.render "t" call) = (holding t, .ok (.rendered out)) := by
  have hattempt : (holding t).attempt (.render "t" call) = .ok (holding t, .rendered out) := by
    rw [attempt, hcontext]
    change ((t.render Builtin.inlines context).mapError SessionError.ofRender >>=
      fun out => pure (holding t, Answer.rendered out)) = _
    rw [hrender]
    rfl
  rw [step, hattempt]

/-- A map with values for two names, and arguments for one of them and for a third. -/
theorem contexts_agree_of_update :
    (Value.map [(.str "a", .int 1), (.str "b", .int 2)]).Keyed ∧
    Value.int 5 ≠ .null ∧
    ∃ t, (⟨.builtin, {}⟩ : Workshop).compile (marked "a" ++ marked "b" ++ marked "z") none = .ok t ∧
      (holding t).step (.render "t" (.plain [.int 5])) =
        (holding t).step (.render "t" (.named [.int 5] [])) ∧
      (holding t).step (.render "t" (.named [] [("b", .int 3), ("z", .int 1)])) =
        (holding t).step (.render "t" (.plain [.map [(.str "b", .int 3), (.str "z", .int 1)]])) ∧
      ((holding t).step (.render "t" (.named [.map [(.str "a", .int 1), (.str "b", .int 2)]]
        [("b", .int 3), ("z", .int 1)]))).2 = .ok (.rendered "131") := by
  have hnames : ["b", "z"].Nodup := by decide
  have hself : Failure.takenName ∉ ["b", "z"] := by decide
  have hkeyed : (Value.map [(.str "a", .int 1), (.str "b", .int 2)]).Keyed :=
    @Value.keyed_namedEntries [("a", .int 1), ("b", .int 2)] (by decide)
  obtain ⟨t, ht, hrender⟩ : ∃ t,
      (⟨.builtin, {}⟩ : Workshop).compile (marked "a" ++ marked "b" ++ marked "z") none = .ok t ∧
        t.render Builtin.inlines
          (.map [(.str "a", .int 1), (.str "b", .int 3), (.str "z", .int 1)]) = .ok "131" :=
    exists_render_of_any (by decide +kernel)
  obtain ⟨hplain, hnamed⟩ := contexts_agree (holding t) "t"
  obtain ⟨hmap, hnone, -⟩ := hnamed [("b", .int 3), ("z", .int 1)] hnames hself
  refine ⟨hkeyed, nofun, t, ht, hplain _ nofun, hnone, ?_⟩
  rw [hmap _ hkeyed, step_holding rfl hrender]

/-- Null stands for the empty map in a plain call only, and an argument with the name of the
object is refused. -/
theorem contexts_disagree :
    (∃ t, (⟨.builtin, {}⟩ : Workshop).compile (marked "=this") none = .ok t ∧
      ((holding t).step (.render "t" (.plain [.null]))).2 = .ok (.rendered "\x7b\x7d") ∧
      ((holding t).step (.render "t" (.named [.null] []))).2 = .ok (.rendered "")) ∧
    ∃ t, (⟨.builtin, {}⟩ : Workshop).compile (marked "=self") none = .ok t ∧
      ((holding t).step (.render "t" (.plain [.map [(.str "self", .str "x")]]))).2 =
        .ok (.rendered "x") ∧
      ((holding t).step (.render "t" (.named [] [("self", .str "x")]))).2 =
        .error (.failure (.nameTaken "Template.render")) := by
  obtain ⟨t, ht, hempty⟩ : ∃ t, (⟨.builtin, {}⟩ : Workshop).compile (marked "=this") none = .ok t ∧
      t.render Builtin.inlines (.map []) = .ok "\x7b\x7d" :=
    exists_render_of_any (by decide +kernel)
  obtain ⟨u, hu, hnull⟩ : ∃ t, (⟨.builtin, {}⟩ : Workshop).compile (marked "=this") none = .ok t ∧
      t.render Builtin.inlines .null = .ok "" :=
    exists_render_of_any (by decide +kernel)
  obtain rfl : t = u := Except.ok.inj (ht.symm.trans hu)
  obtain ⟨t', ht', hself⟩ : ∃ t,
      (⟨.builtin, {}⟩ : Workshop).compile (marked "=self") none = .ok t ∧
        t.render Builtin.inlines (.map [(.str "self", .str "x")]) = .ok "x" :=
    exists_render_of_any (by decide +kernel)
  refine ⟨⟨t, ht, ?_, ?_⟩, t', ht', ?_, rfl⟩
  · rw [step_holding rfl hempty]
  · rw [step_holding rfl hnull]
  · rw [step_holding rfl hself]

end Session

end Stencil
