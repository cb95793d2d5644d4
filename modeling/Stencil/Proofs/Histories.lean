import Mathlib.Data.List.Nodup
import Stencil.Proofs.Binding

/-!
# Histories of a binder

A binder after any operations on it: scopes opened, closed and reset, fresh names given out, paths
bound. One lemma says what an operation can do to the locals that can be seen (`perform_step`), and
by induction what a history can do (`run_steps`). Where no path spells a numbered name, no two
locals that can be seen share a name (`origins_kept`).
-/

namespace Stencil.Binder

/-- An operation on a binder. -/
inductive Op
  | push (scope : Ref)
  | pop
  | reset
  | fresh (name : String)
  | bind (paths : List String)

/-- The binder after an operation. What a bind has bound before a path that fails stays. -/
def perform (b : Binder) : Op → Binder
  | .push scope => b.push scope
  | .pop => b.pop
  | .reset => b.reset
  | .fresh name => (b.fresh name).2
  | .bind paths => (b.bind paths).1

def run (b : Binder) (ops : List Op) : Binder := ops.foldl perform b

/-- The paths that an operation binds spell no numbered name. -/
def Op.Plain : Op → Prop
  | .bind paths =>
    ∀ p ∈ paths, ∀ n, Path.property? p = some n → ¬ IsNumbered (Path.placeholder n)
  | _ => True

/-- The binding of a local, looked up from the innermost level. -/
def lookup? (b : Binder) (name : String) : Option Binding :=
  b.levels.findSome? fun l => l.bound.find? fun e => e.target == name

/-- What was bound for a path carries the path: a path with a first property is read from the local
that holds just that property, and any other path needs no local. -/
def Carries (b : Binder) (path : String) (bound : Bound) : Prop :=
  ∃ r, Path.resolve path b.scopes = .ok r ∧ (r.name = none → bound.ref = r.direct) ∧
    ∀ name, r.name = some name → ∃ e, b.lookup? bound.ref.root = some e ∧ e.source = r.base ∧
      Path.key name = .ok e.key ∧ bound.ref.path = r.rest

/-! ### What an operation can do -/

/-- A local that comes in has a number that has not been given out before, or none. -/
structure Extends (b b' : Binder) : Prop where
  count : b.count ≤ b'.count
  targets : ∀ x ∈ b'.targets,
    x ∈ b.targets ∨ ∀ stem k, x = numbered stem k → b.count < k ∧ k ≤ b'.count

namespace Extends

theorem of_subset {b b' : Binder} (hc : b.count ≤ b'.count) (ht : b'.targets ⊆ b.targets) :
    Extends b b' :=
  ⟨hc, fun _ hx => .inl (ht hx)⟩

theorem refl (b : Binder) : Extends b b := of_subset (Nat.le_refl _) fun _ hx => hx

theorem trans {a b c : Binder} (h : Extends a b) (k : Extends b c) : Extends a c := by
  have hab := h.count
  have hbc := k.count
  refine ⟨Nat.le_trans hab hbc, fun x hx => ?_⟩
  rcases k.targets x hx with hx | hnew
  · rcases h.targets x hx with hx | hnew
    · exact .inl hx
    · refine .inr fun stem n hn => ?_
      have hrange := hnew stem n hn
      omega
  · refine .inr fun stem n hn => ?_
    have hrange := hnew stem n hn
    omega

theorem counted {b b' : Binder} (h : Extends b b') (hb : Counted b) : Counted b' := by
  intro stem k hk
  rcases h.targets _ hk with hold | hnew
  · exact Nat.le_trans (hb stem k hold) h.count
  · exact (hnew stem k rfl).2

/-- A number that has been given out is not given out again. -/
theorem not_mem {b b' : Binder} (h : Extends b b') {stem : String} {k : Nat} (hk : k ≤ b.count)
    (hx : numbered stem k ∉ b.targets) : numbered stem k ∉ b'.targets := by
  intro hm
  rcases h.targets _ hm with hold | hnew
  · exact hx hold
  · have hrange := hnew stem k rfl
    omega

end Extends

/-- The locals that can be seen have different names, and the numbers in them have been counted. -/
structure Distinct (b : Binder) : Prop where
  nodup : b.targets.Nodup
  counted : Counted b

/-- A step from a binder: its locals keep apart, and those that come in are new. -/
def Keeps (b b' : Binder) : Prop := b'.targets.Nodup ∧ Extends b b'

theorem Keeps.distinct {b b' : Binder} (h : Keeps b b') (hb : Distinct b) : Distinct b' :=
  ⟨h.1, h.2.counted hb.counted⟩

theorem Keeps.of_sublist {b b' : Binder} (hb : Distinct b) (hc : b.count ≤ b'.count)
    (ht : b'.targets.Sublist b.targets) : Keeps b b' :=
  ⟨ht.nodup hb.nodup, .of_subset hc ht.subset⟩

theorem levels_add {b : Binder} {l : Level} {ls : List Level} {e : Binding} (count : Nat)
    (hl : b.levels = l :: ls) (h : e.target ∉ b.targets) :
    (({ b with count := count } : Binder).add e).levels = ⟨l.scope, l.bound ++ [e]⟩ :: ls := by
  have hn : e.target ∉ l.bound.map Binding.target := by
    intro hm
    apply h
    unfold targets entries entriesOf
    rw [hl, List.flatMap_cons, List.map_append]
    exact List.mem_append_left _ hm
  unfold add modify
  simp only [hl, Level.add, put_of_not_mem hn]

theorem targets_add_perm {b : Binder} {e : Binding} (count : Nat) (hl : b.levels ≠ [])
    (h : e.target ∉ b.targets) :
    (({ b with count := count } : Binder).add e).targets.Perm (e.target :: b.targets) := by
  obtain ⟨l, ls, hls⟩ := List.exists_cons_of_ne_nil hl
  have hadd := levels_add count hls h
  unfold targets entries entriesOf
  rw [hadd, hls, List.flatMap_cons, List.flatMap_cons, List.map_append, List.map_append,
    List.map_append, List.append_assoc]
  exact List.perm_middle

theorem BindsPath.keeps {b b' : Binder} {path : String} {bound : Bound}
    (h : BindsPath b path b' bound) (hb : Distinct b) (hl : b.levels ≠ [])
    (hp : ∀ n, Path.property? path = some n → ¬ IsNumbered (Path.placeholder n)) :
    Keeps b b' := by
  cases h with
  | direct _ _ => exact ⟨hb.nodup, .refl b⟩
  | held _ _ _ _ _ => exact ⟨hb.nodup, .refl b⟩
  | @made r name e count resolved named _ _ _ target =>
    have hnew := target.not_mem hb.counted
    have hproperty : Path.property? path = some name := by
      rcases Path.resolve_cases resolved with ⟨cs, _, hr⟩ | ⟨hlocal, _, hn, _⟩
      · rw [hr] at named
        cases named
      · unfold Path.property?
        rw [hlocal]
        exact hn.symm.trans named
    refine ⟨(targets_add_perm count hl hnew).nodup_iff.2 (List.nodup_cons.2 ⟨hnew, hb.nodup⟩),
      ?_, fun x hx => ?_⟩
    · rw [count_add]
      exact target.count_le
    · rcases (mem_targets_add count hl hnew).1 hx with hx | rfl
      · exact .inl hx
      · -- the new name is the identifier, which has no number, or it has the next number
        refine .inr fun stem k hk => ?_
        rcases target with ⟨ht, _, _⟩ | ⟨ht, rfl⟩
        · exact absurd ⟨stem, k, ht ▸ hk⟩ (hp name hproperty)
        · have hn := numbered_number (ht.symm.trans hk)
          rw [count_add]
          change b.count < k ∧ k ≤ b.count + 1
          omega

theorem keeps_bindEach {b : Binder} {paths : List String} (hb : Distinct b) (hl : b.levels ≠ [])
    (hp : (Op.bind paths).Plain) : Keeps b (b.bindEach paths).1 := by
  induction paths generalizing b with
  | nil => exact ⟨hb.nodup, .refl b⟩
  | cons p ps ih =>
    unfold bindEach
    split
    · exact ⟨hb.nodup, .refl b⟩
    · rename_i b₁ bound hbind
      have hstep := bindsPath_of_eq hbind
      have hkeeps := hstep.keeps hb hl (hp p List.mem_cons_self)
      have hrest := ih (hkeeps.distinct hb) (hstep.within.levels_ne_nil hl)
        fun q hq => hp q (List.mem_cons_of_mem _ hq)
      exact ⟨hrest.1, hkeeps.2.trans hrest.2⟩

theorem sublist_targets (b : Binder) :
    ((entriesOf b.levels.tail).map Binding.target).Sublist b.targets := by
  rcases b with ⟨count, levels⟩
  cases levels with
  | nil => exact List.Sublist.refl _
  | cons l ls => exact (List.sublist_append_right l.bound (entriesOf ls)).map _

/-- What any operation with plain paths can do. -/
theorem perform_step {b : Binder} {op : Op} (hb : Distinct b) (hp : op.Plain) :
    Keeps b (b.perform op) := by
  cases op with
  | push scope => exact ⟨hb.nodup, .of_subset (Nat.le_refl _) fun _ hx => hx⟩
  | pop =>
    rcases b with ⟨count, levels⟩
    cases levels with
    | nil => exact ⟨hb.nodup, .refl _⟩
    | cons l ls => exact .of_sublist hb (Nat.le_refl _) (sublist_targets ⟨count, l :: ls⟩)
  | reset =>
    rcases b with ⟨count, levels⟩
    cases levels with
    | nil => exact ⟨hb.nodup, .refl _⟩
    | cons l ls => exact .of_sublist hb (Nat.le_refl _) (sublist_targets ⟨count, l :: ls⟩)
  | fresh name => exact ⟨hb.nodup, .of_subset (Nat.le_succ _) fun _ hx => hx⟩
  | bind paths =>
    change Keeps b (b.bind paths).1
    unfold bind
    split
    · exact ⟨hb.nodup, .refl b⟩
    · rename_i hne
      exact keeps_bindEach hb (fun hl => hne (by rw [hl]; rfl)) hp

/-- What any history with plain paths can do. -/
theorem run_steps {b : Binder} {ops : List Op} (hb : Distinct b) (hp : ∀ op ∈ ops, op.Plain) :
    Keeps b (b.run ops) := by
  induction ops generalizing b with
  | nil => exact ⟨hb.nodup, .refl b⟩
  | cons op ops ih =>
    have hstep := perform_step hb (hp op List.mem_cons_self)
    have hrest := ih (hstep.distinct hb) fun o ho => hp o (List.mem_cons_of_mem _ ho)
    exact ⟨hrest.1, hstep.2.trans hrest.2⟩

theorem plain_bind {paths : List String} (h : ∀ p ∈ paths, '@' ∉ p.toList) :
    (Op.bind paths).Plain := fun p hp => (plain_of_not_mem (h p hp)).2

theorem distinct_initial : Distinct initial :=
  ⟨List.nodup_nil, fun _ _ hk => absurd hk List.not_mem_nil⟩

/-! ### What a bind gives -/

theorem lookup?_of_mem {b : Binder} {e : Binding} (hb : b.targets.Nodup) (he : e ∈ b.entries) :
    b.lookup? e.target = some e := by
  have hfind : b.lookup? e.target = b.entries.find? fun d => d.target == e.target :=
    List.find?_flatMap.symm
  have hsome : (b.entries.find? fun d => d.target == e.target).isSome = true :=
    List.find?_isSome.2 ⟨e, he, beq_self_eq_true _⟩
  obtain ⟨d, hd⟩ := Option.isSome_iff_exists.1 hsome
  have hp := List.find?_some hd
  have htarget : d.target = e.target := beq_iff_eq.1 hp
  have hsame := List.inj_on_of_nodup_map hb (List.mem_of_find?_eq_some hd) he htarget
  rw [hfind, hd, hsame]

theorem Denotes.carries {b : Binder} {path : String} {bound : Bound}
    (h : Denotes b path bound.ref) (hb : b.targets.Nodup) : Carries b path bound := by
  rcases bound with ⟨ref, made⟩
  cases h with
  | direct resolved unnamed =>
    refine ⟨_, resolved, fun _ => rfl, fun name hn => ?_⟩
    rw [unnamed] at hn
    cases hn
  | held resolved named key source mem =>
    refine ⟨_, resolved, fun hn => ?_, fun name hn => ?_⟩
    · rw [named] at hn
      cases hn
    · rw [named] at hn
      cases hn
      exact ⟨_, lookup?_of_mem hb mem, source, key, rfl⟩

theorem BindsPath.levels {b b' : Binder} {path : String} {bound : Bound} {l : Level}
    {ls : List Level} (h : BindsPath b path b' bound) (hb : Counted b) (hl : b.levels = l :: ls) :
    b'.levels = ⟨l.scope, l.bound ++ bound.made.toList⟩ :: ls := by
  cases h with
  | direct _ _ => rw [hl, Option.toList_none, List.append_nil]
  | held _ _ _ _ _ => rw [hl, Option.toList_none, List.append_nil]
  | made _ _ _ _ _ target => rw [levels_add _ hl (target.not_mem hb), Option.toList_some]

theorem BindsEach.levels {b b' : Binder} {paths : List String} {bounds : List Bound} {l : Level}
    {ls : List Level} (h : BindsEach b paths b' bounds) (hb : Distinct b)
    (hl : b.levels = l :: ls) (hp : (Op.bind paths).Plain) :
    b'.levels = ⟨l.scope, l.bound ++ bounds.filterMap Bound.made⟩ :: ls ∧ Distinct b' ∧
      List.Forall₂ (Denotes b') paths (bounds.map Bound.ref) := by
  induction h generalizing l with
  | nil => exact ⟨by rw [hl, List.filterMap_nil, List.append_nil], hb, .nil⟩
  | @cons b b₁ b' path bound paths bounds head tail ih =>
    have hne : b.levels ≠ [] := by
      rw [hl]
      exact List.cons_ne_nil _ _
    have hl₁ := head.levels hb.counted hl
    have hb₁ := (head.keeps hb hne (hp path List.mem_cons_self)).distinct hb
    obtain ⟨hl', hb', hd⟩ := ih hb₁ hl₁ fun q hq => hp q (List.mem_cons_of_mem _ hq)
    have hlevels : b'.levels =
        ⟨l.scope, l.bound ++ (bound :: bounds).filterMap Bound.made⟩ :: ls := by
      rw [hl', List.append_assoc]
      cases hm : bound.made with
      | none => rw [List.filterMap_cons_none hm, Option.toList_none, List.nil_append]
      | some e => rw [List.filterMap_cons_some hm, Option.toList_some, List.singleton_append]
    have hentries : ∀ e ∈ b₁.entries, e ∈ b'.entries := by
      intro e he
      unfold entries entriesOf at he ⊢
      rw [hl₁, List.flatMap_cons] at he
      rw [hl', List.flatMap_cons]
      rcases List.mem_append.1 he with he | he
      · exact List.mem_append_left _ (List.mem_append_left _ he)
      · exact List.mem_append_right _ he
    exact ⟨hlevels, hb',
      .cons ((head.denotes hne hb.counted).mono tail.within.scopes hentries) hd⟩

/-- Where no path spells a numbered name, the locals that can be seen have different names, a fresh
name is none of them and none of those to come, and a bind adds to the innermost level what it made
and gives for every path the local that holds its first property. -/
theorem origins_kept (ops : List Op) (h : ∀ op ∈ ops, op.Plain) :
    (initial.run ops).targets.Nodup ∧
      (∀ name later, (∀ op ∈ later, op.Plain) →
        ((initial.run ops).fresh name).1 ∉ (initial.run ops).targets ∧
          ((initial.run ops).fresh name).1 ∉
            (((initial.run ops).fresh name).2.run later).targets) ∧
      ∀ paths b' bounds, (Op.bind paths).Plain →
        (initial.run ops).bind paths = (b', .ok bounds) →
          ∃ l ls, (initial.run ops).levels = l :: ls ∧
            b'.levels = ⟨l.scope, l.bound ++ bounds.filterMap Bound.made⟩ :: ls ∧
            List.Forall₂ (Carries b') paths bounds := by
  have hb := (run_steps distinct_initial h).distinct distinct_initial
  refine ⟨hb.nodup, fun name later hlater => ?_, fun paths b' bounds hp hbind => ?_⟩
  · have hnew : numbered name ((initial.run ops).count + 1) ∉ (initial.run ops).targets := by
      intro hm
      have hcount := hb.counted _ _ hm
      omega
    have hstep : Keeps (initial.run ops) ((initial.run ops).perform (.fresh name)) :=
      perform_step hb trivial
    have hfresh : Distinct ((initial.run ops).fresh name).2 := hstep.distinct hb
    exact ⟨hnew, (run_steps hfresh hlater).2.not_mem (Nat.le_refl _) hnew⟩
  · have hne : (initial.run ops).levels ≠ [] := by
      intro hl
      rw [bind, hl] at hbind
      cases hbind
    obtain ⟨l, ls, hl⟩ := List.exists_cons_of_ne_nil hne
    obtain ⟨hl', hb', hd⟩ := (bindsEach_of_bind hbind).levels hb hl hp
    have hcarries := (List.forall₂_map_right_iff.1 hd).imp fun p bound hd =>
      Denotes.carries hd hb'.nodup
    exact ⟨l, ls, hl, hl', hcarries⟩

theorem origins_kept_of_nested :
    (∀ op ∈ [Op.bind ["a"], .push ⟨"b", []⟩, .bind ["a"], .fresh "c"], op.Plain) ∧
      (initial.run [.bind ["a"], .push ⟨"b", []⟩, .bind ["a"], .fresh "c"]).targets =
        ["a@1", "a"] ∧
      (initial.run [.bind ["a"], .push ⟨"b", []⟩, .bind ["a"], .fresh "c"]).targets.Nodup ∧
      ∃ b' bounds,
        (initial.run [.bind ["a"], .push ⟨"b", []⟩, .bind ["a"], .fresh "c"]).bind
          ["/a.x", "0"] = (b', .ok bounds) ∧
        List.Forall₂ (Carries b') ["/a.x", "0"] bounds := by
  have hplain : ∀ op ∈ [Op.bind ["a"], .push ⟨"b", []⟩, .bind ["a"], .fresh "c"], op.Plain := by
    intro op hop
    simp only [List.mem_cons, List.not_mem_nil, or_false] at hop
    rcases hop with rfl | rfl | rfl | rfl
    · exact plain_bind (by decide)
    · trivial
    · exact plain_bind (by decide)
    · trivial
  have h := origins_kept _ hplain
  refine ⟨hplain, by decide, h.1, _, _, rfl, ?_⟩
  obtain ⟨l, ls, _, _, hcarries⟩ := h.2.2 ["/a.x", "0"] _ _ (plain_bind (by decide)) rfl
  exact hcarries

/-- A property whose name is spelled like a numbered name comes under that name, which the binder
then gives out once more. -/
theorem origins_confused :
    (initial.run [.bind ["a@1", "a"], .push ⟨"b", []⟩, .bind ["a"]]).targets =
        ["a@1", "a@1", "a"] ∧
      ¬ (initial.run [.bind ["a@1", "a"], .push ⟨"b", []⟩, .bind ["a"]]).targets.Nodup ∧
      ∃ b' bound,
        (initial.run [.bind ["a@1", "a"], .push ⟨"b", []⟩, .bind ["a"]]).bind ["/a@1"] =
          (b', .ok [bound]) ∧
        ¬ Carries b' "/a@1" bound := by
  refine ⟨by decide, by decide, _, _, rfl, ?_⟩
  rintro ⟨r, hr, _, hcarries⟩
  have hresolved : r = ⟨Ref.context, some "a@1", []⟩ := (Except.ok.inj hr).symm
  obtain ⟨e, he, hsource, _⟩ := hcarries "a@1" (by rw [hresolved])
  have hfound : e = ⟨"a@1", ⟨"b", []⟩, .name "a"⟩ := (Option.some.inj he).symm
  rw [hfound, hresolved] at hsource
  exact absurd hsource (by decide)

end Stencil.Binder
