import Mathlib.Data.List.Forall2
import Stencil.Proofs.Names

/-!
# What binding does

One relation says all that binding a path can do (`BindsPath`): the path needs no local, or some
open level holds its property, or a local is made for it in the innermost level. The invariant of
the binder (`Tidy`) then keeps the names apart: the name of a local that is made is none of those
that are in use.
-/

namespace Stencil.Binder

def entriesOf (ls : List Level) : List Binding := ls.flatMap Level.bound

/-- The bindings that can be seen. -/
def entries (b : Binder) : List Binding := entriesOf b.levels

/-- The names of the locals that can be seen. -/
def targets (b : Binder) : List String := b.entries.map Binding.target

/-- The locals that the open scopes start from. -/
def roots (b : Binder) : List String := b.scopes.map Ref.root

theorem mem_targets {b : Binder} {e : Binding} (h : e ∈ b.entries) : e.target ∈ b.targets :=
  List.mem_map_of_mem h

theorem mem_roots {b : Binder} {s : Ref} (h : s ∈ b.scopes) : s.root ∈ b.roots :=
  List.mem_map_of_mem h

/-! ### Binding one path -/

/-- A local for `id` has the name `id`, or a numbered one where that is taken. -/
def TakesName (b : Binder) (id target : String) (count : Nat) : Prop :=
  target = id ∧ target ∉ b.targets ∧ count = b.count ∨
    target = numbered id (b.count + 1) ∧ count = b.count + 1

inductive BindsPath (b : Binder) (path : String) : Binder → Bound → Prop
  /-- The path needs no local. -/
  | direct {r : Resolved} (resolved : Path.resolve path b.scopes = .ok r)
      (unnamed : r.name = none) :
      BindsPath b path b ⟨r.direct, none⟩
  /-- A local that can be seen holds the property. -/
  | held {r : Resolved} {name : String} {e : Binding}
      (resolved : Path.resolve path b.scopes = .ok r) (named : r.name = some name)
      (key : Path.key name = .ok e.key) (source : e.source = r.base) (mem : e ∈ b.entries) :
      BindsPath b path b ⟨⟨e.target, r.rest⟩, none⟩
  /-- No local holds the property, and one is made for it. -/
  | made {r : Resolved} {name : String} {e : Binding} {count : Nat}
      (resolved : Path.resolve path b.scopes = .ok r) (named : r.name = some name)
      (key : Path.key name = .ok e.key) (source : e.source = r.base)
      (free : ∀ d ∈ b.entries, d.source = e.source → d.key ≠ e.key)
      (target : TakesName b (Path.placeholder name) e.target count) :
      BindsPath b path (({ b with count := count } : Binder).add e)
        ⟨⟨e.target, r.rest⟩, some e⟩

theorem isTaken_iff (b : Binder) (name : String) : b.isTaken name = true ↔ name ∈ b.targets := by
  simp only [isTaken, targets, entries, entriesOf, List.any_eq_true, List.mem_map,
    List.mem_flatMap, beq_iff_eq]
  constructor
  · rintro ⟨l, hl, e, he, ht⟩
    exact ⟨e, ⟨l, hl, he⟩, ht⟩
  · rintro ⟨e, ⟨l, hl, he⟩, ht⟩
    exact ⟨l, hl, e, he, ht⟩

theorem holder?_some {b : Binder} {source : Ref} {key : Segment} {target : String}
    (h : b.holder? source key = some target) :
    ∃ e ∈ b.entries, e.source = source ∧ e.key = key ∧ e.target = target := by
  unfold holder? at h
  obtain ⟨l, hl, he⟩ := List.exists_of_findSome?_eq_some h
  obtain ⟨e, hf, rfl⟩ := Option.map_eq_some_iff.1 he
  have hp := List.find?_some hf
  simp only [Bool.and_eq_true, beq_iff_eq] at hp
  exact ⟨e, List.mem_flatMap.2 ⟨l, hl, List.mem_of_find?_eq_some hf⟩, hp.1, hp.2, rfl⟩

theorem holder?_none {b : Binder} {source : Ref} {key : Segment}
    (h : b.holder? source key = none) : ∀ e ∈ b.entries, e.source = source → e.key ≠ key := by
  intro e he hs hk
  obtain ⟨l, hl, hel⟩ := List.mem_flatMap.1 he
  unfold holder? at h
  have hn := List.findSome?_eq_none_iff.1 h l hl
  have hf := List.find?_eq_none.1 (Option.map_eq_none_iff.1 hn) e hel
  simp [hs, hk] at hf

theorem bindsPath_of_eq {b b' : Binder} {path : String} {bound : Bound}
    (h : b.bindPath path = .ok (b', bound)) : BindsPath b path b' bound := by
  unfold bindPath at h
  split at h
  · cases h
  · rename_i r hr
    split at h
    · rename_i hn
      cases h
      exact .direct hr hn
    · rename_i name hn
      split at h
      · cases h
      · rename_i key hk
        have h := Except.ok.inj h
        unfold bindProperty at h
        split at h
        · rename_i target ht
          obtain ⟨e, hmem, hsource, hkey, rfl⟩ := holder?_some ht
          cases h
          exact .held hr hn (hkey ▸ hk) hsource hmem
        · rename_i hnone
          have hfree := holder?_none hnone
          simp only at h
          by_cases ht : b.isTaken (Path.placeholder name) = true
          · simp only [ht, if_true, fresh_eq] at h
            cases h
            exact .made hr hn hk rfl hfree (.inr ⟨rfl, rfl⟩)
          · simp only [ht, Bool.false_eq_true, if_false] at h
            cases h
            have hnew : Path.placeholder name ∉ b.targets := fun hm => ht ((isTaken_iff b _).2 hm)
            exact .made hr hn hk rfl hfree (.inl ⟨rfl, hnew, rfl⟩)

/-! ### Binding paths in order -/

inductive BindsEach : Binder → List String → Binder → List Bound → Prop
  | nil {b : Binder} : BindsEach b [] b []
  | cons {b b₁ b' : Binder} {path : String} {bound : Bound} {paths : List String}
      {bounds : List Bound} (head : BindsPath b path b₁ bound)
      (tail : BindsEach b₁ paths b' bounds) : BindsEach b (path :: paths) b' (bound :: bounds)

theorem bindsEach_of_eq {b b' : Binder} {paths : List String} {bounds : List Bound}
    (h : b.bindEach paths = (b', .ok bounds)) : BindsEach b paths b' bounds := by
  induction paths generalizing b bounds with
  | nil =>
    cases h
    exact .nil
  | cons p ps ih =>
    unfold bindEach at h
    split at h
    · cases h
    · rename_i b₁ bound hp
      simp only [Prod.mk.injEq] at h
      cases hr : (b₁.bindEach ps).2 with
      | error e => simp [hr, Except.map] at h
      | ok rest =>
        simp only [hr, Except.map, Except.ok.injEq] at h
        obtain ⟨hb, rfl⟩ := h
        exact .cons (bindsPath_of_eq hp) (ih (Prod.ext hb hr))

theorem bindsEach_of_bind {b b' : Binder} {paths : List String} {bounds : List Bound}
    (h : b.bind paths = (b', .ok bounds)) : BindsEach b paths b' bounds := by
  unfold bind at h
  split at h
  · cases h
  · exact bindsEach_of_eq h

/-! ### What stays -/

/-- `b'` has the scopes of `b`, and the same levels around the innermost one. -/
structure Within (b b' : Binder) : Prop where
  scopes : b'.scopes = b.scopes
  tail : b'.levels.tail = b.levels.tail
  count : b.count ≤ b'.count

namespace Within

theorem refl (b : Binder) : Within b b := ⟨rfl, rfl, Nat.le_refl _⟩

theorem trans {a b c : Binder} (h : Within a b) (k : Within b c) : Within a c :=
  ⟨k.scopes.trans h.scopes, k.tail.trans h.tail, Nat.le_trans h.count k.count⟩

theorem levels_ne_nil {b b' : Binder} (h : Within b b') (hb : b.levels ≠ []) : b'.levels ≠ [] := by
  intro hn
  have hs := h.scopes
  unfold Binder.scopes at hs
  rw [hn, List.map_nil] at hs
  exact hb (List.map_eq_nil_iff.1 hs.symm)

theorem scope {b b' : Binder} (h : Within b b') : b'.scope = b.scope := by
  unfold Binder.scope
  rw [h.scopes]

theorem roots {b b' : Binder} (h : Within b b') : b'.roots = b.roots := by
  unfold Binder.roots
  rw [h.scopes]

end Within

theorem TakesName.count_le {b : Binder} {id target : String} {count : Nat}
    (h : TakesName b id target count) : b.count ≤ count := by
  rcases h with ⟨_, _, hc⟩ | ⟨_, hc⟩
  · omega
  · omega

theorem within_add (b : Binder) (count : Nat) (e : Binding) (h : b.count ≤ count) :
    Within b (({ b with count := count } : Binder).add e) := by
  rcases b with ⟨n, levels⟩
  cases levels with
  | nil => exact ⟨rfl, rfl, h⟩
  | cons l ls => exact ⟨rfl, rfl, h⟩

theorem BindsPath.within {b b' : Binder} {path : String} {bound : Bound}
    (h : BindsPath b path b' bound) : Within b b' := by
  cases h with
  | direct _ _ => exact .refl b
  | held _ _ _ _ _ => exact .refl b
  | made _ _ _ _ _ target => exact within_add b _ _ target.count_le

theorem BindsEach.within {b b' : Binder} {paths : List String} {bounds : List Bound}
    (h : BindsEach b paths b' bounds) : Within b b' := by
  induction h with
  | nil => exact .refl _
  | cons head _ ih => exact head.within.trans ih

/-! ### The invariant -/

/-- No number above the count has been given out to a local. -/
def Counted (b : Binder) : Prop := ∀ stem k, numbered stem k ∈ b.targets → k ≤ b.count

/-- The invariant of a binder: the context is open, what is bound is bound from open scopes, and no
number above the count has been given out. -/
structure Tidy (b : Binder) : Prop where
  context : Ref.context ∈ b.scopes
  sources : ∀ e ∈ b.entries, e.source ∈ b.scopes
  counted : ∀ x, x ∈ b.targets ∨ x ∈ b.roots → ∀ stem k, x = numbered stem k → k ≤ b.count

theorem tidy_initial : Tidy initial := by
  refine ⟨by simp [initial, scopes], by simp [initial, entries, entriesOf], ?_⟩
  intro x hx stem k hk
  simp only [initial, targets, entries, entriesOf, roots, scopes, List.flatMap_cons,
    List.flatMap_nil, List.append_nil, List.map_nil, List.map_cons, List.mem_singleton,
    List.not_mem_nil, false_or] at hx
  subst hx
  exact absurd ⟨stem, k, hk⟩ (not_isNumbered (by decide))

theorem Tidy.targets_counted {b : Binder} (h : Tidy b) : Counted b :=
  fun stem k hk => h.counted _ (.inl hk) stem k rfl

theorem Tidy.levels {b : Binder} (h : Tidy b) : b.levels ≠ [] := by
  intro hn
  have hc := h.context
  rw [scopes, hn] at hc
  cases hc

theorem Tidy.of_levels {b b' : Binder} (h : Tidy b) (hl : b'.levels = b.levels)
    (hc : b.count ≤ b'.count) : Tidy b' := by
  have he : b'.entries = b.entries := by rw [entries, hl]; rfl
  have hs : b'.scopes = b.scopes := by rw [scopes, hl]; rfl
  refine ⟨hs ▸ h.context, ?_, ?_⟩
  · rw [he, hs]
    exact h.sources
  · intro x hx stem k hk
    rw [roots, targets, he, hs] at hx
    exact Nat.le_trans (h.counted x hx stem k hk) hc

theorem put_of_not_mem {e : Binding} {es : List Binding} (h : e.target ∉ es.map Binding.target) :
    e.put es = es ++ [e] := by
  induction es with
  | nil => rfl
  | cons d es ih =>
    simp only [List.map_cons, List.mem_cons, not_or] at h
    rw [Binding.put, if_neg (Ne.symm h.1), ih h.2]
    rfl

theorem mem_entries_add {b : Binder} {e d : Binding} (count : Nat) (hl : b.levels ≠ [])
    (h : e.target ∉ b.targets) :
    d ∈ (({ b with count := count } : Binder).add e).entries ↔ d ∈ b.entries ∨ d = e := by
  rcases b with ⟨n, levels⟩
  cases levels with
  | nil => exact absurd rfl hl
  | cons l ls =>
    have hn : e.target ∉ l.bound.map Binding.target := by
      intro hm
      apply h
      unfold targets entries entriesOf
      rw [List.flatMap_cons, List.map_append]
      exact List.mem_append_left _ hm
    simp only [add, modify, entries, entriesOf, Level.add, put_of_not_mem hn, List.flatMap_cons,
      List.mem_append, List.mem_singleton]
    constructor
    · rintro ((hd | hd) | hd)
      · exact .inl (.inl hd)
      · exact .inr hd
      · exact .inl (.inr hd)
    · rintro ((hd | hd) | hd)
      · exact .inl (.inl hd)
      · exact .inr hd
      · exact .inl (.inr hd)

theorem mem_targets_add {b : Binder} {e : Binding} {x : String} (count : Nat) (hl : b.levels ≠ [])
    (h : e.target ∉ b.targets) :
    x ∈ (({ b with count := count } : Binder).add e).targets ↔ x ∈ b.targets ∨ x = e.target := by
  simp only [targets, List.mem_map]
  constructor
  · rintro ⟨d, hd, rfl⟩
    rcases (mem_entries_add count hl h).1 hd with hd | rfl
    · exact .inl ⟨d, hd, rfl⟩
    · exact .inr rfl
  · rintro (⟨d, hd, rfl⟩ | rfl)
    · exact ⟨d, (mem_entries_add count hl h).2 (.inl hd), rfl⟩
    · exact ⟨e, (mem_entries_add count hl h).2 (.inr rfl), rfl⟩

theorem count_add (b : Binder) (e : Binding) : (b.add e).count = b.count := by
  unfold add modify
  split <;> rfl

/-- The name of a local that is made is not in use: a numbered one has a number that has not been
given out. -/
theorem TakesName.not_mem {b : Binder} {id target : String} {count : Nat}
    (h : TakesName b id target count) (hb : Counted b) : target ∉ b.targets := by
  rcases h with ⟨_, hn, _⟩ | ⟨ht, _⟩
  · exact hn
  · intro hm
    have hc := hb _ _ (ht ▸ hm)
    omega

theorem Tidy.add {b : Binder} {e : Binding} {id : String} {count : Nat} (hb : Tidy b)
    (hs : e.source ∈ b.scopes) (hid : ¬ IsNumbered id) (ht : TakesName b id e.target count) :
    Tidy (({ b with count := count } : Binder).add e) := by
  have hnew := ht.not_mem hb.targets_counted
  have hw := within_add b count e ht.count_le
  refine ⟨hw.scopes ▸ hb.context, ?_, ?_⟩
  · intro d hd
    rw [hw.scopes]
    rcases (mem_entries_add count hb.levels hnew).1 hd with hd | rfl
    · exact hb.sources d hd
    · exact hs
  · intro x hx stem k hk
    rw [hw.roots, mem_targets_add count hb.levels hnew] at hx
    have hcount := hw.count
    rcases hx with (hx | rfl) | hx
    · have hold := hb.counted x (.inl hx) stem k hk
      omega
    · -- the new name is the identifier, which has no number, or it has the next number
      rcases ht with ⟨ht, _, _⟩ | ⟨ht, rfl⟩
      · exact absurd ⟨stem, k, ht ▸ hk⟩ hid
      · have hn := numbered_number (ht.symm.trans hk)
        rw [count_add]
        exact Nat.le_of_eq hn.symm
    · have hold := hb.counted x (.inr hx) stem k hk
      omega

theorem plain_identifier {b : Binder} {path name : String} {r : Resolved} (hp : Plain path)
    (resolved : Path.resolve path b.scopes = .ok r) (named : r.name = some name) :
    ¬ IsNumbered (Path.placeholder name) := by
  rcases Path.resolve_cases resolved with ⟨cs, _, hr⟩ | ⟨hl, _, hn, _⟩
  · rw [hr] at named
    cases named
  · apply hp.2
    unfold Path.property?
    rw [hl]
    exact hn.symm.trans named

theorem base_mem {b : Binder} {path name : String} {r : Resolved}
    (resolved : Path.resolve path b.scopes = .ok r) (named : r.name = some name) :
    r.base ∈ b.scopes := by
  rcases Path.resolve_cases resolved with ⟨cs, _, hr⟩ | ⟨_, hb, _, _⟩
  · rw [hr] at named
    cases named
  · exact List.mem_of_getElem? hb

theorem BindsPath.tidy {b b' : Binder} {path : String} {bound : Bound}
    (h : BindsPath b path b' bound) (hb : Tidy b) (hp : Plain path) : Tidy b' := by
  cases h with
  | direct _ _ => exact hb
  | held _ _ _ _ _ => exact hb
  | made resolved named _ source _ target =>
    have hs := base_mem resolved named
    have hid := plain_identifier hp resolved named
    exact hb.add (source ▸ hs) hid target

theorem BindsPath.mem_entries {b b' : Binder} {path : String} {bound : Bound}
    (h : BindsPath b path b' bound) (hl : b.levels ≠ []) (hb : Counted b) (d : Binding) :
    d ∈ b'.entries ↔ d ∈ b.entries ∨ bound.made = some d := by
  cases h with
  | direct _ _ => simp
  | held _ _ _ _ _ => simp
  | made _ _ _ _ _ target =>
    rw [mem_entries_add _ hl (target.not_mem hb), Option.some.injEq]
    exact or_congr Iff.rfl eq_comm

theorem BindsPath.made_new {b b' : Binder} {path : String} {bound : Bound} {e : Binding}
    (h : BindsPath b path b' bound) (hb : Counted b) (he : bound.made = some e) :
    e.target ∉ b.targets ∧ ∀ d ∈ b.entries, d.source = e.source → d.key ≠ e.key := by
  cases h with
  | direct _ _ => cases he
  | held _ _ _ _ _ => cases he
  | made _ _ _ _ free target =>
    cases he
    exact ⟨target.not_mem hb, free⟩

/-! ### What references stand for -/

/-- A reference that stands for a path where `b` stands: the path as it is resolved, or the local
that holds its first property. -/
inductive Denotes (b : Binder) (path : String) : Ref → Prop
  | direct {r : Resolved} (resolved : Path.resolve path b.scopes = .ok r)
      (unnamed : r.name = none) :
      Denotes b path r.direct
  | held {r : Resolved} {name : String} {e : Binding}
      (resolved : Path.resolve path b.scopes = .ok r) (named : r.name = some name)
      (key : Path.key name = .ok e.key) (source : e.source = r.base) (mem : e ∈ b.entries) :
      Denotes b path ⟨e.target, r.rest⟩

theorem Denotes.mono {b b' : Binder} {path : String} {r : Ref} (h : Denotes b path r)
    (hs : b'.scopes = b.scopes) (he : ∀ e ∈ b.entries, e ∈ b'.entries) : Denotes b' path r := by
  cases h with
  | direct resolved unnamed => exact .direct (hs ▸ resolved) unnamed
  | held resolved named key source mem => exact .held (hs ▸ resolved) named key source (he _ mem)

/-- A reference starts from a local that is bound, from a local that an open scope starts from, or
from the local that its path names. -/
theorem Denotes.root {b : Binder} {path : String} {r : Ref} (h : Denotes b path r) :
    r.root ∈ b.targets ∨ r.root ∈ b.roots ∨ Path.local? path = some r.root := by
  cases h with
  | @direct r resolved unnamed =>
    rcases Path.resolve_cases resolved with ⟨cs, hl, hr⟩ | ⟨_, hb, _, _⟩
    · right; right
      unfold Path.local?
      rw [hl, hr]
      rfl
    · right; left
      have hm := mem_roots (List.mem_of_getElem? hb)
      exact hm
  | held resolved named key source mem => exact .inl (mem_targets mem)

theorem BindsPath.denotes {b b' : Binder} {path : String} {bound : Bound}
    (h : BindsPath b path b' bound) (hl : b.levels ≠ []) (hb : Counted b) :
    Denotes b' path bound.ref := by
  cases h with
  | direct resolved unnamed => exact .direct resolved unnamed
  | held resolved named key source mem => exact .held resolved named key source mem
  | @made r name e count resolved named key source free target =>
    have hnew := target.not_mem hb
    have hw := (BindsPath.made resolved named key source free target).within
    have hm := (mem_entries_add (d := e) count hl hnew).2 (.inr rfl)
    exact .held (hw.scopes ▸ resolved) named key source hm

/-- Binding plain paths keeps the invariant and forgets nothing, and every reference stands for its
path. -/
theorem BindsEach.tidy {b b' : Binder} {paths : List String} {bounds : List Bound}
    (h : BindsEach b paths b' bounds) (hb : Tidy b) (hp : ∀ p ∈ paths, Plain p) :
    Tidy b' ∧ (∀ d, d ∈ b'.entries ↔ d ∈ b.entries ∨ d ∈ bounds.filterMap Bound.made) ∧
      List.Forall₂ (Denotes b') paths (bounds.map Bound.ref) := by
  induction h with
  | nil => exact ⟨hb, by simp, .nil⟩
  | @cons b b₁ b' path bound paths bounds head tail ih =>
    have hb₁ := head.tidy hb (hp path List.mem_cons_self)
    have hm₁ := head.mem_entries hb.levels hb.targets_counted
    obtain ⟨hb', hm', hd⟩ := ih hb₁ fun p h => hp p (List.mem_cons_of_mem _ h)
    refine ⟨hb', ?_, .cons ?_ hd⟩
    · intro d
      rw [hm', hm₁, or_assoc]
      cases hmade : bound.made with
      | none => simp [hmade]
      | some e =>
        simp only [List.filterMap_cons_some hmade, List.mem_cons, Option.some.injEq]
        rw [eq_comm]
    · exact (head.denotes hb.levels hb.targets_counted).mono tail.within.scopes
        fun e he => (hm' e).2 (.inl he)

/-! ### Opening and closing scopes -/

theorem within_of_levels {b c : Binder} (h : c.levels = b.levels) (hc : b.count ≤ c.count) :
    Within b c :=
  ⟨by rw [scopes, h]; rfl, by rw [h], hc⟩

theorem Within.pop_levels {b c : Binder} {s : Ref} (h : Within (b.push s) c) :
    c.pop.levels = b.levels := h.tail

/-- The branch of a block starts with nothing bound inside the levels around the block. -/
theorem Within.replace_levels {b c : Binder} {s : Ref} (h : Within (b.push s) c) (t : Ref) :
    (c.replace t).levels = ⟨t, []⟩ :: b.levels := by
  have hn : c.levels ≠ [] := h.levels_ne_nil (by simp [push])
  have ht : c.levels.tail = b.levels := h.tail
  unfold replace modify
  split
  · rename_i hl
    exact absurd hl hn
  · rename_i l ls hl
    rw [hl] at ht
    simp only [List.tail_cons] at ht
    simp only [ht]

theorem replace_count (b : Binder) (t : Ref) : (b.replace t).count = b.count := by
  unfold replace modify
  split <;> rfl

theorem entries_of_cons {b c : Binder} {s : Ref} (h : c.levels = ⟨s, []⟩ :: b.levels) :
    c.entries = b.entries := by
  rw [entries, h]
  rfl

theorem scopes_of_cons {b c : Binder} {s : Ref} (h : c.levels = ⟨s, []⟩ :: b.levels) :
    c.scopes = s :: b.scopes := by
  rw [scopes, h]
  rfl

/-- A scope may be opened, unless it starts from a number that has not been given out. -/
theorem Tidy.of_cons {b c : Binder} {s : Ref} (h : Tidy b) (hl : c.levels = ⟨s, []⟩ :: b.levels)
    (hc : b.count ≤ c.count)
    (hn : ∀ stem k, s.root = numbered stem k → k ≤ c.count) : Tidy c := by
  have he := entries_of_cons hl
  have hs := scopes_of_cons hl
  refine ⟨hs ▸ List.mem_cons_of_mem _ h.context, ?_, ?_⟩
  · intro e hm
    rw [he] at hm
    rw [hs]
    exact List.mem_cons_of_mem _ (h.sources e hm)
  · intro x hx stem k hk
    rw [roots, hs, List.map_cons, List.mem_cons, targets, he] at hx
    rcases hx with hx | rfl | hx
    · exact Nat.le_trans (h.counted x (.inl hx) stem k hk) hc
    · exact hn stem k hk
    · exact Nat.le_trans (h.counted x (.inr hx) stem k hk) hc

theorem scope_mem {b : Binder} (h : b.levels ≠ []) : b.scope ∈ b.scopes := by
  rcases b with ⟨count, levels⟩
  cases levels with
  | nil => exact absurd rfl h
  | cons l ls => exact List.mem_cons_self

end Stencil.Binder
