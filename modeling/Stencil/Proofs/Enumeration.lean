import Stencil.Helper.Builtin

/-!
# Enumeration and access

A loop over properties shows the keys of a value with the values under them, and a step reads what
a value has under a key. Main statement: the keys of the passes differ, and each pass shows what the
step of its key reads, but for an object with a length that keeps null as its `length`: there the
step reads the length instead (`passes_agree`).
-/

namespace Stencil

theorem nodup_eraseDups {α : Type} [DecidableEq α] (xs : List α) : xs.eraseDups.Nodup := by
  induction hn : xs.length using Nat.strongRecOn generalizing xs with
  | ind n ih =>
    cases xs with
    | nil => exact List.nodup_nil
    | cons x xs =>
      have hlt : (xs.filter fun y => !y == x).length < n := by
        have hle := List.length_filter_le (fun y => !y == x) xs
        rw [← hn, List.length_cons]
        omega
      have hx : x ∉ (xs.filter fun y => !y == x).eraseDups := by simp
      rw [List.eraseDups_cons]
      exact List.nodup_cons.2 ⟨hx, ih _ hlt _ rfl⟩

namespace Table

variable {α : Type} {t : Table α}

/-- Where names differ, every entry is found under its name. -/
theorem get?_of_mem (ht : (names t).Nodup) {name : String} {v : α} (h : (name, v) ∈ t) :
    t.get? name = some v := by
  induction t with
  | nil => cases h
  | cons e t ih =>
    obtain ⟨n, w⟩ := e
    obtain ⟨hn, ht⟩ := List.nodup_cons.1 ht
    rw [get?]
    rcases List.mem_cons.1 h with h | h
    · cases h
      exact if_pos rfl
    · have hmem : name ∈ names t := List.mem_map_of_mem h
      rw [if_neg (ne_of_mem_of_not_mem hmem hn).symm]
      exact ih ht h

end Table

namespace Value

/-! ### Keys -/

/-- The step that reads a key: a text is read by name, and an integer, which a boolean is too, by
index. No other key can be read. -/
def step? : Value → Option Segment
  | .str s => some (.name s)
  | .int n => some (.index n)
  | .bool b => some (.index (if b then 1 else 0))
  | _ => none

/-- No two keys of a map agree, and no two properties of an object have the same name. -/
def Keyed : Value → Prop
  | .map entries => entries.Pairwise fun e f => agrees f.1 e.1 = false
  | .object _ own _ _ => (Table.names own).Nodup
  | _ => True

variable {entries : List (Value × Value)} {v k x : Value} {st : Segment}

theorem agrees_str (s t : String) : agrees (.str s) (.str t) = (s == t) := by
  rw [agrees]

theorem agrees_bool (b : Bool) (w : Value) :
    agrees (.bool b) w = agrees (.int (if b then 1 else 0)) w := by
  rw [agrees, agrees]

theorem agrees_int (m n : Int) : agrees (.int m) (.int n) = (m == n) := by
  rw [agrees]
  have hone : ∀ k : Int, k * Int.pow 2 ((0 : Int) - 0).toNat = k := Int.mul_one
  have hcompare : (compare m n == Ordering.eq) = (m == n) := by
    rw [Bool.eq_iff_iff, beq_iff_eq, beq_iff_eq, Std.compare_eq_iff_eq]
  simp only [number?, Number.agrees, Number.order?, Number.point?, Exact.ofInt, Exact.compare, hone,
    Option.some_beq_some, hcompare]

theorem agrees_self (hk : k.step? = some st) : agrees k k = true := by
  cases k with
  | str s => rw [agrees_str, beq_self_eq_true]
  | int n => rw [agrees_int, beq_self_eq_true]
  | bool b =>
    have hone : agrees (.int (if b then 1 else 0)) (.bool b) =
        agrees (.int (if b then 1 else 0)) (.int (if b then 1 else 0)) := by
      rw [agrees, agrees]
      rfl
    rw [agrees_bool, hone, agrees_int, beq_self_eq_true]
  | _ => cases hk

/-! ### Maps -/

theorem find?_of_mem (h : entries.Pairwise fun e f => agrees f.1 e.1 = false)
    (hk : agrees k k = true) (hm : (k, x) ∈ entries) : find? entries k = some x := by
  obtain ⟨before, after, rfl⟩ := List.append_of_mem hm
  have hbefore : ∀ e ∈ before, agrees k e.1 = false :=
    fun e he => (List.pairwise_append.1 h).2.2 e he (k, x) List.mem_cons_self
  have hnone : before.find? (fun e => agrees k e.1) = none := by simpa using hbefore
  simp only [find?, List.find?_append, hnone, Option.none_or, List.find?_cons, hk, Option.map_some]

theorem pairwise_insert (h : entries.Pairwise fun e f => agrees f.1 e.1 = false) (k x : Value) :
    (insert entries k x).Pairwise fun e f => agrees f.1 e.1 = false := by
  -- the keys of the result are the old ones, with the new key behind them if it agrees with none
  have hmem : ∀ es : List (Value × Value), ∀ e ∈ insert es k x,
      (∃ y, (e.1, y) ∈ es) ∨ e = (k, x) := by
    intro es
    induction es with
    | nil => exact fun e he => .inr (List.mem_singleton.1 he)
    | cons d es ih =>
      intro e he
      rw [insert] at he
      split at he
      · rcases List.mem_cons.1 he with rfl | he
        · exact .inl ⟨d.2, List.mem_cons_self⟩
        · exact .inl ⟨e.2, List.mem_cons_of_mem _ he⟩
      · rcases List.mem_cons.1 he with rfl | he
        · exact .inl ⟨_, List.mem_cons_self⟩
        · exact (ih e he).imp_left fun ⟨y, hy⟩ => ⟨y, List.mem_cons_of_mem _ hy⟩
  induction entries with
  | nil => exact List.pairwise_singleton _ _
  | cons d es ih =>
    obtain ⟨hd, hes⟩ := List.pairwise_cons.1 h
    rw [insert]
    split
    · exact List.pairwise_cons.2 ⟨hd, hes⟩
    · rename_i hne
      refine List.pairwise_cons.2 ⟨fun e he => ?_, ih hes⟩
      rcases hmem es e he with ⟨y, hy⟩ | rfl
      · exact hd (e.1, y) hy
      · exact Bool.eq_false_iff.2 hne

/-- Maps are built with keys that do not agree. -/
theorem keyed_ofEntries (entries : List (Value × Value)) : (ofEntries entries).Keyed := by
  have hfold : ∀ es : List (Value × Value),
      (es.Pairwise fun e f => agrees f.1 e.1 = false) →
      (entries.foldl (fun es e => insert es e.1 e.2) es).Pairwise
        fun e f => agrees f.1 e.1 = false := by
    induction entries with
    | nil => exact fun es h => h
    | cons d entries ih => exact fun es h => ih _ (pairwise_insert h d.1 d.2)
  exact hfold [] .nil

theorem get_of_mem_map (h : (map entries).Keyed) (hm : (k, x) ∈ entries)
    (hk : k.step? = some st) : (map entries).get st = x := by
  have hfound := find?_of_mem h (agrees_self hk) hm
  cases k with
  | str s =>
    cases hk
    simp only [get, hfound]
  | int n =>
    cases hk
    simp only [get, hfound]
  | bool b =>
    cases hk
    have hasked : find? entries (.int (if b then 1 else 0)) = find? entries (.bool b) := by
      simp only [find?, agrees_bool]
    simp only [get, hasked, hfound]
  | _ => cases hk

/-! ### Sequences -/

theorem get_index_of_items {xs : List Value} (h : v.items? = some xs) (i : Nat) :
    v.get (.index i) = xs[i]?.getD .null := by
  have hitem : v.item? i = xs[i]? := by
    have hsign : ¬ (i : Int) < 0 := by omega
    simp only [item?, h, hsign, if_false, Int.toNat_natCast]
  cases v with
  | str s => exact congrArg (fun o => o.getD .null) hitem
  | bytes bs => exact congrArg (fun o => o.getD .null) hitem
  | list ys => exact congrArg (fun o => o.getD .null) hitem
  | tuple ys => exact congrArg (fun o => o.getD .null) hitem
  | _ => cases h

theorem ownProperties_of_items {xs : List Value} (h : v.items? = some xs) :
    v.ownProperties = xs.zipIdx.map fun e => (.int e.2, e.1) := by
  cases v with
  | str s => cases h; rfl
  | bytes bs => cases h; rfl
  | list ys => cases h; rfl
  | tuple ys => cases h; rfl
  | _ => cases h

/-! ### Objects -/

/-- An object with a length that keeps null under the name of its length. -/
def HidesLength : Value → Prop
  | .object _ own _ (some _) => Table.get? own "length" = some .null
  | _ => False

section Properties

variable {s : String} (hs : isHidden s = false) (hv : v ≠ .null) (hm : ∀ es, v ≠ .map es)

include hs hv hm

theorem get_of_property (h : v.property? s = some x) (hx : x ≠ .null) : v.get (.name s) = x := by
  cases v with
  | null => exact absurd rfl hv
  | map es => exact absurd rfl (hm es)
  | _ => simp [get, hs, h]

theorem get_of_property_null (h : v.property? s = some .null) :
    v.get (.name s) = if s = "length" then v.lengthValue else .null := by
  cases v with
  | null => exact absurd rfl hv
  | map es => exact absurd rfl (hm es)
  | _ => simp [get, hs, h]

end Properties

theorem slotEntry_eq {slots : List (String × Option Value)} {name : String}
    (h : (if isHidden name then none else (slot? slots name).map fun y => (str name, y)) =
      some (k, x)) :
    k = .str name ∧ isHidden name = false ∧ slot? slots name = some x := by
  by_cases hs : isHidden name = true
  · rw [if_pos hs] at h
    cases h
  · rw [if_neg hs] at h
    obtain ⟨y, hy, he⟩ := Option.map_eq_some_iff.1 h
    cases he
    exact ⟨rfl, Bool.eq_false_iff.2 hs, hy⟩

/-! ### All values -/

/-- The keys of a value's own differ: none agrees with an earlier one. -/
theorem pairwise_ownProperties (hv : v.Keyed) :
    v.ownProperties.Pairwise fun e f => agrees f.1 e.1 = false := by
  have hitems : ∀ xs, v.items? = some xs →
      v.ownProperties.Pairwise fun e f => agrees f.1 e.1 = false := by
    intro xs hxs
    rw [ownProperties_of_items hxs, List.pairwise_map]
    refine List.pairwise_iff_getElem.2 fun i j hi hj hij => ?_
    rw [List.getElem_zipIdx, List.getElem_zipIdx, agrees_int, beq_eq_false_iff_ne]
    omega
  cases v with
  | map entries => exact hv
  | object id own shared length =>
    rw [ownProperties, List.pairwise_map]
    refine List.Pairwise.filter _ ((List.pairwise_map.1 hv).imp fun hne => ?_)
    rw [agrees_str, beq_eq_false_iff_ne]
    exact Ne.symm hne
  | slotted id slots =>
    rw [ownProperties, setSlots, List.pairwise_filterMap]
    refine (nodup_eraseDups _).imp fun hne e he f hf => ?_
    rw [(slotEntry_eq he).1, (slotEntry_eq hf).1, agrees_str, beq_eq_false_iff_ne]
    exact Ne.symm hne
  | str s => exact hitems _ rfl
  | bytes bs => exact hitems _ rfl
  | list xs => exact hitems _ rfl
  | tuple xs => exact hitems _ rfl
  | _ => exact .nil

theorem get_iff_of_mem_ownProperties (hv : v.Keyed) (hmem : (k, x) ∈ v.ownProperties)
    (hk : k.step? = some st) :
    v.get st = x ↔ ¬ (st = .name "length" ∧ v.HidesLength) := by
  have hitems : ∀ xs, v.items? = some xs → v.get st = x := by
    intro xs hxs
    rw [ownProperties_of_items hxs] at hmem
    obtain ⟨⟨y, i⟩, hi, he⟩ := List.mem_map.1 hmem
    cases he
    cases hk
    rw [get_index_of_items hxs, List.mk_mem_zipIdx_iff_getElem?.1 hi, Option.getD_some]
  cases v with
  | map entries => exact iff_of_true (get_of_mem_map hv hmem hk) fun h => h.2
  | object id own shared length =>
    obtain ⟨⟨name, y⟩, hown, he⟩ := List.mem_map.1 hmem
    obtain ⟨hown, hname⟩ := List.mem_filter.1 hown
    cases he
    cases hk
    have hget : Table.get? own name = some y := Table.get?_of_mem hv hown
    have hproperty : (object id own shared length).property? name = some y := by
      rw [property?, hget, Option.some_or]
    have hs : isHidden name = false := by simpa using hname
    have hread := get_of_property hs (by simp) (by simp) hproperty
    by_cases hy : y = .null
    · subst hy
      have hnull := get_of_property_null hs (by simp) (by simp) hproperty
      rw [hnull]
      by_cases hl : name = "length"
      · subst hl
        cases length <;> simp [lengthValue, length?, HidesLength, hget]
      · simp [hl]
    · refine iff_of_true (hread hy) fun h => ?_
      obtain ⟨hl, hhides⟩ := h
      cases hl
      cases length with
      | none => exact hhides
      | some n => exact hy (Option.some.inj (hget.symm.trans hhides))
  | slotted id slots =>
    obtain ⟨name, -, hname⟩ := List.mem_filterMap.1 hmem
    obtain ⟨rfl, hs, hslot⟩ := slotEntry_eq hname
    cases hk
    refine iff_of_true ?_ fun h => h.2
    by_cases hx : x = .null
    · subst hx
      have hnull := get_of_property_null hs (v := .slotted id slots) (by simp) (by simp) hslot
      rw [hnull]
      exact ite_self _
    · exact get_of_property hs (by simp) (by simp) hslot hx
  | str s => exact iff_of_true (hitems _ rfl) fun h => h.2
  | bytes bs => exact iff_of_true (hitems _ rfl) fun h => h.2
  | list xs => exact iff_of_true (hitems _ rfl) fun h => h.2
  | tuple xs => exact iff_of_true (hitems _ rfl) fun h => h.2
  | _ => cases hmem

end Value

namespace Builtin

open Value (HidesLength agrees)

/-- A loop over properties passes through all of them without failing: the keys of its passes
differ, and the value of a pass is what the step of its key reads, exactly where the key is not the
hidden length of an object. -/
theorem passes_agree {v : Value} (hv : v.Keyed) :
    propertyPasses [v] = { locals := v.ownProperties.map entryPass } ∧
      (v.ownProperties.Pairwise fun e f => agrees f.1 e.1 = false) ∧
      ∀ e ∈ v.ownProperties, ∀ st, e.1.step? = some st →
        (v.follow [st] = e.2 ↔ ¬ (st = .name "length" ∧ v.HidesLength)) := by
  refine ⟨rfl, Value.pairwise_ownProperties hv, fun e he st hst => ?_⟩
  exact Value.get_iff_of_mem_ownProperties hv he hst

/-- A map with a key of each kind: the integer and its spelling are two keys, and its `length` is
the null that it keeps. -/
def ledger : Value :=
  .ofEntries [(.int 1, .str "one"), (.str "1", .str "I"), (.bool true, .str "yes"),
    (.str "_id", .int 7), (.str "length", .null)]

theorem passes_agree_ledger :
    ledger.Keyed ∧
      propertyPasses [ledger] = { locals :=
        [entryPass (.int 1, .str "yes"), entryPass (.str "1", .str "I"),
          entryPass (.str "_id", .int 7), entryPass (.str "length", .null)] } ∧
      ledger.follow [.index 1] = .str "yes" ∧ ledger.follow [.name "1"] = .str "I" ∧
      ledger.follow [.name "_id"] = .int 7 ∧ ledger.follow [.name "length"] = .null := by
  have hown : ledger.ownProperties = [(.int 1, .str "yes"), (.str "1", .str "I"),
      (.str "_id", .int 7), (.str "length", .null)] := rfl
  have hkeyed : ledger.Keyed := Value.keyed_ofEntries _
  obtain ⟨hpasses, -, hread⟩ := passes_agree hkeyed
  have hlength : ¬ ledger.HidesLength := id
  rw [hown] at hpasses
  refine ⟨hkeyed, hpasses, ?_, ?_, ?_, ?_⟩
  · exact (hread (.int 1, .str "yes") (by simp [hown]) _ rfl).2 fun h => hlength h.2
  · exact (hread (.str "1", .str "I") (by simp [hown]) _ rfl).2 fun h => hlength h.2
  · exact (hread (.str "_id", .int 7) (by simp [hown]) _ rfl).2 fun h => hlength h.2
  · exact (hread (.str "length", .null) (by simp [hown]) _ rfl).2 fun h => hlength h.2

/-- An object of length three that keeps null as its `length`: its pass shows null, and the step
reads three. -/
theorem passes_disagree_on_length :
    ∃ v : Value, v.Keyed ∧ (propertyPasses [v]).locals = [entryPass (.str "length", .null)] ∧
      (Value.str "length").step? = some (.name "length") ∧
      v.follow [.name "length"] = .int 3 :=
  ⟨.object ⟨0, "o", "o"⟩ [("length", .null)] [] (some 3), List.pairwise_singleton _ _, rfl, rfl,
    rfl⟩

end Builtin

end Stencil
