import Stencil.Helper.Gallery
import Stencil.Proofs.BuiltinBlocks
import Stencil.Proofs.Occurrences
import Stencil.Proofs.Spacing
import Stencil.Proofs.Stops

/-!
# Constants as arguments

Constants are spelled as keywords, as decimal digits, or as strings between marks that they do not
have inside (`Token.Spells`). Main statement: a call of a helper with the spellings of constants,
at least one and with any blanks between them, is read as the call with these constants, if the
marker is no block marker (`Marker.read_eq_call_iff`).
-/

namespace Stencil

namespace Token

open Text (isBlank isPlainDigit digitsValue)

/-- How an argument spells a constant. -/
inductive Spells : Value → List Char → Prop
  | null : Spells .null "null".toList
  | bool (b : Bool) : Spells (.bool b) (if b then "true" else "false").toList
  | int {n : Int} (short : (Nat.toDigits 10 n.natAbs).length ≤ Failure.maxDigits) :
      Spells (.int n) (toString n).toList
  | str {mark : Char} {s : String} (opens : isMark mark = true) (free : mark ∉ s.toList) :
      Spells (.str s) (mark :: s.toList ++ [mark])

variable {t cs digits : List Char} {ts : List (List Char)} {v : Value} {vs : List Value} {n : Nat}

/-! ### Decimal digits -/

theorem digitsValue_concat (cs : List Char) (c : Char) :
    digitsValue (cs ++ [c]) = 10 * digitsValue cs + (Text.digitValue? c).getD 0 := by
  rw [digitsValue, List.foldl_append]
  rfl

theorem digitsValue_toDigits (n : Nat) : digitsValue (Nat.toDigits 10 n) = n := by
  have hdigit : ∀ k < 10, (Text.digitValue? (Nat.digitChar k)).getD 0 = k := by decide
  induction n using Nat.strongRecOn with
  | ind n ih =>
    by_cases hn : n < 10
    · rw [Nat.toDigits_of_lt_base hn]
      have hone : digitsValue [n.digitChar] = 10 * digitsValue [] + _ := digitsValue_concat [] _
      rw [hone, hdigit n hn]
      exact Nat.zero_add n
    · rw [Nat.toDigits_of_base_le (by decide) (Nat.le_of_not_lt hn), digitsValue_concat,
        ih _ (Nat.div_lt_self (by omega) (by decide)), hdigit _ (Nat.mod_lt n (by decide))]
      omega

theorem isPlainDigit_of_mem_toDigits {c : Char} (h : c ∈ Nat.toDigits 10 n) :
    isPlainDigit c = true := by
  have hdigit : c.isDigit = true := Nat.isDigit_of_mem_toDigits (by decide) (by decide) h
  exact hdigit

theorem toList_toString (n : Int) :
    (toString n).toList = (if n < 0 then ['-'] else []) ++ Nat.toDigits 10 n.natAbs := by
  cases n with
  | ofNat n =>
    have hsign : ¬ Int.ofNat n < 0 := Int.not_lt.2 (Int.natCast_nonneg n)
    rw [if_neg hsign]
    exact String.toList_ofList
  | negSucc n =>
    have htext : toString (Int.negSucc n) = "-" ++ String.ofList (Nat.toDigits 10 (n + 1)) := rfl
    rw [if_pos (Int.negSucc_lt_zero n), htext, String.toList_append, String.toList_ofList,
      String.toList_ofList, Int.natAbs_negSucc]

/-- A property of a sign and of the ten digits is one of the characters of a number. -/
theorem forall_mem_toString {P : Char → Prop} (hP : "-0123456789".toList.Forall P) (n : Int) :
    ∀ c ∈ (toString n).toList, P c := by
  obtain ⟨hsign, hdigits⟩ := List.forall_cons _ _ _ |>.1 hP
  intro c hc
  rw [toList_toString] at hc
  rcases List.mem_append.1 hc with hc | hc
  · split at hc
    · rwa [List.mem_singleton.1 hc]
    · cases hc
  · exact plain_of_digits (fun _ => isPlainDigit_of_mem_toDigits) hdigits c hc

/-! ### Spellings are tokens -/

/-- Of the blanks around tokens, those between them stay when the text is stripped. -/
theorem Spaced.strip {body : List Char} (h : Spaced (t :: ts) body) (hne : t ≠ [])
    (ht : ∀ c ∈ t, isBlank c = false ∧ isMark c = false) (hts : ∀ t ∈ ts, Whole t) :
    ∃ behind, Text.strip body = t ++ behind ∧ splitChars (t ++ behind) = t :: ts := by
  cases h with
  | @cons gap _ cs _ blank rest =>
    have hgap : Text.trimStart gap = [] := List.dropWhile_eq_nil_iff.2 blank
    have htrails := rest.trimEnd fun t ht => ⟨(hts t ht).1, ((hts t ht).2 []).endsPlain⟩
    have hcut : Cut (t :: ts) ([] ++ t ++ Text.trimEnd cs) :=
      .cons nofun hne ((whole_of_plain hne ht).2 _) htrails.endsToken (htrails.cut hts)
    rw [List.nil_append] at hcut
    refine ⟨Text.trimEnd cs, ?_, hcut.splitChars_eq⟩
    rw [Text.strip_around hne ht, hgap, List.nil_append]

theorem Spells.whole (h : Spells v t) : Whole t := by
  cases h with
  | null => exact whole_of_all (by decide) (by decide)
  | bool b =>
    cases b with
    | true => exact whole_of_all (by decide) (by decide)
    | false => exact whole_of_all (by decide) (by decide)
  | @int n _ =>
    refine whole_of_plain (fun hnil => ?_) (forall_mem_toString (by decide) n)
    rw [toList_toString] at hnil
    exact Nat.toDigits_ne_nil (List.append_eq_nil_iff.1 hnil).2
  | str opens free => exact ⟨List.cons_ne_nil _ _, fun behind => .string opens free .nil⟩

theorem forall_whole (h : List.Forall₂ Spells vs ts) : ∀ t ∈ ts, Whole t := by
  induction h with
  | nil => exact nofun
  | cons ht _ ih => exact List.forall_mem_cons.2 ⟨ht.whole, ih⟩

/-! ### Spellings are read -/

theorem number?_toString {n : Int}
    (short : (Nat.toDigits 10 n.natAbs).length ≤ Failure.maxDigits) :
    number? (toString n).toList = .ok (some (.int n)) := by
  have hplain : ∀ c ∈ Nat.toDigits 10 n.natAbs, isPlainDigit c = true :=
    fun _ => isPlainDigit_of_mem_toDigits
  have hdigit : ∀ c ∈ Nat.toDigits 10 n.natAbs, Text.isDigit c = true :=
    fun c hc => Text.isDigit_of_isPlainDigit (hplain c hc)
  have hfeed : ¬ (toString n).toList.getLast? = some '\n' := fun h =>
    forall_mem_toString (P := (· ≠ '\n')) (by decide) n _ (List.mem_of_getLast? h) rfl
  have hsign : takeSign (dropFinalNewline (toString n).toList) =
      (decide (n < 0), Nat.toDigits 10 n.natAbs) := by
    by_cases hn : n < 0
    · rw [dropFinalNewline, if_neg hfeed, toList_toString, if_pos hn, decide_eq_true hn]
      rfl
    · rw [toList_toString, if_neg hn, decide_eq_false hn]
      exact takeSign_of_digits hplain
  have hwhole : (Nat.toDigits 10 n.natAbs).takeWhile Text.isDigit = Nat.toDigits 10 n.natAbs :=
    List.takeWhile_eq_self_iff.2 hdigit
  have hrest : (Nat.toDigits 10 n.natAbs).dropWhile Text.isDigit = [] :=
    List.dropWhile_eq_nil_iff.2 hdigit
  have hvalue : (if decide (n < 0) = true then -(n.natAbs : Int) else n.natAbs) = n := by
    split
    · rename_i hn
      have hneg := of_decide_eq_true hn
      omega
    · rename_i hn
      have hpos : ¬ n < 0 := fun h => hn (decide_eq_true h)
      omega
  simp only [number?, hsign, hrest, hwhole, List.isEmpty_iff, Nat.toDigits_ne_nil, if_false,
    integer, if_neg (Nat.not_lt.2 short), Except.map, digitsValue_toDigits, hvalue]

/-- A text that starts with the first character of no keyword is a string or a number. -/
theorem literal?_of_head {c : Char} {t : List Char} (hc : c ∉ ['t', 'f', 'n']) :
    literal? (String.ofList (c :: t)) =
      match stringBody? (c :: t) with
      | some cs => .ok (some (.str (String.ofList cs)))
      | none => number? (c :: t) := by
  have hne : ∀ keyword : String, keyword.toList.head?.any (· ∈ ['t', 'f', 'n']) = true →
      String.ofList (c :: t) ≠ keyword := by
    rintro keyword hkeyword rfl
    rw [String.toList_ofList] at hkeyword
    exact hc (of_decide_eq_true hkeyword)
  cases hbody : stringBody? (c :: t)
  all_goals
    rw [literal?, if_neg (hne "true" (by decide)), if_neg (hne "false" (by decide)),
      if_neg (hne "null" (by decide)), String.toList_ofList, hbody]

theorem Spells.literal?_eq (h : Spells v t) : literal? (String.ofList t) = .ok (some v) := by
  cases h with
  | null => rfl
  | bool b =>
    cases b with
    | true => rfl
    | false => rfl
  | @int n short =>
    have hnumber := number?_toString short
    have hchars := forall_mem_toString
      (P := fun c => c ∉ ['t', 'f', 'n'] ∧ isMark c = false) (by decide) n
    obtain ⟨c, t, ht⟩ := List.exists_cons_of_ne_nil (Spells.int short).whole.1
    rw [ht] at hnumber hchars ⊢
    obtain ⟨hc, hmark⟩ := hchars c List.mem_cons_self
    rw [literal?_of_head hc, stringBody?, hmark, hnumber]
    rfl
  | @str mark s opens free =>
    have hmark : mark ∉ ['t', 'f', 'n'] := by
      unfold isMark at opens
      rw [Bool.or_eq_true, beq_iff_eq, beq_iff_eq] at opens
      rcases opens with rfl | rfl
      · decide
      · decide
    have hbefore : before? mark (s.toList ++ [mark]) = some s.toList := by
      rw [before?, List.getLast?_concat, if_pos rfl, List.dropLast_concat]
    rw [List.cons_append, literal?_of_head hmark, stringBody?, if_pos opens, hbefore]
    exact congrArg (fun s => Except.ok (some (Value.str s))) String.ofList_toList

end Token

theorem Registry.plain_of_checkName {name : String}
    (h : checkName (.str name) = .ok name) :
    name.toList ≠ [] ∧ ∀ c ∈ name.toList, Text.isBlank c = false := by
  simp only [checkName] at h
  split at h
  · cases h
  · rename_i hgood
    obtain ⟨hne, hblank⟩ := not_or.1 (mt Bool.or_eq_true_iff.2 hgood)
    refine ⟨fun hnil => hne (decide_eq_true (String.toList_eq_nil_iff.1 hnil)), fun c hc => ?_⟩
    exact Bool.eq_false_iff.2 fun hc' => hblank (List.any_eq_true.2 ⟨c, hc, hc'⟩)

namespace Marker

open Token (Spells)

theorem arguments_of_spells (helper : String) (next : Nat) {vs : List Value}
    {ts : List (List Char)} (h : List.Forall₂ Spells vs ts) :
    arguments helper next (ts.map String.ofList) = .ok ([], vs.map .constant) := by
  induction h with
  | nil => rfl
  | cons ht _ ih =>
    rw [List.map_cons, arguments, ht.literal?_eq, List.map_cons]
    simp only [ih, Except.map]

/-- The reading of a block marker is no call. -/
theorem fragment_ne_call_of_ofBlock {r : Registry} {scope : String} {cs : List Char} {m : Marker}
    (h : ofBlock r scope cs = .ok m) (helper : String) (args : List Argument) (escape : Bool) :
    m.fragment ≠ .call helper args escape := by
  obtain ⟨_, _, _, _, -, -, hbranch | ⟨-, -, _, hopening⟩⟩ := ofBlock_plan h
  · rw [hbranch]
    nofun
  · rw [hopening]
    nofun

/-- A text that calls a registered inline helper with constants: the name, without marks and with
nothing in front that means something else, and the spellings, with blanks between all of them. -/
structure CallsWith (r : Registry) (helper : String) (vs : List Value) (body : List Char) :
    Prop where
  name : Registry.checkName (.str helper) = .ok helper
  registered : r.inlines.has helper = true
  unmarked : ∀ d ∈ helper.toList, Token.isMark d = false
  noSlash : helper.toList.head? ≠ some '/'
  noEquals : helper.toList.head? ≠ some '='
  some : vs ≠ []
  spelled : ∃ ts, List.Forall₂ Spells vs ts ∧ Token.Spaced (helper.toList :: ts) body

/-- A call with the spellings of constants is read as the call with these constants, if it does not
start with the flag of block markers, and only then. -/
theorem read_eq_call_iff {r : Registry} {helper : String} {vs : List Value} {body : List Char}
    (h : CallsWith r helper vs body) (c : Config) (scope : String) :
    read r c body scope =
        .ok { paths := [], fragment := .call helper (vs.map .constant) c.escapeHtml } ↔
      ¬ c.blockFlag.toList <+: Text.strip body := by
  obtain ⟨ts, hts, hbody⟩ := h.spelled
  obtain ⟨hnonempty, hblank⟩ := Registry.plain_of_checkName h.name
  have hplain : ∀ d ∈ helper.toList, Text.isBlank d = false ∧ Token.isMark d = false :=
    fun d hd => ⟨hblank d hd, h.unmarked d hd⟩
  obtain ⟨behind, hstrip, hsplit⟩ := hbody.strip hnonempty hplain (Token.forall_whole hts)
  have hhead : (helper.toList ++ behind).head? = helper.toList.head? :=
    List.head?_append_of_ne_nil _ hnonempty
  have hclosed : closed? r (helper.toList ++ behind) = none := by
    unfold closed?
    split
    · rename_i heq
      rw [heq] at hhead
      exact absurd hhead.symm h.noSlash
    · rfl
  have hbranch : ((helper.toList ++ behind).head? == some '=') = false := by
    rw [hhead]
    exact beq_eq_false_iff_ne.2 h.noEquals
  have htokens : ts.map String.ofList ≠ [] := by
    cases hts with
    | nil => exact absurd rfl h.some
    | cons _ _ => exact List.cons_ne_nil _ _
  rw [hstrip]
  constructor
  · intro hread hflag
    simp only [read, hstrip, List.isPrefixOf_iff_prefix.2 hflag, if_true] at hread
    exact fragment_ne_call_of_ofBlock hread _ _ _ rfl
  · intro hflag
    have hno : c.blockFlag.toList.isPrefixOf (helper.toList ++ behind) = false :=
      Bool.eq_false_iff.2 (mt List.isPrefixOf_iff_prefix.1 hflag)
    simp only [read, hstrip, hno, hclosed, Bool.false_eq_true, if_false, ofOutput_eq, hbranch,
      hsplit]
    rw [List.map_cons, ofTokens_cons _ _ _ htokens, String.ofList_toList, ofCall,
      if_pos h.registered, arguments_of_spells helper 0 hts]
    rfl

/-- Constants of every kind with line feeds between them: strings with blanks, numbers, marks of the
other kind and keywords inside. -/
theorem read_call_of_constants :
    CallsWith Gallery.registry "list"
      [.null, .bool true, .int (-12), .str "it's 3.4 !x", .str "/if \"null\""]
      "list\nnull\ntrue\n-12\n\"it's 3.4 !x\"\n'/if \"null\"'".toList ∧
    ¬ ({} : Config).blockFlag.toList <+:
      Text.strip "list\nnull\ntrue\n-12\n\"it's 3.4 !x\"\n'/if \"null\"'".toList ∧
    read Gallery.registry {} "list\nnull\ntrue\n-12\n\"it's 3.4 !x\"\n'/if \"null\"'".toList "" =
      .ok { fragment := .call "list"
              [.constant .null, .constant (.bool true), .constant (.int (-12)),
                .constant (.str "it's 3.4 !x"), .constant (.str "/if \"null\"")] true } := by
  have hcall : CallsWith Gallery.registry "list"
      [.null, .bool true, .int (-12), .str "it's 3.4 !x", .str "/if \"null\""]
      "list\nnull\ntrue\n-12\n\"it's 3.4 !x\"\n'/if \"null\"'".toList :=
    { name := rfl
      registered := by decide
      unmarked := List.all_iff_forall_prop.1 (by decide)
      noSlash := by decide
      noEquals := by decide
      some := nofun
      spelled := ⟨_, .cons .null <| .cons (.bool true) <| .cons (.int (by decide)) <|
        .cons (@Spells.str '\x22' _ (by decide) (by decide)) <|
        .cons (@Spells.str '\x27' _ (by decide) (by decide)) .nil,
        @Token.spaced_intercalate ['\n'] nofun (List.all_eq_true.1 (by decide)) _⟩ }
  have hflag : ¬ ({} : Config).blockFlag.toList <+:
      Text.strip "list\nnull\ntrue\n-12\n\"it's 3.4 !x\"\n'/if \"null\"'".toList := by
    decide
  exact ⟨hcall, hflag, (read_eq_call_iff hcall {} "").2 hflag⟩

/-- A flag with a blank in it can go on behind the name of a helper. -/
theorem read_call_of_long_flag :
    CallsWith Gallery.registry "first" [.int 1] "first 1".toList ∧
      Config.initial [("block_helper_flag", .str "first 1")] =
        .ok { blockFlag := "first 1" } ∧
      ¬ "first 1".toList <+: "first".toList ∧
      read Gallery.registry { blockFlag := "first 1" } "first 1".toList "" =
        .error Fault.noBlockName.stop := by
  have hcall : CallsWith Gallery.registry "first" [.int 1] "first 1".toList :=
    { name := rfl
      registered := by decide
      unmarked := List.all_iff_forall_prop.1 (by decide)
      noSlash := by decide
      noEquals := by decide
      some := nofun
      spelled := ⟨_, .cons (.int (by decide)) .nil,
        @Token.spaced_intercalate [' '] nofun (List.all_eq_true.1 (by decide)) _⟩ }
  have hnothing : ofBlock Gallery.registry "" [] = .error Fault.noBlockName.stop := by
    rw [ofBlock_eq, Text.strip_nil]
    exact congrArg (ofNames _ _ _) (congrArg (List.map _) (Token.splitChars_of_nil rfl))
  exact ⟨hcall, rfl, by decide, hnothing⟩

end Marker

end Stencil
