import Stencil.Proofs.Assembly
import Stencil.Proofs.Loop

/-!
# The blocks around a node

What a compilation numbers is an ordered forest with a full slot for every node, and the walk from
a node outward meets exactly the blocks that contain it, each under the name and with the position
of the marker that opens it (`compiled_forest`).
-/

namespace Stencil

open Procedure

/-- A block of a source: a marker at its position opens a block of its name. -/
def Workshop.Opened (w : Workshop) (source : String) (h : BlockHead) : Prop :=
  ∃ offset body trailing scope m run closed,
    Piece.marker offset body trailing ∈ (w.scan source).2 ∧
    h.position = .ofOffset (Text.strip source.toList) offset ∧
    Marker.read w.registry w.config body scope = .ok m ∧
    m.fragment = .opening h.helper run closed

/-- A block that some marker opens, where the marker is one of `R`. -/
def OpenedBy (R : Reading → Prop) (h : BlockHead) : Prop :=
  ∃ r run closed, R r ∧ h.position = r.position ∧ r.marker.fragment = .opening h.helper run closed

theorem Workshop.opened_of_readings {w : Workshop} {source : String} {name : Option String}
    {h : BlockHead} (ho : OpenedBy (· ∈ w.readings source name) h) : w.Opened source h := by
  obtain ⟨r, run, closed, hr, hposition, hfragment⟩ := ho
  obtain ⟨offset, body, trailing, hmem, hoffset, hread⟩ := Workshop.readFrom_of_mem hr
  exact ⟨offset, body, trailing, _, r.marker, run, closed, hmem, hposition.trans hoffset, hread,
    hfragment⟩

/-! ### The blocks among the entries -/

namespace Procedure

/-- Every block among the entries has a head with the property. -/
def Heads (P : BlockHead → Prop) (es : List Entry) : Prop :=
  ∀ q h b o, Entry.block q h b o ∈ es → P h

variable {P : BlockHead → Prop} {es fs : List Entry} {parent : Option Nat} {first : Nat}

theorem Heads.append (h : Heads P es) (k : Heads P fs) : Heads P (es ++ fs) := by
  intro q head b o hmem
  rcases List.mem_append.1 hmem with hmem | hmem
  · exact h q head b o hmem
  · exact k q head b o hmem

theorem heads_leaf {q : Option Nat} {n : Node} : Heads P [.leaf q n] := by
  intro q head b o hmem
  cases List.mem_singleton.1 hmem

theorem heads_bindNodes (p : Position) (bounds : List Binder.Bound) :
    Heads P (flatten parent first (bindNodes p bounds)) := by
  unfold bindNodes
  induction bounds.filterMap Binder.Bound.made generalizing first with
  | nil => exact fun _ _ _ _ hmem => (List.not_mem_nil hmem).elim
  | cons e es ih => exact heads_leaf.append ih

theorem heads_of_node? {m : Marker} {p : Position} {refs : List Ref} {n : Node}
    (hn : m.node? p refs = some n) : Heads P (flattenNode parent first n) := by
  unfold Marker.node? at hn
  split at hn
  · cases hn
    exact heads_leaf
  · cases hn
    exact heads_leaf
  · cases hn
    exact heads_leaf
  · cases hn

theorem heads_branch {other : Option (List Node)}
    (h : ∀ ns, other = some ns → Heads P (flatten parent first ns)) :
    Heads P (flattenBranch parent first other) := by
  cases other with
  | none => exact fun _ _ _ _ hmem => (List.not_mem_nil hmem).elim
  | some ns => exact h ns rfl

theorem heads_block {h : BlockHead} {body : List Node} {other : Option (List Node)} (hh : P h)
    (hbody : ∀ q i, Heads P (flatten q i body))
    (hother : ∀ ns, other = some ns → ∀ q i, Heads P (flatten q i ns)) :
    Heads P (flattenNode parent first (.block h body other)) := by
  rw [flattenNode]
  intro q head b o hmem
  rcases List.mem_cons.1 hmem with heq | hmem
  · cases heq
    exact hh
  · exact (hbody _ _).append (heads_branch fun ns hns => hother ns hns _ _) q head b o hmem

end Procedure

/-- Every block that comes from an outline is opened by one of its markers. -/
theorem Hoists.heads {R : Reading → Prop} {b b' : Binder} {ds : List Passage} {ns : List Node}
    (h : Hoists R b ds b' ns) (parent : Option Nat) (first : Nat) :
    Heads (OpenedBy R) (flatten parent first ns) := by
  induction h generalizing parent first with
  | nil => exact fun _ _ _ _ hmem => (List.not_mem_nil hmem).elim
  | text _ ih => exact heads_leaf.append (ih _ _)
  | leaf mem bound passage node _ ih =>
    rw [flatten_append, flatten]
    exact (heads_bindNodes _ _).append ((heads_of_node? node).append (ih _ _))
  | block mem fragment opens helper_eq _ _ ihb ih =>
    have hhead : OpenedBy R _ := ⟨_, _, _, mem, opens.position, helper_eq ▸ fragment⟩
    rw [flatten_append, flatten]
    refine (heads_bindNodes _ _).append ((heads_block hhead ihb fun ns hns => ?_).append (ih _ _))
    cases hns
  | branched mem fragment opens helper_eq _ _ _ ihb iho ih =>
    have hhead : OpenedBy R _ := ⟨_, _, _, mem, opens.position, helper_eq ▸ fragment⟩
    rw [flatten_append, flatten]
    refine (heads_bindNodes _ _).append ((heads_block hhead ihb fun ns hns => ?_).append (ih _ _))
    cases hns
    exact iho

/-! ### Compiled templates -/

/-- The nodes of a compiled template are numbered as an ordered forest without an empty slot; the
walk outward from every node ends, and it gives the blocks around the node, outermost first, which
are blocks that markers of the source open. Each of them is listed with the name of its helper and
the line of its marker. -/
theorem compiled_forest {w : Workshop} {source : String} {name : Option String} {t : Template}
    (h : w.compile source name = .ok t) :
    w.assemble source name =
        .ok { slots := (entries t.nodes).map some, body := numbers 0 t.nodes } ∧
      WellFormed (entries t.nodes) (numbers 0 t.nodes) ∧
      (∀ i e, (entries t.nodes)[i]? = some e →
        Climbs (entries t.nodes) e.parent (enclosing (entries t.nodes) i)) ∧
      (∀ i, IsEnclosing (entries t.nodes) i (enclosing (entries t.nodes) i)) ∧
      (∀ i, ∀ head ∈ enclosing (entries t.nodes) i, w.Opened source head) ∧
      ∀ i, enclosingLabels (entries t.nodes) i = (enclosing (entries t.nodes) i).map fun head =>
        "#" ++ head.helper ++ " (line " ++ toString head.position.line ++ ")" := by
  have hforest := wellFormed_entries t.nodes
  refine ⟨?_, hforest, fun i e he => hforest.climbs he, hforest.isEnclosing, ?_, fun i => rfl⟩
  · rw [Workshop.assemble_eq, h]
    rfl
  · intro i head hmem
    obtain ⟨b, hb⟩ := hoists_of_compile h
    obtain ⟨q, body, other, hblock⟩ := (hforest.isEnclosing i).exists_block hmem
    exact Workshop.opened_of_readings (hb.heads none 0 q head body other hblock)

/-- A condition inside a loop, each opened on a line of its own. -/
def nestedSource : String :=
  marked "#for xs" ++ "\n" ++ marked "#if this" ++ "a" ++ marked "#else" ++ "b" ++ marked "/if" ++
    marked "/for"

theorem compiled_forest_of_nested :
    ∃ t, (⟨.builtin, {}⟩ : Workshop).compile nestedSource none = .ok t ∧
      WellFormed (entries t.nodes) [0, 1] ∧
      IsEnclosing (entries t.nodes) 4 (enclosing (entries t.nodes) 4) ∧
      (∀ head ∈ enclosing (entries t.nodes) 4,
        (⟨.builtin, {}⟩ : Workshop).Opened nestedSource head) ∧
      (enclosing (entries t.nodes) 4).map (fun head =>
        "#" ++ head.helper ++ " (line " ++ toString head.position.line ++ ")") =
          ["#for (line 1)", "#if (line 2)"] ∧
      enclosingLabels (entries t.nodes) 4 = ["#for (line 1)", "#if (line 2)"] := by
  have hok : ((⟨.builtin, {}⟩ : Workshop).compile nestedSource none).toOption.any
      (fun t => numbers 0 t.nodes == [0, 1] &&
        enclosingLabels (entries t.nodes) 4 == ["#for (line 1)", "#if (line 2)"]) = true := by
    decide +kernel
  obtain ⟨t, ht, hrun⟩ := exists_ok_of_any hok
  obtain ⟨hbody, hlabels⟩ : numbers 0 t.nodes = [0, 1] ∧
      enclosingLabels (entries t.nodes) 4 = ["#for (line 1)", "#if (line 2)"] := by
    simpa using hrun
  obtain ⟨_, hforest, _, henclosing, hopened, hlisted⟩ := compiled_forest ht
  exact ⟨t, ht, hbody ▸ hforest, henclosing 4, hopened 4, (hlisted 4).symm.trans hlabels, hlabels⟩

end Stencil
