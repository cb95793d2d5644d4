import Stencil.Proofs.Hoisting

/-!
# The invariant along a compilation

Where the paths are plain, the binder keeps its invariant through every block (`Hoists.tidy`), and
the operands and the scope of a block stand for its paths (`Opens.denotes`).
-/

namespace Stencil

open Binder (Tidy Plain Denotes IsNumbered numbered)

theorem exists_append_of_forall₂ {α β : Type} {R : α → β → Prop} {as bs : List α} {cs : List β}
    (h : List.Forall₂ R (as ++ bs) cs) :
    ∃ as' bs', cs = as' ++ bs' ∧ List.Forall₂ R as as' ∧ List.Forall₂ R bs bs' := by
  induction as generalizing cs with
  | nil => exact ⟨[], cs, rfl, .nil, h⟩
  | cons a as ih =>
    cases h with
    | cons ha hrest =>
      obtain ⟨as', bs', rfl, has, hbs⟩ := ih hrest
      exact ⟨_ :: as', bs', rfl, .cons ha has, hbs⟩

namespace Opens

variable {b b₁ b₂ b₃ : Binder} {p : Position} {m : Marker} {bounds : List Binder.Bound}
  {head : BlockHead} {helper : String} {run : List Value → Passes} {closed : Bool}

/-- The operands of a block stand for its paths, and its scope for the scope that was asked for. -/
theorem denotes (h : Opens b p m bounds b₁ head b₂)
    (hf : m.fragment = .opening helper run closed) (hb : Tidy b)
    (hp : ∀ q ∈ m.asked, Plain q) :
    (∃ refs, head.operands = refs.map .ref ∧ List.Forall₂ (Denotes b₁) m.paths refs) ∧
      (m.scope = "" ∧ head.scope = b₁.scope ∨ m.scope ≠ "" ∧ Denotes b₁ m.scope head.scope) := by
  obtain ⟨_, _, hd⟩ := (Binder.bindsEach_of_bind h.bound).tidy hb hp
  obtain ⟨refs, hops, hsplit⟩ := h.operands
  rw [Marker.asked_of_opening hf] at hd
  unfold Builder.splitScope at hsplit
  by_cases hs : m.scope = ""
  · simp only [hs, bne_self_eq_false, Bool.false_eq_true, if_false, List.append_nil] at hd hsplit
    obtain ⟨hscope, hrefs⟩ := Prod.mk.inj hsplit
    exact ⟨⟨refs, hops, hrefs ▸ hd⟩, .inl ⟨hs, hscope.symm⟩⟩
  · have hne : (m.scope != "") = true := bne_iff_ne.2 hs
    rw [hne, if_pos rfl] at hd
    rw [hne, if_pos rfl] at hsplit
    obtain ⟨init, _, heq, hinit, hends⟩ := exists_append_of_forall₂ hd
    obtain ⟨last, _, hlast, hnil, rfl⟩ := List.forall₂_cons_left_iff.1 hends
    rw [List.forall₂_nil_left_iff.1 hnil] at heq
    obtain ⟨hscope, hrefs⟩ := Prod.mk.inj hsplit
    rw [heq, List.getLastD_concat] at hscope
    rw [heq, List.dropLast_concat] at hrefs
    exact ⟨⟨refs, hops, hrefs ▸ hinit⟩, .inr ⟨hs, hscope ▸ hlast⟩⟩

/-- The scope of a body has a name of its own, with the next number, or it is the scope as it was
asked for. -/
theorem inner_cases (h : Opens b p m bounds b₁ head b₂) :
    (head.scopeName = some (numbered head.scope.root (b₁.count + 1)) ∧
      head.inner = ⟨numbered head.scope.root (b₁.count + 1), []⟩ ∧ b₂.count = b₁.count + 1) ∨
    (head.scopeName = none ∧ head.inner = head.scope ∧ b₂ = b₁) := by
  have hn := h.named
  unfold Builder.nameFor at hn
  split at hn
  · left
    obtain ⟨hname, hb⟩ := Prod.mk.inj hn
    simp only [Binder.fresh_eq] at hname hb
    refine ⟨hname.symm, ?_, by rw [← hb]⟩
    unfold BlockHead.inner
    rw [← hname]
  · right
    obtain ⟨hname, hb⟩ := Prod.mk.inj hn
    refine ⟨hname.symm, ?_, hb.symm⟩
    unfold BlockHead.inner
    rw [← hname]

theorem tidy (h : Opens b p m bounds b₁ head b₂) (hb : Tidy b)
    (hp : ∀ q ∈ m.asked, Plain q) : Tidy b₁ :=
  ((Binder.bindsEach_of_bind h.bound).tidy hb hp).1

/-- The local that a block's scope starts from is bound, or an open scope starts from it, or it is
the one that the scope names. -/
theorem scope_root (h : Opens b p m bounds b₁ head b₂)
    (hf : m.fragment = .opening helper run closed) (hb : Tidy b)
    (hp : ∀ q ∈ m.asked, Plain q) :
    head.scope.root ∈ b₁.targets ∨ head.scope.root ∈ b₁.roots ∨
      m.scope ∈ m.asked ∧ Path.local? m.scope = some head.scope.root := by
  obtain ⟨_, ⟨_, hs⟩ | ⟨hne, hd⟩⟩ := h.denotes hf hb hp
  · right; left
    rw [hs]
    exact Binder.mem_roots (Binder.scope_mem (h.tidy hb hp).levels)
  · rcases hd.root with hr | hr | hr
    · exact .inl hr
    · exact .inr (.inl hr)
    · exact .inr (.inr ⟨Marker.scope_mem_asked hf hne, hr⟩)

theorem push_levels (h : Opens b p m bounds b₁ head b₂) (s : Ref) :
    (b₂.push s).levels = ⟨s, []⟩ :: b₁.levels := by
  rw [← h.named_levels.1]
  rfl

theorem tidy_push (h : Opens b p m bounds b₁ head b₂)
    (hf : m.fragment = .opening helper run closed) (hb : Tidy b)
    (hp : ∀ q ∈ m.asked, Plain q) : Tidy (b₂.push head.inner) := by
  have hb₁ := h.tidy hb hp
  have hc := h.named_levels.2
  refine hb₁.of_cons (h.push_levels _) hc ?_
  intro stem k hk
  rcases h.inner_cases with ⟨_, hi, hcount⟩ | ⟨_, hi, rfl⟩
  · rw [hi] at hk
    have hn := Binder.numbered_number hk
    change k ≤ b₂.count
    omega
  · rw [hi] at hk
    rcases h.scope_root hf hb hp with hr | hr | ⟨hm, hr⟩
    · exact hb₁.counted _ (.inl hr) stem k hk
    · exact hb₁.counted _ (.inr hr) stem k hk
    · exact absurd ⟨stem, k, hk⟩ ((hp _ hm).1 _ hr)

theorem tidy_replace (h : Opens b p m bounds b₁ head b₂) (hb : Tidy b)
    (hp : ∀ q ∈ m.asked, Plain q) (hw : Binder.Within (b₂.push head.inner) b₃) :
    Tidy (b₃.replace b₁.scope) := by
  have hb₁ := h.tidy hb hp
  have hm := Binder.mem_roots (Binder.scope_mem hb₁.levels)
  have hc : b₁.count ≤ (b₃.replace b₁.scope).count := by
    rw [Binder.replace_count]
    exact h.count_le hw
  refine hb₁.of_cons (h.replace_levels hw) hc ?_
  intro stem k hk
  exact Nat.le_trans (hb₁.counted _ (.inr hm) stem k hk) hc

theorem tidy_pop (h : Opens b p m bounds b₁ head b₂) (hb : Tidy b)
    (hp : ∀ q ∈ m.asked, Plain q) (hw : Binder.Within (b₂.push head.inner) b₃) :
    Tidy b₃.pop := by
  have hc : b₁.count ≤ b₃.count := h.count_le hw
  exact (h.tidy hb hp).of_levels (h.pop_levels hw) hc

theorem tidy_pop_branch {b₄ : Binder} (h : Opens b p m bounds b₁ head b₂) (hb : Tidy b)
    (hp : ∀ q ∈ m.asked, Plain q) (hw : Binder.Within (b₂.push head.inner) b₃)
    (ho : Binder.Within (b₃.replace b₁.scope) b₄) : Tidy b₄.pop := by
  have hc := ho.count
  rw [Binder.replace_count] at hc
  exact (h.tidy hb hp).of_levels (h.pop_levels_branch hw ho) (Nat.le_trans (h.count_le hw) hc)

end Opens

theorem Hoists.tidy {R : Reading → Prop} {b b' : Binder} {ds : List Passage} {ns : List Node}
    (h : Hoists R b ds b' ns) (hb : Tidy b) (hp : ∀ r, R r → ∀ q ∈ r.marker.asked, Plain q) :
    Tidy b' := by
  induction h with
  | nil => exact hb
  | text _ ih => exact ih hb
  | leaf mem bound _ _ _ ih =>
    exact ih ((Binder.bindsEach_of_bind bound).tidy hb (hp _ mem)).1
  | block mem fragment opens _ bodyPart _ _ ih =>
    exact ih (opens.tidy_pop hb (hp _ mem) bodyPart.within)
  | branched mem fragment opens _ bodyPart branchPart _ _ _ ih =>
    exact ih (opens.tidy_pop_branch hb (hp _ mem) bodyPart.within branchPart.within)

end Stencil
