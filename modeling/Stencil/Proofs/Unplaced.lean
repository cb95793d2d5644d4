import Stencil.Proofs.BuiltinBlocks
import Stencil.Proofs.Conditions

/-!
# Mistakes without a place

What reads a marker and binds its paths does not know where the marker is. Main statement: with the
built-in block helpers a marker that is mistaken has one of the faults, with no place yet
(`Workshop.unplaced_applyMarker`), so that the place of the marker is the one that is reported.
-/

namespace Stencil

/-- Where something stops with a mistake, it is a fault that has no place. -/
def Unplaced {α : Type} : Except CompileError α → Prop
  | .error (.mistake e) => ∃ f : Fault, e = f.toError
  | _ => True

namespace Unplaced

variable {α β : Type} {r : Except CompileError α}

theorem stop (f : Fault) : Unplaced (.error f.stop : Except CompileError α) := Exists.intro f rfl

theorem error {e : CompileError} (h : Unplaced (.error e : Except CompileError α)) :
    Unplaced (.error e : Except CompileError β) := by
  match e with
  | .mistake e => exact h
  | .failure f => trivial

theorem map (h : Unplaced r) (g : α → β) : Unplaced (r.map g) := by
  cases r with
  | ok a => trivial
  | error e => exact h.error

theorem orStop (r : Except Fault α) : Unplaced (Marker.orStop r) := by
  cases r with
  | ok a => trivial
  | error f => exact stop f

end Unplaced

/-! ### Paths -/

namespace Path

theorem unplaced_segments (ws : List (List Char)) : Unplaced (segments ws) := by
  unfold segments
  cases ws.mapM segment <;> trivial

theorem unplaced_resolveLocal (cs : List Char) : Unplaced (resolveLocal cs) := by
  unfold resolveLocal
  split
  · trivial
  · exact (unplaced_segments _).map _

theorem unplaced_located (scope : Option Ref) (cs : List Char) : Unplaced (located scope cs) := by
  cases scope <;> trivial

theorem unplaced_start (path : String) (scopes : List Ref) : Unplaced (start path scopes) := by
  unfold start
  split
  · exact unplaced_located _ _
  · exact unplaced_located _ _
  · split
    · exact unplaced_located _ _
    · split
      · trivial
      · exact .stop _

theorem unplaced_resolveFrom (path : String) (base : Ref) (cs : List Char) :
    Unplaced (resolveFrom path base cs) := by
  simp only [resolveFrom]
  split
  · exact .stop _
  · split
    · exact .stop _
    · split
      · trivial
      · exact (unplaced_segments _).map _

theorem unplaced_resolve (path : String) (scopes : List Ref) : Unplaced (resolve path scopes) := by
  unfold resolve
  split
  · exact unplaced_resolveLocal _
  · exact unplaced_resolveLocal _
  · have hstart := unplaced_start path scopes
    split
    · rename_i e he
      rw [he] at hstart
      exact hstart.error
    · exact unplaced_resolveFrom _ _ _

end Path

/-! ### Binding -/

namespace Binder

theorem unplaced_bindPath (b : Binder) (path : String) : Unplaced (b.bindPath path) := by
  have hresolve := Path.unplaced_resolve path b.scopes
  unfold bindPath
  split
  · rename_i e he
    rw [he] at hresolve
    exact hresolve.error
  · split
    · trivial
    · split <;> trivial

theorem unplaced_bindEach (b : Binder) (paths : List String) : Unplaced (b.bindEach paths).2 := by
  induction paths generalizing b with
  | nil => trivial
  | cons q qs ih =>
    have hq := b.unplaced_bindPath q
    rw [bindEach]
    split
    · rename_i e he
      rw [he] at hq
      exact hq.error
    · exact (ih _).map _

theorem unplaced_bind (b : Binder) (paths : List String) : Unplaced (b.bind paths).2 := by
  unfold bind
  split
  · trivial
  · exact b.unplaced_bindEach paths

end Binder

namespace Builder

theorem unplaced_bind (b : Builder) (p : Position) (paths : List String) :
    Unplaced (b.bind p paths) := by
  have hbind := b.binder.unplaced_bind paths
  unfold bind
  split
  · rename_i e he
    rw [he] at hbind
    exact hbind.error
  · trivial

theorem unplaced_openBlock (b : Builder) (p : Position) (helper : String)
    (run : List Value → Passes) (scope : String) (paths : List String) :
    Unplaced (b.openBlock p helper run scope paths) := by
  have hbind := b.unplaced_bind p (paths ++ if scope != "" then [scope] else [])
  simp only [openBlock]
  split
  · rename_i e he
    rw [he] at hbind
    exact hbind.error
  · trivial

theorem unplaced_apply (b : Builder) (p : Position) (m : Marker) : Unplaced (b.apply p m) := by
  unfold apply
  split
  · rename_i helper run closed _
    have hopen := b.unplaced_openBlock p helper run m.scope m.paths
    split
    · rename_i e he
      rw [he] at hopen
      exact hopen.error
    · split
      · exact .orStop _
      · trivial
  · exact .orStop _
  · exact .orStop _
  · trivial
  · exact (b.unplaced_bind p m.paths).map _
  · exact (b.unplaced_bind p m.paths).map _

end Builder

/-! ### Block helpers -/

namespace Condition

theorem unplaced_parseOperand (slot : Nat) (token : String) :
    Unplaced (parseOperand slot token) := by
  simp only [parseOperand]
  split
  · trivial
  · trivial
  · split
    · trivial
    · exact .stop _

theorem unplaced_readTerm (all : List String) (slot : Nat) (tokens : List String) :
    Unplaced (readTerm all slot tokens) := by
  unfold readTerm
  split
  · exact .stop _
  · rename_i t ts
    split
    · exact .stop _
    · have hleft := unplaced_parseOperand slot t
      split
      · rename_i e he
        rw [he] at hleft
        exact hleft.error
      · rename_i left path _
        split
        · trivial
        · split
          · trivial
          · split
            · exact .stop _
            · rename_i r _
              have hright := unplaced_parseOperand (slot + path.toList.length) r
              split
              · rename_i e he
                rw [he] at hright
                exact hright.error
              · trivial

theorem unplaced_readTerms (all : List String) (slot : Nat) (tokens : List String) :
    Unplaced (readTerms all slot tokens) := by
  induction hn : tokens.length using Nat.strongRecOn generalizing slot tokens with
  | ind n ih =>
    have hterm := unplaced_readTerm all slot tokens
    rw [readTerms_eq]
    split
    · rename_i e he
      rw [he] at hterm
      exact hterm.error
    · rename_i r hr
      have hlen := readTerm_length hr
      split
      · trivial
      · rename_i t ts hrest
        have hts : ts.length < n := by
          rw [hrest, List.length_cons] at hlen
          omega
        have hmore := ih ts.length hts (slot + r.paths.length) ts rfl
        split
        · exact hmore.map _
        · split
          · exact hmore.map _
          · exact .stop _

theorem unplaced_parse (args : List String) : Unplaced (parse args) := by
  unfold parse
  split
  · exact .stop _
  · exact unplaced_readTerms args 0 args

end Condition

namespace Builtin

theorem unplaced_singleArgument (helper : String) (args : List String) :
    Unplaced (singleArgument helper args) := by
  unfold singleArgument
  split
  · trivial
  · exact .stop _

theorem unplaced_block {e : String × BlockHelper} (he : e ∈ blocks) (scope : String)
    (args : List String) : Unplaced (e.2 scope args) := by
  rcases mem_blocks he with he | he | he | ⟨helper, run, he, _⟩ <;> rw [he]
  · exact (Condition.unplaced_parse args).map _
  · unfold branch
    split
    · trivial
    · exact .stop _
  · exact (unplaced_singleArgument "with" args).map _
  · exact (unplaced_singleArgument helper args).map _

end Builtin

/-! ### Markers -/

namespace Marker

theorem unplaced_ofToken (escape : Bool) (token : String) : Unplaced (ofToken escape token) := by
  unfold ofToken
  split
  · trivial
  · trivial
  · split
    · trivial
    · exact .stop _

theorem unplaced_arguments (helper : String) (next : Nat) (ts : List String) :
    Unplaced (arguments helper next ts) := by
  induction ts generalizing next with
  | nil => trivial
  | cons t ts ih =>
    unfold arguments
    split
    · trivial
    · exact (ih next).map _
    · split
      · exact (ih (next + 1)).map _
      · exact .stop _

theorem unplaced_ofOutput (r : Registry) (c : Config) (cs : List Char) :
    Unplaced (ofOutput r c cs) := by
  simp only [ofOutput]
  split
  · exact .stop _
  · exact unplaced_ofToken _ _
  · unfold ofCall
    split
    · exact (unplaced_arguments _ 0 _).map _
    · exact .stop _

theorem unplaced_ofReply (name : String) (closed : Bool) (reply : Reply) :
    Unplaced (ofReply name closed reply) := by
  unfold ofReply
  split
  · trivial
  · split
    · trivial
    · split
      · exact .stop _
      · trivial

variable {w : Workshop}

theorem unplaced_ofBlock (hw : w.UsesBuiltins) (scope : String) (cs : List Char) :
    Unplaced (ofBlock w.registry scope cs) := by
  simp only [ofBlock]
  split
  · exact .stop _
  · rename_i name args _
    split
    · exact .stop _
    · rename_i helper hhelper
      obtain ⟨e, he, rfl⟩ := hw name helper (Registry.get?_of_block hhelper)
      have hreply := Builtin.unplaced_block he scope args
      split
      · rename_i error hr
        rw [hr] at hreply
        exact hreply.error
      · exact unplaced_ofReply _ _ _

theorem unplaced_read (hw : w.UsesBuiltins) (body : List Char) (scope : String) :
    Unplaced (read w.registry w.config body scope) := by
  simp only [read]
  split
  · exact unplaced_ofBlock hw scope _
  · split
    · trivial
    · exact unplaced_ofOutput _ _ _

end Marker

theorem Workshop.unplaced_applyMarker {w : Workshop} (hw : w.UsesBuiltins) (b : Builder)
    (p : Position) (body : List Char) : Unplaced (w.applyMarker b p body) := by
  have hread := Marker.unplaced_read hw body b.binder.scope.text
  unfold applyMarker
  split
  · rename_i e he
    rw [he] at hread
    exact hread.error
  · exact b.unplaced_apply p _

end Stencil
