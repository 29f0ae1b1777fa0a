import Pep9.Compile.Statement
import Pep9.Proofs.Compile.Allocation

/-
  Errors that are not about variables. Neither the analysis of
  a scope nor the search for targets looks for a variable, so
  that none of them reports one as not defined. Their steps
  leave the line of an error to the statement.

  Key theorems: `Globals.add_bare`, `Signature.add_bare`,
  `allocateGlobals_bare`, `enter_fails`,
  `analyzeGlobals_nameless`, `enter_nameless`.
-/

namespace Pep9

open Script (Expr Stmt Place)

variable {e : Error}

namespace Compile

/- A result that is one of some errors, if it is an error. -/
def Fails {α : Type} (P : Error → Prop) : Except Error α → Prop
  | .ok _ => True
  | .error e => P e

/- A result that is not the report of an unknown variable. -/
abbrev Nameless {α : Type} (x : Except Error α) : Prop :=
  Fails (fun e => ∀ name, e.cause ≠ .undefinedName name) x

/- Such a result that has no line yet. -/
abbrev Bare {α : Type} (x : Except Error α) : Prop :=
  Fails (fun e => e.line = 0 ∧ ∀ name, e.cause ≠ .undefinedName name) x

/- A result that is no error but a lack of target names. -/
abbrev Exhausts {α : Type} (x : Except Error α) : Prop :=
  Fails (fun e => ∃ kind name, e = .of (.namesExhausted kind name)) x

namespace Fails

variable {α β : Type} {P Q : Error → Prop} {x : Except Error α}

section

variable (hX : Fails P x)
include hX

theorem of_error (h : x = .error e) : P e := by
  rw [h] at hX
  exact hX

theorem mono (h : ∀ e, P e → Q e) : Fails Q x := by
  cases x with
  | error e => exact h e hX
  | ok => trivial

theorem bind {f : α → Except Error β}
    (hF : ∀ a, Fails P (f a)) :
    Fails P (x >>= f) := by
  cases x with
  | error => exact hX
  | ok a => exact hF a

theorem map {f : α → β} : Fails P (x.map f) := by
  cases x with
  | error => exact hX
  | ok => trivial

end

theorem foldlM {σ : Type} {step : σ → α → Except Error σ}
    (hStep : ∀ s a, Fails P (step s a))
    (items : List α)
    (start : σ) :
    Fails P (items.foldlM step start) := by
  induction items generalizing start with
  | nil => trivial
  | cons a _ ih =>
    exact (hStep start a).bind ih

end Fails

theorem Bare.nameless {α : Type} {x : Except Error α}
    (hX : Bare x) :
    Nameless x :=
  hX.mono fun _ h => h.2

theorem Exhausts.bare {α : Type} {x : Except Error α}
    (hX : Exhausts x) :
    Bare x := by
  refine hX.mono ?_
  rintro _ ⟨_, _, rfl⟩
  exact ⟨rfl, nofun⟩

theorem Nameless.cause_atLine
    (line : Int)
    (e : Error) :
    (e.atLine line).cause = e.cause := by
  unfold Error.atLine
  split <;> rfl

theorem Nameless.located {α : Type} {x : Except Error α}
    (hX : Nameless x)
    (line : Int) :
    Nameless (located line x) := by
  cases x with
  | error =>
    intro name hCause
    rw [cause_atLine] at hCause
    exact hX name hCause
  | ok => trivial

theorem freeTarget_exhausts
    (t : SymbolTable)
    (kind : SymbolKind)
    (window : String)
    (positions : List Nat) :
    Exhausts (t.freeTarget kind window positions) := by
  unfold SymbolTable.freeTarget
  split
  · split
    · trivial
    · exact ⟨_, _, rfl⟩
  · trivial

theorem generate_bare
    (t : SymbolTable)
    (stem : String)
    (id : Int) :
    Bare (t.generate stem id) := by
  unfold SymbolTable.generate
  dsimp only
  split
  · exact ⟨rfl, nofun⟩
  · split
    · next hError => exact (freeTarget_exhausts _ _ _ _).bare.of_error hError
    · trivial

theorem bindFree_exhausts
    (t : SymbolTable)
    (window : String)
    (positions : List Nat)
    (binding : String → Binding) :
    Exhausts (t.bindFree window positions binding) := by
  unfold SymbolTable.bindFree
  split
  · next hError => exact (freeTarget_exhausts _ _ _ _).of_error hError
  · trivial

theorem bindGlobal_exhausts
    (t : SymbolTable)
    (kind : SymbolKind)
    (name : String) :
    Exhausts (t.bindGlobal kind name) := by
  unfold SymbolTable.bindGlobal
  split
  · trivial
  · exact bindFree_exhausts _ _ _ _

theorem bindLocalAs_exhausts
    (t : SymbolTable)
    (source name owner : String) :
    Exhausts (t.bindLocalAs source name owner) := by
  unfold SymbolTable.bindLocalAs
  dsimp only
  split
  · split
    · trivial
    · exact bindFree_exhausts _ _ _ _
  · exact bindFree_exhausts _ _ _ _

theorem label_bare
    (g : Generator)
    (stem : String)
    (id : Nat) :
    Bare (g.label stem id) :=
  (generate_bare _ _ _).bind fun _ => trivial

theorem checkTargets_bare (others : List Place) :
    Bare (checkTargets others) := by
  unfold checkTargets
  split
  · trivial
  · exact ⟨rfl, nofun⟩

theorem checkWord_bare (n : Int64) : Bare (checkWord n) := by
  unfold checkWord
  split
  · trivial
  · exact ⟨rfl, nofun⟩

theorem arrayBytes_bare
    (usual : Int64)
    (value : Expr) :
    Bare (arrayBytes usual value) := by
  have hLength : ∀ n, Bare (bytesOfLength n) := by
    intro _
    unfold bytesOfLength
    split
    · exact ⟨rfl, nofun⟩
    · trivial
  unfold arrayBytes
  split
  · exact hLength _
  · exact hLength _
  · trivial

theorem addIndex_bare
    (slicing : List String)
    (base position : Expr) :
    Bare (addIndex slicing base position) := by
  refine Fails.bind ?_ fun found => ?_
  · unfold indexName?
    split
    · split
      · trivial
      · exact (checkWord_bare _).bind fun _ => trivial
      · exact ⟨rfl, by rintro _ ⟨⟩⟩
    · exact ⟨rfl, by rintro _ ⟨⟩⟩
  · split
    · trivial
    · trivial

theorem Globals.add_bare
    (usual : Int64)
    (g : Globals)
    (stmt : Stmt) :
    Bare (g.add usual stmt) := by
  unfold Globals.add
  split
  · refine (checkTargets_bare _).bind fun _ => ?_
    split
    · exact (addIndex_bare _ _ _).bind fun _ => trivial
    · split
      · trivial
      · refine Fails.bind ?_ fun _ => trivial
        unfold storageOf
        split
        · exact (checkWord_bare _).bind fun _ => trivial
        · split
          · exact ⟨rfl, nofun⟩
          · split
            · exact (arrayBytes_bare _ _).bind fun _ => trivial
            · trivial
  · trivial

theorem Signature.add_bare
    (usual : Int64)
    (sig : Signature)
    (stmt : Stmt) :
    Bare (sig.add usual stmt) := by
  unfold Signature.add
  split
  · refine (checkTargets_bare _).bind fun _ => ?_
    split
    · exact (addIndex_bare _ _ _).bind fun _ => trivial
    · split
      · trivial
      · refine Fails.bind ?_ fun _ => trivial
        unfold Signature.localSize
        split
        · exact arrayBytes_bare _ _
        · trivial
  · trivial
  · exact ⟨rfl, nofun⟩
  · trivial

/- No analysis looks for variables. -/
theorem analyzeGlobals_nameless
    (usual : Int64)
    (stmts : List Stmt) :
    Nameless (analyzeGlobals usual stmts) :=
  Fails.foldlM (fun g s => (g.add_bare usual s.stmt).nameless.located _) _ _

theorem analyzeFunction_nameless
    (usual : Int64)
    (name : String)
    (params : List String)
    (body : List Stmt) :
    Nameless (analyzeFunction usual name params body) :=
  Fails.foldlM (fun sig s => (sig.add_bare usual s.stmt).nameless.located _) _ _

------------------------------------------------------------
-- Allocation
------------------------------------------------------------

theorem allocateGlobals_exhausts
    (t : SymbolTable)
    (vars : List Global) :
    Exhausts (allocateGlobals t vars).2 := by
  induction vars generalizing t with
  | nil => trivial
  | cons v _ ih =>
    rw [allocateGlobals]
    split
    · next hError => exact (bindGlobal_exhausts t .data v.name).of_error hError
    · exact (ih _).map

theorem bindSlots_exhausts
    (owner : String)
    (t : SymbolTable)
    (slots : List Slot)
    (h : (bindSlots owner t slots).error = some e) :
    ∃ kind name, e = .of (.namesExhausted kind name) := by
  induction slots generalizing t with
  | nil => cases h
  | cons slot _ ih =>
    rw [bindSlots] at h
    split at h
    · next hError =>
      cases h
      exact (bindLocalAs_exhausts t slot.source slot.name owner).of_error hError
    · exact ih _ h

theorem checkDefinition_bare
    (g : Generator)
    (name : String) :
    Bare (g.checkDefinition name) := by
  unfold Generator.checkDefinition
  split
  · exact ⟨rfl, nofun⟩
  · split
    · exact ⟨rfl, nofun⟩
    · split
      · exact ⟨rfl, nofun⟩
      · trivial

/-
  The head of a function fails by itself, or the analysis of
  the body does when the function has its label.
-/
theorem enter_fails
    (g : Generator)
    (name : String)
    (params : List String)
    (body : List Stmt) :
    Fails (fun e => (e.line = 0 ∧ ∀ name, e.cause ≠ .undefinedName name) ∨
        g.checkDefinition name = .ok () ∧ (g.table.bindGlobal .label name).isOk = true ∧
          analyzeFunction g.usual name params body = .error e) (g.enter name params body) := by
  unfold Generator.enter
  rcases hCheck : g.checkDefinition name with _ | _
  · exact .inl ((checkDefinition_bare g name).of_error hCheck)
  · rcases hLabel : g.table.bindGlobal .label name with _ | ⟨_, table⟩
    · exact .inl ((bindGlobal_exhausts _ _ _).bare.of_error hLabel)
    · rcases hSig : analyzeFunction g.usual name params body with _ | sig
      · exact .inr ⟨rfl, rfl, rfl⟩
      · simp only [Result.ok_bind]
        split
        · next hError =>
          rcases bindSlots_exhausts _ _ _ hError with ⟨_, _, rfl⟩
          exact .inl ⟨rfl, nofun⟩
        · exact ((generate_bare _ _ _).mono fun _ => .inl).bind fun _ => trivial

theorem enter_nameless
    (g : Generator)
    (name : String)
    (params : List String)
    (body : List Stmt) :
    Nameless (g.enter name params body) := by
  refine (enter_fails g name params body).mono fun e h => ?_
  rcases h with h | h
  · exact h.2
  · exact (analyzeFunction_nameless _ _ _ _).of_error h.2.2

end Compile

end Pep9
