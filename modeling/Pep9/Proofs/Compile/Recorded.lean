import Mathlib.Data.List.Nodup
import Pep9.Compile.Signature
import Pep9.Proofs.Result

/-
  What is recorded of variables. Both walks over a scope, that
  over the top level and that over the body of a function, see
  the assignments in the order of the text, and the first one
  to a name decides what is recorded of it.

  Key theorems: `analyzeGlobals_recorded`,
  `analyzeFunction_recorded`.
-/

namespace Pep9

open List Result
open Script (Expr Stmt)

variable {sig : Signature} {g : Globals} {params : List String} {stmt : Stmt}
  {value : Expr}

namespace Compile

/- The variable that a statement assigns to, with its value. -/
def assigned : Stmt → List (String × Expr)
  | .assign _ (.name id) _ value => [(id, value)]
  | _ => []

/- Such variables of statements in order. -/
def assignedIn (items : List Located) : List (String × Expr) :=
  items.flatMap fun s => assigned s.stmt

theorem assignedIn_append (first second : List Located) :
    assignedIn (first ++ second) = assignedIn first ++ assignedIn second := flatMap_append

/- The first value that is assigned to a name. -/
def firstValue? (seen : List (String × Expr)) (name : String) : Option Expr :=
  (seen.find? fun p => p.1 = name).map Prod.snd

variable {name : String} {seen : List (String × Expr)} {usual : Int64}

theorem firstValue?_append
    (h : firstValue? seen name = some value)
    (more : List (String × Expr)) :
    firstValue? (seen ++ more) name = some value := by
  unfold firstValue? at h ⊢
  rcases Option.map_eq_some_iff.mp h with ⟨_, hFound, hValue⟩
  rw [find?_append, hFound, ← hValue]
  rfl

/- The first value of a name that was not assigned to before. -/
theorem firstValue?_new
    (h : ∀ p ∈ seen, p.1 ≠ name)
    (value : Expr) :
    firstValue? (seen ++ [(name, value)]) name = some value := by
  have hNone : seen.find? (fun p => decide (p.1 = name)) = none := by
    apply find?_eq_none.mpr
    intro p hP hSame
    exact h p hP (of_decide_eq_true hSame)
  unfold firstValue?
  rw [find?_append, hNone]
  simp

/-
  What every statement keeps, with its assignment added to
  those before it, holds after all statements of a scope.
-/
theorem foldlM_assigned {σ : Type} {step : σ → Located → Except Error σ}
    {items : List Located} {start final : σ}
    (P : List (String × Expr) → σ → Prop)
    (hStart : P seen start)
    (hStep : ∀ seen s, ∀ item ∈ items, ∀ s', P seen s → step s item = .ok s' →
        P (seen ++ assigned item.stmt) s')
    (hFold : items.foldlM step start = .ok final) :
    P (seen ++ assignedIn items) final := by
  induction items generalizing seen start with
  | nil =>
    cases hFold
    rw [show assignedIn [] = [] from rfl, append_nil]
    exact hStart
  | cons item _ ih =>
    rcases seq hFold with ⟨next, hNext, hRest⟩
    have hFirst := hStep seen start item mem_cons_self next hStart hNext
    have hAll := ih hFirst (fun _ _ other hOther => hStep _ _ other (.tail _ hOther)) hRest
    rw [append_assoc] at hAll
    exact hAll

/-
  A record of the names that some assignments are made to. It
  has what is computed from the first value of each name, and
  leaves out the names that are skipped.
-/
structure Recorded {ρ : Type} (compute : String → Expr → Except Error ρ)
    (skipped : String → Prop) (seen : List (String × Expr))
    (record : List (String × ρ)) : Prop where
  nodup : (record.map Prod.fst).Nodup
  first : ∀ entry ∈ record, ∃ value, firstValue? seen entry.1 = some value ∧
        compute entry.1 value = .ok entry.2
  own : ∀ entry ∈ record, ¬ skipped entry.1
  names : ∀ p ∈ seen, skipped p.1 ∨ p.1 ∈ record.map Prod.fst

namespace Recorded

variable {ρ : Type} {compute : String → Expr → Except Error ρ}
  {skipped : String → Prop} {record : List (String × ρ)}

/- Nothing is recorded before the first assignment. -/
theorem nil : Recorded compute skipped [] ([] : List (String × ρ)) where
  nodup := nodup_nil
  first := by simp
  own := by simp
  names := by simp

variable (h : Recorded compute skipped seen record)
include h

/- A later assignment changes nothing. -/
theorem again
    (hKnown : skipped name ∨ name ∈ record.map Prod.fst)
    (value : Expr) :
    Recorded compute skipped (seen ++ [(name, value)]) record where
  nodup := h.nodup
  first := by
    intro entry hEntry
    rcases h.first entry hEntry with ⟨first, hFirst, hComputed⟩
    exact ⟨first, firstValue?_append hFirst _, hComputed⟩
  own := h.own
  names := by
    intro p hP
    rcases mem_append.mp hP with hOld | hLast
    · exact h.names p hOld
    · rw [mem_singleton.mp hLast]
      exact hKnown

theorem next {result : ρ}
    (hOwn : ¬ skipped name)
    (hNew : name ∉ record.map Prod.fst)
    (hComputed : compute name value = .ok result) :
    Recorded compute skipped (seen ++ [(name, value)]) (record ++ [(name, result)]) where
  nodup := by
    rw [map_append, nodup_append]
    refine ⟨h.nodup, by simp, ?_⟩
    rintro a hA _ hB rfl
    have hSame : a = name := by simpa using hB
    exact hNew (hSame ▸ hA)
  first := by
    intro entry hEntry
    rcases mem_append.mp hEntry with hOld | hLast
    · rcases h.first entry hOld with ⟨first, hFirst, hBefore⟩
      exact ⟨first, firstValue?_append hFirst _, hBefore⟩
    · rw [mem_singleton.mp hLast]
      refine ⟨value, firstValue?_new ?_ value, hComputed⟩
      intro p hP hSame
      rcases h.names p hP with hSkipped | hMem
      · exact hOwn (hSame ▸ hSkipped)
      · exact hNew (hSame ▸ hMem)
  own := by
    intro entry hEntry
    rcases mem_append.mp hEntry with hOld | hLast
    · exact h.own entry hOld
    · rw [mem_singleton.mp hLast]
      exact hOwn
  names := by
    intro p hP
    rw [map_append]
    rcases mem_append.mp hP with hOld | hLast
    · exact (h.names p hOld).imp_right (mem_append_left _)
    · rw [mem_singleton.mp hLast]
      exact .inr (mem_append_right _ mem_cons_self)

end Recorded

def Globals.record (g : Globals) : List (String × Storage) :=
  g.vars.map fun v => (v.name, v.storage)

theorem Globals.record_names (g : Globals) :
    g.record.map Prod.fst = g.vars.map Global.name := by
  unfold Globals.record
  rw [map_map]
  rfl

theorem Globals.has_iff : g.has name = true ↔ name ∈ g.record.map Prod.fst := by
  rw [Globals.record_names]
  unfold Globals.has
  simp

theorem Globals.add_recorded {g' : Globals}
    (h : Recorded (storageOf usual) (fun _ => False) seen g.record)
    (hAdd : g.add usual stmt = .ok g') :
    Recorded (storageOf usual) (fun _ => False) (seen ++ assigned stmt)
      g'.record := by
  unfold Globals.add at hAdd
  split at hAdd
  · next line first others value =>
    rcases seq hAdd with ⟨_, _, h₁⟩
    split at h₁
    · rcases seq h₁ with ⟨_, _, hDone⟩
      cases hDone
      rw [assigned, append_nil]
      · exact h
      · nofun
    · split at h₁
      · next hHas =>
        cases h₁
        exact h.again (.inr (Globals.has_iff.mp hHas)) value
      · next hHas =>
        rcases seq h₁ with ⟨_, hStorage, hDone⟩
        cases hDone
        have hNext := h.next not_false (fun hMem => hHas (Globals.has_iff.mpr hMem)) hStorage
        unfold Globals.record
        rw [map_append]
        exact hNext
  · next hOther =>
    cases hAdd
    have hNone : assigned stmt = [] := by
      unfold assigned
      split
      · exact absurd rfl (hOther _ _ _ _)
      · rfl
    rw [hNone, append_nil]
    exact h

/-
  The storage of a variable of the top level is that of the
  first value that is assigned to it.
-/
theorem analyzeGlobals_recorded {stmts : List Stmt} {globals : Globals}
    (h : analyzeGlobals usual stmts = .ok globals) :
    Recorded (storageOf usual) (fun _ => False) (assignedIn (flatten 0 stmts)) globals.record := by
  apply foldlM_assigned (fun seen (g : Globals) =>
      Recorded (storageOf usual) (fun _ => False) seen g.record)
    .nil _ h
  intro _ _ _ _ _ hG hAdd
  exact Globals.add_recorded hG (located_eq_ok.mp hAdd)

------------------------------------------------------------
-- Functions
------------------------------------------------------------

def Signature.record (sig : Signature) : List (String × Int64) :=
  sig.locals.map fun l => (l.name, l.size)

theorem Signature.record_names (sig : Signature) :
    sig.record.map Prod.fst = sig.locals.map Local.name := by
  unfold Signature.record
  rw [map_map]
  rfl

/- The names that are no locals, although they are assigned to. -/
def NotLocal (params : List String) (name : String) : Prop :=
  name ∈ params ∨ isConstantName name = true

theorem Signature.has_or_constant :
    (sig.has name || isConstantName name) = true ↔
      NotLocal sig.params name ∨ name ∈ sig.record.map Prod.fst := by
  rw [Signature.record_names]
  unfold Signature.has NotLocal
  simp only [Bool.or_eq_true, contains_iff_mem, List.any_eq_true,
    decide_eq_true_eq, mem_map]
  exact or_right_comm

/- A signature with a head, and the locals of some assignments. -/
structure SignatureRecorded (usual : Int64) (name : String)
    (params : List String) (seen : List (String × Expr)) (sig : Signature) : Prop where
  name_eq : sig.name = name
  params_eq : sig.params = params
  locals : Recorded (Signature.localSize usual) (NotLocal params) seen sig.record

/- The first assignment of a name is recorded. -/
theorem SignatureRecorded.add {sig' : Signature}
    (h : SignatureRecorded usual name params seen sig)
    (hAdd : sig.add usual stmt = .ok sig') :
    SignatureRecorded usual name params (seen ++ assigned stmt) sig' := by
  have hKept : ∀ {other : Signature}, assigned stmt = [] →
        other.name = sig.name → other.params = sig.params → other.record = sig.record →
        SignatureRecorded usual name params (seen ++ assigned stmt) other := by
    intro _ hNone hName hParams hRecord
    rw [hNone, append_nil]
    exact ⟨hName.trans h.name_eq, hParams.trans h.params_eq, hRecord ▸ h.locals⟩
  unfold Signature.add at hAdd
  split at hAdd
  · next line first others value =>
    rcases seq hAdd with ⟨_, _, h₁⟩
    split at h₁
    · rcases seq h₁ with ⟨_, _, hDone⟩
      cases hDone
      exact hKept rfl rfl rfl rfl
    · next id =>
      by_cases hKnown : (sig.has id || isConstantName id) = true
      · rw [if_pos hKnown] at h₁
        cases h₁
        rw [Signature.has_or_constant, h.params_eq] at hKnown
        exact ⟨h.name_eq, h.params_eq, h.locals.again hKnown value⟩
      · rw [if_neg hKnown] at h₁
        rcases seq h₁ with ⟨_, hSize, hDone⟩
        cases hDone
        rw [Signature.has_or_constant, h.params_eq, not_or] at hKnown
        refine ⟨h.name_eq, h.params_eq, ?_⟩
        have hNext := h.locals.next hKnown.1 hKnown.2 hSize
        unfold Signature.record
        rw [map_append]
        exact hNext
  · cases hAdd
    exact hKept rfl rfl rfl rfl
  · cases hAdd
  · next hAssign hRet hDefine =>
    cases hAdd
    refine hKept ?_ rfl rfl rfl
    unfold assigned
    split
    · exact absurd rfl (hAssign _ _ _ _)
    · rfl

/-
  The size of a local variable is that of the first value that
  is assigned to it.
-/
theorem analyzeFunction_recorded {body : List Stmt}
    (h : analyzeFunction usual name params body = .ok sig) :
    SignatureRecorded usual name params (assignedIn (flatten 0 body)) sig := by
  apply foldlM_assigned (SignatureRecorded usual name params) ⟨rfl, rfl, .nil⟩ _ h
  intro _ _ _ _ _ hSig hAdd
  exact hSig.add (located_eq_ok.mp hAdd)

end Compile

end Pep9
