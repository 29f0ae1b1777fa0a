import Pep9.Compile.Allocation
import Pep9.Proofs.Compile.Supply
import Pep9.Proofs.Script.Names

/-
  Names that are declared. Globals and the places of a
  function get targets of their own, and each declaration
  belongs to one binding.

  Key theorems: `analyzeGlobals_wellformed`,
  `AllotsGlobals.supplies`, `analyzeFunction_names`,
  `allocateFrame_bound`.
-/

namespace Pep9

open List Result
open Listing (Declaration)
open Script (Expr Stmt IsIdentifier)

variable {t t' : SymbolTable} {g : Globals} {stmt : Stmt} {vars : List Global}

namespace Compile

variable {usual : Int64} {name owner : String} {decls : List Declaration}
  {sig : Signature} {params : List String} {bindings : Bindings} {slots : List Slot}

/- The statements of a block have only the names of the block. -/
theorem flatten_named {P : String → Prop}
    (outer : Int)
    (stmts : List Stmt)
    (hNamed : Script.NamedBlock P stmts) :
    ∀ s ∈ flatten outer stmts, s.stmt.Named P := by
  have hAll := flattenStmt.mutual_induct (fun outer stmt =>
      stmt.Named P → ∀ s ∈ flattenStmt outer stmt, s.stmt.Named P)
    (fun outer stmts =>
      Script.NamedBlock P stmts → ∀ s ∈ flatten outer stmts, s.stmt.Named P)
  refine (hAll ?_ ?_ ?_ ?_ ?_ ?_).2 outer stmts hNamed
  · intro _ _ _ _ _ ihBody ihElse hNamed s hS
    rw [flattenStmt] at hS
    rcases mem_append.mp hS with hS | hS
    · exact ihBody hNamed.2.1 s hS
    · exact ihElse hNamed.2.2 s hS
  · intro _ _ _ _ ih hNamed s hS
    rw [flattenStmt] at hS
    exact ih hNamed.2 s hS
  · intro _ _ _ _ _ ih hNamed s hS
    rw [flattenStmt] at hS
    exact ih hNamed.2.2 s hS
  · intro _ _ _ _ _ hNamed _ hS
    rw [flattenStmt] at hS
    · exact mem_singleton.mp hS ▸ hNamed
    all_goals assumption
  · intro _ _ _ hS
    rw [flatten] at hS
    cases hS
  · intro _ _ _ ihFirst ihRest hNamed s hS
    rw [flatten] at hS
    rcases mem_append.mp hS with hS | hS
    · exact ihFirst hNamed.1 s hS
    · exact ihRest hNamed.2 s hS

/- A kind of storage that a variable with a name can have. -/
def Storage.Fits (name : String) : Storage → Prop
  | .uninitialized => isConstantName name = false ∧ isArrayName name = false
  | .constant _ => isConstantName name = true
  | .value _ => isConstantName name = false
  | .array _ => isArrayName name = true

theorem storageOf_fits {value : Expr} {storage : Storage}
    (h : storageOf usual name value = .ok storage) :
    storage.Fits name := by
  unfold storageOf at h
  split at h
  · rcases seq h with ⟨_, _, hDone⟩
    rw [pure_eq_ok] at hDone
    rw [← hDone]
    split
    · next hConstant => exact hConstant
    · next hConstant => exact Bool.eq_false_iff.mpr hConstant
  · split at h
    · cases h
    · next hConstant =>
      split at h
      · next hArray =>
        rcases seq h with ⟨_, _, hDone⟩
        cases hDone
        exact hArray
      · next hArray =>
        cases h
        exact ⟨Bool.eq_false_iff.mpr hConstant, Bool.eq_false_iff.mpr hArray⟩

/- Global variables with distinct names and fitting storage. -/
structure Globals.Wellformed (globals : Globals) : Prop where
  nodup : (globals.vars.map Global.name).Nodup
  identifiers : ∀ v ∈ globals.vars, IsIdentifier v.name
  fits : ∀ v ∈ globals.vars, v.storage.Fits v.name

theorem Globals.has_eq_false (h : g.has name = false) :
    name ∉ g.vars.map Global.name := by
  unfold Globals.has at h
  intro hMem
  rcases mem_map.mp hMem with ⟨v, hV, hName⟩
  rw [any_eq_false] at h
  exact h v hV (by simp [hName])

theorem Globals.add_wellformed {g' : Globals}
    (hStmt : stmt.Named IsIdentifier)
    (hG : g.Wellformed)
    (h : g.add usual stmt = .ok g') :
    g'.Wellformed := by
  unfold Globals.add at h
  split at h
  · next line first others value =>
    rcases seq h with ⟨_, _, h₁⟩
    split at h₁
    · rcases seq h₁ with ⟨_, _, hDone⟩
      cases hDone
      exact ⟨hG.nodup, hG.identifiers, hG.fits⟩
    · next id =>
      split at h₁
      · cases h₁
        exact hG
      · next hHas =>
        rcases seq h₁ with ⟨storage, hStorage, hDone⟩
        cases hDone
        have hNew := Globals.has_eq_false (Bool.eq_false_iff.mpr hHas)
        have hEach : ∀ {Q : Global → Prop}, (∀ v ∈ g.vars, Q v) → Q ⟨id, storage⟩ →
              ∀ v ∈ g.vars ++ [⟨id, storage⟩], Q v := by
          intro _ hOld hId v hV
          rcases mem_append.mp hV with hV | hV
          · exact hOld v hV
          · exact mem_singleton.mp hV ▸ hId
        refine ⟨?_, hEach hG.identifiers hStmt.1, hEach hG.fits (storageOf_fits hStorage)⟩
        rw [map_append, nodup_append]
        refine ⟨hG.nodup, by simp, ?_⟩
        rintro a hA _ hB rfl
        have hSame : a = id := mem_singleton.mp hB
        exact hNew (hSame ▸ hA)
  · cases h
    exact hG

theorem analyzeGlobals_wellformed {stmts : List Stmt} {globals : Globals}
    (hNamed : Script.WellNamed stmts)
    (h : analyzeGlobals usual stmts = .ok globals) :
    globals.Wellformed := by
  unfold analyzeGlobals at h
  refine foldlM_ok_induction Globals.Wellformed ?_ ?_ h
  · exact ⟨nodup_nil, by simp [Globals.empty], by simp [Globals.empty]⟩
  · intro _ s _ hS hG hAdd
    rw [located_eq_ok] at hAdd
    exact Globals.add_wellformed (flatten_named 0 stmts hNamed s hS) hG hAdd

/- The table with a mark, if there is to be one. -/
def markIf (marked : Bool) (target : String) (t : SymbolTable) : SymbolTable :=
  if marked then t.markSpecial target else t

theorem markIf_bindings
    (marked : Bool)
    (target : String)
    (t : SymbolTable) :
    (markIf marked target t).data = t.data ∧ (markIf marked target t).labels = t.labels := by
  unfold markIf
  split <;> exact ⟨rfl, rfl⟩

theorem markIf_inUse
    (marked : Bool)
    (target name : String)
    (t : SymbolTable) :
    (markIf marked target t).inUse name = t.inUse name := by
  unfold markIf
  split <;> rfl

/-
  Things that get their targets one after the other, each with
  its mark and its declaration.
-/
inductive Allots {α : Type} (bind : SymbolTable → α → Except Error (String × SymbolTable))
    (marked : α → Bool) (declare : α → String → Declaration) :
    SymbolTable → List α → SymbolTable → List Declaration → Prop where
  | nil {t : SymbolTable} : Allots bind marked declare t [] t []
  | cons {x : α} {xs : List α} {target : String} {t bound t' : SymbolTable}
      {decls : List Declaration} (hBind : bind t x = .ok (target, bound))
      (hRest : Allots bind marked declare (markIf (marked x) target bound) xs t' decls) :
      Allots bind marked declare t (x :: xs) t' (declare x target :: decls)

/- All that is declared is the declaration of one of the things. -/
theorem Allots.declared {α : Type}
    {bind : SymbolTable → α → Except Error (String × SymbolTable)}
    {marked : α → Bool} {declare : α → String → Declaration} {xs : List α}
    (h : Allots bind marked declare t xs t' decls) :
    ∀ d ∈ decls, ∃ x ∈ xs, ∃ target, d = declare x target := by
  induction h with
  | nil => simp
  | cons _ _ ih =>
    refine forall_mem_cons.mpr ⟨⟨_, mem_cons_self, _, rfl⟩, ?_⟩
    intro d hD
    rcases ih d hD with ⟨x, hX, hDecl⟩
    exact ⟨x, mem_cons_of_mem _ hX, hDecl⟩

/- Whether the declaration of a variable has its first value. -/
def Storage.isDeclared : Storage → Bool
  | uninitialized => false
  | _ => true

theorem Storage.mark_eq
    (storage : Storage)
    (t : SymbolTable)
    (target : String) :
    storage.mark t target = markIf storage.isDeclared target t := by
  cases storage <;> rfl

@[simp]
theorem Storage.declaration_name
    (storage : Storage)
    (target : String) :
    (storage.declaration target).name = target := by
  cases storage <;> rfl

/- Global variables that get their targets in turn. -/
abbrev AllotsGlobals : SymbolTable → List Global → SymbolTable → List Declaration → Prop :=
  Allots (fun t v => t.bindGlobal .data v.name) (fun v => v.storage.isDeclared)
    (fun v target => v.storage.declaration target)

theorem allocateGlobals_allots (h : allocateGlobals t vars = (t', .ok decls)) :
    AllotsGlobals t vars t' decls := by
  induction vars generalizing t decls with
  | nil =>
    rw [allocateGlobals] at h
    cases h
    exact .nil
  | cons v _ ih =>
    rw [allocateGlobals] at h
    split at h
    · cases h
    · next target bound hBound =>
      simp only [Prod.mk.injEq, v.storage.mark_eq] at h
      rcases map_eq_ok.mp h.2 with ⟨_, hOthers, rfl⟩
      exact .cons hBound (ih (Prod.ext h.1 hOthers))

/- Places of a function that get their targets in turn. -/
abbrev AllotsSlots (owner : String) :
    SymbolTable → List Slot → SymbolTable → List Declaration → Prop :=
  Allots (fun t slot => t.bindLocalAs slot.source slot.name owner) Slot.special
    (fun slot target => ⟨target, .equate, slot.offset⟩)

theorem bindSlots_allots (h : (bindSlots owner t slots).error = none) :
    AllotsSlots owner t slots (bindSlots owner t slots).table (bindSlots owner t slots).decls := by
  induction slots generalizing t with
  | nil => exact .nil
  | cons slot _ ih =>
    rw [bindSlots] at h ⊢
    split at h
    · cases h
    · next hBind => exact .cons hBind (ih h)

/- Variables, their bindings and their declarations. -/
inductive Allocated : List Global → Bindings → List Declaration → Prop where
  | nil : Allocated [] [] []
  | cons {v : Global} {vars : List Global} {target : String}
      {bindings : Bindings} {decls : List Declaration} (hRest : Allocated vars bindings decls) :
      Allocated (v :: vars) (⟨v.name, target, .data, .global⟩ :: bindings)
        (v.storage.declaration target :: decls)

/- Globals get new targets, in the order they are met. -/
theorem AllotsGlobals.supplies
    (h : AllotsGlobals t vars t' decls)
    (hNodup : (vars.map Global.name).Nodup)
    (hNames : ∀ v ∈ vars, IsIdentifier v.name)
    (hNew : ∀ b ∈ t.data, b.source ∉ vars.map Global.name) :
    Supplies t t' (decls.map Declaration.name) ∧
      t'.labels = t.labels ∧ ∃ bindings, t'.data = t.data ++ bindings ∧
          Allocated vars bindings decls := by
  induction h with
  | nil => exact ⟨.refl _, rfl, [], (append_nil _).symm, .nil⟩
  | @cons v _ target t bound _ _ hBound _ ih =>
    rw [map_cons, nodup_cons] at hNodup
    have hFirst : ∀ b ∈ t.bindings .data, b.source ≠ v.name := by
      intro b hB hSource
      exact hNew b hB (hSource ▸ mem_cons_self)
    rcases SymbolTable.bindGlobal_supplies (hNames v mem_cons_self) hFirst hBound with
      ⟨hSupply, hEq⟩
    have hMark := markIf_bindings v.storage.isDeclared target bound
    have hData : (markIf v.storage.isDeclared target bound).data =
        t.data ++ [⟨v.name, target, .data, .global⟩] := by
      rw [hMark.1, hEq, (SymbolTable.bind_data rfl).1]
      exact Bindings.set_of_new hFirst
    have hRest := ih hNodup.2 (fun w hW => hNames w (mem_cons_of_mem _ hW)) (by
        intro b hB
        rw [hData] at hB
        rcases mem_append.mp hB with hOld | hLast
        · intro hMem
          exact hNew b hOld (mem_cons_of_mem _ hMem)
        · rw [mem_singleton.mp hLast]
          exact hNodup.1)
    rcases hRest with ⟨hSupplies, hSame, _, hAll, hAllocated⟩
    have hMarked : Supplies bound (markIf v.storage.isDeclared target bound) [] :=
      .none fun name hUsed => (markIf_inUse _ target name bound).trans hUsed
    refine ⟨?_, ?_, _, ?_, .cons hAllocated⟩
    · rw [map_cons, Storage.declaration_name]
      exact (hSupply.trans hMarked).trans hSupplies
    · rw [hSame, hMark.2, hEq, (SymbolTable.bind_data rfl).2]
    · rw [hAll, hData, append_assoc]
      rfl

------------------------------------------------------------
-- Signatures
------------------------------------------------------------

/-
  A function with a given head, whose locals are distinct
  and neither parameters nor constants.
-/
structure SignatureNames (name : String) (params : List String) (sig : Signature) : Prop where
  name_eq : sig.name = name
  params_eq : sig.params = params
  nodup : (sig.locals.map Local.name).Nodup
  identifiers : ∀ l ∈ sig.locals, IsIdentifier l.name
  notParams : ∀ l ∈ sig.locals, l.name ∉ params
  notConstants : ∀ l ∈ sig.locals, isConstantName l.name = false

theorem Signature.has_eq_false (h : sig.has name = false) :
    name ∉ sig.params ∧ name ∉ sig.locals.map Local.name := by
  unfold Signature.has at h
  rw [Bool.or_eq_false_iff, any_eq_false] at h
  constructor
  · intro hMem
    rw [contains_iff_mem.mpr hMem] at h
    cases h.1
  · intro hMem
    rcases mem_map.mp hMem with ⟨l, hL, hName⟩
    exact h.2 l hL (by simp [hName])

/- A statement adds names to a signature, and no others. -/
theorem Signature.add_names {sig' : Signature}
    (hStmt : stmt.Named IsIdentifier)
    (hSig : SignatureNames name params sig)
    (h : sig.add usual stmt = .ok sig') :
    SignatureNames name params sig' := by
  unfold Signature.add at h
  split at h
  · next line first others value =>
    rcases seq h with ⟨_, _, h₁⟩
    split at h₁
    · rcases seq h₁ with ⟨_, _, hDone⟩
      cases hDone
      exact { hSig with }
    · next id =>
      split at h₁
      · cases h₁
        exact hSig
      · next hHas =>
        rcases seq h₁ with ⟨size, _, hDone⟩
        cases hDone
        rw [Bool.or_eq_true, not_or, Bool.not_eq_true, Bool.not_eq_true] at hHas
        rcases Signature.has_eq_false hHas.1 with ⟨hParam, hLocal⟩
        have hEach : ∀ {Q : Local → Prop}, (∀ l ∈ sig.locals, Q l) → Q ⟨id, size⟩ →
              ∀ l ∈ sig.locals ++ [⟨id, size⟩], Q l := by
          intro _ hOld hId l hL
          rcases mem_append.mp hL with hL | hL
          · exact hOld l hL
          · exact mem_singleton.mp hL ▸ hId
        refine {
          name_eq := hSig.name_eq
          params_eq := hSig.params_eq
          nodup := ?_
          identifiers := hEach hSig.identifiers hStmt.1
          notParams := hEach hSig.notParams (hSig.params_eq ▸ hParam)
          notConstants := hEach hSig.notConstants hHas.2 }
        rw [map_append, nodup_append]
        refine ⟨hSig.nodup, by simp, ?_⟩
        rintro a hA _ hB rfl
        have hSame : a = id := mem_singleton.mp hB
        exact hLocal (hSame ▸ hA)
  · cases h
    exact { hSig with }
  · cases h
  · cases h
    exact hSig

theorem analyzeFunction_names {body : List Stmt}
    (hNamed : Script.WellNamed body)
    (h : analyzeFunction usual name params body = .ok sig) :
    SignatureNames name params sig := by
  unfold analyzeFunction at h
  refine foldlM_ok_induction (SignatureNames name params) ?_ ?_ h
  · exact {
      name_eq := rfl
      params_eq := rfl
      nodup := nodup_nil
      identifiers := by simp [Signature.ofHead]
      notParams := by simp [Signature.ofHead]
      notConstants := by simp [Signature.ofHead] }
  · intro _ located _ hS hSig hAdd
    rw [located_eq_ok] at hAdd
    exact Signature.add_names (flatten_named 0 body hNamed located hS) hSig hAdd

/- What a place is bound to, wherever it is. -/
def Slot.item (slot : Slot) : String × String × Bool :=
  (slot.source, slot.name, slot.special)

/- Behind the locals the offset is the sum of their sizes. -/
theorem localSlots_eq
    (offset : Int64)
    (locals : List Local) :
    (localSlots offset locals).1.map Slot.item =
        (locals.map fun l => (l.name, l.name, isArrayName l.name)) ∧
      (localSlots offset locals).2 = locals.foldl (fun total l => total + l.size) offset := by
  induction locals generalizing offset with
  | nil => exact ⟨rfl, rfl⟩
  | cons l _ ih =>
    rcases ih (offset + l.size) with ⟨hItems, hBehind⟩
    exact ⟨congrArg (cons _) hItems, hBehind⟩

theorem paramSlots_eq
    (offset : Int64)
    (params : List String) :
    (paramSlots offset params).1.map Slot.item = (params.map fun p => (p, p, false)) ∧
      (paramSlots offset params).2 = offset + Int64.ofNat (2 * params.length) := by
  induction params generalizing offset with
  | nil => exact ⟨rfl, (Int64.add_zero offset).symm⟩
  | cons _ _ ih =>
    rcases ih (offset + 2) with ⟨hItems, hBehind⟩
    refine ⟨congrArg (cons _) hItems, hBehind.trans ?_⟩
    rw [length_cons, Nat.mul_succ, Nat.add_comm, Int64.ofNat_add, ← Int64.add_assoc]
    rfl

/- The parameters are behind all locals and the return address. -/
theorem frameSlots_eq (sig : Signature) :
    frameSlots sig = (localSlots 0 sig.locals).1
      ++ (paramSlots (sig.localsSize + 2) sig.params).1 ++ (if sig.hasReturn then
          [⟨returnSource, returnName,
            sig.localsSize + 2 + Int64.ofNat (2 * sig.params.length), false⟩]
        else
          []) := by
  unfold frameSlots Signature.localsSize
  rw [← (localSlots_eq 0 sig.locals).2, ← (paramSlots_eq _ sig.params).2]

theorem frameSlots_items (sig : Signature) :
    (frameSlots sig).map Slot.item =
      (sig.locals.map fun l => (l.name, l.name, isArrayName l.name))
        ++ (sig.params.map fun p => (p, p, false))
        ++ (if sig.hasReturn then [(returnSource, returnName, false)] else []) := by
  rw [frameSlots_eq, map_append, map_append, (localSlots_eq 0 _).1, (paramSlots_eq _ _).1]
  split
  · rfl
  · rfl

/- The names that are bound to the places of a function. -/
def Signature.frameSources (sig : Signature) : List String :=
  sig.locals.map Local.name ++ sig.params ++ (if sig.hasReturn then [returnSource] else [])

theorem frameSlots_frameSources (sig : Signature) :
    (frameSlots sig).map Slot.source = sig.frameSources := by
  have hSources := congrArg (map Prod.fst) (frameSlots_items sig)
  rw [map_map, map_append, map_append, map_map, map_map] at hSources
  refine hSources.trans (congrArg₂ (· ++ ·) (congrArg _ (map_id _)) ?_)
  split
  · rfl
  · rfl

/- The place of the returned value is bound to no name. -/
theorem not_isIdentifier_returnSource : ¬ IsIdentifier returnSource := by
  intro h
  have hKeyword := h.notKeyword
  revert hKeyword
  decide

theorem isIdentifier_returnName : IsIdentifier returnName where
  first := ⟨'r', ['e', 't', 'V', 'a', 'l'], by decide, by decide⟩
  chars := all_eq_true.mp (by decide)
  notKeyword := by decide

theorem frameSources_nodup
    (hNames :
      ∀ name ∈ sig.locals.map Local.name ++ sig.params, IsIdentifier name)
    (hNodup : (sig.locals.map Local.name ++ sig.params).Nodup) :
    sig.frameSources.Nodup := by
  unfold Signature.frameSources
  split
  · refine nodup_append.mpr ⟨hNodup, nodup_singleton _, ?_⟩
    rintro _ hA _ hB rfl
    rw [mem_singleton.mp hB] at hA
    exact not_isIdentifier_returnSource (hNames _ hA)
  · rw [append_nil]
    exact hNodup

theorem frameSlots_names
    (hParams : ∀ p ∈ params, IsIdentifier p)
    (hNodup : params.Nodup)
    (hSig : SignatureNames name params sig) :
    ((frameSlots sig).map Slot.source).Nodup ∧ ∀ slot ∈ frameSlots sig, IsIdentifier slot.name := by
  constructor
  · rw [frameSlots_frameSources]
    refine frameSources_nodup ?_ ?_
    · intro _ hName
      rcases mem_append.mp hName with hLocal | hParam
      · rcases mem_map.mp hLocal with ⟨l, hL, rfl⟩
        exact hSig.identifiers l hL
      · exact hParams _ (hSig.params_eq ▸ hParam)
    · rw [hSig.params_eq]
      refine nodup_append.mpr ⟨hSig.nodup, hNodup, ?_⟩
      rintro _ hA _ hB rfl
      rcases mem_map.mp hA with ⟨l, hL, rfl⟩
      exact hSig.notParams l hL hB
  · rintro ⟨_, _, _, _⟩ hSlot
    have hItem := mem_map_of_mem (f := Slot.item) hSlot
    rw [frameSlots_items, hSig.params_eq] at hItem
    rcases mem_append.mp hItem with hItem | hReturn
    · rcases mem_append.mp hItem with hLocal | hParam
      · rcases mem_map.mp hLocal with ⟨l, hL, hEq⟩
        cases hEq
        exact hSig.identifiers l hL
      · rcases mem_map.mp hParam with ⟨_, hP, hEq⟩
        cases hEq
        exact hParams _ hP
    · split at hReturn
      · cases mem_singleton.mp hReturn
        exact isIdentifier_returnName
      · cases hReturn

/- Places, each with its declaration and its binding. -/
inductive Places (owner : String) (bindings : Bindings) : List Slot → List Declaration → Prop where
  | nil : Places owner bindings [] []
  | cons {slot : Slot} {slots : List Slot} {target : String} {decls : List Declaration} (hFound :
        bindings.find slot.source = some ⟨slot.source, target, .data, .local owner⟩)
      (hRest : Places owner bindings slots decls) : Places owner bindings (slot :: slots)
        (⟨target, .equate, slot.offset⟩ :: decls)

section

variable (h : Places owner bindings slots decls)
include h

/- Every declaration of a place has its binding. -/
theorem Places.bound :
    ∀ d ∈ decls, ∃ b ∈ bindings, b.target = d.name := by
  induction h with
  | nil => simp
  | cons hFound _ ih =>
    intro d hD
    rcases mem_cons.mp hD with rfl | hD
    · exact ⟨_, (Bindings.find_eq_some hFound).1, rfl⟩
    · exact ih d hD

/- Every place has a declaration, and is found at its source. -/
theorem Places.declared :
    ∀ slot ∈ slots, ∃ target, ⟨target, .equate, slot.offset⟩ ∈ decls ∧ bindings.find slot.source =
          some ⟨slot.source, target, .data, .local owner⟩ := by
  induction h with
  | nil => simp
  | cons hFound _ ih =>
    intro slot hSlot
    rcases mem_cons.mp hSlot with rfl | hSlot
    · exact ⟨_, mem_cons_self, hFound⟩
    · rcases ih slot hSlot with ⟨target, hMem, hEq⟩
      exact ⟨target, mem_cons_of_mem _ hMem, hEq⟩

theorem Places.found :
    ∀ slot ∈ slots, ∃ d ∈ decls, bindings.find slot.source =
        some ⟨slot.source, d.name, .data, .local owner⟩ := by
  intro slot hSlot
  rcases h.declared slot hSlot with ⟨_, hMem, hFound⟩
  exact ⟨_, hMem, hFound⟩

end

/-
  What binding places does: each has a declaration with a
  new target, and nothing else that is bound changes.
-/
structure BoundSlots (owner : String) (before : SymbolTable) (slots : List Slot)
    (result : FrameAllocation) : Prop where
  supplies : Supplies before result.table (result.decls.map Declaration.name)
  shape : ∀ d ∈ result.decls, LocalShape d.name
  labels : result.table.labels = before.labels
  data : ∀ b ∈ result.table.data, b ∈ before.data ∨ (b.scope = .local owner ∧
          ∃ d ∈ result.decls, d.name = b.target)
  others : ∀ source, source ∉ slots.map Slot.source →
      result.table.data.find source = before.data.find source
  places : Places owner result.table.data slots result.decls

/- One more place in front of those that are bound after it. -/
theorem BoundSlots.cons {target : String} {table bound : SymbolTable}
    {slot : Slot} {rest : List Slot} {result : FrameAllocation}
    (hSupplies : Supplies table bound [target])
    (hShape : LocalShape target)
    (hBound :
      bound = table.bind ⟨slot.source, target, .data, .local owner⟩)
    (hSource : slot.source ∉ rest.map Slot.source)
    (hRest : BoundSlots owner (markIf slot.special target bound) rest result) :
    BoundSlots owner table (slot :: rest)
      { result with
        decls := ⟨target, .equate, slot.offset⟩ :: result.decls } := by
  have hMark := markIf_bindings slot.special target bound
  have hData : (markIf slot.special target bound).data =
      table.data.set ⟨slot.source, target, .data, .local owner⟩ := by
    rw [hMark.1, hBound, (SymbolTable.bind_data rfl).1]
  have hMarked : Supplies bound (markIf slot.special target bound) [] :=
    .none fun name hUsed => (markIf_inUse slot.special target name bound).trans hUsed
  refine {
    supplies := (hSupplies.trans hMarked).trans hRest.supplies
    shape := ?_
    labels := ?_
    data := ?_
    others := ?_
    places := .cons ?_ hRest.places }
  · intro d hD
    rcases mem_cons.mp hD with rfl | hD
    · exact hShape
    · exact hRest.shape d hD
  · rw [hRest.labels, hMark.2, hBound, (SymbolTable.bind_data rfl).2]
  · intro b hB
    rcases hRest.data b hB with hOld | ⟨hScope, d, hD, hName⟩
    · rw [hData] at hOld
      rcases Bindings.mem_of_mem_set hOld with rfl | hOld
      · exact .inr ⟨rfl, _, mem_cons_self, rfl⟩
      · exact .inl hOld
    · exact .inr ⟨hScope, d, mem_cons_of_mem _ hD, hName⟩
  · intro source hNot
    rw [map_cons, mem_cons, not_or] at hNot
    rw [hRest.others source hNot.2, hData]
    exact Bindings.find_set_of_ne hNot.1
  · rw [hRest.others _ hSource, hData]
    exact Bindings.find_set_self _ _

theorem AllotsSlots.bound {failure : Option Error}
    (h : AllotsSlots owner t slots t' decls)
    (hOwner : IsIdentifier owner)
    (hNames : ∀ slot ∈ slots, IsIdentifier slot.name)
    (hNodup : (slots.map Slot.source).Nodup)
    (hNew : ∀ b ∈ t.data, b.scope = .local owner → b.source ∉ slots.map Slot.source) :
    BoundSlots owner t slots ⟨t', decls, failure⟩ := by
  induction h with
  | nil =>
    exact {
      supplies := .refl _
      shape := by simp
      labels := rfl
      data := fun b hB => .inl hB
      others := fun _ _ => rfl
      places := .nil }
  | @cons slot _ target t bound _ _ hBind _ ih =>
    rw [map_cons, nodup_cons] at hNodup
    have hFree : ∀ b ∈ t.data, b.scope = .local owner → b.source ≠ slot.source := by
      intro b hB hScope hSource
      exact hNew b hB hScope (hSource ▸ mem_cons_self)
    rcases SymbolTable.bindLocalAs_supplies hOwner
        (hNames slot mem_cons_self) hFree hBind with ⟨hSupplies, hShape, hBound⟩
    refine .cons hSupplies hShape hBound hNodup.1 (ih ?_ hNodup.2 ?_)
    · exact fun s hS => hNames s (mem_cons_of_mem _ hS)
    · intro b hB hScope
      rw [(markIf_bindings _ target bound).1, hBound, (SymbolTable.bind_data rfl).1] at hB
      rcases Bindings.mem_of_mem_set hB with rfl | hOld
      · exact hNodup.1
      · intro hMem
        exact hNew b hOld hScope (mem_cons_of_mem _ hMem)

/- The frame of a function, behind the table of its scope. -/
theorem allocateFrame_bound
    (hName : IsIdentifier name)
    (hParams : ∀ p ∈ params, IsIdentifier p)
    (hNodup : params.Nodup)
    (hGlobal : ∀ b ∈ t.data, b.scope = .global)
    (hSig : SignatureNames name params sig)
    (h : (allocateFrame t.child sig).error = none) :
    BoundSlots name t.child (frameSlots sig) (allocateFrame t.child sig) := by
  unfold allocateFrame at h ⊢
  rw [hSig.name_eq] at h ⊢
  rcases frameSlots_names hParams hNodup hSig with ⟨hSources, hNames⟩
  refine AllotsSlots.bound (bindSlots_allots h) hName hNames hSources ?_
  intro b hB hScope
  rw [hGlobal b (SymbolTable.child_data hB).1] at hScope
  cases hScope

end Compile

end Pep9
