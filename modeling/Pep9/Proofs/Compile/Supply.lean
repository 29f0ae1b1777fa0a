import Mathlib.Data.List.Nodup
import Pep9.Proofs.Compile.Targets

/-
  Symbol tables as supplies of names. Whatever changes a
  table takes names that no symbol has, and keeps all names
  that were taken before.

  Key theorems: `SymbolTable.generate_supplies`,
  `SymbolTable.bindGlobal_supplies`,
  `SymbolTable.bindLocalAs_supplies`,
  `SymbolTable.child_inUse`, `SymbolTable.merge_inUse`.
-/

namespace Pep9

open List
open Script (IsIdentifier)

variable {bindings : List Binding} {owner : String} {label stem : String}

namespace Compile

variable {bindings : Bindings} {source name target : String} {b new : Binding}
  {t t' : SymbolTable} {kind : SymbolKind}

namespace Bindings

theorem find_eq_some (h : bindings.find source = some b) :
    b ∈ bindings ∧ b.source = source :=
  ⟨mem_of_find?_eq_some h, by simpa using find?_some h⟩

/- Where sources are distinct, each binding is found. -/
theorem find_of_mem
    (hNodup : (bindings.map Binding.source).Nodup)
    (hB : b ∈ bindings) :
    bindings.find b.source = some b := by
  cases hFound : bindings.find b.source with
  | none =>
    have hNone := find?_eq_none.mp hFound b hB
    simp at hNone
  | some =>
    rcases Bindings.find_eq_some hFound with ⟨hC, hSource⟩
    rw [inj_on_of_nodup_map hNodup hC hB hSource]

theorem find_set_self
    (new : Binding)
    (bindings : Bindings) :
    (bindings.set new).find new.source = some new := by
  induction bindings with
  | nil => simp [Bindings.set, Bindings.find]
  | cons _ _ ih =>
    unfold Bindings.set
    split
    · simp [Bindings.find]
    · next hSource =>
      rw [← ih]
      simp [Bindings.find, hSource]

theorem find_set_of_ne (h : source ≠ new.source) :
    (bindings.set new).find source = bindings.find source := by
  induction bindings with
  | nil => simp [Bindings.set, Bindings.find, h.symm]
  | cons _ _ ih =>
    unfold Bindings.set
    split
    · next hSource => simp [Bindings.find, hSource, h.symm]
    · unfold Bindings.find at ih ⊢
      rw [find?_cons, find?_cons, ih]

theorem mem_of_mem_set (h : b ∈ bindings.set new) : b = new ∨ b ∈ bindings := by
  induction bindings with
  | nil => exact .inl (mem_singleton.mp h)
  | cons _ _ ih =>
    unfold Bindings.set at h
    split at h
    · rcases mem_cons.mp h with hNew | hRest
      · exact .inl hNew
      · exact .inr (mem_cons_of_mem _ hRest)
    · rcases mem_cons.mp h with hFirst | hRest
      · exact .inr (hFirst ▸ mem_cons_self)
      · rcases ih hRest with hNew | hOld
        · exact .inl hNew
        · exact .inr (mem_cons_of_mem _ hOld)

theorem mem_set_of_ne
    (h : b ∈ bindings)
    (hSource : b.source ≠ new.source) :
    b ∈ bindings.set new := by
  induction bindings with
  | nil => cases h
  | cons _ _ ih =>
    unfold Bindings.set
    split
    · next hSame =>
      rcases mem_cons.mp h with rfl | hRest
      · exact absurd hSame hSource
      · exact mem_cons_of_mem _ hRest
    · rcases mem_cons.mp h with rfl | hRest
      · exact mem_cons_self
      · exact mem_cons_of_mem _ (ih hRest)

theorem set_of_new (h : ∀ b ∈ bindings, b.source ≠ new.source) :
    bindings.set new = bindings ++ [new] := by
  induction bindings with
  | nil => rfl
  | cons b _ ih =>
    have hFirst := h b mem_cons_self
    have hRest := ih fun c hC => h c (mem_cons_of_mem _ hC)
    rw [Bindings.set, if_neg hFirst, hRest]
    rfl

end Bindings

namespace SymbolTable

theorem inUse_eq_true :
    t.inUse name = true ↔ name ∈ t.takenData ∨ name ∈ t.takenLabels := by
  simp [inUse]

theorem inUse_reserve :
    (t.reserve kind target).inUse name = true ↔
      name = target ∨ t.inUse name = true := by
  cases kind with
  | data => simp only [inUse_eq_true, reserve, mem_insert_iff, or_assoc]
  | label =>
    simp only [inUse_eq_true, reserve, mem_insert_iff]
    exact or_left_comm

theorem inUse_bind :
    (t.bind b).inUse name = true ↔ name = b.target ∨ t.inUse name = true := by
  unfold bind
  split
  · exact inUse_reserve
  · exact inUse_reserve

theorem bind_data (h : b.kind = .data) :
    (t.bind b).data = t.data.set b ∧ (t.bind b).labels = t.labels := by
  unfold bind
  rw [h]
  exact ⟨rfl, rfl⟩

theorem bind_labels (h : b.kind = .label) :
    (t.bind b).labels = t.labels.set b ∧ (t.bind b).data = t.data := by
  unfold bind
  rw [h]
  exact ⟨rfl, rfl⟩

theorem bind_special
    (t : SymbolTable)
    (b : Binding) :
    (t.bind b).special = t.special := by
  unfold bind
  split <;> rfl

end SymbolTable

/-
  A table with more names in use than another one. The names
  are distinct targets, and none of them was in use.
-/
structure Supplies (before after : SymbolTable) (names : List String) : Prop where
  nodup : names.Nodup
  fresh : ∀ name ∈ names, before.inUse name = false
  taken : ∀ name ∈ names, after.inUse name = true
  kept : ∀ name, before.inUse name = true → after.inUse name = true
  targets : ∀ name ∈ names, IsTarget name

namespace Supplies

variable {first second third : SymbolTable} {names others : List String}

/- No names from a table with the same names in use. -/
theorem none (h : ∀ name, first.inUse name = true → second.inUse name = true) :
    Supplies first second [] where
  nodup := nodup_nil
  fresh := by simp
  taken := by simp
  kept := h
  targets := by simp

theorem refl (table : SymbolTable) :
    Supplies table table [] := none fun _ h => h

/- Names taken later differ from those taken earlier. -/
theorem trans
    (h₁ : Supplies first second names)
    (h₂ : Supplies second third others) :
    Supplies first third (names ++ others) where
  nodup := by
    refine nodup_append.mpr ⟨h₁.nodup, h₂.nodup, ?_⟩
    rintro a hA _ hB rfl
    have hTaken := h₁.taken a hA
    rw [h₂.fresh a hB] at hTaken
    cases hTaken
  fresh := by
    intro name hName
    rcases mem_append.mp hName with hName | hName
    · exact h₁.fresh name hName
    · refine Bool.eq_false_iff.mpr fun hUsed => ?_
      have hTaken := h₁.kept name hUsed
      rw [h₂.fresh name hName] at hTaken
      cases hTaken
  taken := by
    intro name hName
    rcases mem_append.mp hName with hName | hName
    · exact h₂.kept name (h₁.taken name hName)
    · exact h₂.taken name hName
  kept := fun name h => h₂.kept name (h₁.kept name h)
  targets := by
    intro name hName
    rcases mem_append.mp hName with hName | hName
    · exact h₁.targets name hName
    · exact h₂.targets name hName

theorem perm
    (h : Supplies first second names)
    (hPerm : names.Perm others) :
    Supplies first second others where
  nodup := hPerm.nodup_iff.mp h.nodup
  fresh := fun name hName => h.fresh name (hPerm.mem_iff.mpr hName)
  taken := fun name hName => h.taken name (hPerm.mem_iff.mpr hName)
  kept := h.kept
  targets := fun name hName => h.targets name (hPerm.mem_iff.mpr hName)

/- A single name that the table takes. -/
theorem single
    (hFresh : first.inUse name = false)
    (hTarget : IsTarget name)
    (hUsed :
      ∀ other, second.inUse other = true ↔ other = name ∨ first.inUse other = true) :
    Supplies first second [name] where
  nodup := nodup_cons.mpr ⟨not_mem_nil, nodup_nil⟩
  fresh := fun _ h => mem_singleton.mp h ▸ hFresh
  taken := fun other h => (hUsed other).mpr (.inl (mem_singleton.mp h))
  kept := fun other h => (hUsed other).mpr (.inr h)
  targets := fun _ h => mem_singleton.mp h ▸ hTarget

end Supplies

------------------------------------------------------------
-- Operations on Tables
------------------------------------------------------------

namespace SymbolTable

/-
  A label that stands for no name: it was not in use, and is
  reserved.
-/
theorem generate_cases {id : Int}
    (h : t.generate stem id = .ok (label, t')) :
    t.inUse label = false ∧ Variant (stem ++ toString id) (stemPositions stem) label ∧
      label.toList.length ≤ longestTarget ∧ t' = t.reserve .label label := by
  unfold generate at h
  dsimp only at h
  split at h
  · cases h
  · split at h
    · cases h
    · next found hFound =>
      cases h
      rcases freeTarget_variant hFound with ⟨hFresh, hVariant⟩
      refine ⟨hFresh, hVariant, ?_, rfl⟩
      rw [hVariant.length_eq, String.length_toList]
      omega

theorem bindFree_eq_ok {window : String} {positions : List Nat}
    {binding : String → Binding}
    (h : t.bindFree window positions binding = .ok (target, t')) :
    t.inUse target = false ∧ Variant window positions target ∧ t' = t.bind (binding target) := by
  unfold bindFree at h
  split at h
  · cases h
  · next found hFound =>
    cases h
    rcases freeTarget_variant hFound with ⟨hFresh, hVariant⟩
    exact ⟨hFresh, hVariant, rfl⟩

theorem bindGlobal_of_new
    (h : ∀ b, (t.bindings kind).find name = some b → b.scope ≠ .global) :
    t.bindGlobal kind name = t.bindFree (globalWindow kind name)
      (positions (globalWindow kind name).length (kind = .data && isArrayName name) 0)
      fun target => ⟨name, target, kind, .global⟩ := by
  unfold bindGlobal
  split
  · next hFound => exact absurd rfl (h _ hFound)
  · rfl

theorem bindLocalAs_of_new
    (h : ∀ b, t.data.find source = some b → b.scope ≠ .local owner) :
    t.bindLocalAs source name owner = t.bindFree (localWindow owner name)
      (positions (localWindow owner name).length (isArrayName name) (localStart owner).length)
      fun target => ⟨source, target, .data, .local owner⟩ := by
  unfold bindLocalAs
  split
  · next b hFound =>
    rw [if_neg (h b hFound)]
    rfl
  · rfl

/-
  A name is bound everywhere already, or gets a target that
  was not in use.
-/
theorem bindGlobal_cases (h : t.bindGlobal kind name = .ok (target, t')) :
    (∃ b, (t.bindings kind).find name = some b ∧ b.scope = .global ∧ b.target = target ∧ t' = t) ∨
    ((∀ b, (t.bindings kind).find name = some b → b.scope ≠ .global) ∧ t.inUse target = false ∧
      Variant (globalWindow kind name) (positions (globalWindow kind name).length
          (kind = .data && isArrayName name) 0) target ∧
      t' = t.bind ⟨name, target, kind, .global⟩) := by
  by_cases hNew : ∀ b, (t.bindings kind).find name = some b → b.scope ≠ .global
  · rw [bindGlobal_of_new hNew] at h
    exact .inr ⟨hNew, bindFree_eq_ok h⟩
  · push Not at hNew
    rcases hNew with ⟨⟨_, _, _, _⟩, hFound, rfl⟩
    unfold bindGlobal at h
    rw [hFound] at h
    cases h
    exact .inl ⟨_, hFound, rfl, rfl, rfl⟩

/- The same for a source in a function. -/
theorem bindLocalAs_cases
    (h : t.bindLocalAs source name owner = .ok (target, t')) :
    (∃ b, t.data.find source = some b ∧ b.scope = .local owner ∧ b.target = target ∧ t' = t) ∨
    ((∀ b, t.data.find source = some b → b.scope ≠ .local owner) ∧ t.inUse target = false ∧
      Variant (localWindow owner name) (positions (localWindow owner name).length
          (isArrayName name) (localStart owner).length) target ∧
      t' = t.bind ⟨source, target, .data, .local owner⟩) := by
  by_cases hNew : ∀ b, t.data.find source = some b → b.scope ≠ .local owner
  · rw [bindLocalAs_of_new hNew] at h
    exact .inr ⟨hNew, bindFree_eq_ok h⟩
  · push Not at hNew
    rcases hNew with ⟨b, hFound, hScope⟩
    simp only [bindLocalAs, hFound, if_pos hScope] at h
    cases h
    exact .inl ⟨b, hFound, hScope, rfl, rfl⟩

/- A label that stands for no name is a target of its own. -/
theorem generate_supplies {id : Nat}
    (hStem : IsStem stem)
    (h : t.generate stem id = .ok (label, t')) :
    Supplies t t' [label] ∧ Generated label ∧
      t'.data = t.data ∧ t'.labels = t.labels := by
  rcases generate_cases h with ⟨hFresh, hVariant, hShort, rfl⟩
  have hGenerated := generated_of_variant hStem hVariant
  exact ⟨.single hFresh (hGenerated.isTarget hShort) fun _ => inUse_reserve, hGenerated, rfl, rfl⟩

theorem bindGlobal_supplies
    (hName : IsIdentifier name)
    (hNew : ∀ b ∈ t.bindings kind, b.source ≠ name)
    (h : t.bindGlobal kind name = .ok (target, t')) :
    Supplies t t' [target] ∧ t' = t.bind ⟨name, target, kind, .global⟩ := by
  rcases bindGlobal_cases h with ⟨b, hBound, _⟩ | ⟨_, hFresh, hVariant, rfl⟩
  · rcases Bindings.find_eq_some hBound with ⟨hMem, hSource⟩
    exact absurd hSource (hNew b hMem)
  · have hTarget := hVariant.isTarget (globalWindow_isTarget (.of_isIdentifier hName))
    exact ⟨.single hFresh hTarget fun _ => inUse_bind, rfl⟩

theorem bindLocalAs_supplies
    (hOwner : IsIdentifier owner)
    (hName : IsIdentifier name)
    (hNew : ∀ b ∈ t.data, b.scope = .local owner → b.source ≠ source)
    (h : t.bindLocalAs source name owner = .ok (target, t')) :
    Supplies t t' [target] ∧ LocalShape target ∧
      t' = t.bind ⟨source, target, .data, .local owner⟩ := by
  rcases bindLocalAs_cases h with ⟨b, hBound, hScope, _⟩ | ⟨_, hFresh, hVariant, rfl⟩
  · rcases Bindings.find_eq_some hBound with ⟨hMem, hSource⟩
    exact absurd hSource (hNew b hMem hScope)
  · have hTarget := hVariant.isTarget
      (localWindow_isTarget (.of_isIdentifier hOwner) (.of_isIdentifier hName))
    exact ⟨.single hFresh hTarget fun _ => inUse_bind,
      localShape_of_variant hOwner hName hVariant, rfl⟩

theorem addAll_inUse (h : t.inUse name = true) :
    (t.addAll bindings).inUse name = true := by
  induction bindings generalizing t with
  | nil => exact h
  | cons _ _ ih => exact ih (inUse_bind.mpr (.inr h))

/- All names of a table are in use in that of a function. -/
theorem child_inUse (h : t.inUse name = true) : t.child.inUse name = true := by
  refine addAll_inUse ?_
  exact addAll_inUse h

theorem addAll_data (h : b ∈ (t.addAll bindings).data) :
    b ∈ t.data ∨ (b ∈ bindings ∧ b.kind = .data) := by
  induction bindings generalizing t with
  | nil => exact .inl h
  | cons c _ ih =>
    rcases ih h with hBound | ⟨hRest, hKind⟩
    · cases hKind : c.kind with
      | data =>
        rw [(bind_data hKind).1] at hBound
        rcases Bindings.mem_of_mem_set hBound with rfl | hOld
        · exact .inr ⟨mem_cons_self, hKind⟩
        · exact .inl hOld
      | label =>
        rw [(bind_labels hKind).2] at hBound
        exact .inl hBound
    · exact .inr ⟨mem_cons_of_mem _ hRest, hKind⟩

theorem addAll_labels (h : b ∈ (t.addAll bindings).labels) :
    b ∈ t.labels ∨ b ∈ bindings := by
  induction bindings generalizing t with
  | nil => exact .inl h
  | cons c _ ih =>
    rcases ih h with hBound | hRest
    · cases hKind : c.kind with
      | data =>
        rw [(bind_data hKind).2] at hBound
        exact .inl hBound
      | label =>
        rw [(bind_labels hKind).1] at hBound
        rcases Bindings.mem_of_mem_set hBound with rfl | hOld
        · exact .inr mem_cons_self
        · exact .inl hOld
    · exact .inr (mem_cons_of_mem _ hRest)

/- A function sees constants and arrays of its table. -/
theorem child_data (h : b ∈ t.child.data) :
    b ∈ t.data ∧
      (isConstantName b.source = true ∨ isArrayName b.source = true) := by
  have hConstants : b ∈ t.constants := by
    rcases addAll_data h with hData | ⟨hLabel, hKind⟩
    · rcases addAll_data hData with hEmpty | ⟨hMem, _⟩
      · cases hEmpty
      · exact hMem
    · rcases mem_map.mp hLabel with ⟨_, _, rfl⟩
      cases hKind
  unfold constants Bindings.sorted at hConstants
  rw [mem_mergeSort, mem_filter, Bool.or_eq_true] at hConstants
  exact hConstants

theorem child_labels (h : b ∈ t.child.labels) :
    ∃ outer ∈ t.labels, outer.source = b.source ∧ outer.target = b.target := by
  rcases addAll_labels h with hEmpty | hPair
  · cases hEmpty
  · rcases mem_map.mp hPair with ⟨_, hMem, rfl⟩
    rcases mem_map.mp hMem with ⟨outer, hOuter, rfl⟩
    exact ⟨outer, mem_mergeSort.mp hOuter, rfl, rfl⟩

theorem foldl_reserve_inUse :
    (bindings.foldl
        (fun acc b => acc.reserve kind b.target) t).inUse name = true ↔
      t.inUse name = true ∨ ∃ b ∈ bindings, b.target = name := by
  induction bindings generalizing t with
  | nil => simp
  | cons _ _ ih =>
    rw [foldl_cons, ih, inUse_reserve]
    simp only [mem_cons, exists_eq_or_imp]
    constructor
    · rintro ((hFirst | hOld) | hRest)
      · exact .inr (.inl hFirst.symm)
      · exact .inl hOld
      · exact .inr (.inr hRest)
    · rintro (hOld | hFirst | hRest)
      · exact .inl (.inr hOld)
      · exact .inl (.inl hFirst.symm)
      · exact .inr hRest

theorem foldl_reserve_bindings
    (t : SymbolTable)
    (kind : SymbolKind)
    (bindings : List Binding) :
    let result := bindings.foldl (fun acc b => acc.reserve kind b.target) t
    result.data = t.data ∧ result.labels = t.labels := by
  induction bindings generalizing t with
  | nil => exact ⟨rfl, rfl⟩
  | cons c _ ih =>
    rcases ih (t.reserve kind c.target) with ⟨hData, hLabels⟩
    cases kind with
    | data | label => exact ⟨hData, hLabels⟩

/- The names in use after the function of a table is done. -/
theorem merge_inUse {other : SymbolTable} :
    (t.merge other).inUse name = true ↔
      (t.inUse name = true ∨ ∃ b ∈ other.data, b.target = name) ∨
        ∃ b ∈ other.labels, b.target = name := by
  unfold merge
  rw [foldl_reserve_inUse, foldl_reserve_inUse]

theorem merge_bindings (t other : SymbolTable) :
    (t.merge other).data = t.data ∧ (t.merge other).labels = t.labels := by
  have hData := foldl_reserve_bindings t .data other.data
  have hLabels := foldl_reserve_bindings
    (other.data.foldl (fun acc b => acc.reserve .data b.target) t) .label other.labels
  exact ⟨hLabels.1.trans hData.1, hLabels.2.trans hData.2⟩

end SymbolTable

end Compile

end Pep9
