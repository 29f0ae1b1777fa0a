import Pep9.Proofs.Compile.Supply

/-
  Tables that requests in any order lead to from the empty
  one. Whatever the order, no two symbols of a table have the
  same target, and a new target is none of those that were
  ever made, inherited or reserved before.

  Key theorems: `Orderly.bind`, `Orderly.answer`,
  `answers_unambiguous`.
-/

namespace Pep9

open List Result

variable {target : String} {k kind : SymbolKind} {request : Request}

namespace Compile

/-
  What changes a table, or makes one from it. A local name
  is bound as itself when `source` and `name` are the same.
-/
inductive Request where
  | bindGlobal (kind : SymbolKind) (name : String)
  | bindLocal (source name owner : String)
  | generate (stem : String) (number : Int)
  | child
  | merge (other : SymbolTable)

namespace Request

/- The target that is returned, if any, and the next table. -/
def answer (t : SymbolTable) : Request → Except Error (Option String × SymbolTable)
  | bindGlobal kind name => (t.bindGlobal kind name).map (Prod.map some id)
  | bindLocal source name owner => (t.bindLocalAs source name owner).map (Prod.map some id)
  | generate stem number => (t.generate stem number).map (Prod.map some id)
  | child => .ok (none, t.child)
  | merge other => .ok (none, t.merge other)

/- The targets that come to those of a table. -/
def targets (returned : Option String) : Request → List String
  | merge other => (other.data ++ other.labels).map Binding.target
  | _ => returned.toList

/-
  A request for a name that is not bound in the scope that
  it asks for. Generated labels are never bound.
-/
def IsNew (t : SymbolTable) : Request → Prop
  | bindGlobal kind name => ∀ b ∈ t.bindings kind, b.source = name → b.scope ≠ .global
  | bindLocal source _ owner => ∀ b ∈ t.data, b.source = source → b.scope ≠ .local owner
  | _ => True

/-
  Answers a request of a table that comes with all targets
  that were made for it, inherited by it or reserved in it.
-/
def next (current : SymbolTable × List String)
    (request : Request) : Except Error (SymbolTable × List String) :=
  (request.answer current.1).map fun (returned, t) => (t, current.2 ++ request.targets returned)

/- Answers requests one after the other, from the empty table. -/
def answers (requests : List Request) : Except Error (SymbolTable × List String) :=
  requests.foldlM next (.empty, [])

end Request

variable {b : Binding} {t : SymbolTable}

namespace SymbolTable

/- The targets in use for a kind of symbol. -/
def taken (t : SymbolTable) : SymbolKind → List String
  | .data => t.takenData
  | .label => t.takenLabels

variable {name : String}

theorem inUse_iff_taken :
    t.inUse name = true ↔ ∃ kind, name ∈ t.taken kind := by
  rw [inUse_eq_true]
  constructor
  · rintro (hData | hLabel)
    · exact ⟨.data, hData⟩
    · exact ⟨.label, hLabel⟩
  · rintro ⟨kind, hTaken⟩
    cases kind with
    | data => exact .inl hTaken
    | label => exact .inr hTaken

theorem bindings_bind
    (t : SymbolTable)
    (b : Binding)
    (kind : SymbolKind) :
    (t.bind b).bindings kind = if kind = b.kind then (t.bindings kind).set b
      else t.bindings kind := by
  unfold bind
  cases hKind : b.kind with
  | data | label => cases kind <;> rfl

theorem mem_taken_reserve {other : SymbolKind} :
    name ∈ (t.reserve kind target).taken other ↔
      (other = kind ∧ name = target) ∨ name ∈ t.taken other := by
  cases kind <;> cases other <;> simp [reserve, taken]

theorem mem_taken_bind :
    name ∈ (t.bind b).taken kind ↔ (kind = b.kind ∧ name = b.target) ∨ name ∈ t.taken kind := by
  unfold bind
  cases hKind : b.kind with
  | data | label => exact mem_taken_reserve

end SymbolTable

/- A binding takes the place of one with the same source. -/
theorem Bindings.sources_set {bindings : Bindings}
    (new : Binding)
    (h : (bindings.map Binding.source).Nodup) :
    ((bindings.set new).map Binding.source).Nodup := by
  induction bindings with
  | nil => simp [Bindings.set]
  | cons b _ ih =>
    rw [map_cons, nodup_cons] at h
    unfold Bindings.set
    by_cases hSame : b.source = new.source
    · rw [if_pos hSame, map_cons, nodup_cons, ← hSame]
      exact h
    · rw [if_neg hSame, map_cons, nodup_cons]
      refine ⟨fun hMem => ?_, ih h.2⟩
      rcases mem_map.mp hMem with ⟨c, hC, hSource⟩
      rcases Bindings.mem_of_mem_set hC with rfl | hOld
      · exact hSame hSource.symm
      · exact h.1 (mem_map.mpr ⟨c, hOld, hSource⟩)

/- Bindings that stand where their kind and target say. -/
structure Filed (t : SymbolTable) : Prop where
  kind : ∀ k, ∀ b ∈ t.bindings k, b.kind = k
  sources : ∀ k, ((t.bindings k).map Binding.source).Nodup
  taken : ∀ k, ∀ b ∈ t.bindings k, b.target ∈ t.taken k

/-
  What every request keeps: bindings have targets of their
  own, and all targets of the past are in use.
-/
structure Orderly (t : SymbolTable) (past : List String) : Prop where
  filed : Filed t
  distinct : ∀ k k', ∀ b ∈ t.bindings k, ∀ b' ∈ t.bindings k',
      b.source ≠ b'.source ∨ k ≠ k' → b.target ≠ b'.target
  past : ∀ name ∈ past, t.inUse name = true

/- A binding is filed, whatever its target. -/
theorem Filed.bind (h : Filed t) (new : Binding) : Filed (t.bind new) where
  kind := by
    intro k b hB
    rw [SymbolTable.bindings_bind] at hB
    split at hB
    · next hKind =>
      rcases Bindings.mem_of_mem_set hB with rfl | hOld
      · exact hKind.symm
      · exact h.kind k b hOld
    · exact h.kind k b hB
  sources := by
    intro k
    rw [SymbolTable.bindings_bind]
    split
    · exact Bindings.sources_set new (h.sources k)
    · exact h.sources k
  taken := by
    intro k b hB
    rw [SymbolTable.bindings_bind] at hB
    rw [SymbolTable.mem_taken_bind]
    split at hB
    · next hKind =>
      rcases Bindings.mem_of_mem_set hB with rfl | hOld
      · exact .inl ⟨hKind, rfl⟩
      · exact .inr (h.taken k b hOld)
    · exact .inr (h.taken k b hB)

theorem Filed.addAll
    (h : Filed t)
    (new : List Binding) :
    Filed (t.addAll new) := by
  induction new generalizing t with
  | nil => exact h
  | cons b _ ih => exact ih (h.bind b)

namespace Orderly

variable {past : List String}

theorem empty : Orderly .empty [] where
  filed := by
    refine ⟨?_, ?_, ?_⟩
    · intro k _ hB
      cases k <;> cases hB
    · intro k
      cases k <;> exact nodup_nil
    · intro k _ hB
      cases k <;> cases hB
  distinct := by
    intro k _ _ hB
    cases k <;> cases hB
  past := by simp

section

variable (h : Orderly t past)
include h

/- The target of every binding is in use. -/
theorem inUse (hB : b ∈ t.bindings k) :
    t.inUse b.target = true := SymbolTable.inUse_iff_taken.mpr ⟨k, h.filed.taken k b hB⟩

/- A target that is in use already adds nothing. -/
theorem again (hUsed : t.inUse target = true) :
    Orderly t (past ++ [target]) where
  filed := h.filed
  distinct := h.distinct
  past := by
    intro name hName
    rcases mem_append.mp hName with hName | hName
    · exact h.past name hName
    · rw [mem_singleton.mp hName]
      exact hUsed

/- A new binding with a target that is not in use. -/
theorem bind {new : Binding}
    (hFresh : t.inUse new.target = false) :
    Orderly (t.bind new) (past ++ [new.target]) where
  filed := h.filed.bind new
  distinct := by
    -- An old binding has a target in use, so not the new one.
    have hOld : ∀ k, ∀ b ∈ t.bindings k, b.target ≠ new.target := by
      intro _ _ hB hSame
      have hUsed := h.inUse hB
      rw [hSame, hFresh] at hUsed
      cases hUsed
    have hCases : ∀ k, ∀ b ∈ (t.bind new).bindings k,
          (b = new ∧ k = new.kind) ∨ b ∈ t.bindings k := by
      intro _ _ hB
      rw [SymbolTable.bindings_bind] at hB
      split at hB
      · next hKind =>
        exact (Bindings.mem_of_mem_set hB).imp_left fun hNew => ⟨hNew, hKind⟩
      · exact .inr hB
    intro k k' b hB b' hB' hApart
    rcases hCases k b hB with ⟨hNew, hKind⟩ | hB
    · rcases hCases k' b' hB' with ⟨hNew', hKind'⟩ | hB'
      · rw [hNew, hNew', hKind, hKind'] at hApart
        rcases hApart with hSource | hKinds
        · exact absurd rfl hSource
        · exact absurd rfl hKinds
      · rw [hNew]
        exact (hOld k' b' hB').symm
    · rcases hCases k' b' hB' with ⟨hNew', _⟩ | hB'
      · rw [hNew']
        exact hOld k b hB
      · exact h.distinct k k' b hB b' hB' hApart
  past := by
    intro name hName
    rw [SymbolTable.inUse_bind]
    rcases mem_append.mp hName with hName | hName
    · exact .inr (h.past name hName)
    · exact .inl (mem_singleton.mp hName)

end

variable {t' : SymbolTable}

section

variable (h : Orderly t past)
include h

/- A table with the same bindings and more targets in use. -/
theorem extend {more : List String}
    (hBindings : ∀ k, t'.bindings k = t.bindings k)
    (hTaken : ∀ k, ∀ name ∈ t.taken k, name ∈ t'.taken k)
    (hMore : ∀ name ∈ more, t'.inUse name = true) :
    Orderly t' (past ++ more) where
  filed := by
    refine ⟨?_, ?_, ?_⟩
    · intro k
      rw [hBindings]
      exact h.filed.kind k
    · intro k
      rw [hBindings]
      exact h.filed.sources k
    · intro k b hB
      rw [hBindings] at hB
      exact hTaken k _ (h.filed.taken k b hB)
  distinct := by
    intro k k'
    rw [hBindings, hBindings]
    exact h.distinct k k'
  past := by
    intro name hName
    rcases mem_append.mp hName with hName | hName
    · rcases SymbolTable.inUse_iff_taken.mp (h.past name hName) with ⟨k, hK⟩
      exact SymbolTable.inUse_iff_taken.mpr ⟨k, hTaken k name hK⟩
    · exact hMore name hName

theorem reserve
    (kind : SymbolKind)
    (target : String) :
    Orderly (t.reserve kind target) (past ++ [target]) := by
  apply h.extend
  · intro k
    cases kind <;> cases k <;> rfl
  · intro _ _ hName
    exact SymbolTable.mem_taken_reserve.mpr (.inr hName)
  · intro _ hName
    exact SymbolTable.inUse_reserve.mpr (.inl (mem_singleton.mp hName))

theorem reserveAll
    (kind : SymbolKind)
    (bindings : List Binding) :
    Orderly (bindings.foldl (fun acc b => acc.reserve kind b.target) t)
      (past ++ bindings.map Binding.target) := by
  induction bindings generalizing t past with
  | nil =>
    rw [map_nil, append_nil]
    exact h
  | cons b _ ih =>
    have hNext := ih (h.reserve kind b.target)
    rw [append_assoc] at hNext
    exact hNext

theorem merge (other : SymbolTable) :
    Orderly (t.merge other)
      (past ++ (other.data ++ other.labels).map Binding.target) := by
  rw [map_append, ← append_assoc]
  exact (h.reserveAll .data other.data).reserveAll .label other.labels

end

/-
  The bindings of the table of a function are among those of
  the table that it is made from.
-/
theorem child_binding (hB : b ∈ t.child.bindings k) :
    ∃ outer ∈ t.bindings k, outer.source = b.source ∧ outer.target = b.target := by
  cases k with
  | data => exact ⟨b, (SymbolTable.child_data hB).1, rfl, rfl⟩
  | label => exact SymbolTable.child_labels hB

theorem child (h : Orderly t past) : Orderly t.child past where
  filed := by
    have hStart : Filed
          { SymbolTable.empty with
            takenData := t.takenData
            takenLabels := t.takenLabels } := by
      refine ⟨?_, ?_, ?_⟩
      · intro k _ hB
        cases k <;> cases hB
      · intro k
        cases k <;> exact nodup_nil
      · intro k _ hB
        cases k <;> cases hB
    have hConstants := hStart.addAll t.constants
    refine Filed.addAll ⟨?_, ?_, ?_⟩ _
    · intro k b hB
      cases k with
      | data => exact hConstants.kind .data b hB
      | label => cases hB
    · intro k
      cases k with
      | data => exact hConstants.sources .data
      | label => exact nodup_nil
    · intro k b hB
      cases k with
      | data => exact hConstants.taken .data b hB
      | label => cases hB
  distinct := by
    intro k k' _ hB _ hB' hApart
    rcases child_binding hB with ⟨c, hC, hSource, hTarget⟩
    rcases child_binding hB' with ⟨c', hC', hSource', hTarget'⟩
    rw [← hSource, ← hSource'] at hApart
    rw [← hTarget, ← hTarget']
    exact h.distinct k k' c hC c' hC' hApart
  past := fun name hName => SymbolTable.child_inUse (h.past name hName)

------------------------------------------------------------
-- Requests Keep Tables Orderly
------------------------------------------------------------

theorem answer {returned : Option String}
    (h : Orderly t past)
    (hAnswer : request.answer t = .ok (returned, t')) :
    Orderly t' (past ++ request.targets returned) := by
  cases request with
  | bindGlobal =>
    rcases map_eq_ok.mp hAnswer with ⟨⟨_, _⟩, hBind, hEq⟩
    cases hEq
    rcases SymbolTable.bindGlobal_cases hBind with ⟨_, hBound, _, rfl, rfl⟩ | ⟨_, hFresh, _, rfl⟩
    · exact h.again (h.inUse (Bindings.find_eq_some hBound).1)
    · exact h.bind hFresh
  | bindLocal =>
    rcases map_eq_ok.mp hAnswer with ⟨⟨_, next⟩, hBind, hEq⟩
    cases hEq
    rcases SymbolTable.bindLocalAs_cases hBind with ⟨b, hBound, _, rfl, rfl⟩ | ⟨_, hFresh, _, rfl⟩
    · have hMem : b ∈ next.bindings .data := (Bindings.find_eq_some hBound).1
      exact h.again (h.inUse hMem)
    · exact h.bind hFresh
  | generate =>
    rcases map_eq_ok.mp hAnswer with ⟨⟨target, _⟩, hMade, hEq⟩
    cases hEq
    rcases SymbolTable.generate_cases hMade with ⟨_, _, _, rfl⟩
    exact h.reserve .label target
  | child =>
    cases hAnswer
    have hChild := h.child
    rw [← append_nil past] at hChild
    exact hChild
  | merge other =>
    cases hAnswer
    exact h.merge other

/- What a request for a new name returns was not in use. -/
theorem fresh
    (h : Orderly t past)
    (hNew : request.IsNew t)
    (hAnswer : request.answer t = .ok (some target, t')) :
    target ∉ past := by
  have hFresh : t.inUse target = false := by
    cases request with
    | bindGlobal =>
      rcases map_eq_ok.mp hAnswer with ⟨_, hBind, hEq⟩
      cases hEq
      rcases SymbolTable.bindGlobal_cases hBind with ⟨b, hBound, hScope, _⟩ | ⟨_, hFresh, _⟩
      · rcases Bindings.find_eq_some hBound with ⟨hMem, hSource⟩
        exact absurd hScope (hNew b hMem hSource)
      · exact hFresh
    | bindLocal =>
      rcases map_eq_ok.mp hAnswer with ⟨_, hBind, hEq⟩
      cases hEq
      rcases SymbolTable.bindLocalAs_cases hBind with ⟨b, hBound, hScope, _⟩ | ⟨_, hFresh, _⟩
      · rcases Bindings.find_eq_some hBound with ⟨hMem, hSource⟩
        exact absurd hScope (hNew b hMem hSource)
      · exact hFresh
    | generate =>
      rcases map_eq_ok.mp hAnswer with ⟨_, hMade, hEq⟩
      cases hEq
      exact (SymbolTable.generate_cases hMade).1
    | child | merge => cases hAnswer
  intro hPast
  have hUsed := h.past target hPast
  rw [hFresh] at hUsed
  cases hUsed

end Orderly

theorem Orderly.answers {requests : List Request} {past : List String}
    (h : Request.answers requests = .ok (t, past)) :
    Orderly t past := by
  refine foldlM_ok_induction (fun current => Orderly current.1 current.2) .empty ?_ h
  intro _ _ _ _ hCurrent hNext
  rcases map_eq_ok.mp hNext with ⟨⟨_, _⟩, hAnswer, rfl⟩
  exact hCurrent.answer hAnswer

/-
  The promises of a table: its symbols are apart and taken, a
  new target is unlike all of the past, and a name that is
  bound already keeps its target and the table as it is.
-/
structure Unambiguous (t : SymbolTable) (past : List String) : Prop where
  distinct : ∀ b ∈ t.data ++ t.labels, ∀ b' ∈ t.data ++ t.labels,
      b.source ≠ b'.source ∨ b.kind ≠ b'.kind → b.target ≠ b'.target
  taken : ∀ b ∈ t.data ++ t.labels, b.target ∈ t.taken b.kind
  fresh : ∀ (request : Request) (target : String) (t' : SymbolTable),
      request.answer t = .ok (some target, t') → request.IsNew t → target ∉ past
  sameGlobal : ∀ b ∈ t.data ++ t.labels, b.scope = .global →
      t.bindGlobal b.kind b.source = .ok (b.target, t)
  sameLocal : ∀ b ∈ t.data, ∀ owner, b.scope = .local owner →
      ∀ name, t.bindLocalAs b.source name owner = .ok (b.target, t)

/- Every table that requests lead to keeps them. -/
theorem answers_unambiguous {requests : List Request} {t : SymbolTable}
    {past : List String}
    (h : Request.answers requests = .ok (t, past)) :
    Unambiguous t past := by
  have hOrderly := Orderly.answers h
  have hFiled := hOrderly.filed
  -- Each binding stands in the part of its own kind.
  have hPart : ∀ b ∈ t.data ++ t.labels, b ∈ t.bindings b.kind := by
    intro b hB
    rcases mem_append.mp hB with hB | hB
    · rw [hFiled.kind .data b hB]
      exact hB
    · rw [hFiled.kind .label b hB]
      exact hB
  constructor
  · intro b hB b' hB' hApart
    exact hOrderly.distinct b.kind b'.kind b (hPart b hB) b' (hPart b' hB') hApart
  · intro b hB
    exact hFiled.taken b.kind b (hPart b hB)
  · intro _ _ _ hAnswer hNew
    exact hOrderly.fresh hNew hAnswer
  · intro b hB hScope
    have hFound := Bindings.find_of_mem (hFiled.sources b.kind) (hPart b hB)
    unfold SymbolTable.bindGlobal
    rw [hFound]
    rcases b with ⟨_, _, _, _⟩
    cases hScope
    rfl
  · intro b hB _ hScope _
    have hFound : t.data.find b.source = some b := Bindings.find_of_mem (hFiled.sources .data) hB
    unfold SymbolTable.bindLocalAs
    dsimp only
    rw [hFound]
    exact if_pos hScope

/-
  A variable, a function, a name of that function and a
  generated label, all of them asked for as `count`.
-/
theorem answers_unambiguous_count :
    ∃ t, Request.answers
          [.bindGlobal .data "count", .bindGlobal .label "count",
            .child, .bindLocal "count" "count" "count", .generate "count" 0] =
        .ok (t, ["count", "counu", "co_count", "count0"]) ∧
      Unambiguous t ["count", "counu", "co_count", "count0"] := by
  have hAnswers : (Request.answers [.bindGlobal .data "count", .bindGlobal .label "count",
            .child, .bindLocal "count" "count" "count", .generate "count" 0]).map Prod.snd =
        .ok ["count", "counu", "co_count", "count0"] := by
    decide +kernel
  rcases map_eq_ok.mp hAnswers with ⟨⟨t, _⟩, h, rfl⟩
  exact ⟨t, h, answers_unambiguous h⟩

end Compile

end Pep9
