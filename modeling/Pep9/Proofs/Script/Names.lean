import Pep9.Proofs.Script.Identifier
import Pep9.Proofs.Script.Recognition

/-
  The names in a script. What the parser returns has only
  identifiers as names, and the parameters of a function are
  distinct.

  Key theorems: `Grammar.Phrase.Derives.named`,
  `Grammar.Clause.Derives.named`, `parseSource_wellNamed`.
-/

namespace Pep9

open List

namespace Script

mutual

/- All names of an expression have a property. -/
def Expr.Named (P : String → Prop) : Expr → Prop
  | .literal _ => True
  | .string _ => True
  | .list elements => NamedAll P elements
  | .name id => P id
  | .arith _ left right => left.Named P ∧ right.Named P
  | .compare left chain => left.Named P ∧ chain.Named P
  | .logic _ left right => left.Named P ∧ right.Named P
  | .unary _ operand => operand.Named P
  | .call function args => P function ∧ NamedAll P args
  | .index base position => base.Named P ∧ position.Named P

def Chain.Named (P : String → Prop) : Chain → Prop
  | .last _ right => right.Named P
  | .link _ right rest => right.Named P ∧ rest.Named P

def NamedAll (P : String → Prop) : List Expr → Prop
  | [] => True
  | e :: rest => e.Named P ∧ NamedAll P rest

end

def Place.Named (P : String → Prop) : Place → Prop
  | .name id => P id
  | .element base position => base.Named P ∧ position.Named P

mutual

/-
  All names of a statement have a property, and parameters
  are distinct.
-/
def Stmt.Named (P : String → Prop) : Stmt → Prop
  | .assign _ first others value =>
    first.Named P ∧ (∀ place ∈ others, place.Named P) ∧ value.Named P
  | .augment _ target _ value => target.Named P ∧ value.Named P
  | .expr _ value => value.Named P
  | .ret _ value => ∀ e ∈ value, e.Named P
  | .cond _ test body orElse => test.Named P ∧ NamedBlock P body ∧ NamedBlock P orElse
  | .loop _ test body => test.Named P ∧ NamedBlock P body
  | .each _ target source body => P target ∧ source.Named P ∧ NamedBlock P body
  | .define _ name params body => P name ∧ (∀ p ∈ params, P p) ∧ params.Nodup ∧ NamedBlock P body
  | .pass _ => True
  | .breakLoop _ => True
  | .continueLoop _ => True

def NamedBlock (P : String → Prop) : List Stmt → Prop
  | [] => True
  | stmt :: rest => stmt.Named P ∧ NamedBlock P rest

end

/- Statements whose names are identifiers. -/
abbrev WellNamed (stmts : List Stmt) : Prop := NamedBlock IsIdentifier stmts

variable {ts : List Token}

theorem wellNamed_append {us : List Token} :
    WellNamedTokens (ts ++ us) ↔ WellNamedTokens ts ∧ WellNamedTokens us := forall_mem_append

theorem wellNamed_cons {t : Token} :
    WellNamedTokens (t :: ts) ↔
      (t.kind = .identifier → IsIdentifier t.lexeme) ∧ WellNamedTokens ts := forall_mem_cons

namespace Grammar

/- All names of a part of an expression are identifiers. -/
def Phrase.Named : (phrase : Phrase) → phrase.Tree → Prop
  | expression, e => e.Named IsIdentifier
  | conjunction, e => e.Named IsIdentifier
  | negation, e => e.Named IsIdentifier
  | comparison, e => e.Named IsIdentifier
  | chain, links => links.Named IsIdentifier
  | sum, e => e.Named IsIdentifier
  | product, e => e.Named IsIdentifier
  | unary, e => e.Named IsIdentifier
  | postfixed, e => e.Named IsIdentifier
  | primary, e => e.Named IsIdentifier
  | arguments, args => NamedAll IsIdentifier args

/- The names of an expression stand in its tokens. -/
theorem Phrase.Derives.named {phrase : Phrase} {tree : phrase.Tree}
    (h : phrase.Derives ts tree)
    (hTokens : WellNamedTokens ts) :
    phrase.Named tree := by
  induction h with
  | conjunction _ ih => exact ih hTokens
  | or _ _ _ ihLeft ihRight =>
    rw [wellNamed_append, wellNamed_cons] at hTokens
    exact ⟨ihLeft hTokens.1, ihRight hTokens.2.2⟩
  | negation _ ih => exact ih hTokens
  | and _ _ _ ihLeft ihRight =>
    rw [wellNamed_append, wellNamed_cons] at hTokens
    exact ⟨ihLeft hTokens.1, ihRight hTokens.2.2⟩
  | comparison _ ih => exact ih hTokens
  | not _ _ ih => exact ih (wellNamed_cons.mp hTokens).2
  | sum _ ih => exact ih hTokens
  | compare _ _ ihLeft ihChain =>
    rw [wellNamed_append] at hTokens
    exact ⟨ihLeft hTokens.1, ihChain hTokens.2⟩
  | last _ _ ih => exact ih (wellNamed_cons.mp hTokens).2
  | link _ _ _ ihRight ihChain =>
    rw [wellNamed_cons, wellNamed_append] at hTokens
    exact ⟨ihRight hTokens.2.1, ihChain hTokens.2.2⟩
  | product _ ih => exact ih hTokens
  | addend _ _ _ _ ihLeft ihRight =>
    rw [wellNamed_append, wellNamed_cons] at hTokens
    exact ⟨ihLeft hTokens.1, ihRight hTokens.2.2⟩
  | unary _ ih => exact ih hTokens
  | factor _ _ _ _ ihLeft ihRight =>
    rw [wellNamed_append, wellNamed_cons] at hTokens
    exact ⟨ihLeft hTokens.1, ihRight hTokens.2.2⟩
  | postfixed _ ih => exact ih hTokens
  | plus _ _ ih => exact ih (wellNamed_cons.mp hTokens).2
  | negative => trivial
  | negate _ _ _ ih => exact ih (wellNamed_cons.mp hTokens).2
  | primary _ ih => exact ih hTokens
  | index _ _ _ _ ihBase ihPosition =>
    rw [wellNamed_append, wellNamed_cons, wellNamed_append] at hTokens
    exact ⟨ihBase hTokens.1, ihPosition hTokens.2.2.1⟩
  | call _ _ _ _ ihBase ihArgs =>
    rw [wellNamed_append, wellNamed_cons, wellNamed_append] at hTokens
    exact ⟨ihBase hTokens.1, ihArgs hTokens.2.2.1⟩
  | integer | string => trivial
  | name hKind => exact (wellNamed_cons.mp hTokens).1 hKind
  | paren _ _ _ ih | list _ _ _ ih =>
    rw [wellNamed_cons, wellNamed_append] at hTokens
    exact ih hTokens.2.1
  | noArguments => trivial
  | argument _ ih => exact ⟨ih hTokens, trivial⟩
  | more _ _ _ ihFirst ihOthers =>
    rw [wellNamed_append, wellNamed_cons] at hTokens
    exact ⟨ihFirst hTokens.1, ihOthers hTokens.2.2⟩

/- A place has the names of the expression that reads it. -/
theorem place_named {place : Place}
    (h : Phrase.Derives .expression ts place.toExpr)
    (hTokens : WellNamedTokens ts) :
    place.Named IsIdentifier := by
  cases place with
  | name | element => exact h.named hTokens

theorem Assigned.named {places : List Place} {e : Expr}
    (h : Assigned ts places e)
    (hTokens : WellNamedTokens ts) :
    (∀ place ∈ places, place.Named IsIdentifier) ∧ e.Named IsIdentifier := by
  induction h with
  | value _ h =>
    rw [wellNamed_cons] at hTokens
    exact ⟨forall_mem_nil _, h.named hTokens.2⟩
  | target _ hPlace _ ih =>
    rw [wellNamed_cons, wellNamed_append] at hTokens
    rcases ih hTokens.2.2 with ⟨hPlaces, hValue⟩
    refine ⟨forall_mem_cons.mpr ⟨?_, hPlaces⟩, hValue⟩
    exact place_named hPlace hTokens.2.1

/- The names of a statement on one line. -/
theorem Simple.named {stmt : Stmt}
    (h : Simple ts stmt)
    (hTokens : WellNamedTokens ts) :
    stmt.Named IsIdentifier := by
  cases h with
  | pass | breakLoop | continueLoop => trivial
  | ret => exact fun _ h => nomatch h
  | retValue _ h =>
    rw [wellNamed_cons] at hTokens
    intro _ hE
    cases hE
    exact h.named hTokens.2
  | expr h => exact h.named hTokens
  | assign hPlace h =>
    rw [wellNamed_append] at hTokens
    exact ⟨place_named hPlace hTokens.1, h.named hTokens.2⟩
  | augment hPlace _ h =>
    rw [wellNamed_append] at hTokens
    have hValue := wellNamed_cons.mp hTokens.2
    exact ⟨place_named hPlace hTokens.1, h.named hValue.2⟩

theorem Parameters.named {params : List String}
    (h : Parameters ts params)
    (hTokens : WellNamedTokens ts) :
    ∀ p ∈ params, IsIdentifier p := by
  induction h with
  | none => exact forall_mem_nil _
  | one hParam =>
    exact forall_mem_singleton.mpr ((wellNamed_cons.mp hTokens).1 hParam)
  | more hParam _ _ ih =>
    rw [wellNamed_cons, wellNamed_cons] at hTokens
    exact forall_mem_cons.mpr ⟨hTokens.1 hParam, ih hTokens.2.2⟩

/- All names of a part of a statement are identifiers. -/
def Clause.Named : (clause : Clause) → clause.Tree → Prop
  | statement _, stmt => stmt.Named IsIdentifier
  | branches _ _, stmt => stmt.Named IsIdentifier
  | block _, stmts => WellNamed stmts
  | suite, stmts => WellNamed stmts

/- The names of blocks, by their derivation. -/
theorem Clause.Derives.named {clause : Clause} {tree : clause.Tree}
    (h : clause.Derives ts tree)
    (hTokens : WellNamedTokens ts) :
    clause.Named tree := by
  induction h with
  | simple h => exact h.named (wellNamed_append.mp hTokens).1
  | conditional _ _ ih => exact ih (wellNamed_cons.mp hTokens).2
  | loop _ hTest _ ih =>
    rw [wellNamed_cons, wellNamed_append] at hTokens
    exact ⟨hTest.named hTokens.2.1, ih hTokens.2.2⟩
  | each _ hTarget _ hSource _ ih =>
    simp only [wellNamed_cons, wellNamed_append] at hTokens
    rcases hTokens with ⟨_, hName, _, hTokens₁, hTokens₂⟩
    exact ⟨hName hTarget, hSource.named hTokens₁, ih hTokens₂⟩
  | define _ hName _ hParams hDistinct _ _ ih =>
    simp only [wellNamed_cons, wellNamed_append] at hTokens
    rcases hTokens with ⟨_, hNamed, _, hTokens₁, _, hTokens₂⟩
    exact ⟨hNamed hName, hParams.named hTokens₁, hDistinct, ih hTokens₂⟩
  | only hTest _ ih =>
    rw [wellNamed_append] at hTokens
    exact ⟨hTest.named hTokens.1, ih hTokens.2, trivial⟩
  | orElse hTest _ _ _ ihBody ihElse =>
    simp only [wellNamed_cons, wellNamed_append] at hTokens
    rcases hTokens with ⟨hTokens₁, hTokens₂, _, hTokens₃⟩
    exact ⟨hTest.named hTokens₁, ihBody hTokens₂, ihElse hTokens₃⟩
  | elif hTest _ _ _ ihBody ihNested =>
    simp only [wellNamed_cons, wellNamed_append] at hTokens
    rcases hTokens with ⟨hTokens₁, hTokens₂, _, hTokens₃⟩
    exact ⟨hTest.named hTokens₁, ihBody hTokens₂, ihNested hTokens₃, trivial⟩
  | line _ h =>
    rw [wellNamed_cons, wellNamed_append] at hTokens
    exact ⟨h.named hTokens.2.1, trivial⟩
  | indented _ _ _ _ _ ih =>
    simp only [wellNamed_cons, wellNamed_append] at hTokens
    exact ih hTokens.2.2.2.1
  | done => trivial
  | next _ _ ih ihOthers =>
    rw [wellNamed_append] at hTokens
    exact ⟨ih hTokens.1, ihOthers hTokens.2⟩

/- The names of a script stand in its tokens. -/
theorem Program.named {stmts : List Stmt}
    (h : Program ts stmts)
    (hTokens : WellNamedTokens ts) :
    WellNamed stmts := by
  induction h with
  | empty => trivial
  | blank _ _ ih => exact ih (wellNamed_cons.mp hTokens).2
  | next h _ ih =>
    rw [wellNamed_append] at hTokens
    exact ⟨h.named hTokens.1, ih hTokens.2⟩
  | last h => exact ⟨h.named hTokens, trivial⟩

end Grammar

variable {source : String} {stmts : List Stmt}
  (h : parseSource source = .ok stmts)
include h

/- The tokens of a script that is read from its text. -/
theorem parseSource_derives :
    ∃ ts rest, lex source = .ok (ts ++ rest) ∧ Grammar.Program ts stmts := by
  unfold parseSource at h
  split at h
  · cases h
  · next tokens hLex =>
    split at h
    · cases h
    · next read hParse =>
      cases h
      unfold parse at hParse
      split at hParse
      · next hScript =>
        cases hParse
        rcases Parser.script_derives hScript with ⟨ts, rest, rfl, _, hProgram⟩
        exact ⟨ts, rest, hLex, hProgram⟩
      · cases hParse

/- The names of a script that is read from its text. -/
theorem parseSource_wellNamed :
    WellNamed stmts := by
  rcases parseSource_derives h with ⟨_, _, hLex, hProgram⟩
  exact hProgram.named (wellNamed_append.mp (lex_wellNamed hLex)).1

end Script

end Pep9
