import Pep9.Proofs.Compile.Blocks

/-
  Calls and returns in generated code. The calls are those of
  the source, in its order, and each of them stands between the
  code that stores its arguments and the code that gives their
  bytes back. Every return of a function stands behind the code
  that gives back the bytes of its locals.

  Key theorems: `Listed.append`, `Listed.site`,
  `composed_tied`, `returned_leaving`.
-/

namespace Pep9

open List
open Isa (Mnemonic)
open Listing (Instruction Declaration Frame)
open Script (Expr Stmt IsIdentifier)

variable {i : Instruction}

namespace Compile

/- What follows on a call: bytes are given back, a value loaded. -/
def Callee.cleanUp (callee : Callee) : Code :=
  if callee.sig.hasReturn then
    adjustStack .addsp (callee.sig.argBytes - 2) ++ [.of .ldwa (.number 0) .stackRelative]
      ++ adjustStack .addsp 2
  else
    adjustStack .addsp callee.sig.argBytes

theorem Callee.transfer_eq (callee : Callee) :
    callee.transfer =
      adjustStack .subsp callee.sig.argBytes ++ .jump .call callee.label :: callee.cleanUp := by
  unfold Callee.transfer Callee.cleanUp
  rw [append_assoc]
  rfl

/-
  A call in some code: the call of the source, what its
  arguments see, the function, the code that stores the
  arguments, and the code around.
-/
structure CallSite extends Call where
  ctx : Context
  callee : Callee
  stores : Code
  before : Code
  behind : Code

namespace CallSite

/- The code up to the call itself. -/
def upTo (s : CallSite) : Code :=
  s.before ++ s.stores ++ adjustStack .subsp s.callee.sig.argBytes

/- The instruction that calls. -/
def jump (s : CallSite) : Instruction :=
  .jump .call s.callee.label

@[simp] theorem jump_op (s : CallSite) : s.jump.op = .known .call := rfl

/- All the code, with the call in it. -/
def code (s : CallSite) : Code :=
  s.upTo ++ s.jump :: (s.callee.cleanUp ++ s.behind)

/- The same call with more code around it. -/
def extend (s : CallSite) (outer further : Code) : CallSite :=
  { s with
    before := outer ++ s.before
    behind := s.behind ++ further }

theorem upTo_extend
    (s : CallSite)
    (outer further : Code) :
    (s.extend outer further).upTo = outer ++ s.upTo := by
  simp [extend, upTo]

theorem code_extend
    (s : CallSite)
    (outer further : Code) :
    (s.extend outer further).code = outer ++ s.code ++ further := by
  simp [extend, code, upTo, jump]

/- A call that is compiled as its context has it. -/
structure From (ctx : Context) (s : CallSite) : Prop where
  ctx_eq : s.ctx = ctx
  callee_eq : ctx.callee s.function s.args.length = .ok s.callee
  stores_eq : argsCode ctx s.callee.firstSlot s.args = .ok s.stores

end CallSite

section Sites

/- A call that was made where these symbols are in sight. -/
structure CallSite.Made (globals : Bindings) (arrays : List String) (frames : List Frame)
    (functions : Bindings) (sigs : List Signature) (s : CallSite) : Prop where
  sight : Sight globals arrays frames functions s.ctx
  known : ∀ sig ∈ s.ctx.functions, sig ∈ sigs
  callee_eq : s.ctx.callee s.function s.args.length = .ok s.callee
  stores_eq : argsCode s.ctx s.callee.firstSlot s.args = .ok s.stores

/- A context whose symbols are those of a program. -/
structure Outlook.Allows (w : Outlook) (ctx : Context) : Prop where
  sight : w.Sees ctx
  known : ∀ sig ∈ ctx.functions, sig ∈ w.sigs

abbrev Outlook.Makes (w : Outlook) (s : CallSite) : Prop :=
  s.Made w.globals w.arrays w.frames w.functions w.sigs

/- The number of calls in some code. -/
def callCount (code : Code) : Nat :=
  code.countP fun i => i.op = .known .call

/-
  The calls of some code in their order: each of them stands
  behind as many calls as there are before it in the list.
-/
structure Listed (code : Code) (sites : List CallSite) : Prop where
  count : callCount code = sites.length
  stands : ∀ (k : Nat) s, sites[k]? = some s → callCount s.upTo = k ∧ code = s.code

namespace Listed

variable {code : Code} {sites : List CallSite}

theorem none (h : callCount code = 0) : Listed code [] := ⟨h, by simp⟩

theorem append {first second : Code} {more : List CallSite}
    (h₁ : Listed first sites)
    (h₂ : Listed second more) :
    Listed (first ++ second)
      (sites.map (·.extend [] second) ++ more.map (·.extend first [])) where
  count := by
    have hFirst := h₁.count
    have hSecond := h₂.count
    simp only [callCount, countP_append, length_append, length_map] at *
    omega
  stands := by
    intro k s hAt
    rw [getElem?_append, length_map] at hAt
    split at hAt
    · rw [getElem?_map, Option.map_eq_some_iff] at hAt
      rcases hAt with ⟨_, hSite, rfl⟩
      rcases h₁.stands k _ hSite with ⟨hCount, hCode⟩
      rw [CallSite.upTo_extend, CallSite.code_extend, ← hCode]
      exact ⟨hCount, rfl⟩
    · rw [getElem?_map, Option.map_eq_some_iff] at hAt
      rcases hAt with ⟨_, hSite, rfl⟩
      rcases h₂.stands _ _ hSite with ⟨hCount, hCode⟩
      rw [CallSite.upTo_extend, CallSite.code_extend, ← hCode, append_nil]
      have hBefore := h₁.count
      refine ⟨?_, rfl⟩
      simp only [callCount, countP_append] at *
      omega

/- A call of the code is the one with its number. -/
theorem site {before behind : Code}
    (h : Listed code sites)
    (hCode : code = before ++ i :: behind)
    (hCall : i.op = .known .call) :
    ∃ s, sites[callCount before]? = some s ∧ before = s.upTo ∧ i = s.jump ∧
      behind = s.callee.cleanUp ++ s.behind := by
  have hSome : callCount before < sites.length := by
    rw [← h.count, hCode]
    simp [callCount, hCall]
  obtain ⟨s, hAt⟩ : ∃ s, sites[callCount before]? = some s := ⟨_, getElem?_eq_getElem hSome⟩
  refine ⟨s, hAt, ?_⟩
  rcases h.stands _ _ hAt with ⟨hCount, hSame⟩
  rw [hSame, CallSite.code] at hCode
  -- A call between the two would be one more before the second.
  rcases append_eq_append_iff.mp hCode with ⟨more, rfl, hRest⟩ | ⟨more, hUpTo, hRest⟩
  · cases more with
    | nil =>
      rw [nil_append, List.cons.injEq] at hRest
      exact ⟨append_nil _, hRest.1.symm, hRest.2.symm⟩
    | cons j =>
      rw [cons_append, List.cons.injEq] at hRest
      rw [← hRest.1] at hCount
      simp [callCount] at hCount
  · cases more with
    | nil =>
      rw [nil_append, List.cons.injEq] at hRest
      exact ⟨by rw [hUpTo, append_nil], hRest.1, hRest.2⟩
    | cons j =>
      rw [cons_append, List.cons.injEq] at hRest
      rw [hUpTo, ← hRest.1] at hCount
      simp [callCount, hCall] at hCount

end Listed

/- Code whose calls are those of the source, made at such sites. -/
def Calling (Q : CallSite → Prop) (calls : List Call) (code : Code) : Prop :=
  ∃ sites : List CallSite, sites.map CallSite.toCall = calls ∧ Listed code sites ∧ ∀ s ∈ sites, Q s

namespace Calling

variable {Q Q' : CallSite → Prop} {calls more : List Call} {code first second head tail : Code}

theorem none (h : callCount code = 0) :
    Calling Q [] code := ⟨[], rfl, .none h, by simp⟩

theorem append
    (hQ : ∀ s outer further, Q s → Q (s.extend outer further))
    (h₁ : Calling Q calls first)
    (h₂ : Calling Q more second) :
    Calling Q (calls ++ more) (first ++ second) := by
  rcases h₁ with ⟨sites, rfl, hListed₁, hSites⟩
  rcases h₂ with ⟨others, rfl, hListed₂, hOthers⟩
  refine ⟨_, ?_, hListed₁.append hListed₂, ?_⟩
  · simp [Function.comp_def, CallSite.extend]
  · simp only [forall_mem_append, forall_mem_map]
    exact ⟨fun s hS => hQ s _ _ (hSites s hS), fun s hS => hQ s _ _ (hOthers s hS)⟩

/- Code with the same calls, and more around it. -/
theorem between
    (h : Calling Q calls code)
    (hHead : callCount head = 0)
    (hTail : callCount tail = 0)
    (hQ : ∀ s, code = s.code → Q s → Q' (s.extend head tail)) :
    Calling Q' calls (head ++ code ++ tail) := by
  rcases h with ⟨sites, rfl, hListed, hSites⟩
  refine ⟨_, ?_, ((Listed.none hHead).append hListed).append (.none hTail), ?_⟩
  · simp [Function.comp_def, CallSite.extend]
  · simp only [map_nil, nil_append, append_nil, forall_mem_map]
    intro s hS
    rcases mem_iff_getElem?.mp hS with ⟨k, hAt⟩
    have hSite := hQ s (hListed.stands k s hAt).2 (hSites s hS)
    simpa [CallSite.extend] using hSite

end Calling

variable {w : Outlook}

/- Code with neither calls nor returns. -/
def Still (code : Code) : Prop :=
  ∀ i ∈ code, i.op ≠ .known .call ∧ i.op ≠ .known .ret

theorem still_nil : Still [] := fun _ hI => absurd hI not_mem_nil

variable {m : Mnemonic} {code : Code} {data : Bindings} {sig : Signature}

theorem still_singleton
    (hOp : i.op = .known m)
    (hCall : m ≠ .call)
    (hRet : m ≠ .ret) :
    Still [i] := by
  intro _ hJ
  rw [mem_singleton.mp hJ, hOp]
  constructor
  · rintro ⟨rfl⟩
    exact hCall rfl
  · rintro ⟨rfl⟩
    exact hRet rfl

theorem Still.append {first second : Code}
    (hFirst : Still first)
    (hSecond : Still second) :
    Still (first ++ second) := forall_mem_append.mpr ⟨hFirst, hSecond⟩

theorem Still.callCount_eq (h : Still code) : callCount code = 0 :=
  countP_eq_zero.mpr fun i hI => by simpa using (h i hI).1

theorem still_general
    (hForm : m.form = .general)
    (operand : Listing.Operand)
    (mode : Listing.Mode) :
    Still [.of m operand mode] := by
  refine still_singleton rfl ?_ ?_
  · rintro rfl
    cases hForm
  · rintro rfl
    cases hForm

theorem still_adjustStack
    (bytes : Int64)
    (hForm : m.form = .general) :
    Still (adjustStack m bytes) := by
  unfold adjustStack
  split
  · exact still_general hForm _ _
  · exact still_nil

theorem still_cleanUp (callee : Callee) : Still callee.cleanUp := by
  unfold Callee.cleanUp
  split
  · exact ((still_adjustStack _ rfl).append (still_general rfl _ _)).append
      (still_adjustStack _ rfl)
  · exact still_adjustStack _ rfl

theorem joined_still (ctx : Context) : Joined ctx Still :=
  .of_quiet still_nil Still.append (fun hQuiet => still_general hQuiet.form)
    (still_singleton rfl (by decide) (by decide))
    fun _ _ => still_singleton rfl (by decide) (by decide)

------------------------------------------------------------
-- Expressions
------------------------------------------------------------

/- Code that does not return, with these calls of the source. -/
structure Tied (ctx : Context) (calls : List Call) (code : Code) : Prop where
  calls : Calling (CallSite.From ctx) calls code
  goes : ∀ i ∈ code, i.op ≠ .known .ret

variable {ctx : Context}

theorem Still.tied (h : Still code) : Tied ctx [] code :=
  ⟨.none h.callCount_eq, fun i hI => (h i hI).2⟩

theorem Tied.append {calls more : List Call} {first second : Code}
    (hFirst : Tied ctx calls first)
    (hSecond : Tied ctx more second) :
    Tied ctx (calls ++ more) (first ++ second) where
  calls := .append (fun _ _ _ h => ⟨h.ctx_eq, h.callee_eq, h.stores_eq⟩) hFirst.calls hSecond.calls
  goes := forall_mem_append.mpr ⟨hFirst.goes, hSecond.goes⟩

/- A call behind the code that stores its arguments. -/
theorem tied_call {function : String} {args : List Expr} {callee : Callee}
    {stores : Code}
    (hCallee : ctx.callee function args.length = .ok callee)
    (hStores : argsCode ctx callee.firstSlot args = .ok stores)
    (hStill : Still stores) :
    Tied ctx [⟨function, args⟩] (stores ++ callee.transfer) := by
  let s : CallSite := ⟨⟨function, args⟩, ctx, callee, stores, [], []⟩
  have hBefore : Still s.upTo := hStill.append (still_adjustStack _ rfl)
  have hBehind := still_cleanUp callee
  have hCode : stores ++ callee.transfer = s.code := by
    simp [callee.transfer_eq, CallSite.code, CallSite.upTo, CallSite.jump, s]
  have hNone := hBefore.callCount_eq
  rw [hCode]
  refine ⟨⟨[s], rfl, ⟨?_, ?_⟩, by simpa using ⟨rfl, hCallee, hStores⟩⟩, ?_⟩
  · have hLast := hBehind.callCount_eq
    unfold callCount at hNone hLast
    unfold callCount CallSite.code
    rw [countP_append, countP_cons_of_pos (by simp), append_nil, hNone, hLast]
    rfl
  · intro k _ hAt
    rcases List.getElem?_eq_some_iff.mp hAt with ⟨hK, rfl⟩
    have hZero : k = 0 := by simpa using hK
    subst hZero
    exact ⟨hNone, rfl⟩
  · simp only [CallSite.code, forall_mem_append, forall_mem_cons, s]
    refine ⟨fun i hI => (hBefore i hI).2, ?_, fun i hI => (hBehind i hI).2, by simp⟩
    change Listing.Operation.known .call ≠ .known .ret
    decide

/-
  The code of expressions. Where an expression has no calls,
  neither has its code; so the code that stores arguments has
  none.
-/
theorem composed_tied (ctx : Context) : Composed ctx (Tied ctx) :=
  (joined_still ctx).composed Still.tied Tied.append
    (fun hQuiet _ _ => (still_general hQuiet.form _ _).tied) tied_call

theorem still_storeValue (slot : Option String) : Still (storeValue slot) := by
  cases slot with
  | none => exact still_nil
  | some => exact still_general rfl _ _

/- The slots that a function with such bindings may store to. -/
def IsReturnSlot (data : Bindings) (slot : Option String) : Prop :=
  ∀ target, slot = some target → ∃ b, data.find returnSource = some b ∧ b.target = target

/- If an instruction is a return, then it ends such code. -/
def Returned (sig : Signature) (data : Bindings) (before : Code)
    (i : Instruction) (_ : Code) : Prop :=
  i.op = .known .ret → ∃ outer slot,
      IsReturnSlot data slot ∧ before ++ [i] = outer ++ sig.leaving slot

theorem returned_stable
    (sig : Signature)
    (data : Bindings) :
    Stable (Returned sig data) := by
  intro outer _ _ _ _ h hOp
  rcases h hOp with ⟨inner, slot, hSlot, hEq⟩
  refine ⟨outer ++ inner, slot, hSlot, ?_⟩
  rw [append_assoc, hEq, append_assoc]

theorem returned_of_goes (h : ∀ i ∈ code, i.op ≠ .known .ret) :
    Everywhere (Returned sig data) code :=
  .of_forall fun i hI _ _ hOp => absurd hOp (h i hI)

/- Code that ends with a return, and has no other. -/
theorem returned_leaving {first : Code} {slot : Option String}
    (hSlot : IsReturnSlot data slot)
    (hFirst : ∀ i ∈ first, i.op ≠ .known .ret) :
    Everywhere (Returned sig data) (first ++ sig.leaving slot) := by
  have hStill : Still (storeValue slot ++ adjustStack .addsp sig.localsSize) :=
    (still_storeValue slot).append (still_adjustStack _ rfl)
  refine .append (returned_stable _ _) (returned_of_goes hFirst) (.append_of
    (.of_forall fun i hI _ _ hOp => absurd hOp (hStill i hI).2) (.singleton fun _ => ?_))
  exact ⟨[], slot, hSlot, by rw [append_nil]; rfl⟩

/-
  The code of a return of some value, or of none: the value is
  computed before the function ends.
-/
def Replies (sig : Signature) (data : Bindings) (value : Option Expr) (code : Code) : Prop :=
  ∃ outer made slot rest, code = outer ++ made ++ sig.leaving slot ++ rest ∧
      IsReturnSlot data slot ∧ slot.isSome = value.isSome ∧ ∀ e, value = some e →
        ∃ ctx : Context, ctx.function = some sig ∧ exprCode ctx .a e = .ok made

theorem Replies.extend {value : Option Expr}
    (h : Replies sig data value code)
    (before behind : Code) :
    Replies sig data value (before ++ code ++ behind) := by
  rcases h with ⟨outer, made, slot, rest, rfl, hReply⟩
  refine ⟨before ++ outer, made, slot, rest ++ behind, ?_, hReply⟩
  simp only [append_assoc]

mutual

/- What a statement returns, at all its returns. -/
def stmtReturns : Stmt → List (Option Expr)
  | .ret _ value => [value]
  | .loop _ _ body => returnsOf body
  | .cond _ _ body orElse => returnsOf body ++ returnsOf orElse
  | _ => []

/- What a block returns, at all its returns. -/
def returnsOf : List Stmt → List (Option Expr)
  | [] => []
  | stmt :: rest => stmtReturns stmt ++ returnsOf rest

end

/-
  The code of a function, from its label up to the landing
  label, with its signature, the bindings that its body sees
  and the declarations of its frame.
-/
structure Routine where
  sig : Signature
  label : String
  data : Bindings
  decls : List Declaration
  body : Code

namespace Routine

/- The code up to the body. -/
def head (r : Routine) : Code :=
  mark r.label :: adjustStack .subsp r.sig.localsSize

/-
  The code of a function that is defined. Its label and its
  frame are those of the program, and it stores a value that
  it returns only if callers leave room for one.
-/
structure Of (usual : Int64) (frames : List Frame) (functions : Bindings)
    (sigs : List Signature) (d : Definition) (r : Routine) : Prop where
  analyzed : analyzeFunction usual d.name d.params d.body = .ok r.sig
  name_eq : r.sig.name = d.name
  params_eq : r.sig.params = d.params
  listed : r.sig ∈ sigs
  bound : ⟨d.name, r.label, .label, .global⟩ ∈ functions
  framed : ⟨d.name, r.decls⟩ ∈ frames
  places : Places d.name r.data (frameSlots r.sig) r.decls
  room : ∀ b, r.data.find returnSource = some b → r.sig.hasReturn = true
  returns : Everywhere (Returned r.sig r.data) r.body
  replies : ∀ value ∈ returnsOf d.body, Replies r.sig r.data value r.body

end Routine

/- A function of a program is defined by such code. -/
abbrev Outlook.Defines (w : Outlook) (d : Definition) (r : Routine) : Prop :=
  r.Of w.usual w.frames w.functions w.sigs d

/- A function whose value is stored has a slot for it. -/
theorem EnterFacts.room {g g' : Generator} {name : String}
    {params : List String} {body : List Stmt} {entry : Generator.Entry}
    {parts : EnterParts g name params body entry g'} {b : Binding}
    (facts : EnterFacts parts)
    (hParams : ∀ p ∈ params, IsIdentifier p)
    (hFound : entry.table.data.find returnSource = some b) :
    entry.sig.hasReturn = true := by
  by_contra hReturn
  -- No local and no parameter has that name, and no global is seen.
  have hOther : returnSource ∉ (frameSlots entry.sig).map Slot.source := by
    rw [frameSlots_frameSources, Signature.frameSources, if_neg hReturn, append_nil,
      facts.signature.params_eq]
    intro hMem
    refine not_isIdentifier_returnSource ?_
    rcases mem_append.mp hMem with hMem | hMem
    · rcases mem_map.mp hMem with ⟨l, hL, hName⟩
      exact hName ▸ facts.signature.identifiers l hL
    · exact hParams _ hMem
  rw [parts.table_eq, facts.frame.others _ hOther] at hFound
  rcases Bindings.find_eq_some hFound with ⟨hMem, hSource⟩
  have hKind := (SymbolTable.child_data hMem).2
  rw [hSource] at hKind
  revert hKind
  decide

theorem still_condition {label exit : String} {test : Expr}
    (h : ctx.conditionCode label exit test = .ok code) :
    Still code := by
  rcases conditionCode_parts h with ⟨parts⟩
  have hFirst := (joined_still ctx).operand isRead_load parts.first_eq
  have hSecond := (joined_still ctx).operand isRead_compare parts.second_eq
  rw [parts.code_eq]
  refine ((?_ : Still _).append hSecond).append ?_
  · cases hCode : parts.first with
    | nil => exact still_nil
    | cons i =>
      rw [hCode] at hFirst
      intro j hJ
      rcases mem_cons.mp hJ with rfl | hJ
      · exact hFirst i mem_cons_self
      · exact hFirst j (mem_cons_of_mem _ hJ)
  · refine still_singleton rfl ?_ ?_
    · cases parts.op <;> decide
    · cases parts.op <;> decide

theorem still_mark (label : String) : Still [mark label] :=
  still_singleton rfl (by decide) (by decide)

theorem still_jump (target : String) : Still [.jump .br target] :=
  still_singleton rfl (by decide) (by decide)

theorem still_jump_mark (target label : String) :
    Still [.jump .br target, mark label] :=
  (still_jump target).append (still_mark label)

variable {g g' : Generator}

theorem Moment.allows (h : Moment w g) : w.Allows g.context :=
  ⟨h.sight, g.context_functions ▸ h.listed⟩

section Entered

variable {g₁ : Generator} {name : String} {params : List String}
  {body : List Stmt} {entry : Generator.Entry}

/-
  The function that is entered, with the code of its body.
  Behind that stands a last return, unless it ends with one.
-/
def EnterParts.routine (parts : EnterParts g name params body entry g₁)
    (code : Code) : Routine where
  sig := entry.sig
  label := entry.label
  data := entry.table.data
  decls := (allocateFrame parts.bound.child entry.sig).decls
  body := code ++ (if endsWithReturn body then [] else entry.sig.leaving none)

theorem EnterParts.wrap_eq
    (parts : EnterParts g name params body entry g₁)
    (code : Code) :
    entry.wrap body code = [.jump .br entry.landing]
        ++ ((parts.routine code).head ++ (parts.routine code).body) ++ [mark entry.landing] := by
  unfold Generator.Entry.wrap
  simp only [EnterParts.routine, Routine.head, append_assoc, cons_append, nil_append]
  rfl

/- It is the function that is defined. -/
theorem EnterParts.defines {parts : EnterParts g name params body entry g₁}
    (hHere : Moment w g)
    (hInside : Moment w g₁)
    (hParams : ∀ p ∈ params, IsIdentifier p)
    (facts : EnterFacts parts)
    (hReturns : Everywhere (Returned entry.sig entry.table.data) code)
    (hReplies : ∀ value ∈ returnsOf body, Replies entry.sig entry.table.data value code) :
    w.Defines ⟨name, params, body⟩ (parts.routine code) where
  analyzed := hHere.usual ▸ parts.analyzed
  name_eq := facts.signature.name_eq
  params_eq := facts.signature.params_eq
  listed := by
    refine hInside.listed _ ?_
    rw [congrArg Generator.functions parts.after]
    exact mem_append_right _ mem_cons_self
  bound := by
    refine hInside.final.functions _ ?_
    rw [facts.labels_eq hHere.scope.known.ready]
    exact mem_append_right _ mem_cons_self
  framed := by
    refine hInside.final.frames _ ?_
    rw [congrArg Generator.frames parts.after]
    exact mem_append_right _ mem_cons_self
  places := by
    have hPlaces := facts.frame.places
    rw [← parts.table_eq] at hPlaces
    exact hPlaces
  room := fun b hFound => facts.room hParams hFound
  returns := by
    refine .append (returned_stable _ _) hReturns ?_
    split
    · exact .nil
    · have hEnd : Everywhere (Returned entry.sig entry.table.data)
          ([] ++ entry.sig.leaving none) :=
        returned_leaving nofun fun _ hI => absurd hI not_mem_nil
      exact hEnd
  replies := fun value hValue => (hReplies value hValue).extend [] _

end Entered

end Sites

end Compile

end Pep9
