import Pep9.Proofs.Compile.Scoping

/-
  The convention in whole programs. The calls in the code are
  those of the source, one after the other, so that what is
  known of the convention is known of every call of the source:
  each of its arguments is the value of a parameter, and what
  the function returns is in the accumulator.

  Key theorem: `compile_conventional`.
-/

namespace Pep9

open Script (Stmt)

namespace Compile

/- The symbols of a compiled program. -/
def Compiled.outlook (compiled : Compiled) (usual : Int64)
    (arrays : List String) (sigs : List Signature) :
    Outlook where
  globals := compiled.table.data
  arrays := arrays
  frames := compiled.program.frames
  functions := compiled.table.labels
  sigs := sigs
  usual := usual

/-
  What callers and functions of a program agree on. Every call
  of the source is a call in the code, with the same arguments
  and at its place in the order, and there is no other one. Its
  arguments are computed where the names of its scope are in
  sight. Every function that is defined has its code; and if its
  frame fits, then all calls of it keep to the convention.
-/
def Conventional (options : Options) (stmts : List Stmt)
    (compiled : Compiled) (value : String → UInt16)
    (limit : Nat) : Prop :=
  ∃ w arrays sigs sites,
    w = compiled.outlook options.usual arrays sigs ∧
    sites.map CallSite.toCall = callsOf [] stmts ∧
    Listed compiled.program.code sites ∧
    (∀ s ∈ sites, SitedCall w (definitions stmts) none s) ∧
    ∀ d ∈ definitions stmts, ∃ r start rest,
      w.Defines d r ∧
      compiled.program.code = start ++ (r.head ++ r.body) ++ rest ∧
      (r.sig.Roomy → ∀ s ∈ sites, s.function = d.name →
        s.callee = ⟨r.sig, r.label⟩ ∧
        Convention compiled.program value limit start r s)

/-
  The code of every source text that compiles and assembles
  keeps to the convention.
-/
theorem compile_conventional {options : Options} {source : String}
    {compiled : Compiled} {layout : Listing.Layout} {known : Assembly.Symbols}
    {object : Assembly.Object}
    (hCompiled : compile options source = .ok compiled)
    (hHeader : layout.comments = true →
      '\n' ∉ options.source.toList)
    (hAssembled :
      Assembly.assemble .empty (compiled.program.listing layout) =
        (known, .ok object)) :
    ∃ stmts,
      Script.parseSource source = .ok stmts ∧
      Conventional options stmts compiled known.value
        object.bytes.length := by
  rcases compile_generate hCompiled with ⟨stmts, hParsed, hGenerated⟩
  have hNamed := Script.parseSource_wellNamed hParsed
  rcases generate_allocated hGenerated with ⟨parts, hAllocated⟩
  have facts := facts_of_parts parts hNamed
  have hImage := facts.image hNamed hHeader hAssembled
  have hNodup := labels_nodup_of_allocated hAllocated
  have hSigs := signatures_nodup hNamed parts
  have hScoped := scoped_of_parts hNamed parts hAllocated
  have hOutlook : parts.outlook =
      compiled.outlook options.usual parts.arrays parts.final.functions := by
    unfold Compiled.outlook
    rw [facts.data]
  rcases hScoped.calls with ⟨sites, hCalls, hListed, hSites⟩
  refine ⟨stmts, hParsed, parts.outlook, parts.arrays, parts.final.functions, sites,
    hOutlook, hCalls, hListed, hSites, ?_⟩
  intro d hD
  rcases hScoped.routines d hD with ⟨r, start, rest, hOf, hCode, _⟩
  refine ⟨r, start, rest, hOf, hCode, ?_⟩
  intro hRoomy s hS hName
  rcases List.mem_iff_getElem?.mp hS with ⟨k, hAt⟩
  have hMade := (hSites s hS).makes
  have hCallee := hMade.callee_of_name hNodup hSigs hOf hName
  have hLinked := hMade.linked hNamed facts hImage hOf hCode hCallee
    (hListed.stands k s hAt).2 hRoomy
  refine ⟨hCallee, hLinked.convention hOf fun d hD hEquate => ?_⟩
  exact hImage.equate d (.inr ⟨_, hOf.framed, hD⟩) hEquate

/- A function of two parameters with a local, and a call of it. -/
def adding : String :=
  "def f(a, b):\n    c = a + b\n    return c\nx = f(1, 2)\n"

theorem compile_conventional_adding :
    ∃ compiled known object,
      compile ⟨0, ""⟩ adding = .ok compiled ∧
      Assembly.assemble .empty
          (compiled.program.listing ⟨false, 0⟩) =
        (known, .ok object) ∧
      callCount compiled.program.code = 1 ∧
      ∃ stmts,
        Script.parseSource adding = .ok stmts ∧
        Conventional ⟨0, ""⟩ stmts compiled known.value
          object.bytes.length := by
  have hProgram : (compile ⟨0, ""⟩ adding).toOption.any (fun compiled =>
        callCount compiled.program.code = 1 ∧
          Assembly.Writable compiled.program) =
        true := by
    decide +kernel
  rcases Result.any_eq_true.mp hProgram with ⟨compiled, hCompiled, hBoth⟩
  rcases of_decide_eq_true hBoth with ⟨hCalls, hWritable⟩
  have hWidth : (⟨false, 0⟩ : Listing.Layout).width ≤ Listing.Layout.widest := by
    decide
  rcases Assembly.assemble_of_width hWritable hWidth with ⟨known, object, hAssembled, _⟩
  exact ⟨compiled, known, object, hCompiled, hAssembled, hCalls,
    compile_conventional hCompiled nofun hAssembled⟩

end Compile

end Pep9
