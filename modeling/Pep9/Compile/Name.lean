/-
  Conventions for the names of variables. Names consist of
  ASCII characters.

  Key definitions: `isConstantName`, `isArrayName`.
-/

namespace Pep9

namespace Compile

/-
  A constant starts with an underscore, goes on with no
  lower-case letter and has an upper-case one.
-/
def isConstantName (name : String) : Bool :=
  match name.toList with
  | '_' :: rest =>
      rest.all (fun c => !c.isLower) && rest.any Char.isUpper
  | _ => false

/- An array ends in an underscore and is no constant. -/
def isArrayName (name : String) : Bool :=
  1 < name.length
    && name.toList.getLast? = some '_'
    && !isConstantName name

end Compile

end Pep9
