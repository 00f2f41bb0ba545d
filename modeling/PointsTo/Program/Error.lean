import PointsTo.Program.Basic

/-!
# What can be wrong with a program

Each way in which a program can fail its checks is a constructor that holds what the report names;
`ProgramError.message` is the wording.
-/

namespace PointsTo

namespace CallMode

/-- The name of the mode. -/
def name : CallMode → String
  | static => "Static"
  | special => "Special"
  | virtual => "Virtual"
  | interface => "Interface"
  | dynamic => "Dynamic"

end CallMode

/-- A place that names a method which does not exist. -/
inductive MethodMention where
  /-- The method table of a class. -/
  | inClass (m : MethodId) (className : String)
  /-- The program's entry. -/
  | asEntry (m : MethodId)
  | atCall (className subsignature : String)
deriving DecidableEq

/-- A contradiction inside the program's tables. -/
inductive Malformation where
  | misplacedClass (name : String) (id : ClassId) (position : Nat)
  | duplicateClass (name : String)
  /-- A class lists a method that is declared elsewhere or otherwise. -/
  | mislistedMethod (className : String) (m : MethodId) (listedAs subsignature : String)
      (owner : ClassId)
  /-- A class is among its own proper supertypes. -/
  | cyclicHierarchy (className superName : String)
  | misplacedField (name : String) (id : FieldId) (position : Nat)
  /-- A variable stands at a position other than its id, or its method does not exist. -/
  | misplacedVar (name : String) (id : VarId)
  | duplicateVar (name : String) (method : MethodId)
  | misplacedMethod (subsignature : String) (id : MethodId) (position : Nat)
  /-- A method is not the one its class lists under its subsignature. -/
  | unlistedMethod (id : MethodId) (subsignature : String) (owner : ClassId)
  /-- A call other than a static one has no receiver. -/
  | missingReceiver (mode : CallMode) (subsignature signature : String)
  /-- A method uses a variable of another method. -/
  | foreignVar (signature name : String) (method : MethodId)
  /-- The index was made for another state of the program. -/
  | staleIndex
deriving DecidableEq

/-- Why a program is refused. -/
inductive ProgramError where
  | danglingMethod (mention : MethodMention)
  | danglingClass (c : ClassId)
  | danglingField (f : FieldId)
  | danglingVar (v : VarId)
  /-- An instance method has no variable for its receiver. -/
  | missingThis (signature : String)
  /-- The tables contradict each other. -/
  | malformed (cause : Malformation)
deriving DecidableEq

namespace MethodMention

/-- The mention in words. -/
def text : MethodMention → String
  | inClass m className => s!"method #{m} declared in '{className}'"
  | asEntry m => s!"entry method #{m}"
  | atCall className subsignature => s!"<{className}: {subsignature}>"

end MethodMention

namespace Malformation

/-- The contradiction in words. -/
def text : Malformation → String
  | misplacedClass name id position => s!"class '{name}' has id {id} at position {position}"
  | duplicateClass name => s!"duplicate class '{name}'"
  | mislistedMethod className m listedAs subsignature owner =>
    s!"'{className}' lists method #{m} as '{listedAs}', but it is '{subsignature}' declared in class #{owner}"
  | cyclicHierarchy className superName =>
    s!"cyclic class hierarchy through '{className}' and '{superName}'"
  | misplacedField name id position => s!"field '{name}' has id {id} at position {position}"
  | misplacedVar name id =>
    s!"variable '{name}' (id {id}) is misplaced or belongs to an unknown method"
  | duplicateVar name method => s!"duplicate variable '{name}' in method #{method}"
  | misplacedMethod subsignature id position =>
    s!"method '{subsignature}' has id {id} at position {position}"
  | unlistedMethod id subsignature owner =>
    s!"method #{id} '{subsignature}' is not the one class #{owner} declares under that subsignature"
  | missingReceiver mode subsignature signature =>
    s!"{mode.name} call to '{subsignature}' in {signature} has no receiver"
  | foreignVar signature name method => s!"{signature} uses variable '{name}' of method #{method}"
  | staleIndex => "program indexes are out of date; call Program::reindex() after editing"

end Malformation

namespace ProgramError

/-- The report of the error. -/
def message : ProgramError → String
  | danglingMethod mention => s!"Dangling method reference: {mention.text}"
  | danglingClass c => s!"Dangling class reference: #{c}"
  | danglingField f => s!"Dangling field reference: #{f}"
  | danglingVar v => s!"Dangling variable reference: #{v}"
  | missingThis signature => s!"Instance method {signature} has no 'this' variable"
  | malformed cause => s!"Invalid program: {cause.text}"

end ProgramError

end PointsTo
