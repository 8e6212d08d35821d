import Vetting.Json.Value
import Vetting.NameSet
import Vetting.Text.Quoted

/-! Criteria: named trust properties, some of which imply others. Two are always
there, the tier that dependencies deploy at and the tier that they only run at. -/

namespace Vetting

/-- A trust property and the criteria that it implies directly. -/
structure Criterion where
  name : String
  description : String := ""
  descriptionUrl : Json := .null
  implies : NameSet := ∅
deriving Inhabited

/-- The name of the deploy tier, required of dependencies unless a policy says otherwise. -/
def safeToDeploy : String := "safe-to-deploy"

/-- The name of the run tier, required of what only builds or tests use. -/
def safeToRun : String := "safe-to-run"

def builtinCriteria : List Criterion :=
  [{ name := safeToDeploy
     description := "This package will not introduce a serious security vulnerability " ++
       "to production software exposed to untrusted input."
     implies := .single safeToRun },
   { name := safeToRun
     description := "This package can be built, run, and tested on a local workstation " ++
       "or in controlled automation without surprising consequences." }]

def builtinNames : NameSet := NameSet.ofList (builtinCriteria.map (·.name))

def isBuiltin (name : String) : Bool := decide (name ∈ builtinNames)

/-- Why criteria do not make a model, or a name is none of its criteria. What is implied
may even be no name; then it is kept as messages show it. -/
inductive CriteriaFault where
  | shadowsBuiltin (name : String)
  | definedTwice (name : String)
  | unknown (name : String) (valid : NameSet) (context : String)
  | notName (shown : String) (valid : NameSet) (context : String)
  | cycle (names : List String)
deriving DecidableEq

namespace CriteriaFault

def unknownText (shown : String) (valid : NameSet) (context : String) : String :=
  s!"Unknown criterion {shown}" ++ (if context = "" then "" else s!" in {context}") ++
    s!" (valid: {valid.listed})"

def message : CriteriaFault → String
  | shadowsBuiltin name => s!"Criterion {Text.quoted name} shadows a built-in criterion"
  | definedTwice name => s!"Criterion {Text.quoted name} is defined twice"
  | unknown name valid context => unknownText (Text.quoted name) valid context
  | notName shown valid context => unknownText shown valid context
  | cycle names => "Criteria implication cycle: " ++ " -> ".intercalate names

end CriteriaFault

end Vetting
