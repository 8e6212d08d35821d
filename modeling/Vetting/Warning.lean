import Vetting.Audit.Conflict
import Vetting.Policy

/-! Warnings, and outcomes that come with those given on the way. A fault stops a
computation but does not take back its warnings. -/

namespace Vetting

/-- What a person should know of although work goes on. -/
inductive Warning where
  | rejected (record : RejectedRecord)
  | dropped (record : AuditRecord) (source : String)
  | lockIgnored (source : String)
  | policyIgnored (package : String)
  | conflict (conflict : Conflict)
  | discarded (audit criterion : String)

def Warning.message : Warning → String
  | rejected r => s!"Rejected record for {r.package}: {r.reason}"
  | dropped r source =>
    s!"Dropped {r.package} {r.describe} from import {source}: no criteria map to local ones"
  | lockIgnored source => s!"Ignoring locked import {source}: not configured"
  | policyIgnored package =>
    s!"Policy for {package} ignored: not a first-party package in the graph"
  | conflict c => s!"Audit conflicts with violation: {c.describe}"
  | discarded audit criterion => s!"Discarded {audit}: it would not satisfy {criterion}"

def AuditStore.warnings {model : CriteriaModel} (store : AuditStore model) : List Warning :=
  store.rejected.map .rejected

/-- An outcome and the warnings given until it came. -/
structure Logged (α : Type) where
  outcome : Except Fault α
  warnings : List Warning

namespace Logged

variable {α β : Type}

instance : Monad Logged where
  pure a := ⟨.ok a, []⟩
  bind x f := match x.outcome with
    | .ok a =>
      let y := f a
      ⟨y.outcome, x.warnings ++ y.warnings⟩
    | .error e => ⟨.error e, x.warnings⟩

def lift (r : Except Fault α) : Logged α := ⟨r, []⟩

def warn (ws : List Warning) : Logged Unit := ⟨.ok (), ws⟩

end Logged

/-- Check the names of policies against a model, and warn of the policies that a graph,
if there is one, has no first-party package for. -/
def PolicyTable.validate (t : PolicyTable) (m : CriteriaModel) (g : Option DependencyGraph) :
    Logged Unit := do
  Logged.lift (liftCriteria (t.check m))
  match g with
  | some g => Logged.warn ((t.ignored g).toList.map .policyIgnored)
  | none => pure ()

end Vetting
