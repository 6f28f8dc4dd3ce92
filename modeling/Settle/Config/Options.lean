import Settle.Config.Value
import Settle.Kind

/-! Options, and the strategy they select.

A host that names an exported wrapper and the module it comes from asks for whole
functions to be wrapped; with either missing or empty, single try expressions are
lowered. Configuration is read leniently: whatever is not a text that says
something counts as missing, and a configuration that is no object as empty. -/
namespace Settle

structure Options where
  /-- The name of the exported wrapper. -/
  method : Option String := none
  /-- The module that exports it. -/
  source : Option String := none
  deriving DecidableEq, Repr

/-- What is lowered, throughout a run. -/
inductive Strategy where
  /-- Every eligible function, through an imported wrapper. -/
  | wholeFunction (method source : String)
  /-- Every eligible try expression, through a helper. -/
  | localExpression
  deriving DecidableEq, Repr

/-- The kinds a strategy visits. -/
def Strategy.kinds : Strategy → List Kind
  | wholeFunction _ _ =>
    [.function .declaration, .function .expression, .function .arrow, .function .method]
  | localExpression => [.tryExpression]

namespace Options

def ofValue (value : Value) : Options where
  method := (value.field? "method").bind Value.nonEmptyText?
  source := (value.field? "module").bind Value.nonEmptyText?

def strategy : Options → Strategy
  | ⟨some method, some source⟩ =>
    if method.isEmpty || source.isEmpty then .localExpression else .wholeFunction method source
  | _ => .localExpression

end Options
end Settle
