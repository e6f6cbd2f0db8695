/-!
# Environment variables

An environment is a list of named texts. Setting a variable replaces what it held before.
-/

set_option autoImplicit false

namespace Frontend

/-- The variables in force, each name at most once. -/
structure Environment where
  bindings : List (String × String) := []

namespace Environment

/-- What a variable holds. -/
def get? (env : Environment) (name : String) : Option String :=
  (env.bindings.find? (·.1 == name)).map (·.2)

/-- The environment with one variable set. -/
def set (env : Environment) (name value : String) : Environment where
  bindings := (name, value) :: env.bindings.filter (·.1 != name)

/-- A switch is on for `true`, off for `false`, and as it stands otherwise. -/
def switch (env : Environment) (name : String) (otherwise : Bool) : Bool :=
  match env.get? name with
  | some "true" => true
  | some "false" => false
  | _ => otherwise

end Environment

end Frontend
