/-!
# TOML values

What a TOML document says. Of numbers with a fraction and of dates only the
kind is kept, since no setting takes them.
-/

set_option autoImplicit false

namespace LineShell.Toml

inductive Value where
  | string (s : String)
  | integer (n : Int)
  | float
  | boolean (b : Bool)
  | datetime
  | array (items : List Value)
  | table (fields : List (String × Value))
  deriving Repr

end LineShell.Toml
