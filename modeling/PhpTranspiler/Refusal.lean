namespace PhpTranspiler

inductive Refusal
  | arity (name : String) (got : Nat)
  | argument (text : String)
  | number (text : String)
  | reserved (name : String)
  deriving DecidableEq, Repr

namespace Refusal

def message : Refusal → String
  | .arity name got =>
    "`" ++ name ++ "` takes exactly one argument, got " ++ Nat.repr got
  | .argument text => "unsupported argument `" ++ text ++ "`"
  | .number text => "invalid number `" ++ text ++ "`"
  | .reserved name => "`" ++ name ++ "` is a reserved word in JavaScript"

end Refusal

end PhpTranspiler
