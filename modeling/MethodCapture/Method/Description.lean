/-!
What an operator writes to name a method. A description says nothing about what is loaded: it is
matched with methods only when a request is taken up.
-/

namespace MethodCapture

structure Description where
  module : String
  declaringType : String
  method : String
  parameterTypes : List String
  deriving DecidableEq

namespace Description

def text (d : Description) : String :=
  let parameters :=
    if d.parameterTypes.isEmpty then "" else "(" ++ ", ".intercalate d.parameterTypes ++ ")"
  d.module ++ "!" ++ d.declaringType ++ "." ++ d.method ++ parameters

def listText (ds : List Description) : String :=
  ", ".intercalate (ds.map text)

end Description

end MethodCapture
