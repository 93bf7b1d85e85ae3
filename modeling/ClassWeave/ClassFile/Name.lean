/-!
# ClassFile -- internal and qualified names

Inside a class file the segments of a name are parted by slashes
(`a/b/Foo`, the internal name); everywhere else by dots (`a.b.Foo`, the
qualified name). Neither writing can hold both marks and be read back, so
the two changes of writing are inverse only on names with one of them.
-/


namespace ClassWeave

namespace ClassFile

/-- A name with every `sep` written as `mark`. -/
def respell (sep mark : Char) (name : String) : String :=
  String.ofList (name.toList.map fun c => if c = sep then mark else c)

/-- An internal name in its qualified writing. -/
def qualifiedOfInternal (name : String) : String := respell '/' '.' name

/-- A qualified name in its internal writing. -/
def internalOfQualified (name : String) : String := respell '.' '/' name

/-- The class path of a qualified name: its segments as directories, and
the last as a file. -/
def classPath (name : String) : String := internalOfQualified name ++ ".class"

end ClassFile

end ClassWeave
