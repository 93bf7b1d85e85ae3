import ClassWeave.Bytes.Sha256
import ClassWeave.ClassFile.Append
import ClassWeave.Enhancer.Id
/-!
# Marker -- the record that an enhanced class carries

An enhanced class carries one class-level attribute that says which
passes it went through and which octets it was made from:

```text
enhancers=orm@2,reload-stamp@1
source-sha256=<digest of the octets before enhancement>
```

Reading is lenient: lines that say neither are passed over, a later line
overrides an earlier one, and any payload is some record.
-/


namespace ClassWeave

/-- What the marker of a class says. -/
structure MarkerRecord where
  enhancers : List EnhancerId
  sourceSha256 : Option String
  deriving DecidableEq, Repr

namespace MarkerRecord

/-- The name of the attribute. -/
def attributeName : String := "org.classenhancer.Enhanced"

/-- The text of a record. -/
def text (r : MarkerRecord) : String :=
  "enhancers=" ++ EnhancerId.displayAll r.enhancers ++ "\n"
    ++ match r.sourceSha256 with
      | some hash => "source-sha256=" ++ hash ++ "\n"
      | none => ""

def encode (r : MarkerRecord) : Bytes := Utf8.encode r.text

/-- The identities in a list parted by commas; blank places in it are
passed over. -/
def idsOf (value : List Char) : List EnhancerId :=
  ((Text.pieces ',' value).filter fun p => !Text.isAllBlank p).map
    fun p => EnhancerId.parse (String.ofList p)

/-- A record after one more line. -/
def readLine (r : MarkerRecord) (line : List Char) : MarkerRecord :=
  match Text.cutFirst? '=' line with
  | none => r
  | some (key, value) =>
    let key := String.ofList (Text.trim key)
    if key = "enhancers" then { r with enhancers := idsOf value }
    else if key = "source-sha256" then
      { r with sourceSha256 := some (String.ofList (Text.trim value)) }
    else r

def decode (payload : Bytes) : MarkerRecord :=
  (Text.pieces '\n' (Utf8.decodeChars payload)).foldl readLine ⟨[], none⟩

end MarkerRecord

namespace ClassFile

def isMarked (c : ClassFile) : Bool := c.hasAttribute MarkerRecord.attributeName

/-- The record of a class that carries the marker. -/
def marker? (c : ClassFile) : Option MarkerRecord :=
  (c.find? MarkerRecord.attributeName).map fun a => MarkerRecord.decode a.data

/-- The octets of a class with the marker of a record added. -/
def stamp (bytes : Bytes) (record : MarkerRecord) : Except FormatError Bytes :=
  withAttribute bytes MarkerRecord.attributeName record.encode

end ClassFile

end ClassWeave
