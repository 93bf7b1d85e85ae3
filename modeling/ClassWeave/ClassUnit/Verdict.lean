/-!
# ClassUnit -- whether a unit is enhanced, and why not

A unit is enhanced unless it is exempt by what it is, or was enhanced
before.
-/


namespace ClassWeave

/-- What exempts a unit. -/
inductive ExemptReason where
  | interfaceType
  | enumType
  | annotationType
  | arrayType
  | moduleInfo
  | packageInfo
  /-- A name in a reserved namespace, which is written with its dot. -/
  | platform (namespaceDot : String)
  deriving DecidableEq, Repr

/-- The name of a reason in a report. -/
def ExemptReason.label : ExemptReason → String
  | .interfaceType => "interface"
  | .enumType => "enum"
  | .annotationType => "annotation"
  | .arrayType => "array"
  | .moduleInfo => "module"
  | .packageInfo => "package_info"
  | .platform _ => "platform"

/-- How an earlier enhancement shows. -/
inductive PriorEnhancement where
  /-- The unit itself carries the marker. -/
  | marker
  /-- The copy at its output was made from the same octets. -/
  | outputCopy
  deriving DecidableEq, Repr

/-- The name of an earlier enhancement in a report. -/
def PriorEnhancement.label : PriorEnhancement → String
  | .marker => "marker"
  | .outputCopy => "output_copy"

/-- What is to be done with a unit. -/
inductive Verdict where
  | proceed
  | exempt (reason : ExemptReason)
  | alreadyEnhanced (prior : PriorEnhancement)
  deriving DecidableEq, Repr

/-- Why a unit was skipped. -/
inductive SkipReason where
  | exempt (reason : ExemptReason)
  | alreadyEnhanced (prior : PriorEnhancement)
  deriving DecidableEq, Repr

/-- The reason to skip a unit that a verdict gives. -/
def Verdict.skipReason? : Verdict → Option SkipReason
  | .proceed => none
  | .exempt reason => some (.exempt reason)
  | .alreadyEnhanced prior => some (.alreadyEnhanced prior)

end ClassWeave
