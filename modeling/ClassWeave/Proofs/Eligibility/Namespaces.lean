import ClassWeave.Eligibility
import ClassWeave.Proofs.Text.Pieces
/-!
# Eligibility -- reserved namespaces

A namespace is written with a dot at its end or without one (`undotted`),
and a name is in it if its own segments start with those of the namespace
and go on (`InNamespace`). A filter asks for this by the text alone: the
namespace with its dot is at the front of the name
(`dotted_prefix_iff`). It also leaves out what is reserved already, which
the first match never shows (`find?_foldl_addReserved`). So a name is given
to the first namespace that it is in, of those that are always reserved and
then of those that are added (`platformNamespace?_ofExtra`); and more of
them, added behind, have a say only in names that were free
(`platformNamespace?_append`, `ofExtra_earliest`).
-/


namespace ClassWeave

namespace EligibilityFilter

variable {f : EligibilityFilter} {entry name s : String}

/-! ## What is in a namespace -/

/-- The text of a namespace without the dot at its end, if it has one. -/
def undotted (entry : String) : List Char :=
  if entry.toList.getLast? = some '.' then entry.toList.dropLast else entry.toList

/-- **A name in a namespace**: the segments of the namespace are the first
ones of the name, and not all of them. -/
def InNamespace (entry name : String) : Prop :=
  Text.pieces '.' (undotted entry) <+: Text.pieces '.' name.toList ∧
    Text.pieces '.' (undotted entry) ≠ Text.pieces '.' name.toList

instance decidableInNamespace (entry name : String) : Decidable (InNamespace entry name) :=
  inferInstanceAs (Decidable (_ ∧ _))

/-- A namespace is reserved with one dot behind its text, whether it was
written with it or not. -/
theorem toList_dotted (entry : String) : (dotted entry).toList = undotted entry ++ ['.'] := by
  unfold dotted undotted
  split
  · next hdot =>
    obtain ⟨text, htext⟩ := List.getLast?_eq_some_iff.1 hdot
    rw [htext, List.dropLast_concat]
  · exact String.toList_append

theorem dotted_eq_ofList (entry : String) :
    dotted entry = String.ofList (undotted entry ++ ['.']) := by
  rw [← toList_dotted, String.ofList_toList]

/-- **The text decides on the segments**: the namespace with its dot is at the
front of just the names in it. -/
theorem dotted_prefix_iff : (dotted entry).toList <+: name.toList ↔ InNamespace entry name := by
  rw [toList_dotted]
  exact Text.append_sep_prefix_iff

/-- A segment that only starts like the namespace is another one, and the
namespace is not in itself; an empty segment is one as well. -/
example : ¬ InNamespace "java" "javaish.Foo" ∧ ¬ InNamespace "java." "java" ∧
    InNamespace "java." "java..Foo" ∧ ¬ InNamespace "java.." "java.Foo" := by
  decide

/-! ## The first one of them -/

/-- What is reserved already does not come first a second time. -/
theorem find?_addReserved (p : String → Bool) (reserved : List String) (entry : String) :
    (addReserved reserved entry).find? p = (reserved ++ [dotted entry]).find? p := by
  unfold addReserved
  split
  · next hmem =>
    rw [List.find?_append]
    by_cases hp : p (dotted entry) = true
    · rw [Option.or_of_isSome (List.find?_isSome.2 ⟨_, hmem, hp⟩)]
    · rw [List.find?_singleton, if_neg hp, Option.or_none]
  · rfl

/-- **The first match is that of all namespaces in a row**, with those that
are left out. -/
theorem find?_foldl_addReserved (p : String → Bool) (reserved extra : List String) :
    (extra.foldl addReserved reserved).find? p = (reserved ++ extra.map dotted).find? p := by
  induction extra generalizing reserved with
  | nil => rw [List.foldl_nil, List.map_nil, List.append_nil]
  | cons entry extra ih =>
    calc ((entry :: extra).foldl addReserved reserved).find? p
        = (addReserved reserved entry ++ extra.map dotted).find? p := ih _
      _ = ((reserved ++ [dotted entry]) ++ extra.map dotted).find? p := by
          rw [List.find?_append, find?_addReserved, ← List.find?_append]
      _ = (reserved ++ (entry :: extra).map dotted).find? p := by
          rw [List.append_assoc, List.singleton_append, List.map_cons]

theorem map_dotted_platformNamespaces : platformNamespaces.map dotted = platformNamespaces := by
  decide

/-- **A filter gives a name to the first namespace that it is in**, written
with its dot. -/
theorem platformNamespace?_ofExtra (extra : List String) (expected : List EnhancerId)
    (name : String) :
    (ofExtra extra expected).platformNamespace? name =
      ((platformNamespaces ++ extra).find? fun entry => InNamespace entry name).map dotted := by
  have htext : ((fun s : String => s.toList.isPrefixOf name.toList) ∘ dotted) =
      fun entry => decide (InNamespace entry name) := by
    funext entry
    rw [Function.comp_apply, Bool.eq_iff_iff, List.isPrefixOf_iff_prefix, dotted_prefix_iff,
      decide_eq_true_iff]
  calc (ofExtra extra expected).platformNamespace? name
      = (platformNamespaces ++ extra.map dotted).find? fun s => s.toList.isPrefixOf name.toList :=
        find?_foldl_addReserved _ _ _
    _ = ((platformNamespaces ++ extra).map dotted).find? fun s =>
          s.toList.isPrefixOf name.toList := by
        rw [List.map_append, map_dotted_platformNamespaces]
    _ = ((platformNamespaces ++ extra).find? fun entry => InNamespace entry name).map dotted := by
        rw [List.find?_map, htext]

/-- So the answer is the entry that the name is in, with no entry before it that
the name is in too. -/
theorem platformNamespace?_eq_some_iff {extra : List String} {expected : List EnhancerId} :
    (ofExtra extra expected).platformNamespace? name = some s ↔
      ∃ before entry after, platformNamespaces ++ extra = before ++ entry :: after ∧
        InNamespace entry name ∧ (∀ e ∈ before, ¬ InNamespace e name) ∧
          s = String.ofList (undotted entry ++ ['.']) := by
  rw [platformNamespace?_ofExtra, Option.map_eq_some_iff]
  simp only [List.find?_eq_some_iff_append, decide_eq_true_iff, Bool.not_eq_true',
    decide_eq_false_iff_not]
  constructor
  · rintro ⟨entry, ⟨hin, before, after, hsplit, hbefore⟩, rfl⟩
    exact ⟨before, entry, after, hsplit, hin, hbefore, dotted_eq_ofList entry⟩
  · rintro ⟨before, entry, after, hsplit, hin, hbefore, rfl⟩
    exact ⟨entry, ⟨hin, before, after, hsplit, hbefore⟩, dotted_eq_ofList entry⟩

theorem isSome_platformNamespace? {extra : List String} {expected : List EnhancerId} :
    ((ofExtra extra expected).platformNamespace? name).isSome = true ↔
      ∃ entry ∈ platformNamespaces ++ extra, InNamespace entry name := by
  rw [platformNamespace?_ofExtra, Option.isSome_map, List.find?_isSome]
  simp only [decide_eq_true_iff]

/-- **Namespaces that are added behind** have a say in the names that were
free, as if they were the only ones added, and in no others. -/
theorem platformNamespace?_append (extra more : List String) (expected expected' : List EnhancerId)
    (name : String) :
    (ofExtra (extra ++ more) expected').platformNamespace? name =
      ((ofExtra extra expected).platformNamespace? name).or
        ((ofExtra more expected').platformNamespace? name) := by
  simp only [platformNamespace?_ofExtra, List.find?_append, Option.map_or, Option.or_assoc]
  -- a name that is free of the added ones is not in those that are always reserved either
  rcases platformNamespaces.find? fun entry => InNamespace entry name with _ | entry <;> rfl

/-- A name is exempt as one in a reserved namespace if it is in one and is
not that of an array. -/
theorem nameExemption?_eq_platform_iff :
    f.nameExemption? name = some (.platform s) ↔
      isArrayName name = false ∧ f.platformNamespace? name = some s := by
  unfold nameExemption?
  split
  · next harray => simp [harray]
  next harray =>
  rw [Bool.not_eq_true] at harray
  split
  · next hs => simp [harray, hs]
  next hnone =>
  rw [hnone]
  refine iff_of_false ?_ nofun
  dsimp only
  split
  · nofun
  · split <;> nofun

/-- **Reserved namespaces are matched by whole segments, and only grow.** Of
the entries that are always reserved, and then of those that are added, a
filter gives a name to one exactly if the name is in it and in none before
it, and says it with its dot; and it gives the name to some entry exactly if
the name is in any. With more entries added behind, a name that was reserved
stays with the same one, also as the reason for which it is exempt; and any
other name is given the entry that these alone would give it. -/
theorem ofExtra_earliest (extra : List String) (expected : List EnhancerId)
    (name : String) :
    (∀ s, (ofExtra extra expected).platformNamespace? name = some s ↔
      ∃ before entry after, platformNamespaces ++ extra = before ++ entry :: after ∧
        InNamespace entry name ∧ (∀ e ∈ before, ¬ InNamespace e name) ∧
          s = String.ofList (undotted entry ++ ['.'])) ∧
    (((ofExtra extra expected).platformNamespace? name).isSome = true ↔
      ∃ entry ∈ platformNamespaces ++ extra, InNamespace entry name) ∧
    ∀ (more : List String) (expected' : List EnhancerId),
      (∀ s, (ofExtra extra expected).platformNamespace? name = some s →
        (ofExtra (extra ++ more) expected').platformNamespace? name = some s) ∧
      ((ofExtra extra expected).platformNamespace? name = none →
        (ofExtra (extra ++ more) expected').platformNamespace? name =
          (ofExtra more expected').platformNamespace? name) ∧
      ∀ s, (ofExtra extra expected).nameExemption? name = some (.platform s) →
        (ofExtra (extra ++ more) expected').nameExemption? name = some (.platform s) := by
  refine ⟨fun s => platformNamespace?_eq_some_iff, isSome_platformNamespace?,
    fun more expected' => ⟨fun s hs => ?_, fun hnone => ?_, fun s hs => ?_⟩⟩
  · rw [platformNamespace?_append extra more expected, hs, Option.some_or]
  · rw [platformNamespace?_append extra more expected, hnone, Option.none_or]
  · rw [nameExemption?_eq_platform_iff] at hs ⊢
    rw [platformNamespace?_append extra more expected, hs.2, Option.some_or]
    exact ⟨hs.1, rfl⟩

/-- Of two namespaces that overlap the one that is added first counts, and it
stays when the other is added behind; so does the one without a name. -/
theorem ofExtra_earliest_overlapping :
    let f := ofExtra ["org.acme", ""] []
    let g := ofExtra (["org.acme", ""] ++ ["org", "org.acme."]) []
    f.platformNamespace? "org.acme.Boot" = some "org.acme." ∧
      g.platformNamespace? "org.acme.Boot" = some "org.acme." ∧
      f.platformNamespace? "org.acmeish.Boot" = none ∧
      g.platformNamespace? "org.acmeish.Boot" = some "org." ∧
      f.nameExemption? ".Boot" = some (.platform ".") ∧
      g.nameExemption? ".Boot" = some (.platform ".") := by
  intro f g
  obtain ⟨hfirst, -, hmore⟩ := ofExtra_earliest ["org.acme", ""] [] "org.acme.Boot"
  obtain ⟨-, hany, hmore'⟩ := ofExtra_earliest ["org.acme", ""] [] "org.acmeish.Boot"
  obtain ⟨-, -, hmore''⟩ := ofExtra_earliest ["org.acme", ""] [] ".Boot"
  have hacme : f.platformNamespace? "org.acme.Boot" = some "org.acme." :=
    (hfirst "org.acme.").2 ⟨platformNamespaces, "org.acme", [""], rfl, by decide, by decide, rfl⟩
  have hfree : f.platformNamespace? "org.acmeish.Boot" = none := by
    rw [← Option.not_isSome_iff_eq_none, hany]
    decide
  have hunnamed : f.nameExemption? ".Boot" = some (.platform ".") := by decide
  refine ⟨hacme, (hmore ["org", "org.acme."] []).1 _ hacme, hfree, ?_, hunnamed,
    (hmore'' ["org", "org.acme."] []).2.2 _ hunnamed⟩
  exact ((hmore' ["org", "org.acme."] []).2.1 hfree).trans (by decide)

end EligibilityFilter

end ClassWeave
