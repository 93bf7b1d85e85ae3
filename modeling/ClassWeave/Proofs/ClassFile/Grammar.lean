import ClassWeave.ClassFile.Append
import Mathlib.Data.List.Forall2
/-!
# ClassFile -- the grammar of class files

What a class file is, said without its reader. `Layout.Grammatical` are
the layouts whose encoding has a meaning of its own: the constants fill
the declared slots (`Placed`), and no body or count is too long for the
field that holds its length. `Layout.Shows` is what such a layout says:
each index followed through the pool to the text it leads to.

A pool is complete (`Layout.IsComplete`) unless a wide constant stands in
its last slot and has lost its second one. That is the one shape in which
a slot put behind the others does not get the next octets.
-/


namespace ClassWeave

namespace ClassFile

/-! ## Constants in their slots -/

def Constant.width (c : Constant) : Nat := if c.isWide then 2 else 1

/-- **Constants that fill a pool** from its slot `next` on: there is a
further one exactly while the next free slot is below the declared count.
The last may be wide and reach one slot over. -/
def Placed (count : Nat) : Nat → List Constant → Prop
  | next, [] => count ≤ next
  | next, c :: cs => next < count ∧ Placed count (next + c.width) cs

/-- The slots of constants in a row. -/
abbrev slotsOfAll (cs : List Constant) : List (Option Constant) := cs.flatMap Layout.slotsOf

@[simp] theorem length_slotsOf (c : Constant) : (Layout.slotsOf c).length = c.width := by
  unfold Layout.slotsOf Constant.width
  split <;> rfl

theorem length_slotsOfAll_cons (c : Constant) (cs : List Constant) :
    (slotsOfAll (c :: cs)).length = c.width + (slotsOfAll cs).length := by
  simp [slotsOfAll]

theorem Constant.width_pos (c : Constant) : 1 ≤ c.width := by
  unfold Constant.width
  split <;> omega

/-! ## Lengths that the format can hold -/

/-- An attribute whose payload has a length that four octets hold. -/
def AttributeEntry.Fits (a : AttributeEntry) : Prop := a.data.length < 4294967296

/-- A member with six octets of header, and attributes that fit. -/
def Member.Fits (m : Member) : Prop :=
  m.header.length = 6 ∧ m.attributes.length < 65536 ∧ ∀ a ∈ m.attributes, a.Fits

namespace Layout

/-- **A layout that its encoding spells out**: the constants fill the
pool, and every length and count is one that its field can hold. -/
structure Grammatical (l : Layout) : Prop where
  placed : Placed l.poolCount.toNat 1 l.constants
  constants : ∀ c ∈ l.constants, c.Fits
  interfaces : l.interfaces.length < 65536
  fields : l.fields.length < 65536 ∧ ∀ m ∈ l.fields, m.Fits
  methods : l.methods.length < 65536 ∧ ∀ m ∈ l.methods, m.Fits
  attributes : l.attributes.length < 65536 ∧ ∀ a ∈ l.attributes, a.Fits

/-! ## What a layout says -/

/-- An index that leads to a text. -/
def TextAt (l : Layout) (i : UInt16) (s : String) : Prop :=
  ∃ text, l.slots[i.toNat]? = some (some (.utf8 text)) ∧ Utf8.decode text = s

/-- An index that leads to a class of a name. -/
def ClassAt (l : Layout) (i : UInt16) (s : String) : Prop :=
  ∃ name, l.slots[i.toNat]? = some (some (.classRef name)) ∧ l.TextAt name s

/-- **What a layout says**: its numbers as they are, and in place of each
index that must name something, the name that it leads to. -/
structure Shows (l : Layout) (v : ClassFile) : Prop where
  minor : v.minor = l.minor
  major : v.major = l.major
  accessFlags : v.accessFlags = l.accessFlags
  thisClass : l.ClassAt l.thisClass v.thisClass
  superClass : if l.superClass = 0 then v.superClass = none
    else ∃ s, v.superClass = some s ∧ l.ClassAt l.superClass s
  interfaces : List.Forall₂ l.ClassAt l.interfaces v.interfaces
  fieldCount : v.fieldCount = l.fields.length
  methodCount : v.methodCount = l.methods.length
  attributes : List.Forall₂ (fun a w => l.TextAt a.name w.name ∧ w.data = a.data)
    l.attributes v.attributes

/-! ## Complete pools -/

/-- **A pool whose constants have all their slots**: none that is wide
stands in the last one declared. -/
def IsComplete (l : Layout) : Prop :=
  ∀ c, l.slots.getLast? = some (some c) → c.isWide = false

instance decidableIsComplete (l : Layout) : Decidable l.IsComplete :=
  decidable_of_iff (∀ c ∈ l.slots.getLast?.join, c.isWide = false)
    (forall_congr' fun c => by rw [Option.mem_def, Option.join_eq_some_iff])

/-- A pool that has a text among its constants. -/
def Holds (l : Layout) (s : String) : Prop :=
  ∃ text, some (.utf8 text) ∈ l.slots ∧ Utf8.decode text = s

end Layout

/-! ## Constants and the count they fill -/

section Placed

variable {count next : Nat} {cs : List Constant}

/-- The slots of constants that fill a pool reach its count. -/
theorem Placed.le (h : Placed count next cs) : count ≤ next + (slotsOfAll cs).length := by
  induction cs generalizing next with
  | nil => simpa [Placed] using h
  | cons c cs ih =>
    have hrest := ih h.2
    rw [length_slotsOfAll_cons]
    omega

/-- Constants that fill a pool fill a larger one too, as long as their
slots reach its count. -/
theorem Placed.mono {count' : Nat} (h : Placed count next cs) (hle : count ≤ count')
    (hlen : count' ≤ next + (slotsOfAll cs).length) : Placed count' next cs := by
  induction cs generalizing next with
  | nil => simpa [Placed] using hlen
  | cons c cs ih =>
    rw [length_slotsOfAll_cons] at hlen
    exact ⟨Nat.lt_of_lt_of_le h.1 hle, ih h.2 (by omega)⟩

/-- One more constant fills one more slot, behind constants that end where
the pool does. -/
theorem Placed.concat {c : Constant} (h : Placed count next cs)
    (hlen : next + (slotsOfAll cs).length = count) (hc : c.width = 1) :
    Placed (count + 1) next (cs ++ [c]) := by
  induction cs generalizing next with
  | nil =>
    simp only [slotsOfAll, List.flatMap_nil, List.length_nil, Nat.add_zero] at hlen
    exact ⟨by omega, by simp only [Placed]; omega⟩
  | cons d cs ih =>
    rw [length_slotsOfAll_cons] at hlen
    exact ⟨Nat.lt_succ_of_lt h.1, ih h.2 (by omega)⟩

/-- The constants before the last end below the count. -/
theorem Placed.lt_of_concat {c : Constant} (h : Placed count next (cs ++ [c])) :
    next + (slotsOfAll cs).length < count := by
  induction cs generalizing next with
  | nil => simpa using h.1
  | cons d cs ih =>
    have hrest := ih h.2
    rw [length_slotsOfAll_cons]
    omega

end Placed

namespace Layout

variable {l : Layout}

theorem getLast?_slotsOfAll_concat {cs : List Constant} {c : Constant} (hc : c.isWide = false) :
    (slotsOfAll (cs ++ [c])).getLast? = some (some c) := by
  simp [slotsOfAll, slotsOf, hc]

/-- **In a complete pool the slots of the constants end where the declared
slots do.** -/
theorem IsComplete.length_slots (hg : l.Grammatical) (h : l.IsComplete)
    (hpos : 1 ≤ l.poolCount.toNat) :
    1 + (slotsOfAll l.constants).length = l.poolCount.toNat := by
  have hle := hg.placed.le
  rcases List.eq_nil_or_concat' l.constants with hnil | ⟨cs, c, hcs⟩
  · rw [hnil] at hle ⊢
    simp only [slotsOfAll, List.flatMap_nil, List.length_nil, Nat.add_zero] at hle ⊢
    omega
  have hlt : 1 + (slotsOfAll cs).length < l.poolCount.toNat :=
    (hcs ▸ hg.placed : Placed l.poolCount.toNat 1 (cs ++ [c])).lt_of_concat
  have hlen : (slotsOfAll l.constants).length = (slotsOfAll cs).length + c.width := by
    rw [hcs]
    simp [slotsOfAll]
  rcases hwide : c.isWide with _ | _
  · have : c.width = 1 := by rw [Constant.width, hwide]; rfl
    omega
  have hwidth : c.width = 2 := by rw [Constant.width, hwide]; rfl
  -- a wide constant that reaches over would stand in the last slot
  by_contra hne
  have hcount : l.poolCount.toNat = ((none :: slotsOfAll cs) ++ [some c]).length := by
    simp only [List.length_append, List.length_cons, List.length_nil]
    omega
  have hslots : l.slots = (none :: slotsOfAll cs) ++ [some c] := by
    have hall : none :: slotsOfAll l.constants = ((none :: slotsOfAll cs) ++ [some c]) ++ [none] := by
      rw [hcs]
      simp [slotsOfAll, slotsOf, hwide]
    rw [slots, hcount]
    exact (congrArg (List.take _) hall).trans List.take_left
  have := h c (by rw [hslots, List.getLast?_concat])
  rw [hwide] at this
  cases this

/-- A pool that declares all the slots of its constants is complete. -/
theorem isComplete_of_length_slots
    (hlen : 1 + (slotsOfAll l.constants).length = l.poolCount.toNat) : l.IsComplete := by
  intro c hlast
  have hslots : l.slots = none :: slotsOfAll l.constants := by
    rw [slots, List.take_of_length_le]
    rw [List.length_cons]
    change (slotsOfAll l.constants).length + 1 ≤ _
    omega
  rw [hslots] at hlast
  rcases List.eq_nil_or_concat' l.constants with hnil | ⟨cs, d, hcs⟩
  · rw [hnil] at hlast
    simp [slotsOfAll] at hlast
  rcases hwide : d.isWide with _ | _
  · rw [hcs, List.getLast?_cons, getLast?_slotsOfAll_concat hwide] at hlast
    simp only [Option.getD_some, Option.some.injEq] at hlast
    rw [← hlast, hwide]
  · rw [hcs] at hlast
    simp [slotsOfAll, slotsOf, hwide, List.getLast?_cons] at hlast

theorem Grammatical.length_slots (hg : l.Grammatical) : l.slots.length = l.poolCount.toNat := by
  have hle := hg.placed.le
  rw [slots, List.length_take, List.length_cons]
  change min _ ((slotsOfAll l.constants).length + 1) = _
  omega

end Layout

end ClassFile

end ClassWeave
