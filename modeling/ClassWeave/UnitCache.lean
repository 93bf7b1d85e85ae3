import ClassWeave.ClassUnit.Basic
/-!
# UnitCache -- the units of a run by name

A run keeps one unit for each qualified name. The first unit of a name is
kept, whatever octets are met under that name later, and what happens to
it is put back in its place.

A name has a slot from the first time that its unit is asked for. If the unit
cannot be loaded the slot stays empty, and can be told from no slot at all by
nothing that asks for units, names or their number (`UnitCache.Same`).
-/


namespace ClassWeave

/-- Slots by qualified name, each with a unit or empty. -/
abbrev UnitCache := List (String × Option ClassUnit)

namespace UnitCache

/-- The unit kept for a name. An empty slot has none. -/
def get? (cache : UnitCache) (name : String) : Option ClassUnit := (cache.lookup name).join

/-- The cache with a unit kept for a name, in place of the one that was. -/
def put (cache : UnitCache) (name : String) (u : ClassUnit) : UnitCache :=
  (name, some u) :: cache.filter fun p => p.1 != name

/-- The cache with a slot for a name, empty if there was none. -/
def reserve (cache : UnitCache) (name : String) : UnitCache :=
  if (cache.lookup name).isSome then cache else (name, none) :: cache

/-- The names for which units are kept, in order. -/
def names (cache : UnitCache) : List String :=
  ((cache.filter fun p => p.2.isSome).map Prod.fst).mergeSort fun a b => !(b < a)

def length (cache : UnitCache) : Nat := cache.names.length

def isEmpty (cache : UnitCache) : Bool := cache.length == 0

@[simp] theorem get?_put_self (cache : UnitCache) (name : String) (u : ClassUnit) :
    (cache.put name u).get? name = some u := by
  simp [get?, put]

theorem get?_put_of_ne (cache : UnitCache) {name other : String} (u : ClassUnit)
    (h : other ≠ name) : (cache.put name u).get? other = cache.get? other := by
  have hother : (other == name) = false := beq_eq_false_iff_ne.mpr h
  refine congrArg Option.join ?_
  rw [put, List.lookup_cons, hother]
  induction cache with
  | nil => rfl
  | cons p cache ih =>
    obtain ⟨key, v⟩ := p
    by_cases hk : key = name
    · subst hk
      simp [List.lookup_cons, hother, ih]
    · by_cases ho : other = key
      · simp [hk, ho]
      · simp [List.lookup_cons, hk, beq_eq_false_iff_ne.mpr ho, ih]

theorem put_put (cache : UnitCache) (name : String) (u v : ClassUnit) :
    (cache.put name u).put name v = cache.put name v := by
  rw [put, put, put, List.filter_cons_of_neg (by simp), List.filter_filter]
  simp only [Bool.and_self]

variable {cache cache' : UnitCache} {name other : String} {u v : ClassUnit}

/-- A unit put back where it is kept changes no answer. -/
theorem get?_put_again (h : cache.get? name = some u) (other : String) :
    (cache.put name u).get? other = cache.get? other := by
  by_cases heq : other = name
  · rw [heq, get?_put_self, h]
  · rw [get?_put_of_ne _ _ heq]

theorem get?_put_new (h : cache.get? name = none) (hv : cache.get? other = some v) :
    (cache.put name u).get? other = some v := by
  have hne : other ≠ name := by
    rintro rfl
    cases h.symm.trans hv
  rwa [get?_put_of_ne _ _ hne]

theorem of_get?_put (h : (cache.put name u).get? other = some v) :
    other = name ∧ v = u ∨ cache.get? other = some v := by
  by_cases heq : other = name
  · rw [heq, get?_put_self] at h
    exact .inl ⟨heq, (Option.some.inj h).symm⟩
  · rw [get?_put_of_ne _ _ heq] at h
    exact .inr h

/-! ## Empty slots -/

/-- **Caches that cannot be told apart**: they keep the same units, and so
have the same names and as many of them. Only their empty slots may differ,
and the order of their slots. -/
structure Same (cache cache' : UnitCache) : Prop where
  get? : ∀ name, cache'.get? name = cache.get? name
  names : cache'.names = cache.names

theorem Same.refl (cache : UnitCache) : Same cache cache := ⟨fun _ => rfl, rfl⟩

theorem Same.length (h : Same cache cache') : cache'.length = cache.length := by
  rw [UnitCache.length, h.names, UnitCache.length]

/-- **A slot without a unit cannot be told from none**: whatever is asked for,
the units, their names and their number are as before. -/
theorem same_reserve (cache : UnitCache) (name : String) : Same cache (cache.reserve name) := by
  unfold reserve
  split
  · exact .refl cache
  next hnone =>
  rw [Option.not_isSome_iff_eq_none] at hnone
  have hnames : UnitCache.names ((name, none) :: cache) = cache.names := by
    rw [UnitCache.names, UnitCache.names, List.filter_cons_of_neg (by simp)]
  refine ⟨fun other => ?_, hnames⟩
  by_cases hother : other = name
  · rw [hother, UnitCache.get?, List.lookup_cons_self, UnitCache.get?, hnone]
    rfl
  · rw [UnitCache.get?, List.lookup_cons, beq_eq_false_iff_ne.2 hother, UnitCache.get?]

end UnitCache

end ClassWeave
