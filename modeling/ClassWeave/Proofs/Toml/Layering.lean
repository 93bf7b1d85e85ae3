import ClassWeave.Config.Layers
import ClassWeave.Proofs.Toml.Keys
import Mathlib.Data.List.Induction
import Mathlib.Data.List.Forall2
/-!
# Toml -- tables in layers

A value of nested tables is found at a key path (`Toml.at?`). Laying a
value over another one decides at every path by itself: what the upper one
has there stands, merged with what was below it only if both are tables;
and where the upper one has nothing, the lower one shows through unless
the upper one has something other than a table on the way
(`at?_overlay`). So of many tables laid over one another, the last to say
something about a path decides what stands there (`at?_layered`).

All of this is about tables that have each key once, as those have that are
read (`Toml.DistinctKeys`); so it is what a configuration comes to, for the
tables of the files that it is made of (`ConfigLayers.merged_lastWriter`).
-/


namespace ClassWeave

namespace Toml

/-- The value at a key path: the path's keys lead through tables. -/
def at? : List String → Toml → Option Toml
  | [], v => some v
  | key :: path, .table fields => (get? fields key).bind (at? path)
  | _ :: _, _ => none

/-- **A value is cut off** from a path: something other than a table
stands in it before the path ends. -/
def CutsOff (v : Toml) (path : List String) : Prop :=
  ∃ above below u, path = above ++ below ∧ below ≠ [] ∧ at? above v = some u ∧ u.isTable = false

/-- Tables laid over one another, the first at the bottom. -/
def layered (layers : List Fields) : Fields := layers.foldl merge []

variable {v u : Toml} {old : Option Toml} {fields new : Fields} {key : String}
  {path : List String} {layers : List Fields} {layer : Fields}

/-! ## One key -/

theorem get?_put (fields : Fields) (key : String) (v : Toml) (k : String) :
    get? (put fields key v) k = if k = key then some v else get? fields k :=
  FileTree.lookup_cons_filter_ne fields key v k

theorem get?_eq_none (h : key ∉ fields.map Prod.fst) : get? fields key = none := by
  rcases hget : get? fields key with _ | v
  · rfl
  · exact absurd (List.mem_map_of_mem (FileTree.mem_of_lookup hget)) h

/-- **What a key has after a merge**: what is merged over lies over what it
had, and a key that is not in it keeps what it had. -/
theorem get?_merge (hnodup : (new.map Prod.fst).Nodup) (fields : Fields) (key : String) :
    get? (merge fields new) key =
      match get? new key with
      | some v => some (overlay (get? fields key) v)
      | none => get? fields key := by
  induction new generalizing fields with
  | nil => rfl
  | cons p new ih =>
    obtain ⟨k, v⟩ := p
    rw [List.map_cons, List.nodup_cons] at hnodup
    have hcons : get? ((k, v) :: new) key = if key = k then some v else get? new key :=
      FileTree.lookup_cons_ite k v new key
    rw [merge, ih hnodup.2, get?_put, hcons]
    by_cases hk : key = k
    · -- the key is done with, and does not come again
      subst hk
      simp [get?_eq_none hnodup.1]
    · simp only [if_neg hk]

/-! ## A key path -/

/-- What is no table is found where it stands alone, and cuts off all
below. -/
theorem at?_cons_plain (h : v.isTable = false) : at? (key :: path) v = none := by
  cases v <;> first | rfl | cases h

/-- A path through a table that is cut off is cut off below its first key,
or at once. -/
theorem cutsOff_cons :
    CutsOff v (key :: path) ↔ v.isTable = false ∨
      ∃ fields u, v = .table fields ∧ get? fields key = some u ∧ CutsOff u path := by
  constructor
  · rintro ⟨above, below, u, hpath, hbelow, hu, hplain⟩
    rcases above with _ | ⟨k, above⟩
    · exact .inl (Option.some.inj hu ▸ hplain)
    · obtain ⟨rfl, rfl⟩ := List.cons.inj hpath
      rcases hv : v.isTable with _ | _
      · exact .inl rfl
      · cases v with
        | table fields =>
          obtain ⟨u', hget, hu'⟩ := Option.bind_eq_some_iff.1 hu
          exact .inr ⟨fields, u', rfl, hget, above, below, u, rfl, hbelow, hu', hplain⟩
        | _ => cases hv
  · rintro (hplain | ⟨fields, u, rfl, hget, above, below, u', rfl, hbelow, hu', hplain⟩)
    · exact ⟨[], key :: path, v, rfl, List.cons_ne_nil _ _, rfl, hplain⟩
    · refine ⟨key :: above, below, u', rfl, hbelow, ?_, hplain⟩
      rw [at?, hget, Option.bind_some, hu']

theorem not_cutsOff_nil : ¬ CutsOff v [] := by
  rintro ⟨above, below, u, hpath, hbelow, -⟩
  exact hbelow (List.append_eq_nil_iff.1 hpath.symm).2

/-- What is no table takes the place of what it is laid over. -/
theorem overlay_plain (h : v.isTable = false) : overlay old v = v := by
  cases v <;> first | rfl | cases h

/-- So does a table, but over another table. -/
theorem overlay_new (h : ∀ o, old = some o → o.isTable = false) : overlay old v = v := by
  cases v with
  | table new =>
    rcases old with _ | o
    · rfl
    · have ho := h o rfl
      cases o <;> first | rfl | cases ho
  | _ => rfl

/-- A longer path goes on from where a shorter one leads. -/
theorem at?_cons (old : Option Toml) (key : String) (path : List String) :
    old.bind (at? (key :: path)) = (old.bind (at? [key])).bind (at? path) := by
  rcases old with _ | o
  · rfl
  · cases o with
    | table fields =>
      simp only [Option.bind_some, at?]
      rcases get? fields key <;> rfl
    | _ => rfl

/-- The first step of a path into a table that was laid over something. -/
theorem at?_overlay_cons (hnodup : (new.map Prod.fst).Nodup) (old : Option Toml) (key : String)
    (path : List String) :
    at? (key :: path) (overlay old (.table new)) =
      match get? new key with
      | some v => at? path (overlay (old.bind (at? [key])) v)
      | none => (old.bind (at? [key])).bind (at? path) := by
  have hover : ∀ fields : Fields, at? (key :: path) (.table (merge fields new)) =
      match get? new key with
      | some v => at? path (overlay (get? fields key) v)
      | none => (get? fields key).bind (at? path) := by
    intro fields
    rw [at?, get?_merge hnodup]
    rcases get? new key with _ | v <;> rfl
  have hreplaced : overlay old (.table new) = .table new → old.bind (at? [key]) = none →
      at? (key :: path) (overlay old (.table new)) =
        match get? new key with
        | some v => at? path (overlay (old.bind (at? [key])) v)
        | none => (old.bind (at? [key])).bind (at? path) := by
    intro htable hnone
    rw [htable, hnone, at?]
    rcases get? new key with _ | v
    · rfl
    · exact congrArg (at? path) (overlay_new fun o ho => by cases ho).symm
  rcases old with _ | o
  · exact hreplaced rfl rfl
  cases o with
  | table fields =>
    have hbelow : at? [key] (.table fields) = get? fields key := by
      rw [at?]
      rcases get? fields key <;> rfl
    rw [Option.bind_some, hbelow]
    exact hover fields
  | _ => exact hreplaced rfl rfl

/-- **What stands at a path after one value was laid over another.** What the
upper one has there lies over what the lower one has there. Where the upper
one has nothing the lower one is seen, unless it is cut off. -/
theorem at?_overlay (hv : v.DistinctKeys) (old : Option Toml) (path : List String) :
    (∀ u, at? path v = some u → at? path (overlay old v) = some (overlay (old.bind (at? path)) u)) ∧
      (at? path v = none → CutsOff v path → at? path (overlay old v) = none) ∧
      (at? path v = none → ¬ CutsOff v path → at? path (overlay old v) = old.bind (at? path)) := by
  induction path generalizing v old with
  | nil =>
    refine ⟨fun u hu => ?_, nofun, nofun⟩
    obtain rfl := Option.some.inj hu
    rcases old with _ | o <;> rfl
  | cons key path ih =>
    rcases htable : v.isTable with _ | _
    · -- a value that is no table hides all that was below it
      rw [overlay_plain htable, at?_cons_plain htable]
      exact ⟨nofun, fun _ _ => rfl, fun _ h => absurd (cutsOff_cons.2 (.inl htable)) h⟩
    obtain ⟨new, rfl⟩ := isTable_iff.1 htable
    rw [at?_overlay_cons hv.nodup, at?_cons old key path, at?]
    rcases hget : get? new key with _ | w
    · -- the upper table does not have the first key, so nothing of it is on the way
      refine ⟨nofun, fun _ hcuts => ?_, fun _ _ => rfl⟩
      obtain hplain | ⟨fields, u, heq, hu, -⟩ := cutsOff_cons.1 hcuts
      · cases hplain
      · obtain rfl := Toml.table.inj heq
        cases hget.symm.trans hu
    · have hcuts : CutsOff (.table new) (key :: path) ↔ CutsOff w path := by
        rw [cutsOff_cons]
        constructor
        · rintro (hplain | ⟨fields, u, heq, hu, hcuts⟩)
          · cases hplain
          · obtain rfl := Toml.table.inj heq
            obtain rfl := Option.some.inj (hget.symm.trans hu)
            exact hcuts
        · exact fun hcuts => .inr ⟨new, w, rfl, hget, hcuts⟩
      rw [hcuts]
      exact ih (hv.get? hget) (old.bind (at? [key]))

/-! ## Layers -/

theorem layered_concat (layers : List Fields) (layer : Fields) :
    Toml.table (layered (layers ++ [layer])) =
      overlay (some (.table (layered layers))) (.table layer) := by
  rw [layered, List.foldl_concat]
  rfl

theorem at?_layered_nil (hv : v.isTable = false) : at? path (.table (layered [])) ≠ some v := by
  rcases path with _ | ⟨key, path⟩
  · rintro ⟨⟩
    cases hv
  · exact nofun

/-- **Of one more layer on top**, something other than a table stands at a
path exactly if the layer has it there, or if it stood there before and the
layer neither has anything there nor cuts it off. -/
theorem at?_layered_concat (hlayer : DistinctKeys (.table layer)) (hv : v.isTable = false) :
    at? path (.table (layered (layers ++ [layer]))) = some v ↔
      at? path (.table layer) = some v ∨
        at? path (.table layer) = none ∧ ¬ CutsOff (.table layer) path ∧
          at? path (.table (layered layers)) = some v := by
  rw [layered_concat]
  obtain ⟨hthere, hcut, hthrough⟩ := at?_overlay hlayer (some (.table (layered layers))) path
  rcases hu : at? path (.table layer) with _ | u
  · by_cases hcuts : CutsOff (.table layer) path
    · simp [hcut hu hcuts, hcuts]
    · simp [hthrough hu hcuts, hcuts]
  · rw [hthere u hu]
    rcases htable : u.isTable with _ | _
    · simp [overlay_plain htable]
    · -- a table stays one, whatever it is laid over
      have hu' : (overlay ((some (Toml.table (layered layers))).bind (at? path)) u).isTable = true := by
        obtain ⟨new, rfl⟩ := isTable_iff.1 htable
        unfold overlay
        split <;> rfl
      refine iff_of_false ?_ ?_
      · rintro heq
        rw [Option.some.inj heq, hv] at hu'
        cases hu'
      · rintro (heq | ⟨hnone, -⟩)
        · rw [Option.some.inj heq, hv] at htable
          cases htable
        · cases hnone

/-- **The last of the layers to say something about a path decides.** What
stands there, if it is no table, is what some layer has there and every
later one leaves alone: it has nothing at the path, and nothing but tables
on the way. -/
theorem at?_layered (hlayers : ∀ layer ∈ layers, DistinctKeys (.table layer))
    (hv : v.isTable = false) :
    at? path (.table (layered layers)) = some v ↔
      ∃ before layer later, layers = before ++ layer :: later ∧
        at? path (.table layer) = some v ∧
        ∀ l ∈ later, at? path (.table l) = none ∧ ¬ CutsOff (.table l) path := by
  -- from the last layer down: it decides, or it is one of the later ones
  induction layers using List.reverseRecOn with
  | nil =>
    refine iff_of_false (at?_layered_nil hv) ?_
    rintro ⟨before, layer, later, hsplit, -⟩
    exact List.append_ne_nil_of_right_ne_nil _ (List.cons_ne_nil _ _) hsplit.symm
  | append_singleton layers last ih =>
    rw [List.forall_mem_append, List.forall_mem_singleton] at hlayers
    rw [at?_layered_concat hlayers.2 hv, ih hlayers.1]
    constructor
    · rintro (hlast | ⟨hnone, hcuts, before, layer, later, rfl, hlayer, hlater⟩)
      · exact ⟨layers, last, [], rfl, hlast, nofun⟩
      · refine ⟨before, layer, later ++ [last], by simp, hlayer, ?_⟩
        rw [List.forall_mem_append, List.forall_mem_singleton]
        exact ⟨hlater, hnone, hcuts⟩
    · rintro ⟨before, layer, later, hsplit, hlayer, hlater⟩
      rcases List.eq_nil_or_concat' later with rfl | ⟨later, l, rfl⟩
      · obtain ⟨-, hl⟩ := List.append_inj' hsplit rfl
        obtain rfl := (List.cons.inj hl).1
        exact .inl hlayer
      · rw [← List.cons_append, ← List.append_assoc] at hsplit
        obtain ⟨rfl, hl⟩ := List.append_inj' hsplit rfl
        obtain rfl := (List.cons.inj hl).1
        rw [List.forall_mem_append, List.forall_mem_singleton] at hlater
        exact .inr ⟨hlater.2.1, hlater.2.2, before, layer, later, rfl, hlayer, hlater.1⟩

/-- **Layered tables: the last writer wins at every key path.** Something
other than a table stands at a path exactly if some layer has it there and no
later one has anything at the path, or something other than a table before
its end. So a layer that says nothing about a path leaves what stands there;
and where a layer has something at a path, and that or what stood there is
no table, then that stands there as it is in the layer. -/
theorem layered_lastWriter (hlayers : ∀ layer ∈ layers, DistinctKeys (.table layer))
    (path : List String) :
    (∀ v : Toml, v.isTable = false →
      (at? path (.table (layered layers)) = some v ↔
        ∃ before layer later, layers = before ++ layer :: later ∧
          at? path (.table layer) = some v ∧
          ∀ l ∈ later, at? path (.table l) = none ∧ ¬ CutsOff (.table l) path)) ∧
      (∀ before layer, layers = before ++ [layer] →
        at? path (.table layer) = none → ¬ CutsOff (.table layer) path →
        at? path (.table (layered layers)) = at? path (.table (layered before))) ∧
      ∀ before layer u, layers = before ++ [layer] → at? path (.table layer) = some u →
        (u.isTable = false ∨
          ∀ o, at? path (.table (layered before)) = some o → o.isTable = false) →
        at? path (.table (layered layers)) = some u := by
  refine ⟨fun v hv => at?_layered hlayers hv, ?_, ?_⟩
  · rintro before layer rfl hnone hcuts
    rw [layered_concat]
    exact (at?_overlay (hlayers layer (by simp)) _ path).2.2 hnone hcuts
  · rintro before layer u rfl hu hplain
    rw [layered_concat, (at?_overlay (hlayers layer (by simp)) _ path).1 u hu,
      Option.bind_some]
    rcases hplain with hplain | hplain
    · rw [overlay_plain hplain]
    · rw [overlay_new hplain]

/-- A table that is to come over a number. -/
def tableOverNumber : Fields := [("a", .table [("d", .integer 3)])]

/-- A number that is to come over a table, beside more of another table. -/
def numberOverTable : Fields := [("b", .integer 4), ("a", .table [("e", .integer 5)])]

/-- Both of them over a number and a table. -/
def mixedLayers : List Fields :=
  [[("a", .integer 1), ("b", .table [("c", .integer 2)])], tableOverNumber, numberOverTable]

/-- The number is gone for good, and so is what was in the table; the two
tables are one. -/
theorem layered_lastWriter_mixed :
    (∀ layer ∈ mixedLayers, DistinctKeys (.table layer)) ∧
      at? ["a", "d"] (.table (layered mixedLayers)) = some (.integer 3) ∧
      at? ["a", "e"] (.table (layered mixedLayers)) = some (.integer 5) ∧
      at? ["b"] (.table (layered mixedLayers)) = some (.integer 4) ∧
      at? ["b", "c"] (.table (layered mixedLayers)) ≠ some (.integer 2) := by
  have hlayers : ∀ layer ∈ mixedLayers, DistinctKeys (.table layer) := by
    have hone : ∀ (key : String) (n : Int), DistinctKeys (.table [(key, .integer n)]) :=
      fun key n => .table (List.nodup_singleton key)
        (by rw [List.forall_mem_singleton]; exact .plain rfl)
    simp only [mixedLayers, tableOverNumber, numberOverTable, List.forall_mem_cons]
    refine ⟨.table (by decide) ?_, .table (by decide) ?_, .table (by decide) ?_, nofun⟩
    · simp only [List.forall_mem_cons]
      exact ⟨.plain rfl, hone "c" 2, nofun⟩
    · rw [List.forall_mem_singleton]
      exact hone "d" 3
    · simp only [List.forall_mem_cons]
      exact ⟨.plain rfl, hone "e" 5, nofun⟩
  have hlast : ∀ path v, at? path (.table numberOverTable) = some v → v.isTable = false →
      at? path (.table (layered mixedLayers)) = some v := fun path v hv hplain =>
    (layered_lastWriter hlayers path).2.2 (mixedLayers.take 2) numberOverTable v rfl hv (.inl hplain)
  refine ⟨hlayers, ?_, hlast _ _ rfl rfl, hlast _ _ rfl rfl, fun hgone => ?_⟩
  · refine ((layered_lastWriter hlayers _).1 _ rfl).2
      ⟨mixedLayers.take 1, tableOverNumber, [numberOverTable], rfl, rfl, ?_⟩
    rw [List.forall_mem_singleton]
    refine ⟨rfl, ?_⟩
    simp [cutsOff_cons, not_cutsOff_nil, numberOverTable, get?, isTable, List.lookup_cons]
  · -- a path goes on from where a shorter one leads, and a number leads nowhere
    have hnumber : at? ["b"] (.table (layered mixedLayers)) = some (.integer 4) := hlast _ _ rfl rfl
    have hpath := at?_cons (some (.table (layered mixedLayers))) "b" ["c"]
    rw [Option.bind_some, Option.bind_some, hnumber, hgone] at hpath
    cases hpath

end Toml

namespace ConfigLayers

variable {t : FileTree} {l : ConfigLayers} {files : List Path} {fields out : Toml.Fields}

/-- Files merged over fields are their tables merged over them. -/
theorem mergeAll_ok : mergeAll t fields files = .ok out ↔
    ∃ layers, List.Forall₂ (fun p layer => table t p = .ok layer) files layers ∧
      layers.foldl Toml.merge fields = out := by
  induction files generalizing fields with
  | nil => simp [mergeAll]
  | cons p files ih =>
    rw [mergeAll]
    rcases hp : table t p with e | layer
    · refine iff_of_false nofun ?_
      rintro ⟨layers, htables, -⟩
      cases htables with
      | cons hlayer _ => cases hp.symm.trans hlayer
    · simp only [ih]
      constructor
      · rintro ⟨layers, htables, hout⟩
        exact ⟨layer :: layers, .cons hp htables, hout⟩
      · rintro ⟨layers, htables, hout⟩
        cases htables with
        | cons hlayer htables =>
          obtain rfl := Except.ok.inj (hp.symm.trans hlayer)
          exact ⟨_, htables, hout⟩

/-- **The table of a configuration** is the tables of its files in layers. -/
theorem merged_ok : l.merged t = .ok out ↔
    ∃ layers, List.Forall₂ (fun p layer => table t p = .ok layer) (l.required t) layers ∧
      Toml.layered layers = out :=
  mergeAll_ok

/-- The table of a file has each key once. -/
theorem distinctKeys_table {p : Path} (h : table t p = .ok fields) :
    Toml.DistinctKeys (.table fields) := by
  unfold table at h
  split at h
  · cases h
  split at h
  · cases h
  split at h
  · cases h
  split at h
  · cases h
  · next hparse =>
    cases h
    exact Toml.parse?_distinctKeys hparse

/-- **The last file to say something about a key path decides** what stands
there in the table of a configuration, if that is no table. -/
theorem merged_lastWriter (h : l.merged t = .ok out) :
    ∃ layers, List.Forall₂ (fun p layer => table t p = .ok layer) (l.required t) layers ∧
      ∀ (path : List String) (v : Toml), v.isTable = false →
        (Toml.at? path (.table out) = some v ↔
          ∃ before layer later, layers = before ++ layer :: later ∧
            Toml.at? path (.table layer) = some v ∧
            ∀ l ∈ later, Toml.at? path (.table l) = none ∧ ¬ Toml.CutsOff (.table l) path) := by
  obtain ⟨layers, htables, rfl⟩ := merged_ok.1 h
  have hlayers : ∀ layer ∈ layers, Toml.DistinctKeys (.table layer) := by
    intro layer hlayer
    obtain ⟨i, hi, rfl⟩ := List.getElem_of_mem hlayer
    exact distinctKeys_table (htables.get (htables.length_eq ▸ hi) hi)
  exact ⟨layers, htables, fun path v hv => Toml.at?_layered hlayers hv⟩

end ConfigLayers

end ClassWeave
