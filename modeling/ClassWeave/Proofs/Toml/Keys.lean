import ClassWeave.Proofs.Files.Tree
import ClassWeave.Toml.Reader
/-!
# Toml -- what is read has each key once

Every table in what is read of a file has each key once
(`parse?_distinctKeys`). While it is read the same holds of all drafts of
tables (`Draft.Distinct`). A change at the table that a path leads to is all
that happens to them, and it keeps them so if it does so to that table
(`AllDistinct.alter`); and a draft that is completed has the keys it had
(`keys_finishFields`).
-/


namespace ClassWeave

namespace Toml

/-- Whether a value is a table. -/
def isTable : Toml → Bool
  | .table _ => true
  | _ => false

/-- **Every table in a value has each key once.** Arrays are taken as a
whole, so nothing is asked of what is in them. -/
inductive DistinctKeys : Toml → Prop
  | plain {v : Toml} : v.isTable = false → DistinctKeys v
  | table {fields : Fields} : (fields.map Prod.fst).Nodup →
      (∀ p ∈ fields, DistinctKeys p.2) → DistinctKeys (.table fields)

variable {v : Toml} {fields : Fields} {key : String} {cs rest : List Char}

theorem isTable_iff : v.isTable = true ↔ ∃ fields, v = .table fields := by
  cases v <;> simp [isTable]

theorem DistinctKeys.get? (h : DistinctKeys (.table fields)) (hget : get? fields key = some v) :
    DistinctKeys v := by
  cases h with
  | plain hplain => cases hplain
  | table _ hparts => exact hparts (key, v) (FileTree.mem_of_lookup hget)

theorem DistinctKeys.nodup (h : DistinctKeys (.table fields)) : (fields.map Prod.fst).Nodup := by
  cases h with
  | plain hplain => cases hplain
  | table hnodup _ => exact hnodup

/-! ## Drafts -/

/-- **Every table in a draft has each key once**, those in rows included. -/
inductive Draft.Distinct : Draft → Prop
  | value {v : Toml} : DistinctKeys v → Distinct (.value v)
  | table {implicit dotted : Bool} {fields : List (String × Draft)} :
      (fields.map Prod.fst).Nodup → (∀ p ∈ fields, Distinct p.2) →
      Distinct (.table implicit dotted fields)
  | tables {items : List (List (String × Draft))} :
      (∀ fields ∈ items, (fields.map Prod.fst).Nodup) →
      (∀ fields ∈ items, ∀ p ∈ fields, Distinct p.2) → Distinct (.tables items)

/-- The fields of a table that has each key once, as have all in it. -/
structure AllDistinct (fields : List (String × Draft)) : Prop where
  nodup : (fields.map Prod.fst).Nodup
  parts : ∀ p ∈ fields, p.2.Distinct

theorem Draft.distinct_table {implicit dotted : Bool} {fields : List (String × Draft)} :
    (Draft.table implicit dotted fields).Distinct ↔ AllDistinct fields := by
  constructor
  · rintro ⟨⟩
    constructor <;> assumption
  · exact fun h => .table h.nodup h.parts

theorem Draft.distinct_tables {items : List (List (String × Draft))} :
    (Draft.tables items).Distinct ↔ ∀ fields ∈ items, AllDistinct fields := by
  constructor
  · rintro (_ | _ | ⟨hnodup, hparts⟩)
    exact fun fields hfields => ⟨hnodup fields hfields, hparts fields hfields⟩
  · exact fun h => .tables (fun fields hfields => (h fields hfields).nodup)
      fun fields hfields => (h fields hfields).parts

namespace AllDistinct

open DraftTable

variable {t t' : DraftTable} {d : Draft}

theorem nil : AllDistinct [] := ⟨List.nodup_nil, List.forall_mem_nil _⟩

theorem get? (h : AllDistinct t.fields) (hget : t.get? key = some d) : d.Distinct :=
  h.parts (key, d) (FileTree.mem_of_lookup hget)

theorem erase (h : AllDistinct t.fields) (key : String) : AllDistinct (t.erase key).fields where
  nodup := h.nodup.sublist (List.filter_sublist.map _)
  parts p hp := h.parts p (List.mem_filter.1 hp).1

theorem put (h : AllDistinct t.fields) (hd : d.Distinct) (key : String) :
    AllDistinct (t.put key d).fields where
  nodup := FileTree.nodup_cons_filter_ne h.nodup _ _
  parts := List.forall_mem_cons.2 ⟨hd, (h.erase key).parts⟩

/-- **A change at the table that a path leads to** keeps tables distinct, if it
keeps that one so. -/
theorem alter {α : Type} {P : α → Prop} {dotted : Bool} {path : List String} {a : α}
    {change : DraftTable → Option (DraftTable × α)}
    (hchange : ∀ t t' a, AllDistinct t.fields → change t = some (t', a) →
      AllDistinct t'.fields ∧ P a)
    (h : AllDistinct t.fields) (halter : DraftTable.alter dotted change path t = some (t', a)) :
    AllDistinct t'.fields ∧ P a := by
  induction path generalizing t t' with
  | nil => exact hchange t t' a h halter
  | cons key path ih =>
    -- the table that the key has is changed, and takes its own place
    have hinner : ∀ (s : DraftTable) (wrap : DraftTable → Draft), AllDistinct s.fields →
        (∀ s : DraftTable, AllDistinct s.fields → (wrap s).Distinct) →
        ((DraftTable.alter dotted change path s).bind fun r =>
          some (t.put key (wrap r.1), r.2)) = some (t', a) →
        AllDistinct t'.fields ∧ P a := by
      intro s wrap hs hwrap heq
      obtain ⟨⟨inner, a'⟩, hinner, heq⟩ := Option.bind_eq_some_iff.1 heq
      obtain ⟨rfl, rfl⟩ := Prod.mk.inj (Option.some.inj heq)
      obtain ⟨hdistinct, ha⟩ := ih hs hinner
      exact ⟨h.put (hwrap inner hdistinct) key, ha⟩
    rw [DraftTable.alter] at halter
    split at halter
    · exact hinner _ _ nil (fun s => Draft.distinct_table.2) halter
    · next implicit wasDotted fields hget =>
      split at halter
      · cases halter
      · exact hinner ⟨implicit, wasDotted, fields⟩ _ (Draft.distinct_table.1 (h.get? hget))
          (fun s => Draft.distinct_table.2) halter
    · next last before hget =>
      have hrow := Draft.distinct_tables.1 (h.get? hget)
      rw [List.forall_mem_cons] at hrow
      refine hinner ⟨false, false, last⟩ (fun s => .tables (s.fields :: before)) hrow.1
        (fun s hs => ?_) halter
      exact Draft.distinct_tables.2 (List.forall_mem_cons.2 ⟨hs, hrow.2⟩)
    · cases halter
    · cases halter

theorem alter_fields {α : Type} {dotted : Bool} {path : List String} {a : α}
    {change : DraftTable → Option (DraftTable × α)}
    (hchange : ∀ t t' a, AllDistinct t.fields → change t = some (t', a) → AllDistinct t'.fields)
    (h : AllDistinct t.fields) (halter : DraftTable.alter dotted change path t = some (t', a)) :
    AllDistinct t'.fields :=
  (h.alter (P := fun _ => True) (fun s s' b hs heq => ⟨hchange s s' b hs heq, trivial⟩) halter).1

/-- A value that is entered. -/
theorem enter {path : List String} (h : AllDistinct t.fields) (hv : DistinctKeys v)
    (henter : t.enter path key v = some t') : AllDistinct t'.fields := by
  obtain ⟨⟨t'', a⟩, halter, rfl⟩ := Option.map_eq_some_iff.1 henter
  refine h.alter_fields (fun inner inner' a hinner heq => ?_) halter
  split at heq
  · cases heq
  · split at heq
    · cases heq
    · obtain ⟨rfl, -⟩ := Prod.mk.inj (Option.some.inj heq)
      exact hinner.put (.value hv) key

end AllDistinct

/-! ## Completed -/

namespace DraftTable

theorem keys_finishFields (fields : List (String × Draft)) :
    (finishFields fields).map Prod.fst = fields.map Prod.fst := by
  induction fields with
  | nil => rfl
  | cons p fields ih =>
    obtain ⟨key, d⟩ := p
    rw [finishFields, List.map_cons, List.map_cons, ih]

/-- Each completed field is a draft's. -/
theorem mem_finishFields {fields : List (String × Draft)} {p : String × Toml}
    (h : p ∈ finishFields fields) : ∃ d, (p.1, d) ∈ fields ∧ p.2 = finishDraft d := by
  induction fields with
  | nil => cases h
  | cons q fields ih =>
    obtain ⟨key, d⟩ := q
    rw [finishFields, List.mem_cons] at h
    rcases h with rfl | h
    · exact ⟨d, List.mem_cons_self, rfl⟩
    · obtain ⟨d', hd', hp⟩ := ih h
      exact ⟨d', List.mem_cons_of_mem _ hd', hp⟩

/-- **A completed draft has each key once.** -/
theorem distinctKeys_finishDraft {d : Draft} (h : d.Distinct) : DistinctKeys (finishDraft d) := by
  induction h with
  | value hv => rwa [finishDraft]
  | table hnodup _ ih =>
    rw [finishDraft]
    refine .table (by rwa [keys_finishFields]) fun p hp => ?_
    obtain ⟨d, hd, hp⟩ := mem_finishFields hp
    rw [hp]
    exact ih _ hd
  | tables =>
    rw [finishDraft]
    exact .plain rfl

theorem distinctKeys_finish {t : DraftTable} (h : AllDistinct t.fields) :
    DistinctKeys (.table t.finish) := by
  have hdraft : DistinctKeys (finishDraft (.table false false t.fields)) :=
    distinctKeys_finishDraft (.table h.nodup h.parts)
  rwa [finishDraft] at hdraft

end DraftTable

/-! ## Values -/

namespace Lexeme

/-- An integer is no table. -/
theorem isTable_integerOf? {negative : Bool} {n : Nat} (h : integerOf? negative n = some v) :
    v.isTable = false := by
  unfold integerOf? at h
  split at h
  · split at h
    · cases h
      rfl
    · cases h
  · split at h
    · cases h
      rfl
    · cases h

/-- Nor however it is written. -/
theorem isTable_integer (h : integer cs = some (v, rest)) : v.isTable = false := by
  have hread : ∀ {negative : Bool} {read : Option (List Nat × List Char)} {base : Nat},
      (read.bind fun r => (integerOf? negative (numberOf base r.1)).bind fun n =>
        some (n, r.2)) = some (v, rest) → v.isTable = false := by
    intro negative read base h
    obtain ⟨⟨ds, cs⟩, -, h⟩ := Option.bind_eq_some_iff.1 h
    obtain ⟨n, hn, h⟩ := Option.bind_eq_some_iff.1 h
    obtain ⟨rfl, -⟩ := Prod.mk.inj (Option.some.inj h)
    exact isTable_integerOf? hn
  unfold integer at h
  split at h <;> exact hread h

/-- A float is none. -/
theorem isTable_decimalFloat (h : decimalFloat cs = some (v, rest)) : v.isTable = false := by
  have hfinite : ∀ {c : Prop} [Decidable c] {x : Double} {cs : List Char},
      (if c then none else some (Toml.float x, cs)) = some (v, rest) → v.isTable = false := by
    intro c _ x cs h
    split at h
    · cases h
    · cases h
      rfl
  obtain ⟨⟨ds, cs⟩, -, h⟩ := Option.bind_eq_some_iff.1 h
  dsimp only at h
  split at h
  · split at h <;> exact hfinite h
  · obtain ⟨⟨fs, e, cs⟩, -, h⟩ := Option.bind_eq_some_iff.1 h
    exact hfinite h

/-- Nor is one that has a name. -/
theorem isTable_namedFloat (h : namedFloat cs = some (v, rest)) : v.isTable = false := by
  unfold namedFloat at h
  split at h
  · cases h
    rfl
  · cases h
    rfl
  · cases h

/-- **What starts with a digit or a sign is no table.** -/
theorem isTable_numeric (h : numeric cs = some (v, rest)) : v.isTable = false := by
  unfold numeric at h
  split at h
  · cases h
    rfl
  · rcases Option.or_eq_some_iff.1 h with h | ⟨-, h⟩
    · exact isTable_decimalFloat h
    · rcases Option.or_eq_some_iff.1 h with h | ⟨-, h⟩
      · exact isTable_namedFloat h
      · exact isTable_integer h

end Lexeme

/-- An array is no table. -/
theorem isTable_items {depth fuel : Nat} {acc : List Toml}
    (h : items depth fuel acc cs = some (v, rest)) : v.isTable = false := by
  induction fuel generalizing acc cs with
  | zero => cases h
  | succ fuel ih =>
    rw [items] at h
    split at h
    · cases h
      rfl
    · obtain ⟨⟨w, cs'⟩, -, h⟩ := Option.bind_eq_some_iff.1 h
      dsimp only at h
      split at h
      · exact ih h
      · cases h
        rfl
      · cases h

/-- **A value that is read has each key once**, and so has the rest of a table
between braces. -/
theorem distinctKeys_value (fuel : Nat) :
    (∀ (depth : Nat) (cs : List Char) (v : Toml) (rest : List Char),
      value depth fuel cs = some (v, rest) → DistinctKeys v) ∧
    ∀ (depth : Nat) (t : DraftTable) (cs : List Char) (v : Toml) (rest : List Char),
      AllDistinct t.fields → pairs depth fuel t cs = some (v, rest) → DistinctKeys v := by
  induction fuel with
  | zero => exact ⟨nofun, nofun⟩
  | succ fuel ih =>
    obtain ⟨ihValue, ihPairs⟩ := ih
    constructor
    · intro depth cs v rest h
      rw [value.eq_def] at h
      dsimp only at h
      split at h
      · split at h
        · exact .plain (isTable_items h)
        · cases h
      · split at h
        · split at h
          · cases h
            exact .table List.nodup_nil (List.forall_mem_nil _)
          · exact ihPairs _ _ _ _ _ .nil h
        · cases h
      · cases h
        exact .plain rfl
      · cases h
        exact .plain rfl
      · split at h
        · cases h
          exact .plain rfl
        · exact .plain (Lexeme.isTable_numeric h)
    · intro depth t cs v rest ht h
      rw [pairs] at h
      obtain ⟨⟨path, last, cs₁⟩, -, h⟩ := Option.bind_eq_some_iff.1 h
      obtain ⟨cs₂, -, h⟩ := Option.bind_eq_some_iff.1 h
      obtain ⟨⟨w, cs₃⟩, hw, h⟩ := Option.bind_eq_some_iff.1 h
      obtain ⟨t', hentered, h⟩ := Option.bind_eq_some_iff.1 h
      have ht' := ht.enter (ihValue _ _ _ _ hw) hentered
      split at h
      · exact ihPairs _ _ _ _ _ ht' h
      · cases h
        exact DraftTable.distinctKeys_finish ht'
      · cases h

/-! ## Lines -/

/-- **A file being read has each key once** in the table above the last header
and in the open one. -/
structure DraftFile.Distinct (f : DraftFile) : Prop where
  root : AllDistinct f.root.fields
  current : AllDistinct f.current.fields

namespace DraftFile

variable {f f' : DraftFile} {t : DraftTable} {path : List String}

/-- The open table takes its place. -/
theorem Distinct.close (h : f.Distinct) (hclose : f.close = some t) : AllDistinct t.fields := by
  unfold DraftFile.close at hclose
  split at hclose
  · exact Option.some.inj hclose ▸ h.current
  · obtain ⟨⟨t', a⟩, halter, rfl⟩ := Option.map_eq_some_iff.1 hclose
    refine h.root.alter_fields (fun parent parent' a hparent heq => ?_) halter
    split at heq
    · split at heq
      · obtain ⟨rfl, -⟩ := Prod.mk.inj (Option.some.inj heq)
        refine hparent.put (Draft.distinct_tables.2 ?_) _
        rw [List.forall_mem_singleton]
        exact h.current
      · next items hget =>
        obtain ⟨rfl, -⟩ := Prod.mk.inj (Option.some.inj heq)
        have hrow := Draft.distinct_tables.1 (hparent.get? hget)
        exact hparent.put (Draft.distinct_tables.2 (List.forall_mem_cons.2 ⟨h.current, hrow⟩)) _
      · cases heq
    · obtain ⟨rfl, -⟩ := Prod.mk.inj (Option.some.inj heq)
      exact hparent.put (Draft.distinct_table.2 h.current) _

/-- A header opens a table. -/
theorem Distinct.openTable (h : f.Distinct) (hopen : f.openTable path = some f') :
    f'.Distinct := by
  obtain ⟨t, hclose, hopen⟩ := Option.bind_eq_some_iff.1 hopen
  obtain ⟨key, -, hopen⟩ := Option.bind_eq_some_iff.1 hopen
  obtain ⟨⟨t', fields⟩, halter, hopen⟩ := Option.bind_eq_some_iff.1 hopen
  have hboth : AllDistinct t'.fields ∧ AllDistinct fields := by
    refine (h.close hclose).alter (fun parent parent' fields hparent heq => ?_) halter
    split at heq
    · obtain ⟨rfl, rfl⟩ := Prod.mk.inj (Option.some.inj heq)
      exact ⟨hparent, .nil⟩
    · next hget =>
      -- what the table has so far is taken out of its parent
      obtain ⟨rfl, rfl⟩ := Prod.mk.inj (Option.some.inj heq)
      exact ⟨hparent.erase key, Draft.distinct_table.1 (hparent.get? hget)⟩
    · cases heq
  rw [← Option.some.inj hopen]
  exact ⟨hboth.1, hboth.2⟩

/-- A header opens one more table of a row. -/
theorem Distinct.openRow (h : f.Distinct) (hopen : f.openRow path = some f') : f'.Distinct := by
  obtain ⟨t, hclose, hopen⟩ := Option.bind_eq_some_iff.1 hopen
  obtain ⟨key, -, hopen⟩ := Option.bind_eq_some_iff.1 hopen
  obtain ⟨⟨t', a⟩, halter, hopen⟩ := Option.bind_eq_some_iff.1 hopen
  have hroot : AllDistinct t'.fields := by
    refine (h.close hclose).alter_fields (fun parent parent' a hparent heq => ?_) halter
    split at heq
    · obtain ⟨rfl, -⟩ := Prod.mk.inj (Option.some.inj heq)
      exact hparent.put (Draft.distinct_tables.2 (List.forall_mem_nil _)) key
    · next hget =>
      obtain ⟨rfl, -⟩ := Prod.mk.inj (Option.some.inj heq)
      exact hparent.put (hparent.get? hget) key
    · cases heq
  rw [← Option.some.inj hopen]
  exact ⟨hroot, .nil⟩

/-- A value is entered into the open table. -/
theorem Distinct.enter (h : f.Distinct) (hv : DistinctKeys v)
    (henter : f.enter path key v = some f') : f'.Distinct := by
  obtain ⟨t, henter, hf⟩ := Option.bind_eq_some_iff.1 henter
  rw [← Option.some.inj hf]
  exact ⟨h.root, h.current.enter hv henter⟩

end DraftFile

variable {f f' : DraftFile}

/-- **One more line** keeps each key once. -/
theorem DraftFile.Distinct.readLine (h : f.Distinct) (hread : readLine f cs = some (f', rest)) :
    f'.Distinct := by
  unfold Toml.readLine at hread
  split at hread
  · cases hread
    exact h
  · obtain ⟨cs', -, hread⟩ := Option.map_eq_some_iff.1 hread
    exact (Prod.mk.inj hread).1 ▸ h
  · obtain ⟨⟨inRow, path, cs₁⟩, -, hread⟩ := Option.bind_eq_some_iff.1 hread
    dsimp only at hread
    split at hread <;> obtain ⟨f₁, hopen, hread⟩ := Option.bind_eq_some_iff.1 hread <;>
      obtain ⟨cs₂, -, hread⟩ := Option.bind_eq_some_iff.1 hread <;>
      rw [← (Prod.mk.inj (Option.some.inj hread)).1]
    · exact h.openRow hopen
    · exact h.openTable hopen
  · split at hread
    · cases hread
      exact h
    · obtain ⟨⟨path, last, cs₁⟩, -, hread⟩ := Option.bind_eq_some_iff.1 hread
      obtain ⟨cs₂, -, hread⟩ := Option.bind_eq_some_iff.1 hread
      obtain ⟨⟨w, cs₃⟩, hw, hread⟩ := Option.bind_eq_some_iff.1 hread
      obtain ⟨f₁, henter, hread⟩ := Option.bind_eq_some_iff.1 hread
      obtain ⟨cs₄, -, hread⟩ := Option.bind_eq_some_iff.1 hread
      rw [← (Prod.mk.inj (Option.some.inj hread)).1]
      exact h.enter ((distinctKeys_value _).1 _ _ _ _ hw) henter

/-- So do all lines. -/
theorem DraftFile.Distinct.readLines {fuel : Nat} (h : f.Distinct)
    (hread : readLines fuel f cs = some f') : f'.Distinct := by
  induction fuel generalizing f cs with
  | zero =>
    cases cs with
    | nil => exact Option.some.inj hread ▸ h
    | cons c cs => cases hread
  | succ fuel ih =>
    cases cs with
    | nil => exact Option.some.inj hread ▸ h
    | cons c cs =>
      obtain ⟨⟨f₁, cs₁⟩, hline, hread⟩ := Option.bind_eq_some_iff.1 hread
      exact ih (h.readLine hline) hread

/-- **Every table that is read has each key once**, and so has every table in
it. -/
theorem parse?_distinctKeys {s : String} (h : parse? s = some fields) :
    DistinctKeys (.table fields) := by
  obtain ⟨f, hread, h⟩ := Option.bind_eq_some_iff.1 h
  obtain ⟨t, hclose, h⟩ := Option.bind_eq_some_iff.1 h
  have hstart : DraftFile.start.Distinct := ⟨.nil, .nil⟩
  rw [← Option.some.inj h]
  exact DraftTable.distinctKeys_finish ((hstart.readLines hread).close hclose)

end Toml

end ClassWeave
