import ClassWeave.Ledger.Basic
import ClassWeave.Proofs.Files.Tree
import ClassWeave.Proofs.Json.Roundtrip
/-!
# Ledger -- the rows of a table

What is kept of a row is read back as that row (`LedgerRow.decode?_encode`),
and a row put for a key is what is looked up for it, and for no other
(`LedgerTable.lookup_put`). Counting names one by one counts each as often
as it occurs (`LedgerTable.tallies_byEnhancer`), in the order of the names.
-/


namespace ClassWeave

/-! ## One row -/

/-- **A row is read back from its text**, whatever its texts hold. -/
@[simp] theorem LedgerRow.decode?_encode (r : LedgerRow) : decode? r.encode = some r := by
  have htexts : ∀ items : List String, (items.map Json.string).mapM Json.text? = some items := by
    intro items
    induction items with
    | nil => rfl
    | cons s items ih => simp [List.mapM_cons, ih, Json.text?]
  rw [decode?, encode, Json.parse?_compact]
  simp [toJson, ofJson?, Json.once?, Json.text?, Json.texts, Json.texts?, htexts, Json.ofNat, Json.nat?]

namespace LedgerTable

variable {table : LedgerTable} {key k : String} {row : LedgerRow}

/-! ## One key -/

/-- **A row put for a key** is what is looked up for it, and all others are
as they were. -/
theorem lookup_put (table : LedgerTable) (key : String) (row : LedgerRow) (k : String) :
    (table.put key row).lookup k = if k = key then some row.encode else table.lookup k :=
  FileTree.lookup_cons_filter_ne table key row.encode k

theorem nodup_put (h : (table.map Prod.fst).Nodup) (key : String) (row : LedgerRow) :
    ((table.put key row).map Prod.fst).Nodup :=
  FileTree.nodup_cons_filter_ne h _ _

/-- **Where keys are there once**, the rows are those that are looked up for
them. -/
theorem rows_eq (h : (table.map Prod.fst).Nodup) :
    table.rows = (table.map Prod.fst).filterMap fun key => (table.lookup key).bind LedgerRow.decode? := by
  have hlookup : ∀ p ∈ table, table.lookup p.1 = some p.2 := by
    intro p hp
    obtain ⟨before, behind, hsplit⟩ := List.append_of_mem hp
    refine List.lookup_eq_some_iff.2 ⟨before, behind, hsplit, fun q hq => ?_⟩
    rw [hsplit, List.map_append, List.nodup_append] at h
    exact bne_iff_ne.2 fun heq =>
      h.2.2 q.1 (List.mem_map_of_mem hq) p.1 (List.mem_map_of_mem List.mem_cons_self) heq.symm
  rw [rows, List.filterMap_map]
  exact List.filterMap_congr fun p hp => by simp [hlookup p hp]

/-! ## Counting -/

/-- Numbers for names, in order. -/
abbrev Ordered (counts : List (String × Nat)) : Prop := counts.Pairwise fun p q => p.1 < q.1

variable {counts : List (String × Nat)} {name : String}

/-- Counting a name adds no other. -/
theorem mem_countOne {p : String × Nat} (h : p ∈ countOne name counts) :
    p.1 = name ∨ ∃ q ∈ counts, p.1 = q.1 := by
  induction counts with
  | nil => exact .inl (congrArg Prod.fst (List.mem_singleton.1 h))
  | cons q counts ih =>
    obtain ⟨other, n⟩ := q
    rw [countOne] at h
    split at h
    · rcases List.mem_cons.1 h with rfl | h
      · exact .inr ⟨_, List.mem_cons_self, rfl⟩
      · exact .inr ⟨p, List.mem_cons_of_mem _ h, rfl⟩
    · split at h
      · rcases List.mem_cons.1 h with rfl | h
        · exact .inl rfl
        · exact .inr ⟨p, h, rfl⟩
      · rcases List.mem_cons.1 h with rfl | h
        · exact .inr ⟨_, List.mem_cons_self, rfl⟩
        · rcases ih h with heq | ⟨q, hq, heq⟩
          · exact .inl heq
          · exact .inr ⟨q, List.mem_cons_of_mem _ hq, heq⟩

/-- Counting a name keeps the order. -/
theorem ordered_countOne (h : Ordered counts) (name : String) : Ordered (countOne name counts) := by
  induction counts with
  | nil => exact List.pairwise_singleton _ _
  | cons q counts ih =>
    obtain ⟨other, n⟩ := q
    obtain ⟨hhead, htail⟩ := List.pairwise_cons.1 h
    rw [countOne]
    split
    · exact List.pairwise_cons.2 ⟨hhead, htail⟩
    next hne =>
    split
    · next hlt =>
      refine List.pairwise_cons.2 ⟨fun q hq => ?_, h⟩
      rcases List.mem_cons.1 hq with rfl | hq
      · exact hlt
      · exact String.lt_trans hlt (hhead q hq)
    · next hge =>
      refine List.pairwise_cons.2 ⟨fun q hq => ?_, ih htail⟩
      rcases mem_countOne hq with heq | ⟨q', hq', heq⟩
      · rw [heq]
        exact Std.lt_of_le_of_ne (String.not_lt.1 hge) (Ne.symm hne)
      · rw [heq]
        exact hhead q' hq'

/-- **Counting a name adds one to its number**, and to no other. -/
theorem lookup_countOne (h : Ordered counts) (name other : String) :
    (countOne name counts).lookup other =
      if other = name then some ((counts.lookup name).getD 0 + 1) else counts.lookup other := by
  induction counts with
  | nil => rw [countOne, FileTree.lookup_cons_ite]; simp
  | cons q counts ih =>
    obtain ⟨first, n⟩ := q
    obtain ⟨hhead, htail⟩ := List.pairwise_cons.1 h
    rw [countOne]
    split
    · next hfirst =>
      subst hfirst
      rw [FileTree.lookup_cons_ite, FileTree.lookup_cons_ite, FileTree.lookup_cons_ite,
        if_pos rfl]
      by_cases hother : other = name <;> simp [hother]
    next hne =>
    split
    · next hlt =>
      -- all names that are counted come behind this one
      have hnone : ((first, n) :: counts).lookup name = none := by
        rw [List.lookup_eq_none_iff]
        intro p hp
        rw [bne_iff_ne]
        rintro rfl
        rcases List.mem_cons.1 hp with rfl | hp
        · exact hne rfl
        · exact String.lt_irrefl _ (String.lt_trans hlt (hhead p hp))
      rw [hnone, FileTree.lookup_cons_ite, Option.getD_none]
    · rw [FileTree.lookup_cons_ite, FileTree.lookup_cons_ite, FileTree.lookup_cons_ite, ih htail,
        if_neg hne]
      by_cases hother : other = first
      · have hother' : other ≠ name := fun heq => hne (heq.symm.trans hother)
        rw [if_pos hother, if_neg hother', if_pos hother]
      · rw [if_neg hother, if_neg hother]

/-- Numbers that count the names of a list: each name that is there, with
how often it is, in order. -/
structure Tallies (counts : List (String × Nat)) (names : List String) : Prop where
  ordered : Ordered counts
  lookup : ∀ name, counts.lookup name =
    if names.count name = 0 then none else some (names.count name)

/-- One more name is counted. -/
theorem Tallies.countOne {names : List String} (h : Tallies counts names) (name : String) :
    Tallies (countOne name counts) (names ++ [name]) where
  ordered := ordered_countOne h.ordered name
  lookup other := by
    rw [lookup_countOne h.ordered, h.lookup, h.lookup, List.count_append]
    by_cases hother : other = name
    · subst hother
      by_cases hzero : names.count other = 0 <;> simp [hzero]
    · simp [hother, Ne.symm hother]

/-- **The passes of the rows are counted as often as they occur.** -/
theorem tallies_byEnhancer (table : LedgerTable) :
    Tallies table.byEnhancer (table.rows.flatMap LedgerRow.enhancers) := by
  have hfold : ∀ (names seen : List String) (counts : List (String × Nat)), Tallies counts seen →
      Tallies (names.foldl (fun counts name => LedgerTable.countOne name counts) counts)
        (seen ++ names) := by
    intro names
    induction names with
    | nil => exact fun seen counts h => by rwa [List.append_nil]
    | cons name names ih =>
      intro seen counts h
      rw [List.append_cons]
      exact ih _ _ (h.countOne name)
  exact hfold _ [] [] ⟨List.Pairwise.nil, fun name => by simp⟩

end LedgerTable

end ClassWeave
