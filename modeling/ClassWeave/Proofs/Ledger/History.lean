import ClassWeave.Proofs.Files.OsPath
import ClassWeave.Proofs.Ledger.Reopening
import ClassWeave.Proofs.Ledger.Rows
import ClassWeave.Proofs.Processor
import Mathlib.Data.List.Dedup
/-!
# Ledger -- what a history leaves

A ledger is recorded in, closed and opened again, in any order
(`Ledger.Step`), for outputs with any octets in their paths. What it holds
afterwards is told by the rows that were recorded, each with the absolute
path of its output as it reads: the row of an output is the last one recorded
for a path that reads so, and the statistics are about the last rows alone
(`Ledger.run_eq`). A step keeps a table in keeping with the rows recorded so
far (`Keeps.put`), and reopening finds the same table.

Paths that are text read as they are, so different ones have rows of their
own. Those that are no text may read alike, and then share one
(`Ledger.run_illegible`).
-/


namespace ClassWeave

namespace Ledger

/-! ## Histories -/

/-- What is done with a ledger. -/
inductive Step where
  | record (output : OsPath) (row : LedgerRow)
  /-- The ledger is closed, and opened again by the path it was opened by. -/
  | reopen

/-- A workspace and the ledger in it after a step; `held` are the locations
of the ledgers that others have open. -/
def step (held : List Location) (s : Workspace × Ledger) : Step → Except LedgerError (Workspace × Ledger)
  | .record output row => (s.2.record s.1 output row).map fun w => (w, s.2)
  | .reopen =>
    match Ledger.open? s.1 held s.2.path with
    | (w, .ok l) => .ok (w, l)
    | (_, .error e) => .error e

/-- A workspace and the ledger in it after steps. -/
def run (held : List Location) (s : Workspace × Ledger) (steps : List Step) :
    Except LedgerError (Workspace × Ledger) :=
  steps.foldlM (step held) s

/-- The rows that steps record, each with the absolute path of its output as
it reads. -/
def recorded (home : OsPath) (steps : List Step) : List (String × LedgerRow) :=
  steps.filterMap fun
    | .record output row => (output.absolute? home).map fun p => (p.lossy, row)
    | .reopen => none

/-- The last row recorded for an absolute path that reads so. -/
def lastRow? (records : List (String × LedgerRow)) (text : String) : Option LedgerRow :=
  records.reverse.lookup text

/-- How the paths read that rows were recorded for, each reading once. -/
def readings (records : List (String × LedgerRow)) : List String := (records.map Prod.fst).dedup

/-- The rows that were not replaced: the last one of each reading. -/
def current (records : List (String × LedgerRow)) : List LedgerRow :=
  (readings records).filterMap (lastRow? records)

/-- Whether the absolute path of an output is there and can be a key, as it
reads. -/
def HasKey (home output : OsPath) : Prop :=
  ∃ p, output.absolute? home = some p ∧ 1 ≤ (Utf8.encode p.lossy).length ∧
    (Utf8.encode p.lossy).length ≤ 511

instance decidableHasKey (home output : OsPath) : Decidable (HasKey home output) :=
  decidable_of_iff ((output.absolute? home).any fun p =>
      decide (1 ≤ (Utf8.encode p.lossy).length ∧ (Utf8.encode p.lossy).length ≤ 511))
    (by simp [HasKey, Option.any_eq_true])

end Ledger

open Ledger

namespace LedgerTable

variable {home output p : OsPath} {table : LedgerTable} {records : List (String × LedgerRow)}
  {text : String}

/-- The key of an output is its absolute path as it reads. -/
theorem key?_eq (hp : output.absolute? home = some p) (hkey : HasKey home output) :
    key? home output = some p.lossy := by
  obtain ⟨q, hq, hsize⟩ := hkey
  obtain rfl := Option.some.inj (hp.symm.trans hq)
  rw [key?, hp, Option.getD_some]
  exact if_pos hsize

/-- Something is looked up for the keys that are there, and for no other. -/
theorem isSome_lookup {α β : Type} [BEq α] [LawfulBEq α] {entries : List (α × β)} {key : α} :
    (entries.lookup key).isSome ↔ key ∈ entries.map Prod.fst := by
  rw [Option.isSome_iff_ne_none, ne_eq, List.lookup_eq_none_iff, List.mem_map]
  constructor
  · intro h
    by_contra hnot
    refine h fun p hp => bne_iff_ne.2 fun heq => hnot ⟨p, hp, heq.symm⟩
  · rintro ⟨p, hp, rfl⟩ h
    exact bne_iff_ne.1 (h p hp) rfl

theorem isSome_lastRow? : (lastRow? records text).isSome ↔ text ∈ readings records := by
  rw [lastRow?, isSome_lookup, readings, List.mem_dedup, List.map_reverse, List.mem_reverse]

/-- One more row is the last one of its reading. -/
theorem lastRow?_concat (records : List (String × LedgerRow)) (text : String) (row : LedgerRow)
    (other : String) :
    lastRow? (records ++ [(text, row)]) other =
      if other = text then some row else lastRow? records other := by
  rw [lastRow?, List.reverse_append, List.reverse_singleton, List.singleton_append, List.lookup_cons]
  by_cases h : other = text
  · simp [h]
  · rw [beq_eq_false_iff_ne.2 h, if_neg h, lastRow?]

/-- **What a table keeps**: for each reading the last row recorded for it, and
each key once. -/
structure Keeps (table : LedgerTable) (records : List (String × LedgerRow)) : Prop where
  nodup : (table.map Prod.fst).Nodup
  lookup : ∀ text, table.lookup text = (lastRow? records text).map LedgerRow.encode

theorem keeps_nil : Keeps [] [] := ⟨List.nodup_nil, fun _ => rfl⟩

/-- **A row that is put is the last one of its reading.** -/
theorem Keeps.put (h : Keeps table records) (text : String) (row : LedgerRow) :
    Keeps (table.put text row) (records ++ [(text, row)]) where
  nodup := nodup_put h.nodup _ _
  lookup other := by
    rw [lookup_put, lastRow?_concat, h.lookup]
    split
    · rw [Option.map_some]
    · rfl

theorem Keeps.keys_perm (h : Keeps table records) :
    (table.map Prod.fst).Perm (readings records) := by
  refine (List.perm_ext_iff_of_nodup h.nodup (List.nodup_dedup _)).2 fun key => ?_
  rw [← isSome_lookup, h.lookup, Option.isSome_map, isSome_lastRow?, readings]

/-- **The rows are the current ones**, in some order. -/
theorem Keeps.rows_perm (h : Keeps table records) : table.rows.Perm (current records) := by
  rw [rows_eq h.nodup, current]
  refine (h.keys_perm.filterMap _).trans (List.Perm.of_eq ?_)
  refine List.filterMap_congr fun text _ => ?_
  rw [h.lookup]
  cases lastRow? records text <;> simp

theorem max?_perm {xs ys : List Nat} (h : xs.Perm ys) : xs.max? = ys.max? := by
  refine Option.ext fun n => ?_
  rw [List.max?_eq_some_iff, List.max?_eq_some_iff, h.mem_iff]
  exact and_congr_right fun _ => forall_congr' fun m => by rw [h.mem_iff]

end LedgerTable

namespace Ledger

variable {w w₀ w' : Workspace} {l : Ledger} {held : List Location} {path : Path}
  {output p : OsPath} {records : List (String × LedgerRow)}

theorem table_putTable (w : Workspace) (loc : Location) (table : LedgerTable) :
    (w.putTable loc table).table loc = table := by
  rw [Workspace.table, Workspace.putTable, List.lookup_cons, beq_self_eq_true]
  rfl

/-- **The state of a ledger after a history**: it was opened in the files
that are there, and its rows are those recorded. -/
structure After (w : Workspace) (l : Ledger) (held : List Location)
    (records : List (String × LedgerRow)) : Prop where
  opened : Opened w.files l.path l.location
  unheld : l.location ∉ held
  keeps : (w.table l.location).Keeps records

theorem after_of_open? (hopen : Ledger.open? w₀ held path = (w, .ok l))
    (hempty : w.table l.location = []) : After w l held [] := by
  obtain ⟨hpath, hheld, hopened⟩ := open?_ok hopen
  exact ⟨hpath ▸ hopened, hheld, hempty ▸ LedgerTable.keeps_nil⟩

/-- What is got for an output is the last row of its reading. -/
theorem After.get (h : After w l held records) (hp : output.absolute? w.home = some p)
    (hkey : HasKey w.home output) : l.get w output = .ok (lastRow? records p.lossy) := by
  rw [Ledger.get, LedgerTable.key?_eq hp hkey]
  simp only [h.keeps.lookup]
  cases lastRow? records p.lossy <;> simp

/-- The units are the readings. -/
theorem After.units (h : After w l held records) :
    (l.stats w).units = (readings records).length := by
  have hkeys := h.keeps.keys_perm.length_eq
  rwa [List.length_map] at hkeys

/-- **A step goes well**, and the files are as they were. -/
theorem After.step (h : After w l held records) (s : Step)
    (hs : ∀ output row, s = .record output row → HasKey w.home output) :
    ∃ w', Ledger.step held (w, l) s = .ok (w', l) ∧ w'.files = w.files ∧
      After w' l held (records ++ recorded w.home [s]) := by
  rcases s with ⟨output, row⟩ | _
  · -- a row is put
    obtain ⟨p, hp, hsize⟩ := hs output row rfl
    refine ⟨w.putTable l.location ((w.table l.location).put p.lossy row), ?_, rfl, h.opened, h.unheld,
      ?_⟩
    · rw [Ledger.step, Ledger.record, LedgerTable.key?_eq hp ⟨p, hp, hsize⟩]
      rfl
    · rw [table_putTable]
      simpa [recorded, hp] using h.keeps.put p.lossy row
  · refine ⟨w, ?_, rfl, h.opened, h.unheld, by simpa [recorded] using h.keeps⟩
    rw [Ledger.step]
    simp only [h.opened.open? h.unheld]

/-- **So does a history.** -/
theorem After.run (h : After w l held records) (steps : List Step)
    (hsteps : ∀ output row, .record output row ∈ steps → HasKey w.home output) :
    ∃ w', Ledger.run held (w, l) steps = .ok (w', l) ∧ w'.files = w.files ∧
      After w' l held (records ++ recorded w.home steps) := by
  induction steps generalizing w records with
  | nil => exact ⟨w, rfl, rfl, by simpa [recorded] using h⟩
  | cons s steps ih =>
    obtain ⟨w₁, hstep, hfiles, h₁⟩ := h.step s fun output row hs =>
      hsteps output row (hs ▸ List.mem_cons_self)
    have hhome : w₁.home = w.home := by rw [Workspace.home, hfiles, Workspace.home]
    obtain ⟨w₂, hrun, hfiles₂, h₂⟩ := ih h₁ fun output row hmem =>
      hhome ▸ hsteps output row (List.mem_cons_of_mem _ hmem)
    refine ⟨w₂, ?_, hfiles₂.trans hfiles, ?_⟩
    · rw [Ledger.run, List.foldlM_cons, hstep]
      exact hrun
    · rw [hhome, List.append_assoc] at h₂
      have hsplit : recorded w.home (s :: steps) = recorded w.home [s] ++ recorded w.home steps := by
        rw [recorded, ← List.singleton_append, List.filterMap_append]
        rfl
      rwa [hsplit]

/-- **A ledger is a map in which the last row stays, with statistics about
what it holds.** From a ledger that was opened without rows, any history of
rows recorded and of closing and opening again goes well, whatever octets are
in the paths of the outputs, provided that they have absolute paths that take
1 to 511 octets as they read. Afterwards the row of an output is the last one
recorded for an absolute path that reads as its own does, or none; the units
are the readings recorded for, and the passes and the time are about the rows
that were not replaced. Paths that are text read as they are. -/
theorem run_eq (hopen : Ledger.open? w₀ held path = (w, .ok l)) (hempty : w.table l.location = [])
    (steps : List Step) (hsteps : ∀ output row, .record output row ∈ steps → HasKey w.home output) :
    ∃ w', Ledger.run held (w, l) steps = .ok (w', l) ∧
      (∀ output p, OsPath.absolute? output w.home = some p → HasKey w.home output →
        l.get w' output = .ok (lastRow? (recorded w.home steps) p.lossy)) ∧
      (l.stats w').units = (readings (recorded w.home steps)).length ∧
      (l.stats w').byEnhancer.Pairwise (fun a b => a.1 < b.1) ∧
      (∀ id, (l.stats w').byEnhancer.lookup id =
        let n := ((current (recorded w.home steps)).flatMap LedgerRow.enhancers).count id
        if n = 0 then none else some n) ∧
      (l.stats w').lastRecordedAt =
        ((current (recorded w.home steps)).map LedgerRow.recordedAt).max? ∧
      ∀ p : Path, (p : OsPath).lossy = p.text ∧
        OsPath.absolute? p w.home = (p.absolute? w.home).map OsPath.ofPath := by
  obtain ⟨w', hrun, hfiles, h⟩ := (after_of_open? hopen hempty).run steps hsteps
  rw [List.nil_append] at h
  have hhome : w'.home = w.home := by rw [Workspace.home, hfiles, Workspace.home]
  have hrows := h.keeps.rows_perm
  refine ⟨w', hrun, fun output p hp hkey => ?_, h.units, ?_, fun id => ?_, ?_, fun p => ?_⟩
  · exact h.get (hhome ▸ hp) (hhome ▸ hkey)
  · exact (LedgerTable.tallies_byEnhancer _).ordered
  · refine ((LedgerTable.tallies_byEnhancer _).lookup id).trans ?_
    rw [(hrows.flatMap_right LedgerRow.enhancers).count_eq id]
  · exact LedgerTable.max?_perm (hrows.map _)
  · exact ⟨OsPath.lossy_ofPath p, OsPath.absolute?_ofPath p w.home⟩

/-- A row of one pass, recorded at a time. -/
def sampleRow (time : Nat) : LedgerRow := ⟨"A\"\n", "1", "2", ["tag@1"], time⟩

/-- Two rows for one path that is spelled in two ways, and, once the ledger
was opened again, one for another path. -/
def sampleSteps : List Step :=
  [.record (Path.mk "/a") (sampleRow 9), .record (Path.mk ".//a") (sampleRow 5), .reopen,
    .record (Path.mk "/b/c") (sampleRow 7)]

/-- A ledger is opened at `/l`, where nothing is yet. -/
theorem open?_bare : Ledger.open? Processor.bareWorkspace [] ⟨"/l"⟩ =
    ((Ledger.open? Processor.bareWorkspace [] ⟨"/l"⟩).1, .ok ⟨⟨"/l"⟩, ["l"]⟩) :=
  Prod.ext rfl (by decide +kernel)

theorem home_open?_bare : (Ledger.open? Processor.bareWorkspace [] ⟨"/l"⟩).1.home = ⟨"/"⟩ := by
  decide +kernel

/-- What is recorded in it is kept. -/
theorem after_bare (records : List (OsPath × LedgerRow))
    (hkeys : ∀ r ∈ records, HasKey (Path.mk "/") r.1) :
    ∃ w', Ledger.run [] ((Ledger.open? Processor.bareWorkspace [] ⟨"/l"⟩).1, ⟨⟨"/l"⟩, ["l"]⟩)
        (records.map fun r => .record r.1 r.2) = .ok (w', ⟨⟨"/l"⟩, ["l"]⟩) ∧ w'.home = ⟨"/"⟩ ∧
      After w' ⟨⟨"/l"⟩, ["l"]⟩ []
        (recorded (Path.mk "/") (records.map fun r => .record r.1 r.2)) := by
  have hafter := after_of_open? open?_bare (by decide +kernel)
  obtain ⟨w', hrun, hfiles, h⟩ := hafter.run (records.map fun r => .record r.1 r.2) (by
    rw [home_open?_bare]
    intro output row hmem
    obtain ⟨r, hr, heq⟩ := List.mem_map.1 hmem
    obtain ⟨rfl, -⟩ := Step.record.inj heq
    exact hkeys r hr)
  rw [home_open?_bare] at h
  exact ⟨w', hrun, by rw [Workspace.home, hfiles]; exact home_open?_bare, h⟩

/-- **Two spellings of one path share a row**, also for a ledger that is
opened again: the later row is got by either, and counts alone. -/
theorem run_eq_aliased :
    ∃ w l w', Ledger.open? Processor.bareWorkspace [] ⟨"/l"⟩ = (w, .ok l) ∧
      Ledger.run [] (w, l) sampleSteps = .ok (w', l) ∧
      l.get w' (Path.mk "a") = .ok (some (sampleRow 5)) ∧ l.get w' (Path.mk "/d") = .ok none ∧
      (l.stats w').units = 2 ∧ (l.stats w').byEnhancer.lookup "tag@1" = some 2 ∧
      (l.stats w').lastRecordedAt = some 7 := by
  have hsteps : ∀ output row, .record output row ∈ sampleSteps → HasKey (Path.mk "/") output := by
    intro output row hmem
    simp only [sampleSteps, List.mem_cons, Step.record.injEq, reduceCtorEq, List.not_mem_nil,
      or_false, false_or] at hmem
    obtain ⟨rfl, -⟩ | ⟨rfl, -⟩ | ⟨rfl, -⟩ := hmem <;> decide +kernel
  obtain ⟨w', hrun, hget, hunits, -, hcounts, htime, -⟩ :=
    run_eq open?_bare (by decide +kernel) sampleSteps (home_open?_bare ▸ hsteps)
  rw [home_open?_bare] at hget hunits hcounts htime
  refine ⟨_, _, w', open?_bare, hrun, ?_, ?_, ?_, ?_, ?_⟩
  · rw [hget _ (Path.mk "/a") (by decide +kernel) (by decide +kernel)]
    decide +kernel
  · rw [hget _ (Path.mk "/d") (by decide +kernel) (by decide +kernel)]
    decide +kernel
  · rw [hunits]
    decide +kernel
  · rw [hcounts]
    decide +kernel
  · rw [htime]
    decide +kernel

/-- A path of one octet that is no character, below the root. -/
def illegible (octet : UInt8) : OsPath := ⟨[0x2F, octet]⟩

/-- **Paths that are no text share a row where they read alike**, though their
absolute paths are different and short; and paths that are the same do not,
if one of them has a slash more in front. -/
theorem run_illegible :
    ∃ w l, Ledger.open? Processor.bareWorkspace [] ⟨"/l"⟩ = (w, .ok l) ∧
      (illegible 0xFF).absolute? w.home = some (illegible 0xFF) ∧
      (illegible 0xFE).absolute? w.home = some (illegible 0xFE) ∧
      illegible 0xFF ≠ illegible 0xFE ∧
      (∃ w', Ledger.run [] (w, l) [.record (illegible 0xFF) (sampleRow 5)] = .ok (w', l) ∧
        l.get w' (illegible 0xFE) = .ok (some (sampleRow 5))) ∧
      (∃ w', Ledger.run [] (w, l)
          [.record (illegible 0xFF) (sampleRow 5), .record (illegible 0xFE) (sampleRow 7)] =
            .ok (w', l) ∧ (l.stats w').units = 1) ∧
      (⟨"//a"⟩ : Path).same ⟨"/a"⟩ = true ∧
      ∃ w', Ledger.run [] (w, l) [.record (Path.mk "//a") (sampleRow 5)] = .ok (w', l) ∧
        l.get w' (Path.mk "/a") = .ok none := by
  have hkeys : HasKey (Path.mk "/") (illegible 0xFF) ∧ HasKey (Path.mk "/") (illegible 0xFE) ∧
      HasKey (Path.mk "/") (Path.mk "//a") ∧ HasKey (Path.mk "/") (Path.mk "/a") := by
    decide +kernel
  obtain ⟨hkey, hkey', hslashes, hslash⟩ := hkeys
  refine ⟨_, _, open?_bare, ?_⟩
  rw [home_open?_bare]
  refine ⟨by decide +kernel, by decide +kernel, by decide, ?_, ?_, by decide +kernel, ?_⟩
  · obtain ⟨w', hrun, hhome, h⟩ := after_bare [(illegible 0xFF, sampleRow 5)]
      (List.forall_mem_singleton.2 hkey)
    refine ⟨w', hrun, ?_⟩
    rw [h.get (p := illegible 0xFE) (by rw [hhome]; decide +kernel) (by rw [hhome]; exact hkey')]
    decide +kernel
  · obtain ⟨w', hrun, -, h⟩ := after_bare
      [(illegible 0xFF, sampleRow 5), (illegible 0xFE, sampleRow 7)]
      (List.forall_mem_cons.2 ⟨hkey, List.forall_mem_singleton.2 hkey'⟩)
    refine ⟨w', hrun, ?_⟩
    rw [h.units]
    decide +kernel
  · obtain ⟨w', hrun, hhome, h⟩ := after_bare [(Path.mk "//a", sampleRow 5)]
      (List.forall_mem_singleton.2 hslashes)
    refine ⟨w', hrun, ?_⟩
    rw [h.get (p := Path.mk "/a") (by rw [hhome]; decide +kernel) (by rw [hhome]; exact hslash)]
    decide +kernel

end Ledger

end ClassWeave
