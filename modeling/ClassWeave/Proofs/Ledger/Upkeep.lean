import ClassWeave.Ledger.Store
import ClassWeave.Proofs.Files.Absolute
import ClassWeave.Proofs.Files.OsPath
import ClassWeave.Proofs.Ledger.Rows
import ClassWeave.Proofs.Processor
import ClassWeave.Proofs.Processor.Commits
/-!
# Ledger -- kept up with the files

A ledger is kept up with a tree without links (`Ledger.Upkeep`) if each row
is filed under the absolute path of a file that has the digest in the row,
and says what was committed last to that file (`Ledger.Filed`). Processing a
unit whose output is a class file below a destination keeps it up, whatever
comes of it (`Upkeep.process`): the file is written before the row is, and
what the row says is what was written, unless the path is too long for a
key; then there was no row for the file.

All of that is about destinations that start alike. With two slashes in
front a path is another key of the same file.
-/


namespace ClassWeave

namespace Ledger

open FileTree ClassWeave.Path

variable {loc : Location} {twice : Bool} {w w' : Workspace} {commits commits' : List Commit}
  {t t' : FileTree} {key : String} {row : LedgerRow} {place place' draft : Location} {out : Bytes}
  {done : Prop} {p : Processor} {u : ClassUnit} {l : Ledger} {q : Path}

/-- **A row that is filed under a place**: the key is the path of the place,
a file is there that has the digest in the row, and the row says what was
committed last to it. -/
structure Filed (t : FileTree) (twice : Bool) (commits : List Commit) (key : String) (row : LedgerRow)
    (place : Location) : Prop where
  spelling : key = (spelled twice place).text
  size : 1 ≤ (Utf8.encode key).length ∧ (Utf8.encode key).length ≤ 511
  fit : Fit place
  below : place ≠ []
  undrafted : ¬ IsDraft place
  file : ∃ bytes, t.entry? place = some (.file bytes) ∧ row.outputSha256 = Bytes.sha256Hex bytes
  commit : ∃ c, Commit.last? commits place = some c ∧ c.Says row

/-- **A ledger that is kept up** with the files: each row is read, and filed
under some place. -/
structure Upkeep (loc : Location) (twice : Bool) (w : Workspace) (commits : List Commit) : Prop where
  plain : w.files.Plain
  filed : ∀ entry ∈ w.table loc, ∃ row place, LedgerRow.decode? entry.2 = some row ∧
    Filed w.files twice commits entry.1 row place

namespace Filed

theorem path_eq (h : Filed t twice commits key row place) : (⟨key⟩ : Path) = spelled twice place :=
  ext_text h.spelling

theorem absolute? (h : Filed t twice commits key row place) (home : Path) :
    (⟨key⟩ : Path).absolute? home = some ⟨key⟩ := by
  rw [h.path_eq]
  exact absolute?_spelled twice (fun n hn => (h.fit n hn).1) h.below

theorem read (h : Filed t twice commits key row place) (hplain : t'.Plain) {bytes : Bytes} :
    t'.read ⟨key⟩ = .ok bytes ↔ t'.entry? place = some (.file bytes) := by
  have hsize := h.size
  rw [h.spelling] at hsize
  rw [h.path_eq]
  exact hplain.read_spelled twice h.fit h.below (by omega)

/-- The key leads to the place. -/
theorem resolve (h : Filed t twice commits key row place) (hplain : t.Plain) :
    t.resolve true ⟨key⟩ = .ok place := by
  obtain ⟨bytes, hentry, -⟩ := h.file
  obtain ⟨r, hresolve, -⟩ := read_eq_ok.1 ((h.read hplain).2 hentry)
  have hleads := hresolve
  rw [h.path_eq, (hplain.heads_spelled twice h.fit h.below).resolve] at hleads
  split at hleads
  · cases hleads
  · rw [hresolve, (descend_ok.1 hleads).1, List.nil_append]

/-- It stays filed while its file does, and nothing more is committed to it. -/
theorem mono (h : Filed t twice commits key row place)
    (hfile : ∀ bytes, t.entry? place = some (.file bytes) → t'.entry? place = some (.file bytes))
    (hcommits : Commit.last? commits' place = Commit.last? commits place) :
    Filed t' twice commits' key row place :=
  { h with
    file := by
      obtain ⟨bytes, hentry, hdigest⟩ := h.file
      exact ⟨bytes, hfile bytes hentry, hdigest⟩
    commit := by
      rw [hcommits]
      exact h.commit }

/-- So it does while another output is written. -/
theorem beside (h : Filed t twice commits key row place)
    (hover : Overwritten t t' place' draft out done) (hdraft : IsDraft draft)
    (hplace : done → place ≠ place')
    (hcommits : Commit.last? commits' place = Commit.last? commits place) :
    Filed t' twice commits' key row place := by
  refine h.mono (fun bytes hentry => hover.kept hentry ?_ hplace) hcommits
  rintro rfl
  exact h.undrafted hdraft

end Filed

/-! ## What is processed -/

/-- **The path of an output**: that of a class file below a destination. The
destination has no step up, and starts with two slashes or does not. -/
def IsOutput (twice : Bool) (q : Path) : Prop :=
  ∃ (d : Path) (names : List String), ['.', '.'] ∉ d.segments ∧ d.opensTwice = twice ∧ names ≠ [] ∧
    (∀ n ∈ names, IsName n) ∧ (Scan.relativePath names).extension? = some "class" ∧
    q = d.join (Scan.relativePath names)

/-- **An output that is in its place**: its path leads there, and the absolute
path is that of the place. -/
structure Placed (t : FileTree) (twice : Bool) (q : Path) (place : Location) : Prop where
  fit : Fit place
  below : place ≠ []
  undrafted : ¬ IsDraft place
  resolves : t.resolve true q = .ok place
  absolute : ∀ w : Workspace, w.files = t → q.absolute? w.home = some (spelled twice place)

/-- **What writing an output comes to** in a tree without links: it is in its
place, or the writing went wrong, and all else but what was drafted stays. -/
theorem IsOutput.writeWhole {r : Except Fault Unit} (hout : IsOutput twice q) (hplain : t.Plain)
    (hwrite : t.writeWhole q out = (t', r)) :
    t'.Plain ∧ ∃ place draft, IsDraft draft ∧ Overwritten t t' place draft out (r = .ok ()) ∧
      (r = .ok () → Placed t' twice q place) := by
  obtain ⟨d, names, hup, rfl, hne, hnames, hclass, rfl⟩ := hout
  obtain ⟨above, n, rfl⟩ := (List.eq_nil_or_concat' names).resolve_left hne
  obtain ⟨t₁, r₁, hwrite₁, hplain₁, hover, hok⟩ := hplain.writeWhole hup hnames out
  obtain ⟨rfl, rfl⟩ := Prod.mk.inj (hwrite₁.symm.trans hwrite)
  refine ⟨hplain₁, _, _, ⟨t.startOf d ++ (namesIn d.lead ++ above), n, hnames n (by simp), ?_⟩, hover,
    fun hr => ?_⟩
  · simp [FileTree.placeOf]
  obtain ⟨hnul, hfit, hresolve⟩ := hok hr
  have hplaceOf : t₁.placeOf d (above ++ [n]) = t.placeOf d (above ++ [n]) := by
    rw [FileTree.placeOf, startOf, hover.home, ← startOf, FileTree.placeOf]
  refine ⟨hfit, by simp [FileTree.placeOf], fun hdraft => ?_, hresolve, fun w hfiles => ?_⟩
  · rw [FileTree.placeOf, ← List.append_assoc] at hdraft
    rw [Scan.extension?_isDraft hnames hne hdraft] at hclass
    exact absurd hclass (by decide)
  · rw [hplain₁.absolute?_output hfiles hup hnul hnames hne, hplaceOf]

theorem table_congr (h : w'.ledgers = w.ledgers) : w'.table loc = w.table loc := by
  rw [Workspace.table, h, Workspace.table]

/-- A ledger is kept up where files and rows stay. -/
theorem Upkeep.same (h : Upkeep loc twice w commits) (hfiles : w'.files = w.files)
    (hledgers : w'.ledgers = w.ledgers) : Upkeep loc twice w' commits := by
  refine ⟨hfiles ▸ h.plain, fun entry hentry => ?_⟩
  rw [table_congr hledgers] at hentry
  rw [hfiles]
  exact h.filed entry hentry

/-- **What recording an output does to the rows**: one is put for the path of
its place, if that is short enough for a key. -/
theorem table_record (hledger : p.ledger = some l) (w : Workspace) (u : ClassUnit)
    (receipt : CommitReceipt) (h : Placed w.files twice receipt.path place) :
    (p.record w u receipt).table l.location =
      let key := (spelled twice place).text
      if 1 ≤ (Utf8.encode key).length ∧ (Utf8.encode key).length ≤ 511 then
        (w.table l.location).put key (p.rowOf w u receipt)
      else w.table l.location := by
  have hkey : LedgerTable.key? w.home receipt.path =
      let key := (spelled twice place).text
      if 1 ≤ (Utf8.encode key).length ∧ (Utf8.encode key).length ≤ 511 then some key else none := by
    rw [LedgerTable.key?, OsPath.absolute?_ofPath, h.absolute w rfl, Option.map_some,
      Option.getD_some, OsPath.lossy_ofPath]
  by_cases hsize : 1 ≤ (Utf8.encode (spelled twice place).text).length ∧
      (Utf8.encode (spelled twice place).text).length ≤ 511
  · simp only [if_pos hsize] at hkey ⊢
    simp [Processor.record, hledger, Ledger.record, hkey, Workspace.table, Workspace.putTable]
  · simp only [if_neg hsize] at hkey ⊢
    simp only [Processor.record, hledger, Ledger.record, hkey]
    rfl

/-- **A ledger is kept up while an output is put in its place**, and a row for
it among the others, if the path of the place is short enough for a key. -/
theorem Upkeep.put {c : Commit} (h : Upkeep loc twice w commits) (hplain : w'.files.Plain)
    (hover : Overwritten w.files w'.files place draft out done) (hdone : done) (hdraft : IsDraft draft)
    (hplaced : Placed w'.files twice q place) (hfile : c.file = some place) (htells : c.Says row)
    (hdigest : row.outputSha256 = Bytes.sha256Hex out)
    (htable : w'.table loc =
      let key := (spelled twice place).text
      if 1 ≤ (Utf8.encode key).length ∧ (Utf8.encode key).length ≤ 511 then
        (w.table loc).put key row
      else w.table loc) :
    Upkeep loc twice w' (commits ++ [c]) := by
  refine ⟨hplain, fun entry hentry => ?_⟩
  have hkept : entry ∈ w.table loc → entry.1 ≠ (spelled twice place).text → ∃ row' place',
      LedgerRow.decode? entry.2 = some row' ∧
        Filed w'.files twice (commits ++ [c]) entry.1 row' place' := by
    intro hmem hother
    obtain ⟨row', place', hrow, hfiled⟩ := h.filed entry hmem
    have hne : place' ≠ place := by
      rintro rfl
      exact hother hfiled.spelling
    refine ⟨row', place', hrow, hfiled.beside hover hdraft (fun _ => hne) ?_⟩
    exact Commit.last?_concat_of_ne _ fun heq => hne (Option.some.inj (heq.symm.trans hfile))
  rw [htable] at hentry
  by_cases hsize : 1 ≤ (Utf8.encode (spelled twice place).text).length ∧
      (Utf8.encode (spelled twice place).text).length ≤ 511
  · simp only [if_pos hsize] at hentry
    rcases List.mem_cons.1 hentry with rfl | hentry
    · exact ⟨row, place, LedgerRow.decode?_encode _, rfl, hsize, hplaced.fit, hplaced.below,
        hplaced.undrafted, ⟨out, hover.placed hdone, hdigest⟩, c, Commit.last?_concat_self _ hfile,
        htells⟩
    · obtain ⟨hmem, hother⟩ := List.mem_filter.1 hentry
      exact hkept hmem (by simpa using hother)
  · -- a file with a path too long for a key had no row
    simp only [if_neg hsize] at hentry
    refine hkept hentry fun heq => hsize ?_
    obtain ⟨row', place', -, hfiled⟩ := h.filed entry hentry
    exact heq ▸ hfiled.size

/-- **Processing a unit keeps the ledger up.** -/
theorem Upkeep.process (h : Upkeep loc twice w commits) (hledger : p.ledger = some l)
    (hloc : l.location = loc) (hout : IsOutput twice u.location.output) :
    Upkeep loc twice (p.process w u).workspace (commits ++ p.commits w u) := by
  have hidle : (p.process w u).report.committed = none → p.commits w u = [] := fun hnone => by
    simp only [Processor.commits, hnone]
  cases p.process_effect w u with
  | idle hfiles hledgers hnone =>
    rw [hidle hnone, List.append_nil]
    exact h.same hfiles hledgers
  | lost out fault hwrite hledgers hnone =>
    obtain ⟨hplain, place, draft, hdraft, hover, -⟩ := hout.writeWhole h.plain hwrite
    rw [hidle hnone, List.append_nil]
    refine ⟨hplain, fun entry hentry => ?_⟩
    obtain ⟨row, place', hrow, hfiled⟩ := h.filed entry (table_congr hledgers ▸ hentry)
    exact ⟨row, place', hrow, hfiled.beside hover hdraft nofun rfl⟩
  | written out w₁ hwrite hledgers hworkspace hcommitted =>
    obtain ⟨hplain, place, draft, hdraft, hover, hplaced⟩ := hout.writeWhole h.plain hwrite
    replace hplaced := hplaced rfl
    -- what is committed, and what is recorded of it
    have hfiles : (p.process w u).workspace.files = w₁.files := by
      rw [hworkspace, Processor.record_files]
    have hcommits : p.commits w u = [p.commitTo u (some place)] := by
      simp only [Processor.commits, hcommitted, hfiles, hplaced.resolves, Except.toOption]
    have htable := table_record hledger w₁ u
      ⟨u.location.output, out.length, Bytes.sha256Hex out⟩ hplaced
    rw [← hworkspace, hloc, table_congr hledgers] at htable
    rw [← hfiles] at hplain hover hplaced
    rw [hcommits]
    exact h.put hplain hover rfl hdraft hplaced rfl ⟨rfl, rfl, rfl⟩ rfl htable

/-- **A row stays as it is while its file is written by another spelling**,
with two slashes in front if the key has one, or the other way round. -/
theorem Upkeep.aliased (h : Upkeep loc twice w commits) (hledger : p.ledger = some l)
    (hloc : l.location = loc) (hout : IsOutput (!twice) u.location.output) :
    ∀ entry ∈ w.table loc, entry ∈ (p.process w u).workspace.table loc := by
  intro entry hentry
  cases p.process_effect w u with
  | idle _ hledgers => exact table_congr hledgers ▸ hentry
  | lost _ _ _ hledgers => exact table_congr hledgers ▸ hentry
  | written out w₁ hwrite hledgers hworkspace =>
    obtain ⟨-, place, draft, -, -, hplaced⟩ := hout.writeWhole h.plain hwrite
    replace hplaced := hplaced rfl
    have htable := table_record hledger w₁ u
      ⟨u.location.output, out.length, Bytes.sha256Hex out⟩ hplaced
    rw [← hworkspace, hloc, table_congr hledgers] at htable
    rw [htable]
    dsimp only
    split
    swap
    · exact hentry
    refine List.mem_cons_of_mem _ (List.mem_filter.2 ⟨hentry, bne_iff_ne.2 fun heq => ?_⟩)
    -- one text does not start both ways
    obtain ⟨row, place', -, hfiled⟩ := h.filed entry hentry
    have hstarts := congrArg opensTwice (ext_text (hfiled.spelling.symm.trans heq))
    rw [opensTwice_spelled twice (fun m hm => (hfiled.fit m hm).1) hfiled.below,
      opensTwice_spelled (!twice) (fun m hm => (hplaced.fit m hm).1) hplaced.below] at hstarts
    simp at hstarts

end Ledger

end ClassWeave
