import ClassWeave.Proofs.Driver
import ClassWeave.Proofs.Exemption
import ClassWeave.Proofs.Ledger.Upkeep
import ClassWeave.Proofs.Loader.Names
/-!
# Ledger -- shared by many sessions

Batches and loaders share a ledger over any sequence of runs and requests,
with anything edited in between but the files that its rows name
(`Ledger.Sharing`). Each of them keeps units that are settled, so it
processes new ones alone, and those have class files for their outputs
(`isOutput_of_scan`, `isOutput_classPath`). So the ledger is kept up all
along, and agrees with the files at every point, also within a run, if all
destinations start alike (`Sharing.agrees`). If one starts with two slashes
and another does not, a file can have two rows, and the older one goes
stale (`Sharing.disagrees`).
-/


namespace ClassWeave

namespace FileTree

variable {t : FileTree} {root : Path} {recursive : Bool} {scan : ScanReport} {events : List Event}

/-- Where a tree without links can be scanned, there is a class root. -/
theorem Plain.classRoot (h : t.Plain) (hscan : t.scan root recursive = .ok (scan, events)) :
    ∃ top, t.ClassRoot root top := by
  have hdir : t.isDirectory root = true := by
    by_contra hnot
    rw [Bool.not_eq_true] at hnot
    unfold FileTree.scan at hscan
    split at hscan
    · cases hscan
    · rw [hnot] at hscan
      cases hscan
  rw [isDirectory] at hdir
  rcases hstat : t.stat root with fault | e
  · rw [hstat] at hdir
    cases hdir
  obtain ⟨top, hresolve, hentry⟩ := stat_ok.1 hstat
  rw [hstat] at hdir
  cases e with
  | file bytes => cases hdir
  | link target => cases hdir
  | directory =>
    exact ⟨top, h.tree, hresolve, hentry, fun l target _ => h.linkFree l target List.nil_prefix⟩

end FileTree

namespace Ledger

variable {loc : Location} {twice : Bool} {w w' : Workspace} {commits : List Commit} {l : Ledger}
  {p : Processor} {u : ClassUnit} {destination : Option Path} {d root : Path} {name raw : String}
  {recursive : Bool} {scan : ScanReport} {events : List Event}

/-! ## Outputs -/

/-- **The outputs of a batch** are class files below its destination, or
below the class root. -/
theorem isOutput_of_scan (hplain : w.files.Plain)
    (hscan : w.files.scan root recursive = .ok (scan, events))
    (hup : ['.', '.'] ∉ (destination.getD root).segments)
    (htwice : (destination.getD root).opensTwice = twice) :
    ∀ s ∈ scan.units, IsOutput twice (Batch.locate destination s).output := by
  intro s hs
  obtain ⟨top, hroot⟩ := hplain.classRoot hscan
  obtain ⟨names, hne, hrelative, hpath, hclass, -, hentry⟩ := hroot.found_of_scan hscan s hs
  have hnames : ∀ n ∈ names, Path.IsName n := (hroot.tree.of_isSome (by rw [hentry]; rfl)).1
  refine ⟨destination.getD root, names, hup, htwice, hne, hnames, hclass, ?_⟩
  rcases destination with _ | d
  · rw [Batch.locate, UnitLocation.inPlace, hpath]
    exact Path.pathOf_eq_join hroot.text_ne_empty hnames hne
  · rw [Batch.locate, hrelative]
    rfl

/-- **The output of a class** is a class file below the destination, if its
name is one. -/
theorem isOutput_classPath (hfault : Loader.nameFault? name = none) (hflat : '/' ∉ name.toList)
    (hup : ['.', '.'] ∉ d.segments) (htwice : d.opensTwice = twice) :
    IsOutput twice (d.join ⟨ClassFile.classPath name⟩) := by
  obtain ⟨above, n, hnames, hlast, -, hpath⟩ := Loader.classPath_eq hfault hflat
  rw [List.forall_mem_append, List.forall_mem_singleton] at hnames
  refine ⟨d, above ++ [n ++ ".class"], hup, htwice, by simp, ?_, ?_, by rw [hpath]⟩
  · rw [List.forall_mem_append, List.forall_mem_singleton]
    exact ⟨hnames.1, hlast⟩
  · have hclass : (n ++ ".class").toList = n.toList ++ '.' :: "class".toList := String.toList_append
    rw [Scan.extension?_relativePath hnames.1 hlast, hclass, Path.cutName,
      Text.cutLast?_append _ (by decide)]
    simp [hnames.2.toList_ne_nil]

end Ledger

/-! ## Sessions -/

namespace Driver

/-- What processes units for a driver. -/
def processor : Driver → Processor
  | .batch b => b.processor
  | .loader l => l.processor

/-- Whether a driver has the ledger that is kept at a location. -/
def Shares (d : Driver) (loc : Location) : Prop :=
  ∃ l, d.processor.ledger = some l ∧ l.location = loc

/-- **A driver that is ready to go on**: it has the ledger, and the units
that it keeps are settled. -/
structure Ready (d : Driver) (loc : Location) : Prop where
  shares : d.Shares loc
  final : ∀ name u, d.cache.get? name = some u → u.state.isFinal = true

end Driver

namespace Ledger

variable {loc : Location} {twice : Bool} {w w' : Workspace} {commits : List Commit} {cache : UnitCache}
  {p : Processor} {u : ClassUnit} {l : Ledger} {name : String} {ds : List Driver}
  {allowed : Path → Prop}

/-- **A name that is met keeps the ledger up**: a unit that is kept already is
left alone, and a new one is processed and settled. -/
theorem Upkeep.visit (h : Upkeep loc twice w commits) (hledger : p.ledger = some l)
    (hloc : l.location = loc) (hfinal : ∀ name u, cache.get? name = some u → u.state.isFinal = true)
    (hu : cache.StandsFor name u) (hout : cache.get? name = none → IsOutput twice u.location.output) :
    Upkeep loc twice (p.process w u).workspace (commits ++ p.commits w u) ∧
      ∀ other v, (cache.put name (p.process w u).unit).get? other = some v →
        v.state.isFinal = true := by
  have hput : (p.process w u).unit.state.isFinal = true →
      ∀ other v, (cache.put name (p.process w u).unit).get? other = some v →
        v.state.isFinal = true := by
    intro hsettled other v hv
    rcases UnitCache.of_get?_put hv with ⟨-, rfl⟩ | hkept
    · exact hsettled
    · exact hfinal other v hkept
  cases hu with
  | kept hkept =>
    have hrest : p.process w u = Processor.rest w u := by
      rw [Processor.process, if_pos (hfinal name u hkept)]
    have hnone : p.commits w u = [] := by
      simp only [Processor.commits, hrest]
      rfl
    refine ⟨?_, hput ?_⟩
    · rw [hnone, hrest, List.append_nil]
      exact h
    · rw [hrest]
      exact hfinal name u hkept
  | new location bytes hnone =>
    exact ⟨h.process hledger hloc (hout hnone),
      hput (p.process_meets w name location bytes).final⟩

/-- **Class files one after another keep the ledger up.** -/
theorem Upkeep.foldl (units : List ScannedUnit) {r : Batch.Progress}
    (h : Upkeep loc twice r.workspace commits) (hready : (Driver.batch r.batch).Ready loc)
    (hout : ∀ s ∈ units, IsOutput twice (Batch.locate r.batch.destination s).output) :
    Upkeep loc twice (units.foldl Batch.step r).workspace (commits ++ Batch.commits r units) ∧
      (Driver.batch (units.foldl Batch.step r).batch).Ready loc := by
  induction units generalizing r commits with
  | nil =>
    rw [Batch.commits, List.append_nil]
    exact ⟨h, hready⟩
  | cons s units ih =>
    rw [List.forall_mem_cons] at hout
    obtain ⟨⟨l, hledger, hloc⟩, hfinal⟩ := hready
    obtain ⟨hstep, hsettled⟩ := h.visit hledger hloc hfinal (r.batch.standsFor_unitOf s) fun hnone => by
      rw [Batch.unitOf, show r.batch.cache.get? s.qualifiedName = none from hnone]
      exact hout.1
    rw [List.foldl_cons, Batch.commits, ← List.append_assoc]
    exact ih hstep ⟨⟨l, hledger, hloc⟩, hsettled⟩ hout.2

/-- What destinations may be like: without a step up, and starting with two
slashes, or not, as all others do. -/
def Alike (twice : Bool) (d : Path) : Prop := ['.', '.'] ∉ d.segments ∧ d.opensTwice = twice

/-- **So does a request** that reaches a unit. -/
theorem Upkeep.request {l : Loader} {raw : String} (h : Upkeep loc twice w commits)
    (hready : (Driver.loader l).Ready loc) (halike : Alike twice l.destination)
    (hreaches : l.Reaches w raw u) :
    Upkeep loc twice (l.resolve w raw).workspace (commits ++ l.processor.commits w u) ∧
      (Driver.loader (l.resolve w raw).loader).Ready loc := by
  obtain ⟨ledger, hledger, hloc⟩ := hready.shares
  have hplace := isOutput_classPath hreaches.isLocal.fault (Loader.flat_normalName raw) halike.1 halike.2
  have hout : l.cache.get? (Loader.normalName raw) = none → IsOutput twice u.location.output := by
    intro hnone
    obtain ⟨bytes, rfl⟩ := (Loader.unit?_ok hreaches.unit).resolve_left (by rw [hnone]; rintro ⟨⟩)
    show IsOutput twice (l.place (Loader.normalName raw)).output
    rw [Loader.place]
    dsimp only
    exact hplace
  have hfinal : ∀ name u, l.cache.get? name = some u → u.state.isFinal = true := hready.final
  obtain ⟨hkept, hsettled⟩ :=
    h.visit hledger hloc hfinal (Loader.standsFor_unit? hreaches.unit) hout
  obtain ⟨hworkspace, hloader⟩ := Loader.resolve_of_reaches hreaches
  rw [hworkspace, hloader]
  exact ⟨hkept, ⟨ledger, hledger, hloc⟩, hsettled⟩

/-! ## Histories -/

/-- **The histories of a ledger that sessions share**, with the sessions as
they stand and what was committed so far. It starts without rows. A session
is a batch or a loader that has the ledger and keeps no unit yet. Runs go to
allowed destinations, or over allowed class roots, and are looked at after
any number of class files; requests are for any names. In between, anything
may be edited that no row names, as long as no link comes up. -/
inductive Sharing (loc : Location) (allowed : Path → Prop) :
    Workspace → List Driver → List Commit → Prop
  | start {w : Workspace} : w.files.Plain → w.table loc = [] → Sharing loc allowed w [] []
  | session {w : Workspace} {ds : List Driver} {commits : List Commit} (d : Driver) :
    Sharing loc allowed w ds commits → d.Shares loc → d.cache = [] →
    Sharing loc allowed w (ds ++ [d]) commits
  | edit {w w' : Workspace} {ds : List Driver} {commits : List Commit} :
    Sharing loc allowed w ds commits → w'.files.Plain → w'.table loc = w.table loc →
    (∀ entry ∈ w.table loc, w'.files.read ⟨entry.1⟩ = w.files.read ⟨entry.1⟩) →
    Sharing loc allowed w' ds commits
  /-- A batch processes some of the class files under a root, up to all of
  them. -/
  | run {w : Workspace} {ds : List Driver} {commits : List Commit} {b : Batch} {i : Nat} {root : Path}
    {recursive : Bool} {scan : ScanReport} {events : List Event} {r : Batch.Progress} (k : Nat) :
    Sharing loc allowed w ds commits → ds[i]? = some (.batch b) →
    w.files.scan root recursive = .ok (scan, events) → allowed (b.destination.getD root) →
    b.processAll (w.report events) (scan.units.take k) = r →
    Sharing loc allowed r.workspace (ds.set i (.batch r.batch))
      (commits ++ Batch.commits ⟨w.report events, b, []⟩ (scan.units.take k))
  /-- A request reaches a unit of the source tree. -/
  | reached {w : Workspace} {ds : List Driver} {commits : List Commit} {l : Loader} {i : Nat}
    {raw : String} {u : ClassUnit} :
    Sharing loc allowed w ds commits → ds[i]? = some (.loader l) → allowed l.destination →
    l.Reaches w raw u →
    Sharing loc allowed (l.resolve w raw).workspace (ds.set i (.loader (l.resolve w raw).loader))
      (commits ++ l.processor.commits w u)
  /-- A request reaches none. -/
  | unreached {w : Workspace} {ds : List Driver} {commits : List Commit} {l : Loader} {i : Nat}
    {raw : String} :
    Sharing loc allowed w ds commits → ds[i]? = some (.loader l) → (∀ u, ¬ l.Reaches w raw u) →
    Sharing loc allowed (l.resolve w raw).workspace (ds.set i (.loader (l.resolve w raw).loader))
      commits
  | renew {w : Workspace} {ds : List Driver} {commits : List Commit} {l : Loader} {i : Nat} :
    Sharing loc allowed w ds commits → ds[i]? = some (.loader l) →
    Sharing loc allowed w (ds.set i (.loader l.renew)) commits

/-- **A whole run is one of these.** -/
theorem Sharing.whole {b b' : Batch} {i : Nat} {root : Path} {recursive : Bool} {report : BatchReport}
    (h : Sharing loc allowed w ds commits) (hb : ds[i]? = some (.batch b))
    (hrun : b.run w root recursive = .ok (w', b', report))
    (hallowed : allowed (b.destination.getD root)) :
    ∃ more, Sharing loc allowed w' (ds.set i (.batch b')) (commits ++ more) := by
  unfold Batch.run at hrun
  split at hrun
  · cases hrun
  next scan events hscan =>
  obtain ⟨rfl, hbatch⟩ := Prod.mk.inj (Except.ok.inj hrun)
  obtain ⟨rfl, -⟩ := Prod.mk.inj hbatch
  exact ⟨_, h.run scan.units.length hb hscan hallowed (by rw [List.take_length])⟩

/-- **What a history preserves**: the ledger is kept up, and the sessions are
ready to go on. -/
theorem Sharing.upkeep (h : Sharing loc (Alike twice) w ds commits) :
    Upkeep loc twice w commits ∧ ∀ d ∈ ds, d.Ready loc := by
  have hset : ∀ {ds : List Driver} {i : Nat} {d' : Driver}, (∀ d ∈ ds, d.Ready loc) → d'.Ready loc →
      ∀ d ∈ ds.set i d', d.Ready loc := by
    intro ds i d' hready hd' d hd
    rcases List.mem_or_eq_of_mem_set hd with hd | rfl
    · exact hready d hd
    · exact hd'
  induction h with
  | start hplain hempty =>
    refine ⟨⟨hplain, fun entry hentry => ?_⟩, List.forall_mem_nil _⟩
    rw [hempty] at hentry
    cases hentry
  | session d _ hshares hcache ih =>
    refine ⟨ih.1, ?_⟩
    rw [List.forall_mem_append, List.forall_mem_singleton]
    refine ⟨ih.2, hshares, fun name u hu => ?_⟩
    rw [hcache] at hu
    cases hu
  | edit _ hplain htable hsame ih =>
    refine ⟨⟨hplain, fun entry hentry => ?_⟩, ih.2⟩
    rw [htable] at hentry
    obtain ⟨row, place, hrow, hfiled⟩ := ih.1.filed entry hentry
    refine ⟨row, place, hrow, hfiled.mono (fun bytes hfile => ?_) rfl⟩
    rw [← hfiled.read hplain, hsame entry hentry, hfiled.read ih.1.plain]
    exact hfile
  | @run w ds commits b i root recursive scan events r k _ hb hscan hallowed hr ih =>
    have hout := isOutput_of_scan ih.1.plain hscan hallowed.1 hallowed.2
    have hstart : Upkeep loc twice (w.report events) commits := ih.1.same rfl rfl
    obtain ⟨hkept, hready⟩ := Upkeep.foldl (r := ⟨w.report events, b, []⟩) (scan.units.take k) hstart
      (ih.2 _ (List.mem_of_getElem? hb)) fun s hs => hout s (List.mem_of_mem_take hs)
    rw [← hr, Batch.processAll]
    exact ⟨hkept, hset ih.2 hready⟩
  | reached _ hl hallowed hreaches ih =>
    obtain ⟨hkept, hready⟩ := ih.1.request (ih.2 _ (List.mem_of_getElem? hl)) hallowed hreaches
    exact ⟨hkept, hset ih.2 hready⟩
  | @unreached w ds commits l i raw _ hl hnone ih =>
    obtain ⟨hworkspace, delegated, cache, hsame, hloader⟩ := Loader.resolve_unreached hnone
    obtain ⟨hshares, hfinal⟩ := ih.2 _ (List.mem_of_getElem? hl)
    rw [hworkspace, hloader]
    exact ⟨ih.1, hset ih.2 ⟨hshares, fun name u hu =>
      hfinal name u ((hsame.get? name).symm.trans hu)⟩⟩
  | renew _ hl ih =>
    refine ⟨ih.1, hset ih.2 ⟨(ih.2 _ (List.mem_of_getElem? hl)).shares, fun name u hu => ?_⟩⟩
    cases hu

/-- **The ledger agrees with the files** at every point of a history whose
destinations start alike: the key of a row is an absolute path, the file
there has the digest in the row, and the row says what was committed last to
that file. A unit that failed, was skipped or could not be written changes
no row. -/
theorem Sharing.agrees (h : Sharing loc (Alike twice) w ds commits) :
    (∀ entry ∈ w.table loc, ∃ row file bytes c, LedgerRow.decode? entry.2 = some row ∧
      (⟨entry.1⟩ : Path).absolute? w.home = some ⟨entry.1⟩ ∧
      w.files.resolve true ⟨entry.1⟩ = .ok file ∧ w.files.read ⟨entry.1⟩ = .ok bytes ∧
      row.outputSha256 = Bytes.sha256Hex bytes ∧
      Commit.last? commits file = some c ∧ row.unit = c.unit ∧
      row.sourceSha256 = c.sourceSha256 ∧ row.enhancers = c.enhancers) ∧
    ∀ (p : Processor) (u : ClassUnit),
      (p.process w u).report.state = .failed ∨ (p.process w u).report.state = .skipped ∨
        (p.process w u).report.persistenceError.isSome →
      (p.process w u).workspace.ledgers = w.ledgers := by
  refine ⟨fun entry hentry => ?_, fun p u => (p.process_effect w u).ledgers⟩
  obtain ⟨hkept, -⟩ := h.upkeep
  obtain ⟨row, place, hrow, hfiled⟩ := hkept.filed entry hentry
  obtain ⟨bytes, hfile, hdigest⟩ := hfiled.file
  obtain ⟨c, hlast, hunit, hsource, henhancers⟩ := hfiled.commit
  exact ⟨row, place, bytes, c, hrow, hfiled.absolute? _, hfiled.resolve hkept.plain,
    (hfiled.read hkept.plain).2 hfile, hdigest, hlast, hunit, hsource, henhancers⟩

/-! ## Two spellings -/

/-- A new session may make a request at once. -/
theorem Sharing.ask {l : Loader} {raw : String} (h : Sharing loc allowed w ds commits)
    (hshares : (Driver.loader l).Shares loc) (hcache : l.cache = []) (hallowed : allowed l.destination)
    (hreaches : l.Reaches w raw u) :
    ∃ ds', Sharing loc allowed (l.resolve w raw).workspace ds' (commits ++ l.processor.commits w u) :=
  ⟨_, (h.session (.loader l) hshares hcache).reached (i := ds.length) (by simp) hallowed hreaches⟩

/-- Two class trees, each with a class `A`, and no ledger yet. -/
def twoTrees : Workspace where
  files := ⟨[], [(["c"], .directory), (["c", "A.class"], .file (Processor.flaggedClass 0 0x20)),
    (["e"], .directory), (["e", "A.class"], .file (Processor.flaggedClass 0 0x21))]⟩
  ledgers := []
  clock := 0
  events := []
  calls := []

/-- A loader over one of them, with the ledger at `/l`. -/
def borrower (chain : Chain) (source destination : Path) : Loader :=
  .fresh source (some destination) (.ofChain chain [] (some ⟨⟨"/l"⟩, ["l"]⟩)) .noParent

/-- The unit that such a loader makes of the class. -/
def borrowed (source destination : Path) (low : UInt8) : ClassUnit :=
  .fresh "A" ⟨source.join ⟨"A.class"⟩, destination.join ⟨"A.class"⟩⟩ (Processor.flaggedClass 0 low)

/-- The workspace after the class of the first tree was asked for. -/
def askedOnce (destination : Path) : Workspace :=
  ((borrower [] ⟨"/c"⟩ destination).resolve twoTrees "A").workspace

/-- What was committed then. -/
def committedOnce (destination : Path) : List Commit :=
  (borrower [] ⟨"/c"⟩ destination).processor.commits twoTrees (borrowed ⟨"/c"⟩ destination 0x20)

/-- A class `A` is one to be looked for in the source tree. -/
theorem isLocal_borrower (chain : Chain) (source destination : Path) :
    (borrower chain source destination).IsLocal "A" where
  array := by decide
  fault := by decide
  unreserved := by
    show (EligibilityFilter.ofExtra [] []).platformNamespace? "A" = none
    decide +kernel

/-- Asking once is a history. -/
theorem sharing_askedOnce (allowed : Path → Prop) (destination : Path) (hallowed : allowed destination)
    (hunit : (borrower [] ⟨"/c"⟩ destination).unit? twoTrees "A" =
      .ok (some (borrowed ⟨"/c"⟩ destination 0x20))) :
    ∃ ds, Sharing ["l"] allowed (askedOnce destination) ds (committedOnce destination) := by
  have hplain : twoTrees.files.Plain :=
    ⟨.of_listed (by decide) (by decide +kernel), .of_listed (by decide +kernel), rfl,
      List.forall_mem_nil _⟩
  have hreaches : (borrower [] ⟨"/c"⟩ destination).Reaches twoTrees "A"
      (borrowed ⟨"/c"⟩ destination 0x20) :=
    ⟨isLocal_borrower _ _ _, hunit⟩
  exact (Sharing.start hplain rfl).ask ⟨_, rfl, rfl⟩ rfl hallowed hreaches

/-- One row is there then, for the file that was written. -/
theorem Sharing.agrees_once : ∃ w ds commits, Sharing ["l"] (Alike false) w ds commits ∧
    ∃ entry ∈ w.table ["l"], entry.1 = "/out/A.class" ∧ ∃ row file bytes c,
      LedgerRow.decode? entry.2 = some row ∧ w.files.resolve true ⟨"/out/A.class"⟩ = .ok file ∧
      w.files.read ⟨"/out/A.class"⟩ = .ok bytes ∧ row.outputSha256 = Bytes.sha256Hex bytes ∧
      Commit.last? commits file = some c ∧ row.unit = c.unit := by
  obtain ⟨ds, h⟩ := sharing_askedOnce (Alike false) ⟨"/out"⟩ ⟨by decide, by decide⟩ (by decide +kernel)
  have hkeys : ((askedOnce ⟨"/out"⟩).table ["l"]).map Prod.fst = ["/out/A.class"] := by decide +kernel
  obtain ⟨entry, hentry, hkey⟩ := List.mem_map.1 (hkeys ▸ List.mem_singleton_self "/out/A.class")
  obtain ⟨row, file, bytes, c, hrow, -, hresolve, hread, hdigest, hlast, hunit, -⟩ :=
    h.agrees.1 entry hentry
  rw [hkey] at hresolve hread
  exact ⟨_, ds, _, h, entry, hentry, hkey, row, file, bytes, c, hrow, hresolve, hread, hdigest, hlast,
    hunit⟩

/-- A chain of a pass that only looks. -/
def watching : Chain := [⟨⟨"watch", "1.0.0"⟩, fun _ => .ok none⟩]

/-- The path of an output whose name ends in an octet that is no character. -/
def illegibleOutput : OsPath := (OsPath.ofPath ⟨"/out"⟩).push [0x41, 0xFF]

/-- **With destinations that do not start alike a row goes stale**: a class is
written below `//out`, and then another one below `/out`, by other passes.
That is one file with two keys, and the row for the first key still tells of
the first one. And an output whose path is no text is filed under the path of
another file. -/
theorem Sharing.disagrees : ∃ w ds commits,
    Sharing ["l"] (fun d => ['.', '.'] ∉ d.segments) w ds commits ∧
      (∃ entry ∈ w.table ["l"], ∃ row file c, LedgerRow.decode? entry.2 = some row ∧
        w.files.resolve true ⟨entry.1⟩ = .ok file ∧ Commit.last? commits file = some c ∧
        row.enhancers ≠ c.enhancers) ∧
      illegibleOutput.absolute? w.home = some illegibleOutput ∧
      ∃ key, LedgerTable.key? w.home illegibleOutput = some key ∧
        OsPath.absolute? (Path.mk key) w.home = some (OsPath.ofPath ⟨key⟩) ∧
        OsPath.ofPath ⟨key⟩ ≠ illegibleOutput := by
  have hunit : (borrower [] ⟨"/c"⟩ ⟨"//out"⟩).unit? twoTrees "A" =
      .ok (some (borrowed ⟨"/c"⟩ ⟨"//out"⟩ 0x20)) := by decide +kernel
  obtain ⟨ds, hfirst⟩ := sharing_askedOnce (fun d => ['.', '.'] ∉ d.segments) ⟨"//out"⟩ (by decide) hunit
  obtain ⟨ds', halike⟩ := sharing_askedOnce (Alike true) ⟨"//out"⟩ ⟨by decide, by decide⟩ hunit
  -- the row of the first class, filed by a destination like all so far
  obtain ⟨hkept, -⟩ := halike.upkeep
  have hkeys : ((askedOnce ⟨"//out"⟩).table ["l"]).map Prod.fst = ["//out/A.class"] := by decide +kernel
  obtain ⟨entry, hentry, hkey⟩ := List.mem_map.1 (hkeys ▸ List.mem_singleton_self "//out/A.class")
  obtain ⟨row, place, hrow, hfiled⟩ := hkept.filed entry hentry
  obtain ⟨c, hlast, htells⟩ := hfiled.commit
  have hpassless : row.enhancers = [] := by
    obtain ⟨file, rfl⟩ := Processor.of_mem_commits (List.mem_filter.1 (List.mem_of_getLast? hlast)).1
    exact htells.enhancers
  -- the second class
  have hreaches : (borrower watching ⟨"/e"⟩ ⟨"/out"⟩).Reaches (askedOnce ⟨"//out"⟩) "A"
      (borrowed ⟨"/e"⟩ ⟨"/out"⟩ 0x21) := ⟨isLocal_borrower _ _ _, by decide +kernel⟩
  obtain ⟨ds'', hsecond⟩ := hfirst.ask ⟨_, rfl, rfl⟩ rfl (by decide) hreaches
  have hout : IsOutput (!true) (borrowed ⟨"/e"⟩ ⟨"/out"⟩ 0x21).location.output :=
    ⟨⟨"/out"⟩, ["A.class"], by decide, by decide, List.cons_ne_nil _ _, by decide, by decide, rfl⟩
  have hwritten : ((borrower watching ⟨"/e"⟩ ⟨"/out"⟩).processor.commits (askedOnce ⟨"//out"⟩)
      (borrowed ⟨"/e"⟩ ⟨"/out"⟩ 0x21)).map Commit.file = [some ["out", "A.class"]] ∧
      ((borrower watching ⟨"/e"⟩ ⟨"/out"⟩).processor.process (askedOnce ⟨"//out"⟩)
        (borrowed ⟨"/e"⟩ ⟨"/out"⟩ 0x21)).workspace.files.resolve true ⟨"//out/A.class"⟩ =
          .ok ["out", "A.class"] := by decide +kernel
  obtain ⟨c', hc', hfile⟩ := List.map_eq_singleton_iff.1 hwritten.1
  obtain ⟨file, rfl⟩ := Processor.of_mem_commits (hc' ▸ List.mem_singleton_self c')
  rw [hc', (Loader.resolve_of_reaches hreaches).1] at hsecond
  refine ⟨_, ds'', _, hsecond, ⟨entry, hkept.aliased rfl rfl hout entry hentry, row,
    ["out", "A.class"], _, hrow, ?_, Commit.last?_concat_self _ hfile, ?_⟩, ?_⟩
  · rw [hkey]
    exact hwritten.2
  · rw [hpassless]
    nofun
  · have hroot {p : OsPath} (hp : p.isRooted = true) (home : OsPath) :
        p.absolute? home = p.absolute? (Path.mk "/") := OsPath.absolute?_of_isRooted hp _ _
    rw [LedgerTable.key?, hroot (by decide)]
    refine ⟨by decide +kernel, "/out/A\uFFFD", by decide +kernel, ?_, by decide +kernel⟩
    rw [hroot (by decide +kernel)]
    decide +kernel

end Ledger

end ClassWeave
