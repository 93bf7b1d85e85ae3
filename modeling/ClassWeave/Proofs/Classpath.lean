import ClassWeave.Classpath
import ClassWeave.Proofs.Files.Descent
/-!
# Classpath -- the first entry that holds a name

What an entry holds for a name is told by the tree alone
(`ClasspathEntry.held?`): a regular file at its class path below a directory,
a member of that path in an archive. A lookup gives what the first entry that
holds the name has, as long as it gets there. Only where nothing is at the
class path does a directory pass a name on; where something else is in the way
(`ClasspathEntry.obstruction?`) the lookup ends, whatever the entries behind
hold (`Classpath.lookUp_first`).
-/


namespace ClassWeave

/-! ## What an entry holds -/

/-- The content of a member of an archive, if it can be had. -/
def Zip.content? (z : Zip) (m : ZipMember) : Option Bytes :=
  (z.raw m).toOption.bind fun raw => (m.content raw).toOption

/-- Content that can be had is read from the archive and unpacked. -/
theorem Zip.content?_eq_some {z : Zip} {m : ZipMember} {content : Bytes} :
    z.content? m = some content ↔ ∃ raw, z.raw m = .ok raw ∧ m.content raw = .ok content := by
  rw [content?]
  rcases z.raw m with cause | raw
  · simp [Except.toOption]
  · rcases hcontent : m.content raw with cause | content' <;> simp [Except.toOption, hcontent]

/-- Whether the content of every member of an archive can be had. -/
def Zip.isWhole (z : Zip) : Bool := z.members.all fun m => (z.content? m).isSome

/-- The archive that a path leads to, as far as it is one. -/
def FileTree.archive? (t : FileTree) (a : Path) : Option (Except ZipFault Zip) :=
  match t.stat a with
  | .ok (.file bytes) => some (Zip.ofBytes bytes)
  | _ => none

namespace ClasspathEntry

variable {t : FileTree} {name : String} {entry : ClasspathEntry} {fault : Fault} {bytes : Bytes}

/-- The octets that an entry holds for a name. -/
def held? (t : FileTree) (name : String) : ClasspathEntry → Option Bytes
  | .directory d =>
    match t.stat (d.join ⟨ClassFile.classPath name⟩) with
    | .ok (.file bytes) => some bytes
    | _ => none
  | .archive a =>
    match t.archive? a with
    | some (.ok z) => (z.find? (ClassFile.classPath name)).bind z.content?
    | _ => none

/-- Why an entry can neither be read nor passed over for a name: something
other than a regular file is at its class path below a directory, or on the
way there. -/
def obstruction? (t : FileTree) (name : String) : ClasspathEntry → Option Fault
  | .directory d =>
    match t.stat (d.join ⟨ClassFile.classPath name⟩) with
    | .ok (.file _) | .error .missing => none
    | .ok _ => some .isDirectory
    | .error fault => some fault
  | .archive _ => none

/-- Whether an archive is not there or can be read from end to end. -/
def isReadable (t : FileTree) : ClasspathEntry → Bool
  | .directory _ => true
  | .archive a =>
    match t.archive? a with
    | none => true
    | some (.ok z) => z.isWhole
    | some (.error _) => false

/-- A member is looked for in the archive, as far as it is one. -/
theorem readMember_eq (a : Path) (member : String) :
    t.readMember a member = match t.archive? a with
      | none => .ok none
      | some (.error cause) => .error (.unreadable a cause)
      | some (.ok z) =>
        match z.find? member with
        | none => .ok none
        | some m =>
          match z.raw m with
          | .error cause => .error (.memberUnreadable member a cause)
          | .ok raw =>
            match m.content raw with
            | .error cause => .error (.notInflated member a cause)
            | .ok content => .ok (some content) := by
  unfold FileTree.readMember FileTree.archive?
  rcases t.stat a with fault | bytes | _ | target
  · rfl
  · dsimp only
    rcases Zip.ofBytes bytes with cause | z <;> rfl
  · rfl
  · rfl

/-- A whole archive gives what it holds for a name. -/
theorem lookUp_archive {a : Path} (h : (archive a).isReadable t = true) :
    (archive a).lookUp t name = .ok ((archive a).held? t name) := by
  unfold isReadable at h
  unfold lookUp held?
  dsimp only at h ⊢
  rw [readMember_eq]
  rcases harchive : t.archive? a with _ | cause | z
  · rfl
  · simp only [harchive, Bool.false_eq_true] at h
  · simp only [harchive, Zip.isWhole, List.all_eq_true] at h
    dsimp only
    rcases hfind : z.find? (ClassFile.classPath name) with _ | m
    · rfl
    · have hmem : m ∈ z.members := List.mem_reverse.1 (List.mem_of_find?_eq_some hfind)
      obtain ⟨content, hheld⟩ := Option.isSome_iff_exists.1 (h m hmem)
      obtain ⟨raw, hraw, hcontent⟩ := Zip.content?_eq_some.1 hheld
      simp only [Option.bind_some, hheld, hraw, hcontent]

/-- **An entry is read, passed over or ends the lookup**: it gives what it
holds unless it is obstructed. -/
theorem lookUp_eq (h : entry.isReadable t = true) :
    entry.lookUp t name = match entry.obstruction? t name with
      | some fault => .error (.read name (entry.path.join ⟨ClassFile.classPath name⟩) fault)
      | none => .ok (entry.held? t name) := by
  cases entry with
  | archive a =>
    exact lookUp_archive h
  | directory d =>
    unfold lookUp obstruction? held? path
    dsimp only [FileTree.read]
    rcases t.stat (d.join ⟨ClassFile.classPath name⟩) with fault | bytes | _ | target
    · cases fault <;> simp only [bind, Except.bind]
    · simp only [bind, Except.bind]
    · simp only [bind, Except.bind]
    · simp only [bind, Except.bind]

/-- A directory is obstructed where a regular file stands on the way to the
class path, that of the directory itself included. -/
theorem obstruction?_of_isFile {d q : Path} {rest : List String} (hfile : t.isFile q = true)
    (hrooted : q.isRooted = (d.join ⟨ClassFile.classPath name⟩).isRooted)
    (hsteps : FileTree.steps (d.join ⟨ClassFile.classPath name⟩) = FileTree.steps q ++ rest)
    (hrest : rest ≠ []) (htext : FileTree.textFault? (d.join ⟨ClassFile.classPath name⟩) = none) :
    (directory d).obstruction? t name = some .notDirectory := by
  rw [FileTree.isFile] at hfile
  split at hfile
  swap
  · cases hfile
  next bytes hstat =>
  obtain ⟨loc, hloc, hentry⟩ := FileTree.stat_ok.1 hstat
  obtain ⟨m, hm⟩ := (FileTree.leads_of_resolve hloc).chase_append
  obtain ⟨s, rest, rfl⟩ := List.exists_cons_of_ne_nil hrest
  have hresolve : t.resolve true (d.join ⟨ClassFile.classPath name⟩) = .error .notDirectory := by
    rw [FileTree.resolve_eq, htext, hsteps, FileTree.startOf, ← hrooted, ← FileTree.startOf]
    dsimp only
    rw [hm _ _ hrest, FileTree.chase_off (by simp [hentry]), hentry]
    rfl
  unfold obstruction? FileTree.stat
  simp only [hresolve, bind, Except.bind]

end ClasspathEntry

namespace Classpath

variable {t : FileTree} {name : String} {cp : Classpath} {entry : ClasspathEntry} {fault : Fault}

/-- What the first entry that holds a name has for it. -/
def firstHeld? (t : FileTree) (name : String) (cp : Classpath) : Option Bytes :=
  cp.findSome? (·.held? t name)

/-- Entries that neither hold a name nor are obstructed are passed over. -/
theorem lookUp_append {front : Classpath} (hreadable : ∀ e ∈ front, e.isReadable t = true)
    (hfront : ∀ e ∈ front, e.held? t name = none ∧ e.obstruction? t name = none)
    (back : Classpath) : lookUp t name (front ++ back) = lookUp t name back := by
  induction front with
  | nil => rfl
  | cons e front ih =>
    rw [List.forall_mem_cons] at hreadable hfront
    rw [List.cons_append, lookUp, ClasspathEntry.lookUp_eq hreadable.1, hfront.1.2, hfront.1.1]
    exact ih hreadable.2 hfront.2

/-- A lookup ends with the first entry that is obstructed, if none in front of
it holds the name. -/
theorem lookUp_obstructed {front back : Classpath}
    (hreadable : ∀ e ∈ front ++ entry :: back, e.isReadable t = true)
    (hfront : ∀ e ∈ front, e.held? t name = none ∧ e.obstruction? t name = none)
    (hentry : entry.obstruction? t name = some fault) :
    lookUp t name (front ++ entry :: back) =
      .error (.read name (entry.path.join ⟨ClassFile.classPath name⟩) fault) := by
  rw [lookUp_append (fun e he => hreadable e (List.mem_append_left _ he)) hfront, lookUp,
    ClasspathEntry.lookUp_eq (hreadable entry (List.mem_append_right _ List.mem_cons_self)), hentry]

/-- A lookup gives what the first entry that holds the name has, if none is
obstructed up to there. -/
theorem lookUp_clear (hreadable : ∀ e ∈ cp, e.isReadable t = true)
    (hclear : ∀ front entry back, cp = front ++ entry :: back →
      (∀ e ∈ front, e.held? t name = none) → entry.obstruction? t name = none) :
    lookUp t name cp = .ok (firstHeld? t name cp) := by
  induction cp with
  | nil => rfl
  | cons entry cp ih =>
    rw [List.forall_mem_cons] at hreadable
    have hentry := hclear [] entry cp rfl nofun
    rw [lookUp, ClasspathEntry.lookUp_eq hreadable.1, hentry, firstHeld?, List.findSome?_cons]
    rcases hheld : entry.held? t name with _ | bytes
    · refine ih hreadable.2 fun front e back hsplit hfront => ?_
      exact hclear (entry :: front) e back (by rw [hsplit, List.cons_append])
        (List.forall_mem_cons.2 ⟨hheld, hfront⟩)
    · rfl

/-- Of the entries up to one that is obstructed, the first that is so has none
in front of it. -/
theorem exists_first_obstructed (front back : Classpath)
    (hentry : entry.obstruction? t name ≠ none) :
    ∃ before e after fault, front ++ entry :: back = before ++ e :: after ∧ before <+: front ∧
      (∀ e ∈ before, e.obstruction? t name = none) ∧ e.obstruction? t name = some fault := by
  induction front with
  | nil =>
    obtain ⟨fault, hfault⟩ := Option.ne_none_iff_exists'.1 hentry
    exact ⟨[], entry, back, fault, rfl, List.nil_prefix, nofun, hfault⟩
  | cons e front ih =>
    rcases hfirst : e.obstruction? t name with _ | fault
    · obtain ⟨before, e', after, fault, hsplit, hbefore, hnone, hfault⟩ := ih
      refine ⟨e :: before, e', after, fault, by rw [List.cons_append, hsplit, List.cons_append],
        List.cons_prefix_cons.2 ⟨rfl, hbefore⟩, List.forall_mem_cons.2 ⟨hfirst, hnone⟩, hfault⟩
    · exact ⟨[], e, front ++ entry :: back, fault, rfl, List.nil_prefix, nofun, hfirst⟩

/-- **A lookup gives what the first entry that holds the name has, unless an
entry is in the way.** Where all archives can be read, it gives that, and
nothing if no entry holds the name, exactly if no entry up to the first holder
is obstructed; and the first that is ends the lookup with an error, whatever is
behind it. A directory is obstructed where a regular file stands on the way to
the class path, and where a directory stands at it. -/
theorem lookUp_first (hreadable : ∀ e ∈ cp, e.isReadable t = true) :
    (lookUp t name cp = .ok (firstHeld? t name cp) ↔
      ∀ front entry back, cp = front ++ entry :: back →
        (∀ e ∈ front, e.held? t name = none) → entry.obstruction? t name = none) ∧
      (∀ front entry back fault, cp = front ++ entry :: back →
        (∀ e ∈ front, e.held? t name = none ∧ e.obstruction? t name = none) →
          entry.obstruction? t name = some fault →
            lookUp t name cp =
              .error (.read name (entry.path.join ⟨ClassFile.classPath name⟩) fault)) ∧
      (∀ d q rest, t.isFile q = true →
        q.isRooted = (d.join ⟨ClassFile.classPath name⟩).isRooted →
          FileTree.steps (d.join ⟨ClassFile.classPath name⟩) = FileTree.steps q ++ rest →
            rest ≠ [] → FileTree.textFault? (d.join ⟨ClassFile.classPath name⟩) = none →
              (ClasspathEntry.directory d).obstruction? t name = some .notDirectory) ∧
      ∀ d, t.isDirectory (d.join ⟨ClassFile.classPath name⟩) = true →
        (ClasspathEntry.directory d).obstruction? t name = some .isDirectory := by
  refine ⟨⟨fun hfound front entry back hsplit hfront => ?_, lookUp_clear hreadable⟩, ?_, ?_, ?_⟩
  · by_contra hentry
    obtain ⟨before, e, after, fault, hfirst, hbefore, hnone, hfault⟩ :=
      exists_first_obstructed front back hentry
    rw [hsplit, hfirst] at hfound hreadable
    rw [lookUp_obstructed hreadable
      (fun e he => ⟨hfront e (hbefore.subset he), hnone e he⟩) hfault] at hfound
    cases hfound
  · rintro front entry back fault rfl hfront hentry
    exact lookUp_obstructed hreadable hfront hentry
  · exact fun d q rest => ClasspathEntry.obstruction?_of_isFile
  · intro d hdir
    rw [FileTree.isDirectory] at hdir
    split at hdir
    · next hstat =>
      unfold ClasspathEntry.obstruction?
      simp only [hstat]
    · cases hdir

/-- An archive with one stored member, `a/B.class`, of one octet. -/
def storedArchive : Bytes :=
  [0x50, 0x4b, 3, 4, 0x14, 0, 0, 0, 0, 0, 0, 0, 0x21, 0, 0x2e, 0x7a, 0x66, 0x4c, 1, 0, 0, 0, 1, 0,
    0, 0, 9, 0, 0, 0, 0x61, 0x2f, 0x42, 0x2e, 0x63, 0x6c, 0x61, 0x73, 0x73, 7,
    0x50, 0x4b, 1, 2, 0x14, 3, 0x14, 0, 0, 0, 0, 0, 0, 0, 0x21, 0, 0x2e, 0x7a, 0x66, 0x4c, 1, 0,
    0, 0, 1, 0, 0, 0, 9, 0, 0, 0, 0, 0, 0, 0, 0, 0, 0, 0, 0x80, 1, 0, 0, 0, 0, 0x61, 0x2f, 0x42,
    0x2e, 0x63, 0x6c, 0x61, 0x73, 0x73,
    0x50, 0x4b, 5, 6, 0, 0, 0, 0, 1, 0, 1, 0, 0x37, 0, 0, 0, 0x28, 0, 0, 0, 0, 0]

/-- Files with the archive, and with the class in two directories, of which the
first has a file where the other has the package. -/
def libraryFiles : FileTree where
  home := []
  entries := [(["lib.jar"], .file storedArchive), (["bare"], .directory), (["flat"], .directory),
    (["flat", "a"], .file []), (["late"], .directory), (["late", "a"], .directory),
    (["late", "a", "B.class"], .file [8])]

/-- Behind what is not there, and a directory without the package, the archive
gives the class. -/
theorem lookUp_first_archive :
    let cp := ofPaths [⟨"gone"⟩, ⟨"gone.jar"⟩, ⟨"bare"⟩, ⟨"lib.jar"⟩, ⟨"late"⟩]
    (∀ e ∈ cp, e.isReadable libraryFiles = true) ∧
      lookUp libraryFiles "a.B" cp = .ok (some [7]) := by
  intro cp
  obtain ⟨hreadable, hclear, hheld⟩ :
      (∀ e ∈ cp, e.isReadable libraryFiles = true) ∧
        (∀ e ∈ cp, e.obstruction? libraryFiles "a.B" = none) ∧
          firstHeld? libraryFiles "a.B" cp = some [7] := by decide +kernel
  have hfound := (lookUp_first hreadable).1.2 fun front entry back hsplit _ =>
    hclear entry (hsplit ▸ List.mem_append_right _ List.mem_cons_self)
  exact ⟨hreadable, hfound.trans (congrArg Except.ok hheld)⟩

/-- A file in the place of the package ends the lookup, though a directory
behind holds the class. -/
theorem lookUp_hidden :
    let cp := ofPaths [⟨"flat"⟩, ⟨"late"⟩]
    (∀ e ∈ cp, e.isReadable libraryFiles = true) ∧
      firstHeld? libraryFiles "a.B" cp = some [8] ∧
        lookUp libraryFiles "a.B" cp = .error (.read "a.B" ⟨"flat/a/B.class"⟩ .notDirectory) := by
  decide +kernel

end Classpath

end ClassWeave
