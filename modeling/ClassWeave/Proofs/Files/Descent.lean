import ClassWeave.Proofs.Files.Below
import ClassWeave.Proofs.Files.Spelling
/-!
# Files -- the way down to an output

A path heads for an entry (`FileTree.Heads`) if its segments lead to a
directory and names without links lead on from there, whether or not
anything stands at them. Where such a path leads is told by a plain descent
(`Heads.resolve`), which no link and no step up interrupts.

The directories on the way are made one after another as long as none is in
the way (`blocked?`), and those that are made or there already are known
beforehand (`cleared`). Both ask only where something else than a directory
stands (`isOpen`), so they stay the same while others make directories there.
-/


namespace ClassWeave

namespace FileTree

variable {t t' : FileTree} {p q : Path} {follow : Bool} {init : List (List Char)}
  {base loc r r' : Location} {names above : List String} {n : String} {bytes bytes' : Bytes}

/-! ## What is wrong with a text -/

/-- What is wrong with the text of a path, whatever the files are. -/
def textFault? (p : Path) : Option Fault :=
  if p.text.toList.any (· == Char.ofNat 0) then some .holdsNul
  else if p.text = "" then some .missing
  else if 4096 ≤ (Utf8.encode p.text).length then some .nameTooLong
  else none

/-- A path leads where its steps do, or something is wrong with its text. -/
theorem resolve_eq (t : FileTree) (follow : Bool) (p : Path) :
    t.resolve follow p = match textFault? p with
      | some fault => .error fault
      | none => t.chase follow 40 (t.startOf p) (steps p) := by
  unfold resolve textFault?
  split
  · rfl
  · split
    · rfl
    · split <;> rfl

/-- Only the empty text is that of nothing. -/
theorem textFault?_ne_missing (hp : p.text ≠ "") : textFault? p ≠ some .missing := by
  rw [textFault?, if_neg hp]
  split
  · nofun
  · split <;> nofun

/-- Nothing is wrong with what a text begins with, if nothing is with the
text. -/
theorem textFault?_beginning (hp : p.text ≠ "") (hbefore : p.text.toList <+: q.text.toList)
    (h : textFault? q = none) : textFault? p = none := by
  obtain ⟨cs, hcs⟩ := hbefore
  unfold textFault? at h ⊢
  rw [← hcs, List.any_append] at h
  split at h
  · cases h
  next hnul =>
  rw [Bool.or_eq_true, not_or] at hnul
  split at h
  · cases h
  split at h
  · cases h
  next hlong =>
  rw [if_neg hnul.1, if_neg hp, if_neg]
  rw [Utf8.encode, ← hcs, List.flatMap_append, List.length_append] at hlong
  rw [Utf8.encode]
  omega

/-- A path that is resolved leads there by its steps. -/
theorem leads_of_resolve (h : t.resolve follow p = .ok r) :
    Leads t follow 40 (t.startOf p) (steps p) r := by
  rw [resolve_eq] at h
  split at h
  · cases h
  · exact chase_ok.1 h

/-- **Paths that are the same lead to the same place**, if both lead
anywhere. -/
theorem resolve_of_same (hsame : p.same q = true) (hp : t.resolve true p = .ok r)
    (hq : t.resolve true q = .ok r') : r = r' := by
  obtain ⟨hrooted, hsteps⟩ := Path.steps_of_same hsame
  have hleads := (leads_of_resolve hp).undotted
  rw [hsteps, startOf, hrooted, ← startOf] at hleads
  exact Except.ok.inj ((chase_ok.2 hleads).symm.trans (chase_ok.2 (leads_of_resolve hq).undotted))

/-- What a path leads to stands where it leads. -/
theorem stat_ok {e : Entry} :
    t.stat p = .ok e ↔ ∃ r, t.resolve true p = .ok r ∧ t.entry? r = some e := by
  rw [stat]
  rcases t.resolve true p with fault | r
  · simp [bind, Except.bind]
  · rcases hentry : t.entry? r with _ | e' <;> simp [bind, Except.bind, hentry]

/-- What is read is the file that the path leads to. -/
theorem read_eq_ok : t.read p = .ok bytes ↔
    ∃ loc, t.resolve true p = .ok loc ∧ t.entry? loc = some (.file bytes) := by
  rw [read, stat]
  rcases t.resolve true p with fault | loc
  · simp [bind, Except.bind]
  · rcases hentry : t.entry? loc with _ | b | _ | target <;> simp [bind, Except.bind, hentry]

/-- So paths that are the same read the same. -/
theorem read_of_same (hsame : p.same q = true) (hp : t.read p = .ok bytes)
    (hq : t.read q = .ok bytes') : bytes = bytes' := by
  obtain ⟨loc, hloc, hentry⟩ := read_eq_ok.1 hp
  obtain ⟨loc', hloc', hentry'⟩ := read_eq_ok.1 hq
  rw [resolve_of_same hsame hloc hloc', hentry'] at hentry
  cases hentry
  rfl
/-! ## The descent -/

/-- A name that is too long for the operating system. -/
def isTooLong (n : String) : Bool := 255 < (Utf8.encode n).length

/-- Where names lead down from a location, one directory after another; the
last of them need not be there. -/
def descend (t : FileTree) : Location → List String → Except Fault Location
  | loc, [] => .ok loc
  | loc, n :: names =>
    match t.entry? loc with
    | none => .error .missing
    | some .directory =>
      if isTooLong n then .error .nameTooLong else descend t (loc ++ [n]) names
    | some _ => .error .notDirectory

/-- Nothing leads on from what is no directory. -/
theorem chase_off (hdir : t.entry? loc ≠ some .directory) (m : Nat) (s : String)
    (rest : List String) :
    t.chase follow m loc (s :: rest) =
      .error (if t.entry? loc = none then .missing else .notDirectory) := by
  rw [chase_eq]
  rcases hentry : t.entry? loc with _ | bytes | _ | target
  · simp only [chaseWith, hentry, if_true]
  · simp only [chaseWith, hentry, reduceCtorEq, if_false]
  · exact absurd hentry hdir
  · simp only [chaseWith, hentry, reduceCtorEq, if_false]

/-- Nor does a descent. -/
theorem descend_off (hdir : t.entry? loc ≠ some .directory) (n : String) (names : List String) :
    t.descend loc (n :: names) =
      .error (if t.entry? loc = none then .missing else .notDirectory) := by
  rw [descend]
  rcases hentry : t.entry? loc with _ | bytes | _ | target
  · rfl
  · rfl
  · exact absurd hentry hdir
  · rfl

/-- A name goes into a directory, where no link is. -/
theorem chase_name (hdir : t.entry? loc = some .directory) (hn : Path.IsName n)
    (hnolink : ∀ target, t.entry? (loc ++ [n]) ≠ some (.link target)) (m : Nat)
    (rest : List String) :
    t.chase follow m loc (n :: rest) =
      if isTooLong n then .error .nameTooLong else t.chase follow m (loc ++ [n]) rest := by
  by_cases hlong : (Utf8.encode n).length ≤ 255
  · have hshort : isTooLong n = false := by simpa [isTooLong] using hlong
    rw [chase_into hdir hn.ne_dot hn.ne_up hlong hnolink, hshort, if_neg Bool.false_ne_true]
  · have htoo : isTooLong n = true := by simpa [isTooLong] using hlong
    rw [chase_eq]
    simp only [chaseWith, hdir, if_neg hn.ne_dot, if_neg hn.ne_up, htoo, if_true,
      if_pos (Nat.not_le.1 hlong)]

/-- **Names lead down where no link is**, whatever lone dots are between
them. -/
theorem chase_names {dotted : List String}
    (hnames : ∀ s ∈ dotted.filter (· ≠ ".") ++ [n], Path.IsName s)
    (hlinks : ∀ below, below <+: dotted.filter (· ≠ ".") ++ [n] →
      ∀ target, t.entry? (loc ++ below) ≠ some (.link target)) (m : Nat) :
    t.chase follow m loc (dotted ++ [n]) =
      t.descend loc (dotted.filter (· ≠ ".") ++ [n]) := by
  -- on the steps; a lone dot leads on from a directory alone, as the last name does
  induction dotted generalizing loc with
  | nil =>
    have hnolink := hlinks [n] List.prefix_rfl
    rw [List.filter_nil, List.nil_append]
    by_cases hdir : t.entry? loc = some .directory
    · rw [chase_name hdir (hnames n List.mem_cons_self) hnolink, descend, hdir, chase_eq]
      rfl
    · rw [chase_off hdir, descend_off hdir]
  | cons s dotted ih =>
    by_cases hdir : t.entry? loc = some .directory
    · by_cases hs : s = "."
      · rw [List.filter_cons_of_neg (by simp [hs])] at hnames hlinks ⊢
        rw [List.cons_append, hs, chase_here hdir, ih hnames hlinks]
      · rw [List.filter_cons_of_pos (by simp [hs]), List.cons_append] at hnames hlinks ⊢
        rw [List.forall_mem_cons] at hnames
        have hrest := @ih (loc ++ [s]) hnames.2 fun below hbelow target => by
          rw [← List.append_cons]
          exact hlinks (s :: below) (List.cons_prefix_cons.2 ⟨rfl, hbelow⟩) target
        have hnolink := hlinks [s] (List.cons_prefix_cons.2 ⟨rfl, List.nil_prefix⟩)
        rw [List.cons_append, chase_name hdir hnames.1 hnolink, hrest, descend, hdir]
    · obtain ⟨first, rest, hrest⟩ :=
        List.exists_cons_of_ne_nil (show (s :: dotted).filter (· ≠ ".") ++ [n] ≠ [] by simp)
      rw [List.cons_append, chase_off hdir, hrest, descend_off hdir]

/-- What holds of every beginning of some names but themselves holds of
none of them, and of every such beginning behind the first. -/
theorem forall_beginning_cons {P : List String → Prop} :
    (∀ above below, n :: names = above ++ below → below ≠ [] → P above) ↔
      P [] ∧ ∀ above below, names = above ++ below → below ≠ [] → P (n :: above) := by
  constructor
  · intro h
    refine ⟨h [] _ rfl (List.cons_ne_nil _ _), fun above below hsplit hbelow => ?_⟩
    exact h (n :: above) below (by rw [hsplit, List.cons_append]) hbelow
  · rintro ⟨hnil, hcons⟩ above below hsplit hbelow
    rcases above with _ | ⟨m, above⟩
    · exact hnil
    · obtain ⟨rfl, hrest⟩ := List.cons.inj hsplit
      exact hcons above below hrest hbelow

/-- **Where a descent gets to**: the end of its names, none of them too long
and directories all the way. -/
theorem descend_ok : t.descend loc names = .ok r ↔
    r = loc ++ names ∧ (∀ n ∈ names, isTooLong n = false) ∧
      ∀ above below, names = above ++ below → below ≠ [] →
        t.entry? (loc ++ above) = some .directory := by
  induction names generalizing loc with
  | nil =>
    rw [descend, List.append_nil]
    refine ⟨fun h => ⟨(Except.ok.inj h).symm, nofun, fun above below hsplit hbelow => ?_⟩,
      fun h => congrArg Except.ok h.1.symm⟩
    exact absurd (List.append_eq_nil_iff.1 hsplit.symm).2 hbelow
  | cons n names ih =>
    rw [forall_beginning_cons, List.append_nil, List.forall_mem_cons, descend]
    rcases hentry : t.entry? loc with _ | bytes | _ | target
    · exact ⟨nofun, fun h => by cases h.2.2.1⟩
    · exact ⟨nofun, fun h => by cases h.2.2.1⟩
    · by_cases hlong : isTooLong n = true
      · simp only [hlong, if_true]
        exact ⟨nofun, fun h => by cases h.2.1.1⟩
      · rw [Bool.not_eq_true] at hlong
        simp only [hlong, Bool.false_eq_true, if_false, true_and]
        rw [ih, ← List.append_cons]
        simp only [← List.append_cons]
    · exact ⟨nofun, fun h => by cases h.2.2.1⟩

/-! ## What is in the way -/

/-- Whether a directory stands at a location, or may be made there. -/
def isOpen (t : FileTree) (loc : Location) : Bool :=
  match t.entry? loc with
  | none | some .directory => true
  | _ => false

theorem isOpen_iff :
    t.isOpen loc = true ↔ t.entry? loc = none ∨ t.entry? loc = some .directory := by
  unfold isOpen
  rcases t.entry? loc with _ | bytes | _ | target <;> simp

theorem descend_shut (h : t.isOpen loc = false) :
    t.descend loc (n :: names) = .error .notDirectory := by
  have hshut := mt isOpen_iff.2 (Bool.eq_false_iff.1 h)
  rw [not_or] at hshut
  rw [descend_off hshut.2, if_neg hshut.1]

/-- Why the directories of names cannot all be made below a location. -/
def blocked? (t : FileTree) : Location → List String → Option Fault
  | _, [] => none
  | loc, n :: names =>
    if isTooLong n then some .nameTooLong
    else if t.isOpen (loc ++ [n]) then blocked? t (loc ++ [n]) names
    else some (if names = [] then .present else .notDirectory)

/-- The directories of names below a location, as far as they can be made. -/
def cleared (t : FileTree) : Location → List String → List Location
  | _, [] => []
  | loc, n :: names =>
    if isTooLong n then []
    else if t.isOpen (loc ++ [n]) then (loc ++ [n]) :: cleared t (loc ++ [n]) names
    else []

/-- What a fault in the last place is further up. -/
def onward : Fault → Fault
  | .present => .notDirectory
  | fault => fault

/-- **What is in the way is a matter of what is open.** -/
theorem clearing_congr
    (h : ∀ below, below <+: names → below ≠ [] → t'.isOpen (loc ++ below) = t.isOpen (loc ++ below)) :
    t'.blocked? loc names = t.blocked? loc names ∧ t'.cleared loc names = t.cleared loc names := by
  induction names generalizing loc with
  | nil => exact ⟨rfl, rfl⟩
  | cons n names ih =>
    have hfirst := h [n] (List.cons_prefix_cons.2 ⟨rfl, List.nil_prefix⟩) (List.cons_ne_nil _ _)
    obtain ⟨hblocked, hcleared⟩ := @ih (loc ++ [n]) fun below hbelow _ => by
      rw [← List.append_cons]
      exact h (n :: below) (List.cons_prefix_cons.2 ⟨rfl, hbelow⟩) (List.cons_ne_nil _ _)
    rw [blocked?, blocked?, cleared, cleared, hfirst, hblocked, hcleared]
    exact ⟨rfl, rfl⟩

/-- What is in the way of one more directory. -/
theorem blocked?_concat : t.blocked? loc (above ++ [n]) =
    match t.blocked? loc above with
    | some fault => some (onward fault)
    | none =>
      if isTooLong n then some .nameTooLong
      else if t.isOpen (loc ++ (above ++ [n])) then none else some .present := by
  induction above generalizing loc with
  | nil => simp [blocked?]
  | cons m above ih =>
    rw [List.cons_append, blocked?, blocked?, ih]
    by_cases hlong : isTooLong m = true
    · simp [hlong, onward]
    · by_cases hopen : t.isOpen (loc ++ [m]) = true
      · simp [hlong, hopen]
      · rcases above with _ | ⟨k, above⟩ <;> simp [hlong, hopen, onward]

/-- One more directory is cleared, if nothing is in the way. -/
theorem cleared_concat : t.cleared loc (above ++ [n]) = t.cleared loc above ++
    if t.blocked? loc (above ++ [n]) = none then [loc ++ (above ++ [n])] else [] := by
  induction above generalizing loc with
  | nil =>
    by_cases hlong : isTooLong n = true <;> by_cases hopen : t.isOpen (loc ++ [n]) = true <;>
      simp [cleared, blocked?, hlong, hopen]
  | cons m above ih =>
    rw [List.cons_append, cleared, cleared, blocked?, ih]
    by_cases hlong : isTooLong m = true
    · simp [hlong]
    · by_cases hopen : t.isOpen (loc ++ [m]) = true
      · simp [hlong, hopen]
      · simp [hlong, hopen]

/-- What is cleared is on the way, and open. -/
theorem of_mem_cleared {l : Location} (h : l ∈ t.cleared loc names) :
    ∃ below, below <+: names ∧ below ≠ [] ∧ l = loc ++ below ∧ t.isOpen l = true := by
  induction names generalizing loc with
  | nil => cases h
  | cons n names ih =>
    rw [cleared] at h
    split at h
    · cases h
    split at h
    · next hopen =>
      rcases List.mem_cons.1 h with rfl | h
      · exact ⟨[n], List.cons_prefix_cons.2 ⟨rfl, List.nil_prefix⟩, List.cons_ne_nil _ _, rfl, hopen⟩
      · obtain ⟨below, hbelow, -, rfl, hopen⟩ := ih h
        refine ⟨n :: below, List.cons_prefix_cons.2 ⟨rfl, hbelow⟩, List.cons_ne_nil _ _, ?_, hopen⟩
        rw [← List.append_cons]
    · cases h

theorem isOpen_of_mem_cleared {l : Location} (h : l ∈ t.cleared loc names) : t.isOpen l = true := by
  obtain ⟨-, -, -, -, hopen⟩ := of_mem_cleared h
  exact hopen

theorem not_mem_cleared : loc ++ (above ++ [n]) ∉ t.cleared loc above := by
  intro h
  obtain ⟨below, hbelow, -, heq, -⟩ := of_mem_cleared h
  have hle := hbelow.length_le
  rw [← List.append_cancel_left heq, List.length_append, List.length_singleton] at hle
  omega

/-- If nothing is in the way, all names are short and their directory is
cleared. -/
theorem of_blocked?_eq_none (h : t.blocked? loc names = none) :
    (∀ n ∈ names, isTooLong n = false) ∧
      ∀ below, below <+: names → below ≠ [] → loc ++ below ∈ t.cleared loc names := by
  induction names generalizing loc with
  | nil => exact ⟨nofun, fun below hbelow hne => absurd (List.prefix_nil.1 hbelow) hne⟩
  | cons n names ih =>
    rw [blocked?] at h
    split at h
    · cases h
    next hlong =>
    split at h
    · next hopen =>
      obtain ⟨hshort, hcleared⟩ := ih h
      rw [Bool.not_eq_true] at hlong
      refine ⟨List.forall_mem_cons.2 ⟨hlong, hshort⟩, fun below hbelow hne => ?_⟩
      rw [cleared, hlong, if_neg Bool.false_ne_true, if_pos hopen, List.mem_cons]
      rcases below with _ | ⟨m, below⟩
      · exact absurd rfl hne
      · obtain ⟨rfl, hrest⟩ := List.cons_prefix_cons.1 hbelow
        rcases eq_or_ne below [] with rfl | hne
        · exact .inl rfl
        · have hmem := hcleared below hrest hne
          rw [← List.append_cons] at hmem
          exact .inr hmem
    · cases h

/-- Nothing is in the way of short names whose locations are all open. -/
theorem blocked?_eq_none (hshort : ∀ n ∈ names, isTooLong n = false)
    (hopen : ∀ below, below <+: names → below ≠ [] → t.isOpen (loc ++ below) = true) :
    t.blocked? loc names = none := by
  induction names generalizing loc with
  | nil => rfl
  | cons n names ih =>
    rw [List.forall_mem_cons] at hshort
    have hfirst := hopen [n] (List.cons_prefix_cons.2 ⟨rfl, List.nil_prefix⟩) (List.cons_ne_nil _ _)
    rw [blocked?, hshort.1, if_neg Bool.false_ne_true, if_pos hfirst]
    refine ih hshort.2 fun below hbelow _ => ?_
    rw [← List.append_cons]
    exact hopen (n :: below) (List.cons_prefix_cons.2 ⟨rfl, hbelow⟩) (List.cons_ne_nil _ _)

/-- Below where nothing stands, nothing does. -/
theorem IsTree.vacant (h : t.IsTree) (hnone : t.entry? loc = none) (below : List String) :
    t.entry? (loc ++ below) = none := by
  rcases hentry : t.entry? (loc ++ below) with _ | e
  · rfl
  · rcases eq_or_ne below [] with rfl | hne
    · rw [List.append_nil, hnone] at hentry
      cases hentry
    · have hsome : (t.entry? (loc ++ below)).isSome := by rw [hentry]; rfl
      have hdir := (h.of_isSome hsome).2 [] below rfl hne
      rw [List.append_nil, hnone] at hdir
      cases hdir

/-- Only long names are in the way where nothing stands. -/
theorem IsTree.blocked?_vacant (h : t.IsTree) (hnone : t.entry? loc = none) {fault : Fault}
    (hblocked : t.blocked? loc names = some fault) : fault = .nameTooLong := by
  induction names generalizing loc with
  | nil => cases hblocked
  | cons n names ih =>
    have hnext := h.vacant hnone [n]
    rw [blocked?, isOpen, hnext] at hblocked
    split at hblocked
    · exact (Option.some.inj hblocked).symm
    · rw [if_pos rfl] at hblocked
      exact ih hnext hblocked

/-- **The descent to an entry**: the directories in front of it are there,
and only its own name can be too long; or one of them is missing; or
something is in the way of them. -/
theorem IsTree.descend_cases (h : t.IsTree) (hdir : t.entry? loc = some .directory)
    (above : List String) (n : String) :
    (t.entry? (loc ++ above) = some .directory ∧ t.blocked? loc above = none ∧
        t.descend loc (above ++ [n]) =
          if isTooLong n then .error .nameTooLong else .ok (loc ++ (above ++ [n]))) ∨
      (t.entry? (loc ++ above) = none ∧
        (∀ fault, t.blocked? loc above = some fault → fault = .nameTooLong) ∧
        t.descend loc (above ++ [n]) = .error .missing) ∨
      ∃ fault, t.blocked? loc above = some fault ∧ onward fault ≠ .missing ∧
        (∀ l ∈ t.cleared loc above, t.entry? l = some .directory) ∧
        t.descend loc (above ++ [n]) = .error (onward fault) := by
  induction above generalizing loc with
  | nil =>
    left
    rw [List.append_nil]
    exact ⟨hdir, rfl, by rw [List.nil_append, descend, hdir]; rfl⟩
  | cons m above ih =>
    rw [List.cons_append, descend, hdir, List.append_cons loc m above,
      List.append_cons loc m (above ++ [n])]
    by_cases hlong : isTooLong m = true
    · refine .inr (.inr ⟨.nameTooLong, by rw [blocked?, if_pos hlong], nofun, ?_, ?_⟩)
      · rw [cleared, if_pos hlong]
        nofun
      · simp only [hlong, if_true]
        rfl
    rw [Bool.not_eq_true] at hlong
    simp only [blocked?, cleared, hlong, Bool.false_eq_true, if_false]
    obtain ⟨k, rest, hrest⟩ := List.exists_cons_of_ne_nil (show above ++ [n] ≠ [] by simp)
    by_cases hopen : t.isOpen (loc ++ [m]) = true
    · simp only [hopen, if_true]
      rcases isOpen_iff.1 hopen with hnone | hdir'
      · refine .inr (.inl ⟨h.vacant hnone above, fun fault hfault => ?_, ?_⟩)
        · exact h.blocked?_vacant hnone hfault
        · rw [hrest, descend, hnone]
      · rcases ih hdir' with hthere | hmissing | ⟨fault, hblocked, hne, hcleared, hdescend⟩
        · exact .inl hthere
        · exact .inr (.inl hmissing)
        · exact .inr (.inr
            ⟨fault, hblocked, hne, List.forall_mem_cons.2 ⟨hdir', hcleared⟩, hdescend⟩)
    · rw [Bool.not_eq_true] at hopen
      simp only [hopen, Bool.false_eq_true, if_false]
      rw [hrest, descend_shut hopen]
      refine .inr (.inr ⟨_, rfl, ?_, nofun, ?_⟩)
      · split <;> nofun
      · split <;> rfl

/-- Where the directories in front of an entry are there, the descent gets to
it. -/
theorem IsTree.descend_there (h : t.IsTree) (hbase : t.entry? loc = some .directory)
    (hdir : t.entry? (loc ++ above) = some .directory) (hblocked : t.blocked? loc above = none) :
    t.descend loc (above ++ [n]) =
      if isTooLong n then .error .nameTooLong else .ok (loc ++ (above ++ [n])) := by
  rcases h.descend_cases hbase above n with ⟨-, -, hdescend⟩ | ⟨hnone, -⟩ | ⟨fault, hfault, -⟩
  · exact hdescend
  · rw [hdir] at hnone
    cases hnone
  · rw [hblocked] at hfault
    cases hfault

/-- **A path that heads for an entry**: its segments lead to a directory,
and the names behind them go on without a link. -/
structure Heads (t : FileTree) (q : Path) (init : List (List Char)) (base : Location)
    (names : List String) : Prop where
  spells : q.Spells init names
  leads : Leads t true 40 (t.startOf q) (stepsOf init) base
  directory : t.entry? base = some .directory
  linkless : ∀ below, below <+: names → ∀ target, t.entry? (base ++ below) ≠ some (.link target)

namespace Heads

/-- **Such a path leads where the names do**, if nothing is wrong with its
text. -/
theorem resolve (h : t.Heads q init base names) (follow : Bool) :
    t.resolve follow q = match textFault? q with
      | some fault => .error fault
      | none => t.descend base names := by
  obtain ⟨above, n, rfl, -⟩ := h.spells.exists_concat
  obtain ⟨dotted, hsteps, rfl⟩ := h.spells.steps
  obtain ⟨m, hm⟩ := h.leads.chase_append
  rw [resolve_eq, hsteps, hm _ _ (by simp), chase_names h.spells.isName h.linkless]

/-- It does so in a tree that has grown. -/
theorem grown (h : t.Heads q init base names) (hgrown : Grown t t') :
    t'.Heads q init base names where
  spells := h.spells
  leads := by
    rw [startOf, hgrown.home]
    exact h.leads.grown hgrown
  directory := hgrown.directory _ h.directory
  linkless below hbelow target hentry := h.linkless below hbelow target ((hgrown.link _ _).1 hentry)

end Heads

end FileTree

end ClassWeave
