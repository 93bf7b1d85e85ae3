import ClassWeave.Proofs.Files.Ordered
import ClassWeave.Proofs.Files.Within
/-!
# Scan -- the flat walk and the recursive listing

A scan goes through the visits of a walk one after another and keeps a list of
the directories that it has given up. The recursive procedure
(`Listing.failFast`) lists a directory in order, goes into the directories in
it, and ends the directory's listing at the first entry that fails. Both come
to the same (`collect_eq_reportOf`): where no directory that was given up is
on the way to what a listing comes to, going through the listing adds what the
procedure finds, and gives up directories in it only (`comesTo_visitsFrom`).

Which entries are left out can be told from the visits alone
(`Scan.isLeftOut`): those behind one that fails, in its directory or below. All
others come to what they come to by themselves (`accounts_failFast`).
-/


namespace ClassWeave

open FileTree (octetsOf)

namespace Scan

/-! ## Outcomes -/

/-- What an entry comes to. -/
inductive Outcome where
  | unit (u : ScannedUnit)
  | misplaced (path : Path)
  | failure (path : Path) (cause : String) (event : Event)

namespace Outcome

/-- The unit, if it is one. -/
def unit? : Outcome → Option ScannedUnit
  | .unit u => some u
  | _ => none

/-- The path of a source among the class files. -/
def misplaced? : Outcome → Option Path
  | .misplaced path => some path
  | _ => none

/-- The error of a failure. -/
def error? : Outcome → Option StructuralError
  | .failure path cause _ => some (.unreadableEntry path cause)
  | _ => none

/-- What is reported as it happens. -/
def event? : Outcome → Option Event
  | .unit _ => none
  | .misplaced path => some (.sourceMisplaced path)
  | .failure _ _ event => some event

end Outcome

/-- **What an entry comes to by itself**: a class file that can be read is a
unit, a source is out of place, and what cannot be listed, or is a class file
that cannot be read, is a failure. All else is passed over. -/
def outcome? (root : Path) (v : Visit) : Option Outcome :=
  let path := pathOf root v.names
  match v.sight with
  | .directory => none
  | .unlisted fault => some (.failure path fault.message (.entryUnlisted path fault.message))
  | .file content =>
    let extension := (relativePath v.names).extension?
    if extension = some "class" then
      match content with
      | .ok bytes => some (.unit ⟨relativePath v.names, path, bytes⟩)
      | .error fault => some (.failure path fault.message (.classUnreadable path fault.message))
    else if extension = some "java" then some (.misplaced path)
    else none

/-- Whether an entry fails. -/
def fails (root : Path) (v : Visit) : Bool := ((outcome? root v).bind Outcome.error?).isSome

/-- The report of outcomes, with the number of entries left out. -/
def reportOf (found : List Outcome × Nat) : ScanReport × List Event :=
  (⟨found.1.filterMap Outcome.unit?, found.1.filterMap Outcome.error?,
    found.1.filterMap Outcome.misplaced?, found.2⟩, found.1.filterMap Outcome.event?)

/-- **A listing goes on behind an entry**, unless the entry failed: then what is
left of the directory is left out. -/
def goOn (outcome : Option Outcome) (left : Nat) (rest : List Outcome × Nat) :
    List Outcome × Nat :=
  match outcome with
  | none => rest
  | some (.failure path cause event) => ([.failure path cause event], left)
  | some o => (o :: rest.1, rest.2)

end Scan

/-- **The recursive listing of a directory**, which ends at the first entry that
fails: what its entries come to, in order, and how many are left out. If asked
to, it goes into the directories on its way; a failure in one of them ends the
listing of that one alone. -/
def Listing.failFast (root : Path) (recursive : Bool) (above : List String) :
    Listing → List Scan.Outcome × Nat
  | .done => ([], 0)
  | .file name content rest =>
    Scan.goOn (Scan.outcome? root ⟨above ++ [name], .file content⟩)
      ((rest.upTo recursive).visitsFrom above).length (failFast root recursive above rest)
  | .directory name inside rest =>
    let behind := failFast root recursive above rest
    if recursive then
      let below := failFast root recursive (above ++ [name]) inside
      (below.1 ++ behind.1, below.2 + behind.2)
    else behind
  | .unlisted name fault rest =>
    Scan.goOn (Scan.outcome? root ⟨above ++ [name], .unlisted fault⟩)
      ((rest.upTo recursive).visitsFrom above).length (failFast root recursive above rest)

namespace Scan

variable {root : Path} {s : Progress} {v w : Visit} {visits rest : List Visit} {above : List String}
  {name : String} {found : List Outcome × Nat} {l : Listing}

/-- Not to go into directories is to list them empty. -/
theorem failFast_upTo (root : Path) (recursive : Bool) (l : Listing) (above : List String) :
    (l.upTo recursive).failFast root true above = l.failFast root recursive above := by
  induction l generalizing above with
  | done => rfl
  | file name content rest ih =>
    rw [Listing.upTo, Listing.failFast, Listing.failFast, Listing.upTo_true, ih]
  | directory name inside rest _ ih =>
    cases recursive with
    | true => rw [Listing.upTo_true]
    | false =>
      rw [Listing.upTo, Listing.failFast, Listing.failFast, ih, if_neg Bool.false_ne_true,
        if_pos rfl, if_neg Bool.false_ne_true, Listing.failFast]
      simp
  | unlisted name fault rest ih =>
    rw [Listing.upTo, Listing.failFast, Listing.failFast, Listing.upTo_true, ih]

/-- An entry that fails comes to a failure. -/
theorem of_fails (h : fails root v = true) :
    ∃ path cause event, outcome? root v = some (.failure path cause event) := by
  rw [fails] at h
  rcases houtcome : outcome? root v with _ | (u | path | ⟨path, cause, event⟩) <;>
    rw [houtcome] at h
  · cases h
  · cases h
  · cases h
  · exact ⟨path, cause, event, rfl⟩

/-- Behind an entry that does not fail, what it comes to is added. -/
theorem goOn_of_not_fails (h : fails root v = false) (left : Nat) (rest : List Outcome × Nat) :
    goOn (outcome? root v) left rest = ((outcome? root v).toList ++ rest.1, rest.2) := by
  rw [fails] at h
  rcases houtcome : outcome? root v with _ | (u | path | ⟨path, cause, event⟩) <;>
    rw [houtcome] at h
  · rfl
  · rfl
  · rfl
  · cases h

/-! ## The flat walk -/

/-- A scan that has found more, left out more and given up more directories. -/
def Progress.after (s : Progress) (found : List Outcome × Nat) (closed : List (List String)) :
    Progress where
  found :=
    { units := s.found.units ++ found.1.filterMap Outcome.unit?
      errors := s.found.errors ++ found.1.filterMap Outcome.error?
      misplaced := s.found.misplaced ++ found.1.filterMap Outcome.misplaced?
      abandoned := s.found.abandoned + found.2 }
  closed := closed ++ s.closed
  events := s.events ++ found.1.filterMap Outcome.event?

theorem Progress.after_nil (s : Progress) : s.after ([], 0) [] = s := by
  simp [Progress.after]

theorem Progress.after_after (s : Progress) (found more : List Outcome × Nat)
    (closed closed' : List (List String)) :
    (s.after found closed).after more closed' =
      s.after (found.1 ++ more.1, found.2 + more.2) (closed' ++ closed) := by
  simp [Progress.after, List.append_assoc, Nat.add_assoc]

/-- A visit in a directory that was given up, or below one, is only counted. -/
theorem visit_closed (h : ∃ d ∈ s.closed, d <+: v.names) :
    s.visit root v = s.after ([], 1) [] := by
  have hclosed : (s.closed.any fun d => d.isPrefixOf v.names) = true := by
    simpa [List.any_eq_true] using h
  simp [Progress.visit, hclosed, Progress.after]

/-- **A visit elsewhere** adds what the entry comes to by itself, and gives up
the directory if that is a failure. -/
theorem visit_open (root : Path) (h : ∀ d ∈ s.closed, ¬ d <+: v.names) :
    s.visit root v = s.after ((outcome? root v).toList, 0)
      (if fails root v then [v.names.dropLast] else []) := by
  have hopen : (s.closed.any fun d => d.isPrefixOf v.names) = false := by
    simpa [List.any_eq_false] using h
  rw [Progress.visit]
  simp only [hopen, Bool.false_eq_true, if_false]
  rcases hsight : v.sight with content | _ | fault
  · by_cases hclass : (relativePath v.names).extension? = some "class"
    · rcases content with fault | bytes <;>
        simp [fails, outcome?, hsight, hclass, Progress.after, Progress.fail, Outcome.unit?,
          Outcome.misplaced?, Outcome.error?, Outcome.event?]
    · by_cases hjava : (relativePath v.names).extension? = some "java" <;>
        simp [fails, outcome?, hsight, hclass, hjava, Progress.after, Outcome.unit?,
          Outcome.misplaced?, Outcome.error?, Outcome.event?]
  · simp [fails, outcome?, hsight, Progress.after]
  · simp [fails, outcome?, hsight, Progress.after, Progress.fail, Outcome.unit?,
      Outcome.misplaced?, Outcome.error?, Outcome.event?]

/-- Below a directory that was given up all visits are only counted. -/
theorem foldl_closed (h : ∃ d ∈ s.closed, ∀ v ∈ visits, d <+: v.names) :
    visits.foldl (Progress.visit root) s = s.after ([], visits.length) [] := by
  induction visits generalizing s with
  | nil => exact s.after_nil.symm
  | cons v visits ih =>
    obtain ⟨d, hd, hbelow⟩ := h
    rw [List.forall_mem_cons] at hbelow
    have hstep : s.visit root v = s.after ([], 1) [] := visit_closed ⟨d, hd, hbelow.1⟩
    have hrest := ih (s := s.after ([], 1) []) ⟨d, hd, hbelow.2⟩
    rw [List.foldl_cons, hstep, hrest, Progress.after_after, List.length_cons, Nat.add_comm]
    rfl

/-- **What is open to a scan**: no directory that was given up is on the way to
any of the visits. -/
def Progress.IsOpen (s : Progress) (visits : List Visit) : Prop :=
  ∀ d ∈ s.closed, ∀ v ∈ visits, ¬ d <+: v.names

/-- **What a scan comes to by visits in a directory and below**: it finds so
much more, and has given up directories there only. -/
def ComesTo (root : Path) (above : List String) (s : Progress) (visits : List Visit)
    (found : List Outcome × Nat) : Prop :=
  ∃ closed, (∀ d ∈ closed, above <+: d) ∧
    visits.foldl (Progress.visit root) s = s.after found closed

/-- **An entry of a directory and what is behind it**: the scan goes on behind
it as the recursive listing does. -/
theorem comesTo_entry (root : Path) (hv : v.names = above ++ [name]) (hopen : s.IsOpen (v :: rest))
    (hbelow : ∀ w ∈ rest, above <+: w.names)
    (ih : ∀ s : Progress, s.IsOpen rest → ComesTo root above s rest found) :
    ComesTo root above s (v :: rest) (goOn (outcome? root v) rest.length found) := by
  have hstep := visit_open (s := s) root fun d hd => hopen d hd v List.mem_cons_self
  have hrest : s.IsOpen rest := fun d hd w hw => hopen d hd w (List.mem_cons_of_mem _ hw)
  rw [ComesTo, List.foldl_cons, hstep]
  rcases hfails : fails root v with _ | _
  · obtain ⟨closed, hclosed, hfold⟩ := ih (s.after ((outcome? root v).toList, 0) []) hrest
    refine ⟨closed, hclosed, ?_⟩
    rw [if_neg Bool.false_ne_true, hfold, Progress.after_after, goOn_of_not_fails hfails,
      List.append_nil, Nat.zero_add]
  · -- the directory is given up, and all that is left of it is counted
    obtain ⟨path, cause, event, houtcome⟩ := of_fails hfails
    refine ⟨[above], by simp, ?_⟩
    rw [if_pos rfl, hv, List.dropLast_concat, houtcome,
      foldl_closed ⟨above, List.mem_cons_self, hbelow⟩, Progress.after_after]
    simp [goOn]

theorem prefix_of_mem_visitsFrom (h : v ∈ l.visitsFrom above) : above <+: v.names := by
  obtain ⟨n, -, below, hnames⟩ := Listing.exists_head_of_mem h
  exact hnames ▸ List.prefix_append _ _

/-- **A scan of a listing in order comes to what the recursive listing does**,
whatever it has found and given up before, if that is not on the way. -/
theorem comesTo_visitsFrom (root : Path) (h : l.Ordered) (above : List String) (s : Progress)
    (hopen : s.IsOpen (l.visitsFrom above)) :
    ComesTo root above s (l.visitsFrom above) (l.failFast root true above) := by
  induction h generalizing above s with
  | done => exact ⟨[], List.forall_mem_nil _, s.after_nil.symm⟩
  | @file name content rest _ _ _ ih =>
    have hentry := comesTo_entry (v := ⟨above ++ [name], .file content⟩) root rfl hopen
      (fun w => prefix_of_mem_visitsFrom) (ih above)
    rwa [Listing.failFast, Listing.upTo_true]
  | @directory name inside rest _ hlt _ _ ihInside ih =>
    have hopenInside : s.IsOpen (inside.visitsFrom (above ++ [name])) := fun d hd w hw =>
      hopen d hd w (List.mem_cons_of_mem _ (List.mem_append_left _ hw))
    obtain ⟨closed, hclosed, hfold⟩ := ihInside (above ++ [name]) s hopenInside
    -- what was given up in the directory is not on the way to the entries behind it
    have hopenRest : (s.after (inside.failFast root true (above ++ [name])) closed).IsOpen
        (rest.visitsFrom above) := by
      intro d hd w hw hway
      rcases List.mem_append.1 hd with hd | hd
      · obtain ⟨n, hn, below, hnames⟩ := Listing.exists_head_of_mem hw
        have hsame := (hclosed d hd).trans hway
        rw [hnames, List.prefix_append_right_inj, List.singleton_prefix_cons_iff] at hsame
        have hself := hlt n hn
        rw [hsame] at hself
        exact List.lt_irrefl _ hself
      · exact hopen d hd w (List.mem_cons_of_mem _ (List.mem_append_right _ hw)) hway
    obtain ⟨closed', hclosed', hfold'⟩ := ih above _ hopenRest
    have hstep : s.visit root ⟨above ++ [name], .directory⟩ = s := by
      rw [visit_open root fun d hd => hopen d hd _ List.mem_cons_self]
      exact s.after_nil
    refine ⟨closed' ++ closed, fun d hd => ?_, ?_⟩
    · rcases List.mem_append.1 hd with hd | hd
      · exact hclosed' d hd
      · exact (List.prefix_append _ _).trans (hclosed d hd)
    · rw [Listing.visitsFrom, List.cons_append, List.foldl_cons, hstep, List.foldl_append, hfold,
        hfold', Progress.after_after, Listing.failFast, if_pos rfl]
  | @unlisted name fault rest _ _ _ ih =>
    have hentry := comesTo_entry (v := ⟨above ++ [name], .unlisted fault⟩) root rfl hopen
      (fun w => prefix_of_mem_visitsFrom) (ih above)
    rwa [Listing.failFast, Listing.upTo_true]

/-- **A scan reports what the recursive listing finds.** -/
theorem collect_eq_reportOf (h : l.Ordered) (root : Path) (recursive : Bool) :
    collect root (l.upTo recursive).visits = reportOf (l.failFast root recursive []) := by
  obtain ⟨closed, -, hfold⟩ := comesTo_visitsFrom root (h.upTo recursive) []
    ⟨⟨[], [], [], 0⟩, [], []⟩ (List.forall_mem_nil _)
  rw [collect, Listing.visits, hfold, failFast_upTo]
  simp [reportOf, Progress.after]

/-! ## What is left out -/

/-- **Whether an entry is left out**: one that fails comes in front of it, and
it is in the directory of that one or below. -/
def isLeftOut (root : Path) (visits : List Visit) (v : Visit) : Bool :=
  visits.any fun w => fails root w && w.names.dropLast.isPrefixOf v.names &&
    decide (octetsOf w.names < octetsOf v.names)

/-- An entry is not left out for those that do not come in front of it, or
whose directories it is not below. -/
theorem isLeftOut_eq_false (h : ∀ w ∈ visits, octetsOf w.names < octetsOf v.names →
    ¬ w.names.dropLast <+: v.names) : isLeftOut root visits v = false := by
  rw [isLeftOut, List.any_eq_false]
  intro w hw hleft
  rw [Bool.and_eq_true, Bool.and_eq_true, List.isPrefixOf_iff_prefix, decide_eq_true_eq] at hleft
  exact h w hw hleft.2 hleft.1.2

theorem isLeftOut_cons_of_not_fails (h : fails root w = false) (visits : List Visit) (v : Visit) :
    isLeftOut root (w :: visits) v = isLeftOut root visits v := by
  rw [isLeftOut, List.any_cons, h, Bool.false_and, Bool.false_and, Bool.false_or, isLeftOut]

/-- **The accounts of a listing**: what it finds is what those of its entries
come to by themselves that are not left out, and it counts those that are. -/
structure Accounts (root : Path) (visits : List Visit) (found : List Outcome × Nat) : Prop where
  outcomes : found.1 = (visits.filter fun v => !isLeftOut root visits v).filterMap (outcome? root)
  leftOut : found.2 = (visits.filter (isLeftOut root visits)).length

/-- The accounts of an entry and of what is behind it. -/
theorem accounts_entry (hv : v.names = above ++ [name]) (hbelow : ∀ w ∈ rest, above <+: w.names)
    (hfront : ∀ w ∈ rest, octetsOf v.names < octetsOf w.names) (ih : Accounts root rest found) :
    Accounts root (v :: rest) (goOn (outcome? root v) rest.length found) := by
  have hown : isLeftOut root (v :: rest) v = false := by
    refine isLeftOut_eq_false fun w hw hlt => absurd hlt ?_
    rcases List.mem_cons.1 hw with rfl | hw
    · exact List.lt_irrefl _
    · exact List.lt_asymm (hfront w hw)
  have hcons : ∀ vs : List Visit, (v :: vs).filterMap (outcome? root) =
      (outcome? root v).toList ++ vs.filterMap (outcome? root) := by
    intro vs
    rw [List.filterMap_cons]
    cases outcome? root v <;> rfl
  rcases hfails : fails root v with _ | _
  · have hsame := isLeftOut_cons_of_not_fails hfails rest
    rw [goOn_of_not_fails hfails]
    constructor
    · rw [List.filter_cons_of_pos (by rw [hown]; rfl), hcons, ih.outcomes]
      simp only [hsame]
    · rw [List.filter_cons_of_neg (by rw [hown]; exact Bool.false_ne_true), ih.leftOut,
        List.filter_congr fun w _ => hsame w]
  · have hall : ∀ w ∈ rest, isLeftOut root (v :: rest) w = true := by
      intro w hw
      rw [isLeftOut, List.any_cons, hfails, hv, List.dropLast_concat,
        List.isPrefixOf_iff_prefix.2 (hbelow w hw), ← hv, decide_eq_true (hfront w hw)]
      rfl
    obtain ⟨path, cause, event, houtcome⟩ := of_fails hfails
    constructor
    · have hnone : rest.filter (fun w => !isLeftOut root (v :: rest) w) = [] := by
        rw [List.filter_eq_nil_iff]
        intro w hw
        rw [hall w hw]
        exact Bool.false_ne_true
      rw [List.filter_cons_of_pos (by rw [hown]; rfl), hcons, hnone, houtcome]
      rfl
    · rw [List.filter_cons_of_neg (by rw [hown]; exact Bool.false_ne_true),
        List.filter_eq_self.2 hall, houtcome]
      rfl

/-- The accounts of a directory, of what is in it and of what is behind it. -/
theorem accounts_directory {within behind : List Visit} {below more : List Outcome × Nat}
    (hv : outcome? root v = none)
    (hown : ∀ w ∈ within ++ behind, octetsOf v.names < octetsOf w.names)
    (hcross : ∀ u ∈ within, ∀ w ∈ behind, octetsOf u.names < octetsOf w.names)
    (hapart : ∀ u ∈ within, ∀ w ∈ behind, ¬ u.names.dropLast <+: w.names)
    (hwithin : Accounts root within below) (hbehind : Accounts root behind more) :
    Accounts root (v :: (within ++ behind)) (below.1 ++ more.1, below.2 + more.2) := by
  have hfails : fails root v = false := by rw [fails, hv]; rfl
  have hself : isLeftOut root (v :: (within ++ behind)) v = false := by
    refine isLeftOut_eq_false fun w hw hlt => absurd hlt ?_
    rcases List.mem_cons.1 hw with rfl | hw
    · exact List.lt_irrefl _
    · exact List.lt_asymm (hown w hw)
  -- neither of the two has a say in what is left out of the other
  have hleft : ∀ u ∈ within,
      isLeftOut root (v :: (within ++ behind)) u = isLeftOut root within u := by
    intro u hu
    have hnone : isLeftOut root behind u = false :=
      isLeftOut_eq_false fun w hw hlt => absurd hlt (List.lt_asymm (hcross u hu w hw))
    rw [isLeftOut_cons_of_not_fails hfails, isLeftOut, List.any_append, ← isLeftOut, ← isLeftOut,
      hnone, Bool.or_false]
  have hright : ∀ w ∈ behind,
      isLeftOut root (v :: (within ++ behind)) w = isLeftOut root behind w := by
    intro w hw
    have hnone : isLeftOut root within w = false :=
      isLeftOut_eq_false fun u hu _ => hapart u hu w hw
    rw [isLeftOut_cons_of_not_fails hfails, isLeftOut, List.any_append, ← isLeftOut, ← isLeftOut,
      hnone, Bool.false_or]
  constructor
  · rw [List.filter_cons_of_pos (by rw [hself]; rfl), List.filterMap_cons_none hv,
      List.filter_append, List.filterMap_append, hwithin.outcomes, hbehind.outcomes,
      List.filter_congr fun u hu => congrArg (!·) (hleft u hu),
      List.filter_congr fun w hw => congrArg (!·) (hright w hw)]
  · rw [List.filter_cons_of_neg (by rw [hself]; exact Bool.false_ne_true), List.filter_append,
      List.length_append, hwithin.leftOut, hbehind.leftOut, List.filter_congr hleft,
      List.filter_congr hright]

/-- **The recursive listing keeps accounts**: no entry is counted twice, and
none of them is missing. -/
theorem accounts_failFast (root : Path) (h : l.Ordered) (above : List String) :
    Accounts root (l.visitsFrom above) (l.failFast root true above) := by
  have hfront := fun above => h.pairwise_visitsFrom above
  induction h generalizing above with
  | done => exact ⟨rfl, rfl⟩
  | @file name content rest hname hlt hrest ih =>
    have hentry := accounts_entry (v := ⟨above ++ [name], .file content⟩) rfl
      (fun w => prefix_of_mem_visitsFrom) (List.pairwise_cons.1 (hfront above)).1
      (ih above hrest.pairwise_visitsFrom)
    rwa [Listing.failFast, Listing.upTo_true]
  | @directory name inside rest hname hlt hinside hrest ihInside ih =>
    have hsorted := hfront above
    rw [Listing.visitsFrom, List.cons_append, List.pairwise_cons, List.pairwise_append] at hsorted
    obtain ⟨hown, -, -, hcross⟩ := hsorted
    have hapart : ∀ u ∈ inside.visitsFrom (above ++ [name]), ∀ w ∈ rest.visitsFrom above,
        ¬ u.names.dropLast <+: w.names := by
      intro u hu w hw hway
      obtain ⟨m, -, below, hu⟩ := Listing.exists_head_of_mem hu
      obtain ⟨n, hn, below', hw⟩ := Listing.exists_head_of_mem hw
      rw [hu, hw, List.dropLast_append_of_ne_nil (List.cons_ne_nil _ _), List.append_assoc,
        List.prefix_append_right_inj, List.singleton_append, List.cons_prefix_cons] at hway
      have hself := hlt n hn
      rw [hway.1] at hself
      exact List.lt_irrefl _ hself
    have hall := accounts_directory (v := ⟨above ++ [name], .directory⟩) rfl hown
      hcross hapart (ihInside _ hinside.pairwise_visitsFrom) (ih _ hrest.pairwise_visitsFrom)
    rwa [Listing.failFast, if_pos rfl]
  | @unlisted name fault rest hname hlt hrest ih =>
    have hentry := accounts_entry (v := ⟨above ++ [name], .unlisted fault⟩) rfl
      (fun w => prefix_of_mem_visitsFrom) (List.pairwise_cons.1 (hfront above)).1
      (ih above hrest.pairwise_visitsFrom)
    rwa [Listing.failFast, Listing.upTo_true]

/-- The recursive listing leaves nothing out unless something failed. -/
theorem snd_failFast_eq_zero {recursive : Bool} (l : Listing) (above : List String)
    (h : (l.failFast root recursive above).1.filterMap Outcome.error? = []) :
    (l.failFast root recursive above).2 = 0 := by
  have hentry : ∀ {v : Visit} {left : Nat} {rest : List Outcome × Nat},
      (rest.1.filterMap Outcome.error? = [] → rest.2 = 0) →
      (goOn (outcome? root v) left rest).1.filterMap Outcome.error? = [] →
      (goOn (outcome? root v) left rest).2 = 0 := by
    intro v left rest ih herrors
    rcases hfails : fails root v with _ | _
    · rw [goOn_of_not_fails hfails] at herrors ⊢
      rw [List.filterMap_append, List.append_eq_nil_iff] at herrors
      exact ih herrors.2
    · obtain ⟨path, cause, event, houtcome⟩ := of_fails hfails
      rw [houtcome] at herrors
      cases herrors
  induction l generalizing above with
  | done => rfl
  | file name content rest ih => exact hentry (ih above) h
  | directory name inside rest ihInside ih =>
    rw [Listing.failFast] at h ⊢
    split
    · next hrecursive =>
      rw [if_pos hrecursive, List.filterMap_append, List.append_eq_nil_iff] at h
      exact congrArg₂ (· + ·) (ihInside _ h.1) (ih _ h.2)
    · next hrecursive =>
      rw [if_neg hrecursive] at h
      exact ih _ h
  | unlisted name fault rest ih => exact hentry (ih above) h

/-! ## Units -/

/-- A unit has the names of its entry. -/
theorem relative_of_outcome? {u : ScannedUnit} (h : (outcome? root v).bind Outcome.unit? = some u) :
    u.relative = relativePath v.names := by
  obtain ⟨o, houtcome, hu⟩ := Option.bind_eq_some_iff.1 h
  simp only [outcome?] at houtcome
  split at houtcome
  · cases houtcome
  · rw [← Option.some.inj houtcome] at hu
    cases hu
  · split at houtcome
    · split at houtcome <;> rw [← Option.some.inj houtcome] at hu
      · rw [← Option.some.inj hu]
      · cases hu
    · split at houtcome
      · rw [← Option.some.inj houtcome] at hu
        cases hu
      · cases houtcome

/-- **Units come in the order of the names of their paths.** -/
theorem Accounts.pairwise_units (h : Accounts root visits found)
    (hsorted : visits.Pairwise fun v w => octetsOf v.names < octetsOf w.names)
    (hnames : ∀ v ∈ visits, v.names ≠ [] ∧ ∀ n ∈ v.names, Path.IsName n) :
    (reportOf found).1.units.Pairwise fun u u' =>
      octetsOf u.relative.names < octetsOf u'.relative.names := by
  have hunits : (reportOf found).1.units =
      (visits.filter fun v => !isLeftOut root visits v).filterMap
        fun v => (outcome? root v).bind Outcome.unit? := by
    rw [reportOf, h.outcomes, List.filterMap_filterMap]
  have hrelative : ∀ {v : Visit} {u : ScannedUnit},
      v ∈ visits.filter (fun v => !isLeftOut root visits v) →
      (outcome? root v).bind Outcome.unit? = some u → u.relative.names = v.names := by
    intro v u hv hu
    obtain ⟨hne, hname⟩ := hnames v (List.mem_filter.1 hv).1
    rw [relative_of_outcome? hu, Path.names_relativePath hname hne]
  rw [hunits, List.pairwise_filterMap]
  refine (hsorted.filter _).imp_of_mem fun hv hw hlt u hu u' hu' => ?_
  rwa [hrelative hv hu, hrelative hw hu']

/-- An outcome is one of a unit, an error and a source out of place. -/
theorem length_outcomes (outcomes : List Outcome) :
    (outcomes.filterMap Outcome.unit?).length + (outcomes.filterMap Outcome.error?).length +
      (outcomes.filterMap Outcome.misplaced?).length = outcomes.length := by
  induction outcomes with
  | nil => rfl
  | cons o outcomes ih =>
    cases o <;>
      simp only [List.filterMap_cons, Outcome.unit?, Outcome.error?, Outcome.misplaced?,
        List.length_cons] <;> omega

/-- **Every entry counts once**: as a unit, an error, a source out of place, as
left out, or as passed over. -/
theorem Accounts.length_eq (h : Accounts root visits found) :
    (reportOf found).1.units.length + (reportOf found).1.errors.length +
      (reportOf found).1.misplaced.length + (reportOf found).1.abandoned +
      (visits.filter fun v => !isLeftOut root visits v && (outcome? root v).isNone).length =
        visits.length := by
  have hoccurs : ∀ vs : List Visit, (vs.filterMap (outcome? root)).length +
      (vs.filter fun v => (outcome? root v).isNone).length = vs.length := by
    intro vs
    induction vs with
    | nil => rfl
    | cons v vs ih =>
      rcases ho : outcome? root v with _ | o <;>
        simp only [List.filterMap_cons, List.filter_cons, ho, Option.isNone_none,
          Option.isNone_some, List.length_cons,
          Bool.false_eq_true, if_true, if_false] <;> omega
  have hsplit := List.length_eq_length_filter_add (l := visits) (isLeftOut root visits)
  have hkept := hoccurs (visits.filter fun v => !isLeftOut root visits v)
  have houtcomes := length_outcomes found.1
  rw [List.filter_filter] at hkept
  rw [← h.outcomes] at hkept
  simp only [reportOf]
  rw [h.leftOut]
  simp only [Bool.and_comm] at hkept ⊢
  omega

/-- **A scan that agrees with the recursive listing**, visit by visit: it
reports what that finds; the visits are of different entries, each counts once,
and as what it is by itself unless it is left out; nothing is left out if
nothing failed; and the units are in the order of their names. -/
structure Agrees (root : Path) (visits : List Visit) (found : List Outcome × Nat) : Prop where
  collected : collect root visits = reportOf found
  distinct : (visits.map Visit.names).Nodup
  accounts : Accounts root visits found
  counted : (reportOf found).1.units.length + (reportOf found).1.errors.length +
    (reportOf found).1.misplaced.length + (reportOf found).1.abandoned +
    (visits.filter fun v => !isLeftOut root visits v && (outcome? root v).isNone).length =
      visits.length
  undisturbed : (reportOf found).1.errors = [] → (reportOf found).1.abandoned = 0
  increasing : (reportOf found).1.units.Pairwise fun u u' =>
    octetsOf u.relative.names < octetsOf u'.relative.names

/-- **The flat walk is the recursive listing that fails fast.** For every
listing in order, with all that is below its directories or without, a scan of
its visits reports what the recursive listing finds. And what is listed of a
tree from a directory in it is in order, and whole, whatever links there are;
so that is what a scan of the tree comes to. The path that stands for standard
input is excepted. -/
theorem scan_failFast :
    (∀ (l : Listing) (root : Path) (recursive : Bool), l.Ordered →
      Agrees root (l.upTo recursive).visits (l.failFast root recursive [])) ∧
    ∀ (t : FileTree) (root : Path) (recursive : Bool), t.IsTree → t.isDirectory root = true →
      root.components ≠ [.name "-"] →
      (t.list root true).Ordered ∧
        (∀ loc depth, t.resolve true root = .ok loc → t.depthBound ≤ depth →
          t.list root true = t.listTo depth [] root loc) ∧
        t.list root recursive = (t.list root true).upTo recursive ∧
        t.scan root recursive = .ok (reportOf ((t.list root true).failFast root recursive [])) := by
  refine ⟨fun l root recursive h => ?_, fun t root recursive htree hdir hinput => ?_⟩
  · have hup := h.upTo recursive
    have haccounts := accounts_failFast root hup []
    rw [failFast_upTo] at haccounts
    have hnames : ∀ v ∈ (l.upTo recursive).visits, v.names ≠ [] ∧ ∀ n ∈ v.names, Path.IsName n := by
      intro v hv
      obtain ⟨n, -, below, hv'⟩ := Listing.exists_head_of_mem hv
      exact ⟨by simp [hv'], hup.isName (List.forall_mem_nil _) hv⟩
    exact
      { collected := collect_eq_reportOf h root recursive
        distinct := hup.nodup_visitsFrom []
        accounts := haccounts
        counted := haccounts.length_eq
        undisturbed := snd_failFast_eq_zero l []
        increasing := haccounts.pairwise_units (hup.pairwise_visitsFrom []) hnames }
  · have hordered := htree.ordered_list root true
    have hreaches : t.reaches root = true := by
      rw [FileTree.isDirectory] at hdir
      rw [FileTree.reaches]
      split at hdir
      · next hstat => rw [hstat]
      · cases hdir
    refine ⟨hordered, fun loc depth hroot => htree.list_eq_listTo hroot,
      t.list_eq_upTo root recursive, ?_⟩
    rw [FileTree.scan, hreaches, hdir, if_neg hinput, t.list_eq_upTo root recursive,
      collect_eq_reportOf hordered]
    rfl

/-- A class file behind a directory, in which a link that leads nowhere comes in
front of another one. -/
def danglingTree : FileTree where
  home := []
  entries := [(["r"], .directory), (["r", "a"], .directory),
    (["r", "a", "a.class"], .link ⟨"gone"⟩), (["r", "a", "b.class"], .file [1]),
    (["r", "c.class"], .file [2])]

/-- What is listed of it. -/
def danglingListing : Listing :=
  .directory "a" (.unlisted "a.class" (.unreachable ⟨"/r/a/a.class"⟩ .missing)
    (.file "b.class" (.ok [1]) .done)) (.file "c.class" (.ok [2]) .done)

/-- The link is listed as an entry that leads nowhere. -/
theorem list_dangling : danglingTree.list ⟨"/r"⟩ true = danglingListing := by
  have hresolve : danglingTree.resolve true ⟨"/r"⟩ = .ok ["r"] ∧
      danglingTree.resolve true ⟨"/r/a/a.class"⟩ = .ok ["r", "a", "gone"] ∧
      danglingTree.depthBound = 47 + 1 + 1 := by decide +kernel
  obtain ⟨hroot, hlink, hdepth⟩ := hresolve
  have hsorted : danglingTree.sortedNames ["r"] = ["a", "c.class"] ∧
      danglingTree.sortedNames ["r", "a"] = ["a.class", "b.class"] := by
    have hchildren : danglingTree.children ["r"] = ["a", "c.class"] ∧
        danglingTree.children ["r", "a"] = ["a.class", "b.class"] := by decide +kernel
    rw [FileTree.sortedNames, FileTree.sortedNames, hchildren.1, hchildren.2]
    exact ⟨List.mergeSort_of_pairwise (by decide), List.mergeSort_of_pairwise (by decide)⟩
  have hjoin : (⟨"/r"⟩ : Path).join ⟨"a"⟩ = ⟨"/r/a"⟩ ∧
      (⟨"/r"⟩ : Path).join ⟨"c.class"⟩ = ⟨"/r/c.class"⟩ ∧
      (⟨"/r/a"⟩ : Path).join ⟨"a.class"⟩ = ⟨"/r/a/a.class"⟩ ∧
      (⟨"/r/a"⟩ : Path).join ⟨"b.class"⟩ = ⟨"/r/a/b.class"⟩ := by decide +kernel
  have hread : danglingTree.read ⟨"/r/c.class"⟩ = .ok [2] ∧
      danglingTree.read ⟨"/r/a/b.class"⟩ = .ok [1] := by decide +kernel
  have hentry : danglingTree.entry? ["r", "a"] = some .directory ∧
      danglingTree.entry? ["r", "c.class"] = some (.file [2]) ∧
      danglingTree.entry? ["r", "a", "a.class"] = some (.link ⟨"gone"⟩) ∧
      danglingTree.entry? ["r", "a", "b.class"] = some (.file [1]) ∧
      danglingTree.entry? ["r", "a", "gone"] = none := by decide +kernel
  have hinside : ∀ stands, danglingTree.listTo (47 + 1) stands ⟨"/r/a"⟩ ["r", "a"] =
      .unlisted "a.class" (.unreachable ⟨"/r/a/a.class"⟩ .missing)
        (.file "b.class" (.ok [1]) .done) := by
    intro stands
    rw [FileTree.listTo, ← FileTree.sortedNames, hsorted.2]
    simp only [FileTree.listNames, List.cons_append, List.nil_append, hentry, hjoin, hlink, hread]
  rw [FileTree.list, hroot]
  dsimp only
  rw [if_pos rfl, hdepth, FileTree.listTo, ← FileTree.sortedNames, hsorted.1]
  simp only [FileTree.listNames, List.cons_append, List.nil_append, hentry, hjoin, hread]
  rw [hinside, danglingListing]

/-- Its failure ends the listing of its directory, where one entry is left out;
the listing of the directory above goes on. -/
theorem scan_failFast_dangling :
    danglingTree.IsTree ∧ danglingTree.isDirectory ⟨"/r"⟩ = true ∧
      (⟨"/r"⟩ : Path).components ≠ [.name "-"] ∧ danglingListing.Ordered ∧
      Agrees ⟨"/r"⟩ (danglingListing.upTo true).visits (danglingListing.failFast ⟨"/r"⟩ true []) ∧
      ∃ report events, danglingTree.scan ⟨"/r"⟩ true = .ok (report, events) ∧
        report.units.map ScannedUnit.qualifiedName = ["c"] ∧
        report.errors.map StructuralError.path = [⟨"/r/a/a.class"⟩] ∧ report.abandoned = 1 := by
  have htree : danglingTree.IsTree := .of_listed (by decide) (by decide)
  have hdir : danglingTree.isDirectory ⟨"/r"⟩ = true := by decide +kernel
  have hinput : (⟨"/r"⟩ : Path).components ≠ [.name "-"] := by decide
  obtain ⟨hordered, -, -, hscan⟩ := scan_failFast.2 danglingTree ⟨"/r"⟩ true htree hdir hinput
  rw [list_dangling] at hordered hscan
  refine ⟨htree, hdir, hinput, hordered, scan_failFast.1 _ ⟨"/r"⟩ true hordered, _, _, hscan, ?_⟩
  decide +kernel

end Scan

end ClassWeave
