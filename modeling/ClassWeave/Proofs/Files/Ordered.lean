import ClassWeave.Proofs.Files.Listing
import ClassWeave.Proofs.Text.Utf8Order
import Mathlib.Data.Finset.Card
/-!
# Files -- listings in order

A listing is in order (`Listing.Ordered`) if the entries of each directory
have names whose octets increase. Laid out, it then comes to names that
increase (`Ordered.pairwise_visitsFrom`), the order being that of the octets of
one name after another, and so to none of them twice.

Whatever links there are, what is listed of a tree is in order
(`IsTree.ordered_list`); a directory's own entries alone are what is listed
with all below them, cut off there (`list_eq_upTo`). And more depth than the
bound on a listing would show no more of a tree (`IsTree.list_eq_listTo`).
-/


namespace ClassWeave

/-- Names are ordered by their octets. -/
def FileTree.NameLt (a b : String) : Prop := Utf8.encode a < Utf8.encode b

instance FileTree.decidableNameLt (a b : String) : Decidable (FileTree.NameLt a b) :=
  inferInstanceAs (Decidable (Utf8.encode a < Utf8.encode b))

/-- The octets of names, one name after another. -/
def FileTree.octetsOf (names : List String) : List Bytes := names.map Utf8.encode

namespace Listing

open FileTree (NameLt octetsOf)

variable {l : Listing} {above : List String} {v : Visit} {recursive : Bool}

/-- The names of a directory's own entries. -/
def heads : Listing → List String
  | .done => []
  | .file name _ rest => name :: rest.heads
  | .directory name _ rest => name :: rest.heads
  | .unlisted name _ rest => name :: rest.heads

/-- **A listing in order**: the entries of each directory have names of
entries, and each comes in front of all that are behind it. -/
inductive Ordered : Listing → Prop
  | done : Ordered .done
  | file {name : String} {content : Except Fault Bytes} {rest : Listing} : Path.IsName name →
    (∀ n ∈ rest.heads, NameLt name n) → Ordered rest → Ordered (.file name content rest)
  | directory {name : String} {inside rest : Listing} : Path.IsName name →
    (∀ n ∈ rest.heads, NameLt name n) → Ordered inside → Ordered rest →
    Ordered (.directory name inside rest)
  | unlisted {name : String} {fault : ListingFault} {rest : Listing} : Path.IsName name →
    (∀ n ∈ rest.heads, NameLt name n) → Ordered rest → Ordered (.unlisted name fault rest)

/-- A listing with all that is below the directories, or with the directory's
own entries alone. -/
def upTo (recursive : Bool) : Listing → Listing
  | .done => .done
  | .file name content rest => .file name content (upTo recursive rest)
  | .directory name inside rest =>
    .directory name (if recursive then inside else .done) (upTo recursive rest)
  | .unlisted name fault rest => .unlisted name fault (upTo recursive rest)

/-- Nothing is cut off from what is listed with all below. -/
theorem upTo_true (l : Listing) : l.upTo true = l := by
  induction l with
  | done => rfl
  | file name content rest ih => rw [upTo, ih]
  | directory name inside rest _ ih =>
    rw [upTo, ih]
    rfl
  | unlisted name fault rest ih => rw [upTo, ih]

theorem heads_upTo (recursive : Bool) (l : Listing) : (l.upTo recursive).heads = l.heads := by
  induction l with
  | done => rfl
  | file name content rest ih => rw [upTo, heads, heads, ih]
  | directory name inside rest _ ih => rw [upTo, heads, heads, ih]
  | unlisted name fault rest ih => rw [upTo, heads, heads, ih]

/-- What is cut off leaves the rest in order. -/
theorem Ordered.upTo (h : l.Ordered) (recursive : Bool) : (l.upTo recursive).Ordered := by
  induction h with
  | done => exact .done
  | file hname hlt _ ih => exact .file hname (by rwa [heads_upTo]) ih
  | directory hname hlt hinside _ _ ih =>
    refine .directory hname (by rwa [heads_upTo]) ?_ ih
    split
    · exact hinside
    · exact .done
  | unlisted hname hlt _ ih => exact .unlisted hname (by rwa [heads_upTo]) ih

/-! ## Laid out -/

/-- A visit is at one of the entries, or below it. -/
theorem exists_head_of_mem (h : v ∈ l.visitsFrom above) :
    ∃ n ∈ l.heads, ∃ below, v.names = above ++ n :: below := by
  induction l generalizing above with
  | done => cases h
  | file name content rest ih =>
    rcases List.mem_cons.1 h with rfl | h
    · exact ⟨name, List.mem_cons_self, [], rfl⟩
    · obtain ⟨n, hn, hnames⟩ := ih h
      exact ⟨n, List.mem_cons_of_mem _ hn, hnames⟩
  | directory name inside rest ihInside ih =>
    rcases List.mem_cons.1 h with rfl | h
    · exact ⟨name, List.mem_cons_self, [], rfl⟩
    rcases List.mem_append.1 h with h | h
    · obtain ⟨n, -, below, hnames⟩ := ihInside h
      refine ⟨name, List.mem_cons_self, n :: below, ?_⟩
      rw [hnames, List.append_assoc, List.singleton_append]
    · obtain ⟨n, hn, hnames⟩ := ih h
      exact ⟨n, List.mem_cons_of_mem _ hn, hnames⟩
  | unlisted name fault rest ih =>
    rcases List.mem_cons.1 h with rfl | h
    · exact ⟨name, List.mem_cons_self, [], rfl⟩
    · obtain ⟨n, hn, hnames⟩ := ih h
      exact ⟨n, List.mem_cons_of_mem _ hn, hnames⟩

/-- The names of a visit are names of entries. -/
theorem Ordered.isName (h : l.Ordered) (habove : ∀ n ∈ above, Path.IsName n)
    (hv : v ∈ l.visitsFrom above) : ∀ n ∈ v.names, Path.IsName n := by
  have hown : ∀ {above : List String} {name : String}, (∀ n ∈ above, Path.IsName n) →
      Path.IsName name → ∀ n ∈ above ++ [name], Path.IsName n := by
    intro above name habove hname
    rw [List.forall_mem_append, List.forall_mem_singleton]
    exact ⟨habove, hname⟩
  induction h generalizing above with
  | done => cases hv
  | file hname _ _ ih =>
    rcases List.mem_cons.1 hv with rfl | hv
    · exact hown habove hname
    · exact ih habove hv
  | directory hname _ _ _ ihInside ih =>
    rcases List.mem_cons.1 hv with rfl | hv
    · exact hown habove hname
    · rcases List.mem_append.1 hv with hv | hv
      · exact ihInside (hown habove hname) hv
      · exact ih habove hv
  | unlisted hname _ _ ih =>
    rcases List.mem_cons.1 hv with rfl | hv
    · exact hown habove hname
    · exact ih habove hv

theorem octetsOf_lt {n m : String} (h : NameLt n m) (above below below' : List String) :
    octetsOf (above ++ n :: below) < octetsOf (above ++ m :: below') := by
  rw [octetsOf, octetsOf, List.map_append, List.map_append, List.map_cons, List.map_cons]
  exact List.append_left_lt (List.cons_lt_cons_iff.2 (.inl h))

/-- Names come in front of longer ones that they start. -/
theorem octetsOf_lt_append {n : String} (above below : List String) :
    octetsOf above < octetsOf (above ++ n :: below) := by
  have hshort : octetsOf above ++ [] < octetsOf above ++ octetsOf (n :: below) :=
    List.append_left_lt (List.nil_lt_cons _ _)
  rwa [List.append_nil, octetsOf, octetsOf, ← List.map_append] at hshort

/-- **A listing in order comes to names that increase.** -/
theorem Ordered.pairwise_visitsFrom (h : l.Ordered) (above : List String) :
    (l.visitsFrom above).Pairwise fun v w => octetsOf v.names < octetsOf w.names := by
  -- an entry and what is below it come in front of the entries behind it
  have hfront : ∀ {above below : List String} {name : String} {rest : Listing},
      (∀ n ∈ rest.heads, NameLt name n) → ∀ w ∈ rest.visitsFrom above,
        octetsOf (above ++ name :: below) < octetsOf w.names := by
    intro above below name rest hlt w hw
    obtain ⟨n, hn, below', hnames⟩ := exists_head_of_mem hw
    rw [hnames]
    exact octetsOf_lt (hlt n hn) above below below'
  induction h generalizing above with
  | done => exact List.Pairwise.nil
  | file hname hlt _ ih => exact List.pairwise_cons.2 ⟨hfront hlt, ih above⟩
  | @directory name inside rest hname hlt _ _ ihInside ih =>
    rw [visitsFrom, List.cons_append, List.pairwise_cons, List.pairwise_append]
    refine ⟨fun w hw => ?_, ihInside _, ih above, fun v hv => ?_⟩
    · rcases List.mem_append.1 hw with hw | hw
      · obtain ⟨n, -, below, hnames⟩ := exists_head_of_mem hw
        rw [hnames]
        exact octetsOf_lt_append _ _
      · exact hfront hlt w hw
    · obtain ⟨n, -, below, hnames⟩ := exists_head_of_mem hv
      rw [hnames, List.append_assoc, List.singleton_append]
      exact hfront hlt
  | unlisted hname hlt _ ih => exact List.pairwise_cons.2 ⟨hfront hlt, ih above⟩

theorem Ordered.nodup_visitsFrom (h : l.Ordered) (above : List String) :
    ((l.visitsFrom above).map Visit.names).Nodup := by
  rw [List.Nodup, List.pairwise_map]
  refine (h.pairwise_visitsFrom above).imp fun {v w} hlt heq => ?_
  rw [heq] at hlt
  exact List.lt_irrefl _ hlt

end Listing

namespace FileTree

variable {t : FileTree} {root path : Path} {loc place : Location} {stands : List Stand}
  {name : String} {names : List String} {descend descend' : Path → Location → Listing}

/-! ## What is listed of a tree -/

/-- **A directory that is entered** by one of the names in another: the one at
that name, or one that a link leads to and that the walk is not in. -/
structure Enters (t : FileTree) (loc : Location) (stands : List Stand) (name : String)
    (place : Location) : Prop where
  directory : t.entry? place = some .directory
  away : place = loc ++ [name] ∨ ∀ s ∈ stands, s.2 ≠ place

/-- **The three ways an entry is listed**, however directories are. -/
theorem listNames_cons_cases (t : FileTree) (path : Path) (loc : Location) (stands : List Stand)
    (name : String) (names : List String) :
    (∀ descend, t.listNames descend path loc stands (name :: names) =
      .file name (t.read (path.join ⟨name⟩)) (t.listNames descend path loc stands names)) ∨
    (∃ place, t.Enters loc stands name place ∧
      ∀ descend, t.listNames descend path loc stands (name :: names) =
        .directory name (descend (path.join ⟨name⟩) place)
          (t.listNames descend path loc stands names)) ∨
    ∃ fault, ∀ descend, t.listNames descend path loc stands (name :: names) =
      .unlisted name fault (t.listNames descend path loc stands names) := by
  rcases hentry : t.entry? (loc ++ [name]) with _ | bytes | _ | target
  · exact .inl fun descend => by simp only [listNames, hentry]
  · exact .inl fun descend => by simp only [listNames, hentry]
  · exact .inr (.inl ⟨_, ⟨hentry, .inl rfl⟩, fun descend => by simp only [listNames, hentry]⟩)
  rcases hresolve : t.resolve true (path.join ⟨name⟩) with fault | place
  · refine .inr (.inr ⟨.unreachable (path.join ⟨name⟩) fault, fun descend => ?_⟩)
    simp only [listNames, hentry, hresolve]
  rcases hplace : t.entry? place with _ | bytes | _ | target
  · refine .inr (.inr ⟨.unreachable (path.join ⟨name⟩) .missing, fun descend => ?_⟩)
    simp only [listNames, hentry, hresolve, hplace]
  · exact .inl fun descend => by simp only [listNames, hentry, hresolve, hplace]
  · rcases hfind : stands.find? fun s => s.2 == place with _ | ⟨ancestor, _⟩
    · refine .inr (.inl ⟨place, ⟨hplace, .inr fun s hs heq => ?_⟩, fun descend => ?_⟩)
      · exact List.find?_eq_none.1 hfind s hs (beq_iff_eq.2 heq)
      · simp only [listNames, hentry, hresolve, hplace, hfind]
    · refine .inr (.inr ⟨.cycle (path.join ⟨name⟩) ancestor, fun descend => ?_⟩)
      simp only [listNames, hentry, hresolve, hplace, hfind]
  · exact .inl fun descend => by simp only [listNames, hentry, hresolve, hplace]

theorem heads_listNames : (t.listNames descend path loc stands names).heads = names := by
  induction names with
  | nil => rfl
  | cons name names ih =>
    rcases t.listNames_cons_cases path loc stands name names with
      h | ⟨place, -, h⟩ | ⟨fault, h⟩ <;> rw [h, Listing.heads, ih]

/-- Names in order are listed in order. -/
theorem ordered_listNames (hdescend : ∀ p place, (descend p place).Ordered)
    (hnames : ∀ n ∈ names, Path.IsName n) (hsorted : names.Pairwise NameLt) :
    (t.listNames descend path loc stands names).Ordered := by
  induction names with
  | nil => exact .done
  | cons name names ih =>
    rw [List.forall_mem_cons] at hnames
    rw [List.pairwise_cons] at hsorted
    have hrest := ih hnames.2 hsorted.2
    have hlt : ∀ n ∈ (t.listNames descend path loc stands names).heads, NameLt name n := by
      rw [heads_listNames]
      exact hsorted.1
    rcases t.listNames_cons_cases path loc stands name names with
      h | ⟨place, -, h⟩ | ⟨fault, h⟩ <;> rw [h]
    · exact .file hnames.1 hlt hrest
    · exact .directory hnames.1 hlt (hdescend _ _) hrest
    · exact .unlisted hnames.1 hlt hrest

/-- **What is listed of a tree is in order.** -/
theorem IsTree.ordered_listTo (h : t.IsTree) (depth : Nat) (stands : List Stand) (path : Path)
    (loc : Location) : (t.listTo depth stands path loc).Ordered := by
  induction depth generalizing stands path loc with
  | zero => exact .done
  | succ depth ih =>
    refine ordered_listNames (fun p place => ih _ p place) (fun n hn => ?_) ?_
    · rw [List.mem_mergeSort, mem_children] at hn
      exact h.named loc n hn
    · have hnodup : (t.sortedNames loc).Nodup :=
        (List.mergeSort_perm _ _).nodup_iff.2 (h.nodup_children loc)
      refine (t.pairwise_sortedNames loc).imp₂ (fun a b hle hne => ?_) hnodup
      refine Utf8.encode_lt_iff.2 (String.not_le.1 fun hge => hne (String.le_antisymm hle hge))

theorem IsTree.ordered_list (h : t.IsTree) (root : Path) (recursive : Bool) :
    (t.list root recursive).Ordered := by
  unfold list
  split
  · exact .done
  · exact h.ordered_listTo _ _ _ _

/-- Cut off at a directory's own entries, the directories are listed empty. -/
theorem upTo_listNames : (t.listNames descend path loc stands names).upTo false =
    t.listNames (fun _ _ => .done) path loc stands names := by
  induction names with
  | nil => rfl
  | cons name names ih =>
    rcases t.listNames_cons_cases path loc stands name names with
      h | ⟨place, -, h⟩ | ⟨fault, h⟩ <;> rw [h, h, Listing.upTo, ih]
    rfl

/-- **A directory's own entries** are what is listed with all below them, cut
off there. -/
theorem list_eq_upTo (t : FileTree) (root : Path) (recursive : Bool) :
    t.list root recursive = (t.list root true).upTo recursive := by
  cases recursive with
  | true => rw [Listing.upTo_true]
  | false =>
    have hdepth : t.depthBound = (t.depthBound - 1) + 1 := by
      have := t.lt_depthBound
      omega
    unfold list
    split
    · rfl
    · rw [if_neg Bool.false_ne_true, if_pos rfl, hdepth, listTo, listTo, upTo_listNames]
      rfl

/-! ## Depth enough -/

/-- What is listed of names is the same if the directories that are entered
are. -/
theorem listNames_congr (h : ∀ name place, t.Enters loc stands name place →
    descend (path.join ⟨name⟩) place = descend' (path.join ⟨name⟩) place) :
    t.listNames descend path loc stands names = t.listNames descend' path loc stands names := by
  induction names with
  | nil => rfl
  | cons name names ih =>
    rcases t.listNames_cons_cases path loc stands name names with
      h' | ⟨place, henters, h'⟩ | ⟨fault, h'⟩ <;> rw [h', h', ih]
    rw [h name place henters]

/-- The places of entries that a walk is not in. -/
def placesAway (t : FileTree) (stands : List Stand) : Finset Location :=
  ([] :: t.entries.map Prod.fst).toFinset.filter fun l => ∀ s ∈ stands, s.2 ≠ l

/-- The depth that is enough for what is below a directory, of which a walk
comes to be in: as many links as there are places left to jump to, and all the
way down behind each. -/
def depthBelow (t : FileTree) (stands : List Stand) (loc : Location) : Nat :=
  (t.placesAway stands).card * (t.entries.length + 2) + (t.entries.length + 1 - loc.length)

/-- **A directory that is entered needs less depth** than the one it is entered
from. -/
theorem IsTree.depthBelow_lt (h : t.IsTree) (henters : t.Enters loc stands name place)
    (p : Path) : t.depthBelow ((p, place) :: stands) place < t.depthBelow stands loc := by
  have hlength : place.length ≤ t.entries.length := h.length_le (by rw [henters.directory]; rfl)
  have hsub : t.placesAway ((p, place) :: stands) ⊆ t.placesAway stands := by
    intro l hl
    rw [placesAway, Finset.mem_filter] at hl ⊢
    exact ⟨hl.1, fun s hs => hl.2 s (List.mem_cons_of_mem _ hs)⟩
  rw [depthBelow, depthBelow]
  rcases henters.away with rfl | haway
  · -- one step down, with no more places to jump to
    have hcard := Nat.mul_le_mul_right (t.entries.length + 2) (Finset.card_le_card hsub)
    rw [List.length_append, List.length_singleton] at hlength ⊢
    omega
  · -- a jump, with one place less to jump to
    have hmem : place ∈ t.placesAway stands := by
      rw [placesAway, Finset.mem_filter, List.mem_toFinset, List.mem_cons]
      refine ⟨?_, haway⟩
      by_cases hroot : place = []
      · exact .inl hroot
      · exact .inr ((isSome_iff_listed hroot).1 (by rw [henters.directory]; rfl))
    have hnot : place ∉ t.placesAway ((p, place) :: stands) := by
      rw [placesAway, Finset.mem_filter, not_and]
      exact fun _ haway => haway _ List.mem_cons_self rfl
    have hcard : (t.placesAway ((p, place) :: stands)).card + 1 ≤ (t.placesAway stands).card :=
      Finset.card_lt_card ⟨hsub, fun hsup => hnot (hsup hmem)⟩
    have hmul := Nat.mul_le_mul_right (t.entries.length + 2) hcard
    rw [Nat.add_mul] at hmul
    omega

/-- More depth than is enough shows no more. -/
theorem IsTree.listTo_congr (h : t.IsTree) {depth depth' : Nat}
    (hdepth : t.depthBelow ((path, loc) :: stands) loc < depth)
    (hdepth' : t.depthBelow ((path, loc) :: stands) loc < depth') :
    t.listTo depth stands path loc = t.listTo depth' stands path loc := by
  induction depth generalizing depth' stands path loc with
  | zero => omega
  | succ depth ih =>
    obtain ⟨depth', rfl⟩ : ∃ d, depth' = d + 1 := ⟨depth' - 1, by omega⟩
    refine listNames_congr fun name place henters => ?_
    have hlt := h.depthBelow_lt henters (path.join ⟨name⟩)
    exact ih (by omega) (by omega)

/-- **The bound on a listing is enough**: with any more depth the same is
listed. -/
theorem IsTree.list_eq_listTo (h : t.IsTree) (hroot : t.resolve true root = .ok loc) {depth : Nat}
    (hdepth : t.depthBound ≤ depth) : t.list root true = t.listTo depth [] root loc := by
  have hcard : (t.placesAway [(root, loc)]).card ≤ t.entries.length + 1 := by
    refine Nat.le_trans (Finset.card_filter_le _ _) (Nat.le_trans (List.toFinset_card_le _) ?_)
    rw [List.length_cons, List.length_map]
  have hbound : t.depthBelow [(root, loc)] loc < t.depthBound := by
    have hmul := Nat.mul_le_mul_right (t.entries.length + 2) hcard
    have hsquare : (t.entries.length + 2) * (t.entries.length + 2) =
        (t.entries.length + 1) * (t.entries.length + 2) + (t.entries.length + 2) :=
      Nat.succ_mul (t.entries.length + 1) _
    rw [depthBelow, depthBound]
    omega
  rw [list, hroot]
  exact h.listTo_congr hbound (Nat.lt_of_lt_of_le hbound hdepth)

end FileTree

end ClassWeave
