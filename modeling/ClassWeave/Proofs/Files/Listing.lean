import ClassWeave.Files.Listing
import ClassWeave.Proofs.Files.Replaced
/-!
# Files -- the listing of a class root

Without links a listing is a plain walk: the names of each directory in
their order, and below each directory its own (`FileTree.walk`). What a
visit finds is then a question to the tree (`visits_list`), and the walk
over a tree that has evolved is the walk over the tree before, without the
names that vanished (`Evolved.walk`). A walk sees the whole tree if it goes
deeper than the tree does, so bounds that differ do not matter.
-/


namespace ClassWeave

namespace FileTree

variable {t t' : FileTree} {root : Path} {top loc : Location} {above names : List String}
  {name : String}

/-! ## The names in a directory -/

/-- The name that a location gives to a directory, if it is in it. -/
def nameIn? (loc l : Location) : Option String :=
  match l.getLast? with
  | some name => if l.dropLast = loc then some name else none
  | none => none

/-- A location gives a directory its last name, if the rest leads there. -/
theorem nameIn?_eq_some {l : Location} : nameIn? loc l = some name ↔ l = loc ++ [name] := by
  unfold nameIn?
  rcases List.eq_nil_or_concat' l with rfl | ⟨l', m, rfl⟩
  · simp
  · simp only [List.getLast?_concat, List.dropLast_concat]
    constructor
    · intro h
      split at h
      · next hl => rw [hl, Option.some.inj h]
      · cases h
    · intro h
      obtain ⟨rfl, hm⟩ := List.append_inj' h rfl
      rw [if_pos rfl, (List.cons.inj hm).1]

theorem children_eq (t : FileTree) (loc : Location) :
    t.children loc = (t.entries.map Prod.fst).filterMap (nameIn? loc) := by
  rw [List.filterMap_map]
  rfl

theorem mem_children : name ∈ t.children loc ↔ (t.entry? (loc ++ [name])).isSome := by
  rw [isSome_iff_listed (by simp), children_eq, List.mem_filterMap]
  simp only [nameIn?_eq_some, exists_eq_right]

theorem IsTree.nodup_children (h : t.IsTree) (loc : Location) : (t.children loc).Nodup := by
  rw [children_eq]
  refine h.nodup.filterMap fun l l' name hl hl' => ?_
  rw [nameIn?_eq_some.1 hl, nameIn?_eq_some.1 hl']

theorem nameLe_iff {a b : String} : nameLe a b = true ↔ a ≤ b := by
  rw [nameLe, Bool.not_eq_true', decide_eq_false_iff_not, String.not_lt]

/-- The names of a directory in their order. -/
def sortedNames (t : FileTree) (loc : Location) : List String := (t.children loc).mergeSort nameLe

/-- They are in their order. -/
theorem pairwise_sortedNames (t : FileTree) (loc : Location) :
    (t.sortedNames loc).Pairwise fun a b => a ≤ b := by
  have htrans : ∀ a b c, nameLe a b → nameLe b c → nameLe a c := fun a b c hab hbc =>
    nameLe_iff.2 (String.le_trans (nameLe_iff.1 hab) (nameLe_iff.1 hbc))
  have htotal : ∀ a b, nameLe a b || nameLe b a := fun a b => by
    rw [Bool.or_eq_true, nameLe_iff, nameLe_iff]
    exact String.le_total a b
  exact (List.pairwise_mergeSort htrans htotal _).imp nameLe_iff.1

/-- **The names of a directory in their order are told by the tree**: where
a tree has fewer names than another, they are the other's in their order,
without those that are not there. -/
theorem sortedNames_filter (h : t.IsTree) (h' : t'.IsTree)
    (hsub : ∀ name, (t'.entry? (loc ++ [name])).isSome → (t.entry? (loc ++ [name])).isSome) :
    t'.sortedNames loc =
      (t.sortedNames loc).filter fun name => (t'.entry? (loc ++ [name])).isSome := by
  refine List.Perm.eq_of_pairwise (fun a b _ _ => String.le_antisymm) (t'.pairwise_sortedNames loc)
    ((t.pairwise_sortedNames loc).filter _) ?_
  refine (List.perm_ext_iff_of_nodup ?_ ?_).2 fun name => ?_
  · exact (List.mergeSort_perm _ _).nodup_iff.2 (h'.nodup_children loc)
  · exact ((List.mergeSort_perm _ _).nodup_iff.2 (h.nodup_children loc)).filter _
  · rw [sortedNames, sortedNames, List.mem_filter, List.mem_mergeSort, List.mem_mergeSort,
      mem_children, mem_children]
    exact ⟨fun hname => ⟨hsub name hname, hname⟩, And.right⟩

/-! ## The walk -/

/-- The walk below a root, down to a depth: each entry of a directory in
the order of names, and behind a directory what is in it. -/
def walk (t : FileTree) (top : Location) : Nat → List String → List (List String)
  | 0, _ => []
  | depth + 1, above =>
    (t.sortedNames (top ++ above)).flatMap fun name =>
      (above ++ [name]) ::
        if t.entry? (top ++ (above ++ [name])) = some .directory then t.walk top depth (above ++ [name])
        else []

/-- What a visit finds below a root without links. -/
def sightOf (t : FileTree) (root : Path) (top : Location) (names : List String) : Visit where
  names := names
  sight :=
    if t.entry? (top ++ names) = some .directory then .directory
    else .file (t.read (Scan.pathOf root names))

/-- The listing of names of a directory, laid out. -/
theorem visits_listNames (hlinks : t.LinkFree top) {descend : Path → Location → Listing}
    {stands : List Stand} {below : List String → List (List String)}
    (hdescend : ∀ name, (descend (Scan.pathOf root (above ++ [name])) (top ++ (above ++ [name]))).visitsFrom
      (above ++ [name]) = (below (above ++ [name])).map (t.sightOf root top)) (ns : List String) :
    (t.listNames descend (Scan.pathOf root above) (top ++ above) stands ns).visitsFrom above =
      (ns.flatMap fun name => (above ++ [name]) ::
        if t.entry? (top ++ (above ++ [name])) = some .directory then below (above ++ [name])
        else []).map (t.sightOf root top) := by
  induction ns with
  | nil => rfl
  | cons name ns ih =>
    -- a visit to a file or a directory; there are no links to go around with
    have hlink : ∀ target, t.entry? (top ++ (above ++ [name])) ≠ some (.link target) :=
      fun target => hlinks _ target (List.prefix_append _ _)
    have hloc : top ++ above ++ [name] = top ++ (above ++ [name]) := List.append_assoc ..
    have hsight : (t.sightOf root top (above ++ [name])).names = above ++ [name] := rfl
    rw [List.flatMap_cons, List.map_append, ← ih, List.map_cons]
    simp only [listNames, hloc, ← Scan.pathOf_concat]
    rcases hentry : t.entry? (top ++ (above ++ [name])) with _ | bytes | _ | target
    · simp [Listing.visitsFrom, sightOf, hentry]
    · simp [Listing.visitsFrom, sightOf, hentry]
    · simp [Listing.visitsFrom, sightOf, hentry, hdescend]
    · exact absurd hentry (hlink target)

/-- A listing down to a depth, laid out, is the walk down to it. -/
theorem visits_listTo (root : Path) (hlinks : t.LinkFree top) (depth : Nat) (stands : List Stand)
    (above : List String) :
    (t.listTo depth stands (Scan.pathOf root above) (top ++ above)).visitsFrom above =
      (t.walk top depth above).map (t.sightOf root top) := by
  induction depth generalizing stands above with
  | zero => rfl
  | succ depth ih => exact visits_listNames hlinks (fun name => ih _ _) _

/-- How deep a listing goes. -/
def listDepth (t : FileTree) (recursive : Bool) : Nat := if recursive then t.depthBound else 1

/-- **The visits of a listing** are a walk, each with what the tree has
there. -/
theorem ClassRoot.visits_list (h : t.ClassRoot root top) (recursive : Bool) :
    (t.list root recursive).visits =
      (t.walk top (t.listDepth recursive) []).map (t.sightOf root top) := by
  have hvisits := visits_listTo root h.linkFree (t.listDepth recursive) [] []
  rw [List.append_nil] at hvisits
  rw [list, h.resolves, Listing.visits]
  exact hvisits

/-- What a walk comes to is there, at names behind those it started from. -/
theorem of_mem_walk {depth : Nat} (hmem : names ∈ t.walk top depth above) :
    (t.entry? (top ++ names)).isSome ∧ names ≠ [] := by
  induction depth generalizing above with
  | zero => cases hmem
  | succ depth ih =>
    rw [walk, List.mem_flatMap] at hmem
    obtain ⟨name, hname, hmem⟩ := hmem
    rcases List.mem_cons.1 hmem with rfl | hmem
    · rw [sortedNames, List.mem_mergeSort, mem_children, List.append_assoc] at hname
      exact ⟨hname, by simp⟩
    · split at hmem
      · exact ih hmem
      · cases hmem

/-- A walk comes to names behind those that it started from. -/
theorem exists_behind_of_mem_walk {depth : Nat} (hmem : names ∈ t.walk top depth above) :
    ∃ rest, rest ≠ [] ∧ names = above ++ rest := by
  induction depth generalizing above with
  | zero => cases hmem
  | succ depth ih =>
    rw [walk, List.mem_flatMap] at hmem
    obtain ⟨name, -, hmem⟩ := hmem
    rcases List.mem_cons.1 hmem with rfl | hmem
    · exact ⟨[name], List.cons_ne_nil _ _, rfl⟩
    · split at hmem
      · obtain ⟨rest, -, rfl⟩ := ih hmem
        exact ⟨name :: rest, List.cons_ne_nil _ _, by rw [List.append_assoc]; rfl⟩
      · cases hmem

/-- **A walk comes to no names twice.** -/
theorem IsTree.nodup_walk (h : t.IsTree) (depth : Nat) (above : List String) :
    (t.walk top depth above).Nodup := by
  induction depth generalizing above with
  | zero => exact List.nodup_nil
  | succ depth ih =>
    -- what is visited at a name or below has the name at this depth
    have hrow : ∀ name, ∀ names ∈ (above ++ [name]) ::
        (if t.entry? (top ++ (above ++ [name])) = some .directory then
          t.walk top depth (above ++ [name]) else []), ∃ rest, names = above ++ name :: rest := by
      intro name names hnames
      rcases List.mem_cons.1 hnames with rfl | hnames
      · exact ⟨[], rfl⟩
      · split at hnames
        · obtain ⟨rest, -, rfl⟩ := exists_behind_of_mem_walk hnames
          exact ⟨rest, List.append_assoc ..⟩
        · cases hnames
    rw [walk, List.nodup_flatMap]
    constructor
    · intro name _
      refine List.nodup_cons.2 ⟨fun hmem => ?_, ?_⟩
      · split at hmem
        · obtain ⟨rest, hne, heq⟩ := exists_behind_of_mem_walk hmem
          exact hne (List.self_eq_append_right.1 heq)
        · cases hmem
      · split
        · exact ih _
        · exact List.nodup_nil
    · have hsorted : (t.sortedNames (top ++ above)).Nodup :=
        (List.mergeSort_perm _ _).nodup_iff.2 (h.nodup_children _)
      refine hsorted.imp fun {name name'} hne names hmem hmem' => hne ?_
      obtain ⟨rest, rfl⟩ := hrow name names hmem
      obtain ⟨rest', heq⟩ := hrow name' _ hmem'
      exact (List.cons.inj (List.append_cancel_left heq)).1

/-- What is left of rows put one after another, if some of them are left
out and the others are left so much of. -/
theorem filter_flatMap_of_rows {α β : Type} {f g : α → List β} {keep : α → Bool} {keepRow : β → Bool}
    (hkept : ∀ a, keep a = true → (f a).filter keepRow = g a)
    (hgone : ∀ a, ¬ keep a = true → (f a).filter keepRow = []) (xs : List α) :
    (xs.flatMap f).filter keepRow = (xs.filter keep).flatMap g := by
  induction xs with
  | nil => rfl
  | cons x xs ih =>
    rw [List.flatMap_cons, List.filter_append, ih, List.filter_cons]
    split
    · next hx => rw [hkept x hx, List.flatMap_cons]
    · next hx => rw [hgone x hx, List.nil_append]

/-- **The walk over a tree that has evolved** there is the walk over the tree
before, without what is gone; each walk goes as deep as it likes below
where its tree ends. -/
theorem EvolvedBelow.walk (hevolved : EvolvedBelow top t t') (h : t.IsTree) (h' : t'.IsTree)
    (depth : Nat) :
    ∀ (depth' : Nat) (above : List String),
    t.entry? (top ++ above) = some .directory →
    (depth = depth' ∨
      (t.entries.length < (top ++ above).length + depth ∧
        t'.entries.length < (top ++ above).length + depth')) →
    t'.walk top depth' above =
      (t.walk top depth above).filter fun names => (t'.entry? (top ++ names)).isSome := by
  have hdir' : ∀ {names}, t.entry? (top ++ names) = some .directory →
      t'.entry? (top ++ names) = some .directory := fun hdir => (hevolved.directory _).2 hdir
  -- a walk of no depth is at the end of its tree, or the other has none either
  induction depth with
  | zero =>
    intro depth' above hdir hdepth
    rcases hdepth with rfl | ⟨hlt, -⟩
    · rfl
    · have hle : (top ++ above).length ≤ t.entries.length := h.length_le (by rw [hdir]; rfl)
      omega
  | succ depth ih =>
    intro depth' above hdir hdepth
    obtain ⟨depth', rfl⟩ : ∃ d, depth' = d + 1 := by
      rcases depth' with _ | d
      · rcases hdepth with hd | ⟨-, hlt⟩
        · cases hd
        · have hle : (top ++ above).length ≤ t'.entries.length :=
            h'.length_le (by rw [hdir' hdir]; rfl)
          omega
      · exact ⟨d, rfl⟩
    have hsub : ∀ name, (t'.entry? (top ++ above ++ [name])).isSome →
        (t.entry? (top ++ above ++ [name])).isSome := by
      intro name hname
      rw [List.append_assoc] at hname ⊢
      rcases hl : t.entry? (top ++ (above ++ [name])) with _ | e
      · rw [hevolved.vacant _ hl] at hname
        cases hname
      · rfl
    rw [FileTree.walk, FileTree.walk, sortedNames_filter h h' hsub]
    refine (filter_flatMap_of_rows (fun name hkept => ?_) (fun name hgone => ?_) _).symm
    · rw [List.append_assoc] at hkept
      rw [List.filter_cons, if_pos hkept]
      by_cases hd : t.entry? (top ++ (above ++ [name])) = some .directory
      · rw [if_pos hd, if_pos (hdir' hd), ih depth' _ hd]
        rcases hdepth with hdepth | ⟨hlt, hlt'⟩
        · exact .inl (Nat.succ.inj hdepth)
        · refine .inr ?_
          rw [← List.append_assoc, List.length_append, List.length_singleton]
          omega
      · rw [if_neg hd, if_neg (mt (hevolved.directory _).1 hd), List.filter_nil]
    · -- what is gone was no directory, so nothing was below it
      rw [List.append_assoc] at hgone
      have hd : t.entry? (top ++ (above ++ [name])) ≠ some .directory := by
        intro hd
        rw [hdir' hd] at hgone
        exact hgone rfl
      rw [if_neg hd, List.filter_cons, if_neg hgone, List.filter_nil]

/-- The bound on a recursive listing is beyond the list of entries. -/
theorem lt_depthBound (t : FileTree) : t.entries.length < t.depthBound := by
  have hle : t.entries.length + 2 ≤ (t.entries.length + 2) * (t.entries.length + 2) :=
    Nat.le_mul_of_pos_left _ (by omega)
  rw [depthBound]
  omega

/-- The walk of a listing over a tree that has evolved. -/
theorem EvolvedBelow.walk_list (hevolved : EvolvedBelow top t t') (h : t.ClassRoot root top)
    (h' : t'.IsTree) (recursive : Bool) :
    t'.walk top (t'.listDepth recursive) [] =
      (t.walk top (t.listDepth recursive) []).filter fun names =>
        (t'.entry? (top ++ names)).isSome := by
  refine hevolved.walk h.tree h' _ _ [] (by rw [List.append_nil, h.directory]) ?_
  rcases recursive with _ | _
  · exact .inl rfl
  · have hlt := t.lt_depthBound
    have hlt' := t'.lt_depthBound
    refine .inr ⟨?_, ?_⟩ <;> simp only [listDepth, if_true] <;> omega

end FileTree

end ClassWeave
