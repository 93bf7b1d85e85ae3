import ClassWeave.Files.Tree
/-!
# Files -- where steps lead

The walk over steps as a relation (`FileTree.Leads`), one rule for each
thing that a step can do: stay, go up, go into an entry, stop at a link or
go on where it points. A chase succeeds where the relation says and nowhere
else (`chase_ok`). The relation asks a tree for its directories and links
only, so steps lead to the same places in a tree that has grown
(`Leads.grown`), and steps behind others go on from where those led
(`Leads.chase_append`).
-/


namespace ClassWeave

namespace FileTree

/-- **Where steps lead** from a location, over no more than so many links. -/
inductive Leads (t : FileTree) (follow : Bool) : Nat → Location → List String → Location → Prop
  /-- No step is left. -/
  | done {n loc} : Leads t follow n loc [] loc
  /-- A lone dot stays at a directory. -/
  | here {n loc rest r} : t.entry? loc = some .directory → Leads t follow n loc rest r →
      Leads t follow n loc ("." :: rest) r
  /-- Two dots go up from a directory. -/
  | up {n loc rest r} : t.entry? loc = some .directory → Leads t follow n loc.dropLast rest r →
      Leads t follow n loc (".." :: rest) r
  /-- A name goes into a directory, to what is no link there. -/
  | into {n loc s rest r} : t.entry? loc = some .directory → s ≠ "." → s ≠ ".." →
      (Utf8.encode s).length ≤ 255 → (∀ target, t.entry? (loc ++ [s]) ≠ some (.link target)) →
      Leads t follow n (loc ++ [s]) rest r → Leads t follow n loc (s :: rest) r
  /-- A link in the last place is not followed. -/
  | stop {n loc s target} : t.entry? loc = some .directory → s ≠ "." → s ≠ ".." →
      (Utf8.encode s).length ≤ 255 → t.entry? (loc ++ [s]) = some (.link target) →
      follow = false → Leads t follow n loc [s] (loc ++ [s])
  /-- A link is followed to its target, and the steps go on from there. -/
  | through {n loc s target rest r} : t.entry? loc = some .directory → s ≠ "." → s ≠ ".." →
      (Utf8.encode s).length ≤ 255 → t.entry? (loc ++ [s]) = some (.link target) →
      (rest = [] → follow = true) → target.text ≠ "" →
      Leads t follow n (if target.isRooted then [] else loc) (steps target ++ rest) r →
      Leads t follow (n + 1) loc (s :: rest) r

variable {t t' : FileTree} {follow : Bool} {n : Nat} {loc r r' : Location} {s : String}
  {rest xs ys : List String}

/-- What a chase does at a link. -/
def atLink (t : FileTree) (follow : Bool) :
    Nat → Location → Path → List String → Except Fault Location
  | 0 => fun _ _ _ => .error .tooManyLinks
  | links + 1 => fun loc target rest =>
      if target.text = "" then .error .missing
      else chase t follow links (if target.isRooted then [] else loc) (steps target ++ rest)

theorem chase_eq (t : FileTree) (follow : Bool) (n : Nat) :
    chase t follow n = chaseWith t follow (atLink t follow n) := by
  cases n <;> rfl

/-- A walk that ends is one that the relation has. -/
theorem leads_of_chaseWith
    (hlink : ∀ loc target rest r, atLink t follow n loc target rest = .ok r →
      ∃ m, n = m + 1 ∧ target.text ≠ "" ∧
        Leads t follow m (if target.isRooted then [] else loc) (steps target ++ rest) r)
    (h : chaseWith t follow (atLink t follow n) loc xs = .ok r) : Leads t follow n loc xs r := by
  induction xs generalizing loc with
  | nil =>
    obtain rfl := Except.ok.inj h
    exact .done
  | cons s rest ih =>
    unfold chaseWith at h
    split at h
    · cases h
    · next hdir =>
      split at h
      · next hs => exact hs ▸ .here hdir (ih h)
      · next hdot =>
        split at h
        · next hs => exact hs ▸ .up hdir (ih h)
        · next hup =>
          split at h
          · cases h
          · next hlong =>
            rw [Nat.not_lt] at hlong
            split at h
            · next target hentry =>
              split at h
              · next hlast =>
                rw [Bool.and_eq_true, List.isEmpty_iff, Bool.not_eq_true'] at hlast
                obtain ⟨rfl, hfollow⟩ := hlast
                obtain rfl := Except.ok.inj h
                exact .stop hdir hdot hup hlong hentry hfollow
              · next hlast =>
                obtain ⟨m, rfl, htext, hleads⟩ := hlink _ _ _ _ h
                refine .through hdir hdot hup hlong hentry (fun hnil => ?_) htext hleads
                rcases follow with _ | _
                · exact absurd (by rw [hnil]; rfl) hlast
                · rfl
            · next hnolink => exact .into hdir hdot hup hlong hnolink (ih h)
    · cases h

theorem chase_here (hdir : t.entry? loc = some .directory) :
    t.chase follow n loc ("." :: rest) = t.chase follow n loc rest := by
  simp only [chase_eq, chaseWith, hdir, if_pos]

theorem chase_up (hdir : t.entry? loc = some .directory) :
    t.chase follow n loc (".." :: rest) = t.chase follow n loc.dropLast rest := by
  simp only [chase_eq, chaseWith, hdir]
  rfl

theorem chase_into (hdir : t.entry? loc = some .directory) (hdot : s ≠ ".") (hup : s ≠ "..")
    (hlong : (Utf8.encode s).length ≤ 255)
    (hnolink : ∀ target, t.entry? (loc ++ [s]) ≠ some (.link target)) :
    t.chase follow n loc (s :: rest) = t.chase follow n (loc ++ [s]) rest := by
  simp only [chase_eq, chaseWith, hdir, if_neg hdot, if_neg hup, if_neg (Nat.not_lt.2 hlong)]

/-- A link that is followed goes on where it points, with one link less. -/
theorem chase_through {target : Path} (hdir : t.entry? loc = some .directory) (hdot : s ≠ ".")
    (hup : s ≠ "..") (hlong : (Utf8.encode s).length ≤ 255)
    (hentry : t.entry? (loc ++ [s]) = some (.link target)) (hlast : rest = [] → follow = true)
    (htext : target.text ≠ "") :
    t.chase follow (n + 1) loc (s :: rest) =
      t.chase follow n (if target.isRooted then [] else loc) (steps target ++ rest) := by
  have hgo : (rest.isEmpty && !follow) = false := by
    rw [Bool.and_eq_false_iff]
    rcases rest with _ | ⟨x, rest⟩
    · exact .inr (by rw [hlast rfl]; rfl)
    · exact .inl rfl
  rw [chase_eq]
  simp only [chaseWith, hdir, if_neg hdot, if_neg hup, if_neg (Nat.not_lt.2 hlong), hentry, hgo,
    Bool.false_eq_true, if_false, atLink, if_neg htext]

/-- **A chase succeeds where the relation says**, and nowhere else. -/
theorem chase_ok : t.chase follow n loc xs = .ok r ↔ Leads t follow n loc xs r := by
  constructor
  · -- on the links that are left: a walk ends at a link, and the next has one less
    induction n generalizing loc xs r with
    | zero =>
      intro h
      rw [chase_eq] at h
      exact leads_of_chaseWith (fun _ _ _ _ h => by cases h) h
    | succ n ih =>
      intro h
      rw [chase_eq] at h
      refine leads_of_chaseWith (fun loc target rest r h => ?_) h
      simp only [atLink] at h
      split at h
      · cases h
      · next htext => exact ⟨n, rfl, htext, ih h⟩
  · intro h
    induction h with
    | done => rw [chase_eq]; rfl
    | here hdir _ ih => rw [chase_here hdir, ih]
    | up hdir _ ih => rw [chase_up hdir, ih]
    | into hdir hdot hup hlong hnolink _ ih => rw [chase_into hdir hdot hup hlong hnolink, ih]
    | stop hdir hdot hup hlong hentry hfollow =>
      rw [chase_eq]
      simp only [chaseWith, hdir, if_neg hdot, if_neg hup, if_neg (Nat.not_lt.2 hlong), hentry,
        hfollow]
      rfl
    | through hdir hdot hup hlong hentry hlast htext _ ih =>
      rw [chase_through hdir hdot hup hlong hentry hlast htext, ih]

/-! ## One step back -/

theorem leads_nil : Leads t follow n loc [] r ↔ r = loc := by
  constructor
  · intro h
    cases h
    rfl
  · rintro rfl
    exact .done

/-- What the name of something other than a link does. -/
theorem leads_into (hdot : s ≠ ".") (hup : s ≠ "..")
    (hnolink : ∀ target, t.entry? (loc ++ [s]) ≠ some (.link target)) :
    Leads t follow n loc (s :: rest) r ↔ t.entry? loc = some .directory ∧
      (Utf8.encode s).length ≤ 255 ∧ Leads t follow n (loc ++ [s]) rest r := by
  constructor
  · intro h
    cases h with
    | here => exact absurd rfl hdot
    | up => exact absurd rfl hup
    | into hdir _ _ hlong _ hrest => exact ⟨hdir, hlong, hrest⟩
    | stop _ _ _ _ hentry => exact absurd hentry (hnolink _)
    | through _ _ _ _ hentry => exact absurd hentry (hnolink _)
  · exact fun h => .into h.1 hdot hup h.2.1 hnolink h.2.2

/-! ## Trees of one shape -/

/-- **Trees of one shape**: with the same directories and the same links,
whatever files they hold. -/
structure SameShape (t t' : FileTree) : Prop where
  home : t'.home = t.home
  directory : ∀ loc, t'.entry? loc = some .directory ↔ t.entry? loc = some .directory
  link : ∀ loc target, t'.entry? loc = some (.link target) ↔ t.entry? loc = some (.link target)

theorem SameShape.refl (t : FileTree) : SameShape t t :=
  ⟨rfl, fun _ => Iff.rfl, fun _ _ => Iff.rfl⟩

theorem SameShape.trans {t'' : FileTree} (h : SameShape t t') (h' : SameShape t' t'') :
    SameShape t t'' :=
  ⟨h'.home.trans h.home, fun loc => (h'.directory loc).trans (h.directory loc),
    fun loc target => (h'.link loc target).trans (h.link loc target)⟩

theorem SameShape.symm (h : SameShape t t') : SameShape t' t :=
  ⟨h.home.symm, fun l => (h.directory l).symm, fun l target => (h.link l target).symm⟩

/-- **A tree that has grown**: its directories are still there, and its
links are the same. -/
structure Grown (t t' : FileTree) : Prop where
  home : t'.home = t.home
  directory : ∀ loc, t.entry? loc = some .directory → t'.entry? loc = some .directory
  link : ∀ loc target, t'.entry? loc = some (.link target) ↔ t.entry? loc = some (.link target)

theorem SameShape.grown (h : SameShape t t') : Grown t t' :=
  ⟨h.home, fun loc => (h.directory loc).2, h.link⟩

theorem Grown.trans {t'' : FileTree} (h : Grown t t') (h' : Grown t' t'') : Grown t t'' :=
  ⟨h'.home.trans h.home, fun loc hdir => h'.directory loc (h.directory loc hdir),
    fun loc target => (h'.link loc target).trans (h.link loc target)⟩

/-- **In a tree that has grown steps lead to the same places.** -/
theorem Leads.grown (hgrown : Grown t t') (h : Leads t follow n loc xs r) :
    Leads t' follow n loc xs r := by
  induction h with
  | done => exact .done
  | here hdir _ ih => exact .here (hgrown.directory _ hdir) ih
  | up hdir _ ih => exact .up (hgrown.directory _ hdir) ih
  | into hdir hdot hup hlong hnolink _ ih =>
    exact .into (hgrown.directory _ hdir) hdot hup hlong
      (fun target h => hnolink target ((hgrown.link _ _).1 h)) ih
  | stop hdir hdot hup hlong hentry hfollow =>
    exact .stop (hgrown.directory _ hdir) hdot hup hlong ((hgrown.link _ _).2 hentry) hfollow
  | through hdir hdot hup hlong hentry hlast htext _ ih =>
    exact .through (hgrown.directory _ hdir) hdot hup hlong ((hgrown.link _ _).2 hentry) hlast
      htext ih

/-! ## Steps behind steps -/

/-- **Steps behind others go on from where those led**, with the links that
are left to them, whether they get anywhere or not. -/
theorem Leads.chase_append (h : Leads t true n loc xs r) :
    ∃ m, ∀ follow ys, ys ≠ [] → t.chase follow n loc (xs ++ ys) = t.chase follow m r ys := by
  induction h with
  | @done n loc => exact ⟨n, fun _ _ _ => rfl⟩
  | here hdir _ ih =>
    obtain ⟨m, hm⟩ := ih
    exact ⟨m, fun follow ys hys => by rw [List.cons_append, chase_here hdir, hm _ _ hys]⟩
  | up hdir _ ih =>
    obtain ⟨m, hm⟩ := ih
    exact ⟨m, fun follow ys hys => by rw [List.cons_append, chase_up hdir, hm _ _ hys]⟩
  | into hdir hdot hup hlong hnolink _ ih =>
    obtain ⟨m, hm⟩ := ih
    refine ⟨m, fun follow ys hys => ?_⟩
    rw [List.cons_append, chase_into hdir hdot hup hlong hnolink, hm _ _ hys]
  | stop _ _ _ _ _ hfollow => cases hfollow
  | @through n loc s target rest r hdir hdot hup hlong hentry _ htext _ ih =>
    obtain ⟨m, hm⟩ := ih
    refine ⟨m, fun follow ys hys => ?_⟩
    -- the steps behind keep the link from being in the last place
    rw [List.cons_append, chase_through hdir hdot hup hlong hentry
      (fun hnil => absurd (List.append_eq_nil_iff.1 hnil).2 hys) htext, ← List.append_assoc,
      hm _ _ hys]

theorem Leads.append_iff (h : Leads t true n loc xs r) :
    ∃ m, ∀ follow ys r', ys ≠ [] →
      (Leads t follow n loc (xs ++ ys) r' ↔ Leads t follow m r ys r') := by
  obtain ⟨m, hm⟩ := h.chase_append
  exact ⟨m, fun follow ys r' hys => by rw [← chase_ok, ← chase_ok, hm _ _ hys]⟩

/-- Lone dots lead nowhere else. -/
theorem Leads.eq_of_dots (h : Leads t follow n loc xs r) (hxs : ∀ s ∈ xs, s = ".") : r = loc := by
  induction h with
  | done => rfl
  | here _ _ ih => exact ih fun s hs => hxs s (List.mem_cons_of_mem _ hs)
  | up => exact absurd (hxs _ List.mem_cons_self) (by decide)
  | into _ hdot => exact absurd (hxs _ List.mem_cons_self) hdot
  | stop _ hdot => exact absurd (hxs _ List.mem_cons_self) hdot
  | through _ hdot => exact absurd (hxs _ List.mem_cons_self) hdot

/-- Lone dots lead on from steps to a directory, to nowhere else. -/
theorem Leads.concat_dots {dots : List String} (h : Leads t true n loc ys r)
    (hdir : t.entry? r = some .directory) (hdots : ∀ s ∈ dots, s = ".") :
    Leads t true n loc (ys ++ dots) r := by
  have hstay : ∀ (m : Nat), Leads t true m r dots r := by
    intro m
    induction dots with
    | nil => exact .done
    | cons s dots ih =>
      rw [List.forall_mem_cons] at hdots
      exact hdots.1 ▸ .here hdir (ih hdots.2)
  rcases dots with _ | ⟨s, dots⟩
  · rwa [List.append_nil]
  · obtain ⟨m, hm⟩ := h.append_iff
    exact (hm _ _ _ (List.cons_ne_nil _ _)).2 (hstay m)

/-- Lone dots at the end can be left out. -/
theorem Leads.of_dots {dots : List String} (h : Leads t true n loc (ys ++ dots) r)
    (hdots : ∀ s ∈ dots, s = ".") : Leads t true n loc ys r := by
  generalize hxs : ys ++ dots = xs at h
  -- on the walk, which may be past the steps that stay at any of its rules
  induction h generalizing ys with
  | done =>
    obtain ⟨rfl, -⟩ := List.append_eq_nil_iff.1 hxs
    exact .done
  | @here n loc rest r hdir hrest ih =>
    rcases ys with _ | ⟨y, ys⟩
    · rw [(Leads.here hdir hrest).eq_of_dots (hxs ▸ hdots)]
      exact .done
    · obtain ⟨rfl, hys⟩ := List.cons.inj hxs
      exact .here hdir (ih hys)
  | @up n loc rest r hdir hrest ih =>
    rcases ys with _ | ⟨y, ys⟩
    · rw [(Leads.up hdir hrest).eq_of_dots (hxs ▸ hdots)]
      exact .done
    · obtain ⟨rfl, hys⟩ := List.cons.inj hxs
      exact .up hdir (ih hys)
  | into hdir hdot hup hlong hnolink hrest ih =>
    rcases ys with _ | ⟨y, ys⟩
    · rw [List.nil_append] at hxs
      exact absurd (hdots _ (by rw [hxs]; exact List.mem_cons_self)) hdot
    · obtain ⟨rfl, hys⟩ := List.cons.inj hxs
      exact .into hdir hdot hup hlong hnolink (ih hys)
  | stop _ _ _ _ _ hfollow => cases hfollow
  | @through n loc s target rest r hdir hdot hup hlong hentry _ htext hrest ih =>
    rcases ys with _ | ⟨y, ys⟩
    · rw [List.nil_append] at hxs
      exact absurd (hdots _ (by rw [hxs]; exact List.mem_cons_self)) hdot
    · obtain ⟨rfl, rfl⟩ := List.cons.inj hxs
      exact .through hdir hdot hup hlong hentry (fun _ => rfl) htext (ih (List.append_assoc ..))

/-- **Steps in front of others lead to a directory.** -/
theorem Leads.front (h : Leads t true n loc (xs ++ ys) r) (hys : ys ≠ []) :
    ∃ d, t.entry? d = some .directory ∧ Leads t true n loc xs d := by
  generalize hzs : xs ++ ys = zs at h
  -- on the walk; where no step is left in front, the next one is taken from a directory
  induction h generalizing xs with
  | done => exact absurd (List.append_eq_nil_iff.1 hzs).2 hys
  | here hdir _ ih =>
    rcases xs with _ | ⟨x, xs⟩
    · exact ⟨_, hdir, .done⟩
    · obtain ⟨rfl, hxs⟩ := List.cons.inj hzs
      obtain ⟨d, hd, hleads⟩ := ih hxs
      exact ⟨d, hd, .here hdir hleads⟩
  | up hdir _ ih =>
    rcases xs with _ | ⟨x, xs⟩
    · exact ⟨_, hdir, .done⟩
    · obtain ⟨rfl, hxs⟩ := List.cons.inj hzs
      obtain ⟨d, hd, hleads⟩ := ih hxs
      exact ⟨d, hd, .up hdir hleads⟩
  | into hdir hdot hup hlong hnolink _ ih =>
    rcases xs with _ | ⟨x, xs⟩
    · exact ⟨_, hdir, .done⟩
    · obtain ⟨rfl, hxs⟩ := List.cons.inj hzs
      obtain ⟨d, hd, hleads⟩ := ih hxs
      exact ⟨d, hd, .into hdir hdot hup hlong hnolink hleads⟩
  | stop _ _ _ _ _ hfollow => cases hfollow
  | @through n loc s target rest r hdir hdot hup hlong hentry _ htext _ ih =>
    rcases xs with _ | ⟨x, xs⟩
    · exact ⟨_, hdir, .done⟩
    · obtain ⟨rfl, rfl⟩ := List.cons.inj hzs
      obtain ⟨d, hd, hleads⟩ := ih (List.append_assoc ..)
      exact ⟨d, hd, .through hdir hdot hup hlong hentry (fun _ => rfl) htext hleads⟩

theorem Leads.directory_of_dot (h : Leads t true n loc (xs ++ ["."]) r) :
    t.entry? r = some .directory := by
  obtain ⟨d, hd, hleads⟩ := h.front (List.cons_ne_nil _ _)
  obtain ⟨m, hm⟩ := hleads.append_iff
  have hdot := (hm _ _ _ (List.cons_ne_nil _ _)).1 h
  rwa [hdot.eq_of_dots (by simp)]

/-- Lone dots can be left out anywhere behind some steps. -/
theorem Leads.undotted_behind (h : Leads t true n loc (xs ++ ys) r) :
    Leads t true n loc (xs ++ ys.filter (· ≠ ".")) r := by
  generalize hzs : xs ++ ys = zs at h
  -- on the walk, at the first step behind or still in front
  induction h generalizing xs ys with
  | done =>
    obtain ⟨rfl, rfl⟩ := List.append_eq_nil_iff.1 hzs
    exact .done
  | here hdir _ ih =>
    rcases xs with _ | ⟨x, xs⟩
    · rw [List.nil_append] at hzs
      rw [hzs, List.filter_cons_of_neg (by simp)]
      exact @ih [] _ rfl
    · obtain ⟨rfl, hxs⟩ := List.cons.inj hzs
      exact .here hdir (ih hxs)
  | up hdir _ ih =>
    rcases xs with _ | ⟨x, xs⟩
    · rw [List.nil_append] at hzs
      rw [hzs, List.filter_cons_of_pos (by decide)]
      exact .up hdir (@ih [] _ rfl)
    · obtain ⟨rfl, hxs⟩ := List.cons.inj hzs
      exact .up hdir (ih hxs)
  | into hdir hdot hup hlong hnolink _ ih =>
    rcases xs with _ | ⟨x, xs⟩
    · rw [List.nil_append] at hzs
      rw [hzs, List.filter_cons_of_pos (by simpa using hdot)]
      exact .into hdir hdot hup hlong hnolink (@ih [] _ rfl)
    · obtain ⟨rfl, hxs⟩ := List.cons.inj hzs
      exact .into hdir hdot hup hlong hnolink (ih hxs)
  | stop _ _ _ _ _ hfollow => cases hfollow
  | @through n loc s target rest r hdir hdot hup hlong hentry _ htext _ ih =>
    rcases xs with _ | ⟨x, xs⟩
    · rw [List.nil_append] at hzs
      rw [hzs, List.filter_cons_of_pos (by simpa using hdot)]
      exact .through hdir hdot hup hlong hentry (fun _ => rfl) htext (ih rfl)
    · obtain ⟨rfl, rfl⟩ := List.cons.inj hzs
      have hrest := @ih (steps target ++ xs) _ (List.append_assoc ..)
      rw [List.append_assoc] at hrest
      exact .through hdir hdot hup hlong hentry (fun _ => rfl) htext hrest

/-- **Steps lead to the same place without their lone dots.** -/
theorem Leads.undotted (h : Leads t true n loc xs r) :
    Leads t true n loc (xs.filter (· ≠ ".")) r := by
  rw [← List.nil_append (xs.filter _)]
  exact Leads.undotted_behind h

/-- Where a place is reached, its path reaches something without following
a link in the last place too. -/
theorem Leads.exists_unfollowed (h : Leads t true n loc xs r) (hr : (t.entry? r).isSome) :
    ∃ r', Leads t false n loc xs r' ∧ (t.entry? r').isSome := by
  induction h with
  | done => exact ⟨_, .done, hr⟩
  | here hdir _ ih =>
    obtain ⟨r', h', hr'⟩ := ih hr
    exact ⟨r', .here hdir h', hr'⟩
  | up hdir _ ih =>
    obtain ⟨r', h', hr'⟩ := ih hr
    exact ⟨r', .up hdir h', hr'⟩
  | into hdir hdot hup hlong hnolink _ ih =>
    obtain ⟨r', h', hr'⟩ := ih hr
    exact ⟨r', .into hdir hdot hup hlong hnolink h', hr'⟩
  | stop _ _ _ _ _ hfollow => cases hfollow
  | @through n loc s target rest r hdir hdot hup hlong hentry _ htext _ ih =>
    -- a link in the last place is itself what is reached
    rcases rest with _ | ⟨x, rest⟩
    · exact ⟨loc ++ [s], .stop hdir hdot hup hlong hentry rfl, by rw [hentry]; rfl⟩
    · obtain ⟨r', h', hr'⟩ := ih hr
      exact ⟨r', .through hdir hdot hup hlong hentry (fun h => by cases h) htext h', hr'⟩

end FileTree

end ClassWeave
