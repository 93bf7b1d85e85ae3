import ClassWeave.Proofs.Files.Descent
import ClassWeave.Proofs.Toml.Layering
/-!
# Config -- files that are named again

A file that is named again is left out where it is named again, so its keys
come in where it was named first, and not where it was named last. What this
changes is told key path by key path. A table says something about a path or
nothing (`Toml.said?`), and of tables in layers the last to say something is
the one that counts (`Toml.word_layered`).

So the table of a configuration is what its files make together as they are
named, one after the other, exactly if at every path the last file to say
something in the one order says what the last in the other does
(`ConfigLayers.merged_same_iff`). It would always be that if a file were left
out where it is named for the first times (`ConfigLayers.dropEarlier`).
-/


namespace ClassWeave

namespace Toml

/-! ## What is said about a key path -/

/-- What can be said about a key path: what stands there, or that nothing
does. Of a table it is only said that it is one. -/
inductive Word where
  | nothing
  | table
  | plain (v : Toml)

/-- What a value says about a path, if it says anything. That nothing stands
there is said by something other than a table on the way. -/
def said? : List String → Toml → Option Word
  | [], .table _ => some .table
  | [], v => some (.plain v)
  | key :: path, .table fields => (get? fields key).bind (said? path)
  | _ :: _, _ => some .nothing

/-- What is known of a path if nothing else is said. -/
def Word.orNothing (w : Option Word) : Word := w.getD .nothing

/-- What stands at a path of a value. -/
def word (path : List String) (v : Toml) : Word := .orNothing (said? path v)

/-- **Tables that are the same**: they have the same at every key path, in
whatever order they list their keys. -/
def Same (fields other : Fields) : Prop :=
  ∀ key path, word (key :: path) (.table fields) = word (key :: path) (.table other)

variable {v : Toml} {fields other : Fields} {key : String} {path : List String}
  {layers : List Fields} {layer : Fields}

theorem said?_cons_plain (h : v.isTable = false) : said? (key :: path) v = some .nothing := by
  cases v <;> first | rfl | cases h

theorem said?_nil_plain (h : v.isTable = false) : said? [] v = some (.plain v) := by
  cases v <;> first | rfl | cases h

theorem said?_cons_table :
    said? (key :: path) (.table fields) = (get? fields key).bind (said? path) := rfl

/-- **The upper of two values has the word**, and what it says nothing about is
left to the lower one. -/
theorem word_overlay (hv : v.DistinctKeys) (old : Option Toml) (path : List String) :
    word path (overlay old v) = .orNothing ((said? path v).or (old.bind (said? path))) := by
  induction path generalizing v old with
  | nil =>
    rcases htable : v.isTable with _ | _
    · rw [overlay_plain htable, word, said?_nil_plain htable, Option.some_or]
    · obtain ⟨new, rfl⟩ := isTable_iff.1 htable
      unfold overlay
      split <;> rfl
  | cons key path ih =>
    rcases htable : v.isTable with _ | _
    · rw [overlay_plain htable, word, said?_cons_plain htable, Option.some_or]
    obtain ⟨new, rfl⟩ := isTable_iff.1 htable
    have hbelow : ∀ u, get? new key = some u → ∀ old, word path (overlay old u) =
        .orNothing ((said? path u).or (old.bind (said? path))) :=
      fun u hu => ih (hv.get? hu)
    by_cases hold : ∃ fields, old = some (.table fields)
    · obtain ⟨fields, rfl⟩ := hold
      have hmerge : overlay (some (.table fields)) (.table new) = .table (merge fields new) := rfl
      rw [hmerge, word, said?_cons_table, get?_merge hv.nodup, Option.bind_some, said?_cons_table,
        said?_cons_table]
      rcases hget : get? new key with _ | u
      · rfl
      · exact hbelow u hget _
    · -- there is nothing to merge with, and nothing is said of what is below
      have hnew : overlay old (.table new) = .table new :=
        overlay_new fun o ho => by
          rcases htable : o.isTable with _ | _
          · rfl
          · obtain ⟨fields, rfl⟩ := isTable_iff.1 htable
            exact absurd ⟨fields, ho⟩ hold
      rw [hnew, word]
      rcases old with _ | o
      · rw [Option.bind_none, Option.or_none]
      · have ho : o.isTable = false := by
          rcases htable : o.isTable with _ | _
          · rfl
          · obtain ⟨fields, rfl⟩ := isTable_iff.1 htable
            exact absurd ⟨fields, rfl⟩ hold
        rw [Option.bind_some, said?_cons_plain ho]
        rcases said? (key :: path) (.table new) <;> rfl

/-- The last of tables to say something about a path. -/
def lastSaid? (path : List String) (layers : List Fields) : Option Word :=
  layers.reverse.findSome? fun layer => said? path (.table layer)

/-- One more table has the word, or leaves it to those before it. -/
theorem lastSaid?_concat (layers : List Fields) (layer : Fields) :
    lastSaid? path (layers ++ [layer]) =
      (said? path (.table layer)).or (lastSaid? path layers) := by
  rw [lastSaid?, lastSaid?, List.reverse_append, List.reverse_singleton, List.singleton_append,
    List.findSome?_cons]
  rcases said? path (.table layer) <;> rfl

theorem lastSaid?_cons (layer : Fields) (layers : List Fields) :
    lastSaid? path (layer :: layers) =
      (lastSaid? path layers).or (said? path (.table layer)) := by
  rw [lastSaid?, lastSaid?, List.reverse_cons, List.findSome?_append, List.findSome?_singleton]

/-- **Of tables in layers the last to say something counts**, at every key
path. -/
theorem word_layered (hlayers : ∀ layer ∈ layers, DistinctKeys (.table layer)) (key : String)
    (path : List String) :
    word (key :: path) (.table (layered layers)) = .orNothing (lastSaid? (key :: path) layers) := by
  induction layers using List.reverseRecOn with
  | nil => rfl
  | append_singleton layers layer ih =>
    rw [List.forall_mem_append, List.forall_mem_singleton] at hlayers
    have hbelow := ih hlayers.1
    rw [layered_concat, word_overlay hlayers.2, lastSaid?_concat, Option.bind_some]
    rcases said? (key :: path) (.table layer) with _ | w
    · rw [Option.none_or, Option.none_or]
      exact hbelow
    · rfl

end Toml

namespace Config

variable {fields other : Toml.Fields}

/-- A setting that is no table is read off what stands at its key. -/
theorem setting_eq {α : Type} {read : Toml → Option α} (hread : ∀ inner, read (.table inner) = none)
    (fields : Toml.Fields) (key : String) (otherwise : α) :
    setting fields key read otherwise =
      match Toml.word [key] (.table fields) with
      | .nothing => some otherwise
      | .table => none
      | .plain v => read v := by
  rw [setting, Toml.word, Toml.said?_cons_table]
  rcases Toml.get? fields key with _ | v
  · rfl
  · rcases htable : v.isTable with _ | _
    · rw [Option.bind_some, Toml.said?_nil_plain htable]
      rfl
    · obtain ⟨inner, rfl⟩ := Toml.isTable_iff.1 htable
      exact hread inner

/-- **Tables that are the same describe the same settings.** -/
theorem ofFields?_congr (h : Toml.Same fields other) : ofFields? fields = ofFields? other := by
  have hkey : ∀ {α : Type} (read : Toml → Option α), (∀ inner, read (.table inner) = none) →
      ∀ key otherwise, setting fields key read otherwise = setting other key read otherwise := by
    intro α read hread key otherwise
    rw [setting_eq hread, setting_eq hread, h key []]
  -- no way of reading a setting reads a table
  unfold ofFields?
  simp only [hkey path? fun _ => rfl, hkey (fun v => (path? v).map some) fun _ => rfl,
    hkey boolean? fun _ => rfl, hkey text? fun _ => rfl, hkey (list? text?) fun _ => rfl,
    hkey (list? path?) fun _ => rfl, hkey (list? spec?) fun _ => rfl]

end Config

namespace ConfigLayers

variable {t : FileTree} {l : ConfigLayers} {files : List Path} {p q : Path} {path : List String}

/-! ## The order of files -/

/-- All files that a configuration is given, in the order in which they are
named; a base file that is not there is none. -/
def given (l : ConfigLayers) (t : FileTree) : List Path :=
  l.base.toList.filter (fun p => t.reaches p) ++ l.ids.map l.idFile

/-- Paths without those that are met again behind them. -/
def dropEarlier : List Path → List Path
  | [] => []
  | p :: rest => if rest.any p.same then dropEarlier rest else p :: dropEarlier rest

/-- The table of a file, empty if it has none. -/
def fieldsOf (t : FileTree) (p : Path) : Toml.Fields := (table t p).toOption.getD []

/-- What the last of files to say something about a path says. -/
def lastWord (t : FileTree) (path : List String) (files : List Path) : Toml.Word :=
  .orNothing (Toml.lastSaid? path (files.map (fieldsOf t)))

/-- Paths without repetitions are some of the paths. -/
theorem dropRepeated_sublist (met files : List Path) :
    (dropRepeated met files).Sublist files := by
  induction files generalizing met with
  | nil => exact .slnil
  | cons p files ih =>
    rw [dropRepeated]
    split
    · exact (ih met).cons p
    · exact (ih (p :: met)).cons_cons p

/-- Either way of dropping some. -/
theorem dropEarlier_sublist (files : List Path) : (dropEarlier files).Sublist files := by
  induction files with
  | nil => exact .slnil
  | cons p files ih =>
    rw [dropEarlier]
    split
    · exact ih.cons p
    · exact ih.cons_cons p

/-- The files of a configuration are among those that it is given. -/
theorem required_sublist (l : ConfigLayers) (t : FileTree) :
    (l.required t).Sublist (l.given t) := by
  obtain ⟨base, directory, ids⟩ := l
  rcases base with _ | b
  · exact dropRepeated_sublist _ _
  · have hids := dropRepeated_sublist [b] (ids.map (idFile ⟨some b, directory, ids⟩))
    have hfiles : files ⟨some b, directory, ids⟩ =
        b :: dropRepeated [b] (ids.map (idFile ⟨some b, directory, ids⟩)) := rfl
    rw [required, hfiles, given, Option.toList_some]
    dsimp only
    by_cases hreaches : t.reaches b = true
    · rw [if_pos hreaches, List.filter_cons_of_pos hreaches]
      exact hids.cons_cons b
    · rw [if_neg hreaches, List.filter_cons_of_neg hreaches]
      exact hids

/-- A file has a table if it can be read, as text and as a table. -/
theorem table_ok {fields : Toml.Fields} : table t p = .ok fields ↔
    ∃ bytes text, t.read p = .ok bytes ∧ Utf8.decode? bytes = some text ∧
      Toml.parse? text = some fields := by
  have hreaches : ∀ bytes, t.read p = .ok bytes → t.reaches p = true := by
    intro bytes hread
    obtain ⟨loc, hloc, hentry⟩ := FileTree.read_eq_ok.1 hread
    rw [FileTree.reaches, FileTree.stat_ok.2 ⟨loc, hloc, hentry⟩]
  constructor
  · intro h
    unfold table at h
    split at h
    · cases h
    split at h
    · cases h
    next bytes hread =>
    split at h
    · cases h
    next text hdecode =>
    split at h
    · cases h
    next hparse =>
    cases h
    exact ⟨bytes, text, hread, hdecode, hparse⟩
  · rintro ⟨bytes, text, hread, hdecode, hparse⟩
    simp only [table, hreaches bytes hread, hread, hdecode, hparse, Bool.not_true,
      Bool.false_eq_true, if_false]

/-- Paths that are the same have the same table, if both have one. -/
theorem fieldsOf_of_same (hsame : p.same q = true) (hp : ∃ fields, table t p = .ok fields)
    (hq : ∃ fields, table t q = .ok fields) : fieldsOf t p = fieldsOf t q := by
  obtain ⟨fields, hp⟩ := hp
  obtain ⟨other, hq⟩ := hq
  obtain ⟨bytes, text, hread, hdecode, hparse⟩ := table_ok.1 hp
  obtain ⟨bytes', text', hread', hdecode', hparse'⟩ := table_ok.1 hq
  obtain rfl := FileTree.read_of_same hsame hread hread'
  obtain rfl := Option.some.inj (hdecode.symm.trans hdecode')
  obtain rfl := Option.some.inj (hparse.symm.trans hparse')
  rw [fieldsOf, fieldsOf, hp, hq]

/-- So have files that are the same one by one. -/
theorem map_fieldsOf_congr {others : List Path}
    (hsame : List.Forall₂ (fun p q => p.same q = true) files others)
    (hfiles : ∀ p ∈ files, ∃ fields, table t p = .ok fields)
    (hothers : ∀ p ∈ others, ∃ fields, table t p = .ok fields) :
    files.map (fieldsOf t) = others.map (fieldsOf t) := by
  induction hsame with
  | nil => rfl
  | cons hfirst _ ih =>
    rw [List.forall_mem_cons] at hfiles hothers
    rw [List.map_cons, List.map_cons, ih hfiles.2 hothers.2,
      fieldsOf_of_same hfirst hfiles.1 hothers.1]

/-- **Files that all have a table are merged into their tables in layers.** -/
theorem mergeAll_given (hfiles : ∀ p ∈ files, ∃ fields, table t p = .ok fields) :
    mergeAll t [] files = .ok (Toml.layered (files.map (fieldsOf t))) := by
  refine mergeAll_ok.2 ⟨files.map (fieldsOf t), ?_, rfl⟩
  rw [List.forall₂_map_right_iff, List.forall₂_same]
  intro p hp
  obtain ⟨fields, hfields⟩ := hfiles p hp
  rw [fieldsOf, hfields]
  rfl

/-- What stands at a key path of the table that files make together is what
the last of them says. -/
theorem word_mergeAll (hfiles : ∀ p ∈ files, ∃ fields, table t p = .ok fields) (key : String)
    (path : List String) :
    Toml.word (key :: path) (.table (Toml.layered (files.map (fieldsOf t)))) =
      lastWord t (key :: path) files := by
  refine Toml.word_layered (fun layer hlayer => ?_) key path
  obtain ⟨p, hp, rfl⟩ := List.mem_map.1 hlayer
  obtain ⟨fields, hfields⟩ := hfiles p hp
  rw [fieldsOf, hfields]
  exact distinctKeys_table hfields

/-- **A file that is named again behind has the word there**, so nothing is
lost if it is left out before. -/
theorem lastWord_dropEarlier (hfiles : ∀ p ∈ files, ∃ fields, table t p = .ok fields)
    (path : List String) : lastWord t path (dropEarlier files) = lastWord t path files := by
  suffices hlast : Toml.lastSaid? path ((dropEarlier files).map (fieldsOf t)) =
      Toml.lastSaid? path (files.map (fieldsOf t)) by rw [lastWord, lastWord, hlast]
  induction files with
  | nil => rfl
  | cons p files ih =>
    rw [List.forall_mem_cons] at hfiles
    rw [List.map_cons, Toml.lastSaid?_cons, ← ih hfiles.2, dropEarlier]
    split
    · next hagain =>
      obtain ⟨q, hq, hsame⟩ := List.any_eq_true.1 hagain
      rw [ih hfiles.2]
      rcases hrest : Toml.lastSaid? path (files.map (fieldsOf t)) with _ | w
      · -- where no file behind says anything, the file itself does not
        rw [Toml.lastSaid?, List.findSome?_eq_none_iff] at hrest
        have hnone := hrest (fieldsOf t q) (List.mem_reverse.2 (List.mem_map_of_mem hq))
        rw [fieldsOf_of_same hsame hfiles.1 (hfiles.2 q hq), hnone, Option.or_none]
      · rfl
    · rw [List.map_cons, Toml.lastSaid?_cons]

/-- **The table of a configuration, and its files merged as they are named.**
If all files that a configuration is given have a table, so have both. They are
the same exactly if at every key path the last of the files to say something,
each taken where it is named first, says what the last of them says as they are
named; and then they describe the same settings. So it is if each file is named
last where the files are named first. It would always be so if each file were
taken where it is named last. -/
theorem merged_same_iff (hfiles : ∀ p ∈ l.given t, ∃ fields, table t p = .ok fields) :
    ∃ out plain once, l.merged t = .ok out ∧ mergeAll t [] (l.given t) = .ok plain ∧
      mergeAll t [] (dropEarlier (l.given t)) = .ok once ∧ Toml.Same once plain ∧
      (Toml.Same out plain ↔ ∀ key path,
        lastWord t (key :: path) (l.required t) = lastWord t (key :: path) (l.given t)) ∧
      (Toml.Same out plain → Config.ofFields? out = Config.ofFields? plain) ∧
      (List.Forall₂ (fun p q => p.same q = true) (dropEarlier (l.given t)) (l.required t) →
        Toml.Same out plain) := by
  have hrequired : ∀ p ∈ l.required t, ∃ fields, table t p = .ok fields :=
    fun p hp => hfiles p ((required_sublist l t).subset hp)
  have honce : ∀ p ∈ dropEarlier (l.given t), ∃ fields, table t p = .ok fields :=
    fun p hp => hfiles p ((dropEarlier_sublist _).subset hp)
  have hsame : Toml.Same (Toml.layered ((dropEarlier (l.given t)).map (fieldsOf t)))
      (Toml.layered ((l.given t).map (fieldsOf t))) := by
    intro key path
    rw [word_mergeAll honce, word_mergeAll hfiles, lastWord_dropEarlier hfiles]
  refine ⟨_, _, _, mergeAll_given hrequired, mergeAll_given hfiles, mergeAll_given honce, hsame,
    ?_, Config.ofFields?_congr, fun horder => ?_⟩
  · refine forall₂_congr fun key path => ?_
    rw [word_mergeAll hrequired, word_mergeAll hfiles]
  · rwa [map_fieldsOf_congr horder honce hrequired] at hsame

/-- A base file, and two files that say different things about one key. -/
def levelFiles : FileTree where
  home := []
  entries := [(["conf"], .directory),
    (["conf", "enhance.toml"], .file (Utf8.encode "parallel = true")),
    (["conf", "enhance_dev.toml"], .file (Utf8.encode "log_level = \"debug\"")),
    (["conf", "enhance_ci.toml"], .file (Utf8.encode "log_level = \"error\""))]

/-- An id that is repeated at once changes nothing. -/
theorem merged_same_iff_adjacent :
    let l := usual ⟨"conf"⟩ ["dev", "dev", "ci"]
    (∀ p ∈ l.given levelFiles, ∃ fields, table levelFiles p = .ok fields) ∧
      ∃ out plain, l.merged levelFiles = .ok out ∧
        mergeAll levelFiles [] (l.given levelFiles) = .ok plain ∧ Toml.Same out plain := by
  intro l
  have hall : ∀ p ∈ l.given levelFiles, (table levelFiles p).toOption.isSome = true := by
    decide +kernel
  have hfiles : ∀ p ∈ l.given levelFiles, ∃ fields, table levelFiles p = .ok fields := by
    intro p hp
    have hp := hall p hp
    rcases htable : table levelFiles p with e | fields
    · rw [htable] at hp
      cases hp
    · exact ⟨fields, rfl⟩
  obtain ⟨out, plain, -, hout, hplain, -, -, -, -, horder⟩ := merged_same_iff hfiles
  refine ⟨hfiles, out, plain, hout, hplain, horder ?_⟩
  have hsame : dropEarlier (l.given levelFiles) = l.required levelFiles := by decide +kernel
  rw [hsame, List.forall₂_same]
  exact fun p _ => beq_self_eq_true _

/-- What the table of a configuration has for a key, as text. -/
def textAt? (out : Except ConfigError Toml.Fields) (key : String) : Option String :=
  (out.toOption.bind fun fields => Toml.get? fields key).bind Config.text?

/-- One that is repeated behind another does not have the last word. -/
theorem merged_first_naming :
    let l := usual ⟨"conf"⟩ ["dev", "ci", "dev"]
    (∀ p ∈ l.given levelFiles, (table levelFiles p).toOption.isSome = true) ∧
      textAt? (l.merged levelFiles) "log_level" = some "error" ∧
        textAt? (mergeAll levelFiles [] (l.given levelFiles)) "log_level" = some "debug" := by
  decide +kernel

end ConfigLayers

end ClassWeave
